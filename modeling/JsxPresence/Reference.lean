import JsxPresence.Session

namespace JsxPresence

/-- What a name stands for. -/
inductive Symbol where
  | module (file : Bytes)
  | declared (file name : Bytes)
  | external (specifier name : Bytes)
deriving DecidableEq

namespace Symbol

/-- Modules are no components. -/
def componentId? : Symbol → Option ComponentId
  | module _ => none
  | declared file name => some ⟨file, name, false⟩
  | external specifier name => some ⟨specifier, name, true⟩

/-- What an imported name stands for if it comes from a package; a package itself has no name. -/
def ofModule (specifier : Bytes) : Symbol := .external specifier []

end Symbol

namespace Reference

open Session

/-- The fuel of a chain, twice as much as there are depths: it lasts until a chain whose depths do
not come round meets the limit. -/
def linkBound : Nat := 0x200000000

/-- A lookup at a depth is cut, which is reported for its file. -/
def isCut (env : Environment) (depth : Depth) (file : Bytes) : SessionM Bool := do
  if depth ≤ env.options.maxDepth then return false
  note .debug (utf8 "presence") (utf8 "export chain depth limit reached at " ++ file)
  diagnose .depthLimit file
    (utf8 "export chain exceeded depth " ++ decimal env.options.maxDepth.toNat)
  return true

/-- The module or package that a specifier in a file means. -/
def ofSpecifier (env : Environment) (specifier file : Bytes) : SessionM (Option Symbol) := do
  match ← resolve env specifier file with
  | .ok found => return some (.module found)
  | .error .external => return some (.ofModule specifier)
  | .error failure =>
    diagnose .unresolved file (failure.message specifier)
    return none

/-- The export that gives a file the name, other than by `export *`. -/
def explicitExport? (o : Outline) (name : Bytes) : Option ExportKind :=
  (o.exports.find? fun e =>
    match e.kind with
    | .fromHere _ exported | .fromFile _ exported _ | .moduleFrom exported _ => exported = name
    | .allFrom _ => false).map (·.kind)

/-- The specifiers of `export *`, in order. -/
def starSpecifiers (o : Outline) : List Bytes :=
  o.exports.filterMap fun e =>
    match e.kind with
    | .allFrom specifier => some specifier
    | _ => none

/-- Follows a name through the exports of a file; the exports already asked for are passed along. -/
abbrev Follow := Bytes → Bytes → List Bytes → SessionM (Option Symbol × List Bytes)

/-- The first of the specifiers whose file exports the name. -/
def firstStar (env : Environment) (follow : Follow) (file name : Bytes) :
    List Bytes → List Bytes → SessionM (Option Symbol × List Bytes)
  | [], visited => return (none, visited)
  | specifier :: rest, visited => do
    match ← ofSpecifier env specifier file with
    | some (.module target) =>
      match ← follow target name visited with
      | (some symbol, visited) => return (some symbol, visited)
      | (none, visited) => firstStar env follow file name rest visited
    | _ => firstStar env follow file name rest visited

section next

variable (env : Environment)
  (binding : Depth → ParsedFile → Bytes → SessionM (Option Symbol)) (follow : Depth → Follow)

/-- What a file exports under a name, with nothing asked for before. -/
def exported (depth : Depth) (file name : Bytes) : SessionM (Option Symbol) := do
  return (← follow depth file name []).1

/-- What a name in scope in a file stands for: an import, which is followed, or a declaration. -/
def nextBinding (depth : Depth) (file : ParsedFile) (name : Bytes) :
    SessionM (Option Symbol) := do
  if ← isCut env depth file.path then return none
  let symbols ← symbolsOf file
  match symbols.import? name with
  | some found =>
    match ← ofSpecifier env found.specifier file.path with
    | some (.external specifier _) =>
      return some (.external specifier
        (if found.kind = .wholeModule then [] else found.imported))
    | some (.module target) =>
      if found.kind = .wholeModule then return some (.module target)
      else exported follow (depth + 1) target found.imported
    | other => return other
  | none =>
    if (file.outline.declaration? name).isSome then return some (.declared file.path name)
    else return none

/-- What a file that was read gives for a name that is wanted from it. -/
def nextExport (depth : Depth) (file : ParsedFile) (name : Bytes) (visited : List Bytes) :
    SessionM (Option Symbol × List Bytes) := do
  match explicitExport? file.outline name with
  | some (.fromHere localName _) =>
    if localName.isEmpty then return (some (.declared file.path (utf8 "default")), visited)
    else
      let symbol ← binding (depth + 1) file localName
      return (some (symbol.getD (.declared file.path localName)), visited)
  | some (.fromFile imported _ specifier) =>
    match ← ofSpecifier env specifier file.path with
    | some (.external specifier _) => return (some (.external specifier imported), visited)
    | some (.module target) => follow (depth + 1) target imported visited
    | other => return (other, visited)
  | some (.moduleFrom _ specifier) =>
    let symbol ← ofSpecifier env specifier file.path
    return (symbol, visited)
  | _ =>
    if name = utf8 "default" then return (none, visited)
    else firstStar env (follow (depth + 1)) file.path name (starSpecifiers file.outline) visited

/-- What a file exports under a name. -/
def nextFollow (depth : Depth) : Follow := fun path name visited => do
  if ← isCut env depth path then return (none, visited)
  let key := path ++ byte '#' :: name
  if visited.contains key then
    note .debug (utf8 "presence") (utf8 "re-export cycle at " ++ key)
    return (none, visited)
  let visited := key :: visited
  match ← load env path with
  | .error message =>
    diagnose .unparseable path message
    return (none, visited)
  | .ok file => nextExport env binding follow depth file name visited

end next

mutual

/-- What a name in scope in a file stands for, after so many links. -/
def bindingWithin (env : Environment) :
    Nat → Depth → ParsedFile → Bytes → SessionM (Option Symbol)
  | 0, _, _, _ => return none
  | fuel + 1, depth, file, name => nextBinding env (followExport env fuel) depth file name

/-- What a file exports under a name, after so many links. -/
def followExport (env : Environment) : Nat → Depth → Follow
  | 0, _, _, _, visited => return (none, visited)
  | fuel + 1, depth, path, name, visited =>
    nextFollow env (bindingWithin env fuel) (followExport env fuel) depth path name visited

end

/-- The files beside a module that may define a member by their name. -/
def namesakes (env : Environment) (file member : Bytes) : List Bytes :=
  let lower := Name.lowerCase member
  let kebab := Name.kebabCase member
  let stems := if kebab = lower then [lower] else [lower, kebab]
  stems.flatMap fun stem =>
    env.options.extensions.map fun e => Path.join (Path.parent file) (stem ++ e)

/-- Looks for a member in a file of its name, and takes the file's word or, failing that, the name
alone. -/
def byFileName (env : Environment) (follow : Depth → Follow) (depth : Depth)
    (file member : Bytes) : SessionM (Option Symbol) := do
  if !env.options.heuristicLookup then return none
  let candidate? := (namesakes env file member).find? fun c =>
    env.files.isFile c && !Path.same (env.normalize c) file
  match candidate?.map env.normalize with
  | none => return none
  | some found =>
    note .warn (utf8 "presence")
      (utf8 "resolved member '" ++ member ++ utf8 "' of " ++ file ++ utf8 " by filename: " ++ found)
    diagnose .heuristicLookup file
      (utf8 "member '" ++ member ++ utf8 "' resolved by filename to " ++ found)
    match ← exported follow depth found member with
    | some symbol => return some symbol
    | none =>
      match ← exported follow depth found (utf8 "default") with
      | some symbol => return some symbol
      | none => return some (.declared found member)

/-- The property of an object that a declaration binds a name to. -/
def property? (o : Outline) (name member : Bytes) : Option Property := do
  let properties ← (← o.declaration? name).properties
  properties.find? (·.key = member)

/-- Takes members one after the other, each one deeper than the one before. -/
def members (step : Depth → Symbol → Bytes → SessionM (Option Symbol)) :
    Depth → Symbol → List Bytes → SessionM (Option Symbol)
  | _, symbol, [] => return some symbol
  | depth, symbol, member :: rest => do
    match ← step depth symbol member with
    | none => return none
    | some next => members step (depth + 1) next rest

/-- A member of what a symbol stands for. The value of a property is a path of its own, one
deeper. -/
def nextMember (env : Environment)
    (binding : Depth → ParsedFile → Bytes → SessionM (Option Symbol)) (follow : Depth → Follow)
    (next : Depth → Symbol → Bytes → SessionM (Option Symbol)) (depth : Depth) :
    Symbol → Bytes → SessionM (Option Symbol)
  | .external specifier name, member =>
    return some (.external specifier (if name.isEmpty then member else name ++ byte '.' :: member))
  | .module file, member => do
    match ← exported follow (depth + 1) file member with
    | some symbol => return some symbol
    | none => byFileName env follow (depth + 1) file member
  | .declared path name, member => do
    match ← load env path with
    | .error _ => return none
    | .ok file =>
      match property? file.outline name member with
      | none => byFileName env follow (depth + 1) path member
      | some ⟨_, [], _⟩ => return some (.declared path (name ++ byte '.' :: member))
      | some ⟨_, first :: rest, _⟩ =>
        match ← binding (depth + 1) file first with
        | none => return none
        | some symbol => members next (depth + 2) symbol rest

/-- A member of what a symbol stands for, after so many links. -/
def memberWithin (env : Environment) : Nat → Depth → Symbol → Bytes → SessionM (Option Symbol)
  | 0, _, _, _ => return none
  | fuel + 1, depth, base, member =>
    nextMember env (bindingWithin env fuel) (followExport env fuel) (memberWithin env fuel) depth
      base member

/-- What a name in scope in a file stands for. -/
def binding (env : Environment) (depth : Depth) (file : ParsedFile) (name : Bytes) :
    SessionM (Option Symbol) :=
  bindingWithin env linkBound depth file name

/-- What a file exports under a name. -/
def ofExport (env : Environment) (depth : Depth) (file name : Bytes) : SessionM (Option Symbol) :=
  exported (followExport env linkBound) depth file name

/-- A member of what a symbol stands for. -/
def member (env : Environment) (depth : Depth) (base : Symbol) (member : Bytes) :
    SessionM (Option Symbol) :=
  memberWithin env linkBound depth base member

/-- What a dotted path in a file stands for. -/
def ofPath (env : Environment) (depth : Depth) (file : ParsedFile) (path : List Bytes) :
    SessionM (Option Symbol) := do
  match path with
  | [] => return none
  | first :: rest =>
    match ← binding env depth file first with
    | none => return none
    | some symbol => members (member env) (depth + 1) symbol rest

/-- The component that a path in a file means. Answers are kept by file and dotted name. -/
def usage (env : Environment) (file : ParsedFile) (path : List Bytes) :
    SessionM (Option ComponentId) := do
  if path.isEmpty then return none
  let key := file.path ++ byte '\n' :: Name.join path
  match (← get).usages.get? key with
  | some id => return id
  | none =>
    let symbol ← ofPath env 0 file path
    let id := symbol.bind Symbol.componentId?
    let shown := (id.map ComponentId.text).getD (utf8 "<unresolved>")
    note .trace (utf8 "presence")
      (file.path ++ utf8 ": <" ++ Name.join path ++ utf8 "> -> " ++ shown)
    modify fun s => { s with usages := s.usages.insert key id }
    return id

end Reference

end JsxPresence
