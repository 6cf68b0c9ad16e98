import JsxPresence.Reference

namespace JsxPresence.Presence

open Session

/-- The answer to a question. One that is asked while it is being answered is cut off, and an
answer that such a cut may have changed is not kept. -/
structure Outcome where
  found : Bool
  /-- A cycle or the depth limit cut the search off somewhere below. -/
  cut : Bool
deriving DecidableEq

/-- What is looked for: a name, and its identity where that is known. -/
structure Target where
  name : Bytes
  id : Option ComponentId
deriving DecidableEq

def Target.key (t : Target) (file : Bytes) : Bytes :=
  file ++ byte '\n' :: t.name ++ byte '\n' :: (t.id.map ComponentId.text).getD []

def joinNames (names : List Bytes) : Bytes :=
  if names.isEmpty then utf8 "nothing" else (utf8 ", ").intercalate names

/-- The last part of a member's name is the target. -/
def endsInTarget (u : Usage) (target : Bytes) : Bool :=
  u.isMember && (u.path.getD 1 [] = target || (byte '.' :: target).isSuffixOf u.fullName)

/-- A usage is the target by its name, as a member of something of the project, or by identity. -/
def matchesUsage (env : Environment) (file : ParsedFile) (target : Target) (u : Usage) :
    SessionM Bool := do
  if u.canonical = target.name then return true
  let byMember ←
    if endsInTarget u target.name then do
      match ← Reference.binding env 0 file (u.path.headD []) with
      | none | some (.external _ _) => pure false
      | some _ => pure true
    else pure false
  if byMember then return true
  match target.id with
  | none => return false
  | some id => return (← Reference.usage env file u.path) = some id

def matchesAny (env : Environment) (file : ParsedFile) (target : Target) :
    List Usage → SessionM Bool
  | [] => return false
  | u :: rest => do
    if ← matchesUsage env file target u then return true
    matchesAny env file target rest

/-- The target is rendered in the file itself. -/
def isDirect (env : Environment) (file : ParsedFile) (target : Target) : SessionM Bool := do
  let symbols ← symbolsOf file
  matchesAny env file target symbols.usages

/-- Searches the files that define the usages, each name once, until the target is found. -/
def searchUsages (env : Environment) (search : Bytes → SessionM Outcome) (file : ParsedFile)
    (seen : List Bytes) (cut : Bool) : List Usage → SessionM Outcome
  | [] => return ⟨false, cut⟩
  | u :: rest => do
    if seen.contains u.fullName then searchUsages env search file seen cut rest
    else
      let seen := u.fullName :: seen
      match ← Reference.usage env file u.path with
      | none => searchUsages env search file seen cut rest
      | some id =>
        if id.external || Path.same id.file file.path then
          searchUsages env search file seen cut rest
        else
          note .trace (utf8 "presence")
            (utf8 "<" ++ u.fullName ++ utf8 "> in " ++ file.path ++ utf8 " -> " ++ id.file)
          let below ← search id.file
          if below.found then return ⟨true, cut || below.cut⟩
          else searchUsages env search file seen (cut || below.cut) rest

/-- Searches a file that was read. -/
def searchFile (env : Environment) (search : Bytes → SessionM Outcome) (file : ParsedFile)
    (target : Target) (key : Bytes) : SessionM Outcome := do
  let symbols ← symbolsOf file
  note .trace (utf8 "presence") (file.path ++ utf8 " renders " ++ joinNames symbols.components)
  modify fun s => { s with active := key :: s.active }
  let outcome ←
    if ← isDirect env file target then pure ⟨true, false⟩
    else searchUsages env search file [] false symbols.usages
  modify fun s => { s with active := s.active.erase key }
  if outcome.found || !outcome.cut then
    modify fun s => { s with verdicts := s.verdicts.insert key outcome.found }
  return outcome

/-- Searches a file for the first time. -/
def visit (env : Environment) (search : Bytes → SessionM Outcome) (path : Bytes) (target : Target)
    (key : Bytes) : SessionM Outcome := do
  modify fun s => { s with visits := s.visits + 1 }
  match ← load env path with
  | .error message =>
    note .debug (utf8 "presence") (utf8 "skipping " ++ path ++ utf8 ": " ++ message)
    diagnose .unparseable path message
    modify fun s => { s with verdicts := s.verdicts.insert key false }
    return ⟨false, false⟩
  | .ok file => searchFile env search file target key

/-- Searches below a file with a number of steps left; with none left the search is cut off. -/
def search (env : Environment) (target : Target) : Nat → Bytes → SessionM Outcome
  | 0, path => do
    note .debug (utf8 "presence")
      (utf8 "depth limit " ++ decimal env.options.maxDepth.toNat ++ utf8 " reached at " ++ path)
    diagnose .depthLimit path
      (utf8 "presence search for " ++ target.name ++ utf8 " exceeded depth " ++
        decimal env.options.maxDepth.toNat)
    return ⟨false, true⟩
  | steps + 1, path => do
    let key := target.key path
    let s ← get
    if s.active.contains key then
      note .debug (utf8 "presence")
        (utf8 "cycle cut at " ++ path ++ utf8 " for " ++ target.name)
      diagnose .cycleCut path (utf8 "import cycle while searching for " ++ target.name)
      return ⟨false, true⟩
    match s.verdicts.get? key with
    | some found => return ⟨found, false⟩
    | none => visit env (search env target steps) path target key

/-- The target is rendered in the tree below a file. -/
def hasComponent (env : Environment) (path : Bytes) (target : Target) : SessionM Bool := do
  let outcome ← search env target (env.options.maxDepth.toNat + 1) (env.normalize path)
  note .debug (utf8 "presence")
    (path ++ utf8 ": " ++ target.name ++
      (if outcome.found then utf8 " found" else utf8 " not found"))
  return outcome.found

end JsxPresence.Presence
