import JsxPresence.Outline.Walk

namespace JsxPresence.Reader

variable {text : Bytes}

/-- The text of a string literal without its quotes. -/
def unquote (lexeme : Bytes) : Bytes :=
  if lexeme.length ≥ 2 then (lexeme.drop 1).dropLast else lexeme

def stringLiteral (r : Reader text) : Except SyntaxError (Bytes × Reader text) := do
  if !r.is .string then throw (r.failAt .missingString)
  let value := unquote r.current.lexeme
  let r ← r.advance
  return (value, r)

/-- A name in an import or export list, plain or as a string. -/
def moduleName (r : Reader text) : Except SyntaxError (Bytes × Reader text) := do
  if r.current.isName then
    let name := r.current.lexeme
    let r ← r.advance
    return (name, r)
  else if r.is .string then r.stringLiteral
  else throw (r.failAt (.missingName r.current.kind))

/-- Passes over `with { ... }` or `assert { ... }`. -/
def passAttributes (r : Reader text) (fuel : Nat) : Except SyntaxError (Reader text) := do
  if (r.isKeyword (utf8 "with") || r.isWord (utf8 "assert")) && r.peek.kind = .openBrace then
    let r ← r.advance
    r.passGroup fuel (·.failAt .unterminatedAttributes)
  else return r

/-- An entry of a brace list: `name` or `name as bound`. -/
structure BindingItem where
  name : Bytes
  /-- The same as the name if there is no other. -/
  bound : Bytes
  typeOnly : Bool
  span : Span

/-- The `type` at hand marks the entry; it is not the name of the entry itself. -/
def marksType (r : Reader text) : Bool :=
  let next := r.peek
  r.isWord (utf8 "type") &&
    ((next.isName && !next.isWord (utf8 "as")) || next.kind = .string)

def bindingItem (typeOnly : Bool) (r : Reader text) :
    Except SyntaxError (BindingItem × Reader text) := do
  let start := r.current.span.start
  let marked := r.marksType
  let r ← if marked then r.advance else pure r
  let (name, r) ← r.moduleName
  let (bound, r) ←
    if r.isWord (utf8 "as") then do
      let r ← r.advance
      r.moduleName
    else pure (name, r)
  return (⟨name, bound, typeOnly || marked, ⟨start, r.lastEnd⟩⟩, r)

/-- Entries up to a closing brace or the last one without a comma; `fuel` bounds their number. -/
def bindingItems (typeOnly : Bool) :
    Nat → Reader text → Except SyntaxError (List BindingItem × Reader text)
  | 0, r => .error (r.failAt .exhausted)
  | fuel + 1, r => do
    if r.is .closeBrace then return ([], r)
    let (item, r) ← r.bindingItem typeOnly
    if r.is .comma then
      let r ← r.advance
      let (items, r) ← bindingItems typeOnly fuel r
      return (item :: items, r)
    else return ([item], r)

/-- A brace list; the token at hand is its brace. -/
def bindingList (list : BindingList) (typeOnly : Bool) (fuel : Nat) (r : Reader text) :
    Except SyntaxError (List BindingItem × Reader text) := do
  let r ← r.advance
  let (items, r) ← bindingItems typeOnly fuel r
  if !r.is .closeBrace then throw (r.failAt (.unclosedList list r.current.kind))
  let r ← r.advance
  return (items, r)

/-- `import(...)` and `import.meta` are expressions. -/
def atImport (r : Reader text) : Bool :=
  r.isKeyword (utf8 "import") && !(r.peek.kind = .openParen || r.peek.kind = .dot)

/-- The `type` at hand makes the whole import type-only. -/
def marksTypeImport (r : Reader text) : Bool :=
  let next := r.peek
  r.isWord (utf8 "type") &&
    ((next.kind = .identifier && !next.isWord (utf8 "from")) || next.kind = .openBrace ||
      next.kind = .star)

def BindingItem.toImport (i : BindingItem) : ImportItem :=
  { kind := if i.name = utf8 "default" then .default else .named
    imported := i.name
    localName := i.bound
    typeOnly := i.typeOnly
    span := i.span }

/-- The module name of `* as name`; the token at hand is the star. -/
def moduleItem (typeOnly : Bool) (r : Reader text) :
    Except SyntaxError (ImportItem × Reader text) := do
  let start := r.current.span.start
  let r ← r.advance
  if !r.isWord (utf8 "as") then throw (r.failAt .missingAs)
  let r ← r.advance
  if !r.is .identifier then throw (r.failAt .missingModuleName)
  let name := r.current
  let r ← r.advance
  return (⟨.wholeModule, utf8 "*", name.lexeme, typeOnly, ⟨start, name.span.stop⟩⟩, r)

/-- What an import names besides a default: a module name, a brace list or nothing. -/
def importItems (typeOnly : Bool) (fuel : Nat) (r : Reader text) :
    Except SyntaxError (List ImportItem × Reader text) := do
  if r.is .star then
    let (item, r) ← r.moduleItem typeOnly
    return ([item], r)
  else if r.is .openBrace then
    let (items, r) ← r.bindingList .imports typeOnly fuel
    return (items.map BindingItem.toImport, r)
  else return ([], r)

/-- The specifier string at hand and what ends the declaration that started at `start`. -/
def importEnd (start : Nat) (typeOnly : Bool) (items : List ImportItem) (fuel : Nat) :
    Walk text := fun r => do
  let specifierSpan := r.current.span
  let (specifier, r) ← r.stringLiteral
  let r ← r.passAttributes fuel
  let stop := r.lastEnd
  let r ← r.passOver .semicolon
  return (.ofImport ⟨specifier, specifierSpan, items, typeOnly, ⟨start, stop⟩⟩, r)

/-- `from` and the specifier. -/
def importFrom (start : Nat) (typeOnly : Bool) (items : List ImportItem) (fuel : Nat) :
    Walk text := fun r => do
  if !r.isWord (utf8 "from") then throw (r.failAt .missingFrom)
  let r ← r.advance
  if !r.is .string then throw (r.failAt .missingSpecifier)
  r.importEnd start typeOnly items fuel

/-- An import declaration. `import x = ...` binds nothing that is recorded. -/
def walkImport (walk : Walk text) (fuel : Nat) : Walk text := fun r => do
  let start := r.current.span.start
  let r ← r.advance
  if r.is .string then r.importEnd start false [] fuel
  else
    let typeOnly := r.marksTypeImport
    let r ← if typeOnly then r.advance else pure r
    if r.is .identifier then
      let name := r.current
      let r ← r.advance
      if r.is .assign then
        let r ← r.advance
        let (inner, r) ← walk r
        let r ← r.passOver .semicolon
        return (inner, r)
      else
        let first : ImportItem :=
          ⟨.default, utf8 "default", name.lexeme, typeOnly, name.span⟩
        let r ← r.passOver .comma
        let (items, r) ← r.importItems typeOnly fuel
        r.importFrom start typeOnly (first :: items) fuel
    else
      let (items, r) ← r.importItems typeOnly fuel
      r.importFrom start typeOnly items fuel

def localExport (name exported : Bytes) (start stop : Nat) : Outline :=
  .ofExport ⟨.fromHere name exported, false, ⟨start, stop⟩⟩

/-- Kinds that, on a new line, still go on with the expression before them. -/
def continuesExpression (kind : Kind) : Bool :=
  match kind with
  | .dot | .optionalDot | .openParen | .openBracket | .operator | .question | .less | .greater
  | .slash | .star | .template | .templateHead => true
  | _ => false

/-- The identifier at hand is all that is exported. -/
def isBareExport (r : Reader text) : Bool :=
  let next := r.peek
  r.is .identifier &&
    (next.kind = .semicolon || next.kind = .eof ||
      (next.newlineBefore && !continuesExpression next.kind))

def atAsyncFunction (r : Reader text) : Bool :=
  r.isWord (utf8 "async") && r.peek.isKeyword (utf8 "function")

/-- A function or class exported by default, up to its name. -/
def exportDefaultDeclaration (start : Nat) : Walk text := fun r => do
  let kind : DeclarationKind := if r.isKeyword (utf8 "class") then .classDef else .function
  let r ← if r.atAsyncFunction then r.advance else pure r
  let r ← r.advance
  let r ← if kind = .function then r.passOver .star else pure r
  if r.is .identifier then
    let name := r.current
    let r ← r.advance
    return (.ofDeclaration ⟨name.lexeme, kind, name.span, none⟩ ++
      localExport name.lexeme (utf8 "default") start name.span.stop, r)
  else return (localExport [] (utf8 "default") start r.lastEnd, r)

/-- What is exported by default. An expression is left to be walked as such. -/
def exportDefault (start : Nat) : Walk text := fun r => do
  if r.isKeyword (utf8 "function") || r.isKeyword (utf8 "class") || r.atAsyncFunction then
    r.exportDefaultDeclaration start
  else if r.isBareExport then
    let name := r.current
    let r ← r.advance
    let r ← r.passOver .semicolon
    return (localExport name.lexeme (utf8 "default") start name.span.stop, r)
  else return (localExport [] (utf8 "default") start r.lastEnd, r)

/-- `export *`, perhaps under a name; the token at hand is the star. -/
def exportStar (start fuel : Nat) : Walk text := fun r => do
  let r ← r.advance
  let (name, r) ←
    if r.isWord (utf8 "as") then do
      let r ← r.advance
      let (name, r) ← r.moduleName
      pure (some name, r)
    else pure (none, r)
  if !r.isWord (utf8 "from") then throw (r.failAt .missingFromAfterStar)
  let r ← r.advance
  let (specifier, r) ← r.stringLiteral
  let r ← r.passAttributes fuel
  let kind : ExportKind :=
    match name with
    | some name => .moduleFrom name specifier
    | none => .allFrom specifier
  let stop := r.lastEnd
  let r ← r.passOver .semicolon
  return (.ofExport ⟨kind, false, ⟨start, stop⟩⟩, r)

/-- An export list, of this file's names or of another file's; the token at hand is the brace. -/
def exportList (start : Nat) (typeOnly : Bool) (fuel : Nat) : Walk text := fun r => do
  let (items, r) ← r.bindingList .exports typeOnly fuel
  let (specifier, r) ←
    if r.isWord (utf8 "from") then do
      let r ← r.advance
      let (specifier, r) ← r.stringLiteral
      let r ← r.passAttributes fuel
      pure (some specifier, r)
    else pure (none, r)
  let span : Span := ⟨start, r.lastEnd⟩
  let toExport (i : BindingItem) : Export :=
    match specifier with
    | some specifier => ⟨.fromFile i.name i.bound specifier, i.typeOnly, span⟩
    | none => ⟨.fromHere i.name i.bound, i.typeOnly, span⟩
  let r ← r.passOver .semicolon
  return (.ofExports (items.map toExport), r)

end JsxPresence.Reader
