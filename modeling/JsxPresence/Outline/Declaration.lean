import JsxPresence.Outline.Binding

namespace JsxPresence.Reader

variable {text : Bytes}

/-- Behind the offset at which the token at hand ends, blanks and tabs and then `function`. -/
def functionFollows (r : Reader text) : Bool :=
  let behind := text.drop r.current.span.stop
  (utf8 "function").isPrefixOf (behind.dropWhile (fun b => b = byte ' ' || b = byte '\t'))

def atVariableKeyword (r : Reader text) : Bool :=
  r.isKeyword (utf8 "const") || r.isKeyword (utf8 "let") || r.isKeyword (utf8 "var")

def atFunctionOrClass (r : Reader text) : Bool :=
  r.isKeyword (utf8 "function") || r.isKeyword (utf8 "class")

/-- The token before allows a statement to start here: there is none, it ends one, or a line ends
where no expression can go on. -/
def afterStatement (r : Reader text) : Bool :=
  match r.previous with
  | none => true
  | some t =>
    t.kind = .semicolon || t.kind = .closeBrace ||
      (r.current.newlineBefore && !r.expressionAllowed)

def atDeclaration (r : Reader text) : Bool :=
  r.atVariableKeyword ||
    ((r.atFunctionOrClass || (r.isWord (utf8 "async") && r.functionFollows)) && r.afterStatement)

/-- A new statement starts at the token at hand, whatever the expression before it. -/
def atStatement (r : Reader text) : Bool :=
  r.isKeyword (utf8 "export") || r.atVariableKeyword || r.atImport ||
    (r.atFunctionOrClass && r.current.newlineBefore && !r.expressionAllowed)

/-- Passes over a type annotation; `angle` counts the open angles, without a bound. -/
def passType (angle : Nat) : Nat → Reader text → Except SyntaxError (Reader text)
  | 0, r => .error (r.failAt .exhausted)
  | fuel + 1, r => do
    let kind := r.current.kind
    if kind = .eof then return r
    else if angle = 0 && (kind = .assign || kind = .comma || kind = .semicolon || kind.isCloser) then
      return r
    else if kind.isOpener then
      let opening := r.current.span
      let r ← r.passGroup fuel (fun _ => ⟨.unbalancedType, opening⟩)
      passType angle fuel r
    else if angle = 0 && r.current.newlineBefore && r.atStatement then return r
    else
      let inner :=
        if kind = .less then angle + 1
        else if kind = .greater then angle - 1
        else angle
      let r ← r.advance
      passType inner fuel r

/-- Walks an initialiser up to the comma, semicolon or statement that ends it. -/
def walkInitializer (walk : Walk text) : Nat → Walk text
  | 0, r => .error (r.failAt .exhausted)
  | fuel + 1, r => do
    if r.atEnd || r.is .comma || r.is .semicolon || r.atStatement then return (.empty, r)
    let (head, r) ← walk r
    let (tail, r) ← walkInitializer walk fuel r
    return (head ++ tail, r)

def endsProperty (kind : Kind) : Bool := kind = .comma || kind = .closeBrace

/-- The value of a property that starts at `start`: a dotted path that ends it, or anything
else. -/
def propertyValue (walk : Walk text) (fuel : Nat) (start : Nat) (key : Bytes) (r : Reader text) :
    Except SyntaxError (List Property × Outline × Reader text) := do
  let other := do
    let (inner, r) ← r.walkUntil walk endsProperty fuel
    return ([⟨key, [], ⟨start, r.lastEnd⟩⟩], inner, r)
  if r.is .identifier then
    match r.dottedPath fuel with
    | (some path, last) =>
      if endsProperty last.current.kind then
        return ([⟨key, path, ⟨start, last.lastEnd⟩⟩], .empty, last)
      else other
    | (none, _) => other
  else other

/-- One entry of an object literal. Methods, accessors, spreads and computed keys give no
property. -/
def property (walk : Walk text) (fuel : Nat) (r : Reader text) :
    Except SyntaxError (List Property × Outline × Reader text) := do
  let first := r.current
  let skip (r : Reader text) := do
    let (inner, r) ← r.walkUntil walk endsProperty fuel
    return ([], inner, r)
  if first.isName || first.kind = .string || first.kind = .number then
    let key := if first.kind = .string then unquote first.lexeme else first.lexeme
    let r ← r.advance
    if r.is .colon then
      let r ← r.advance
      r.propertyValue walk fuel first.span.start key
    else if first.kind = .identifier && endsProperty r.current.kind then
      return ([⟨key, [key], ⟨first.span.start, r.lastEnd⟩⟩], .empty, r)
    else skip r
  else skip r

def properties (walk : Walk text) :
    Nat → Reader text → Except SyntaxError (List Property × Outline × Reader text)
  | 0, r => .error (r.failAt .exhausted)
  | fuel + 1, r => do
    if r.is .closeBrace || r.atEnd then return ([], .empty, r)
    let (head, inner, r) ← r.property walk fuel
    if r.is .comma then
      let r ← r.advance
      let (tail, outer, r) ← properties walk fuel r
      return (head ++ tail, inner ++ outer, r)
    else return (head, inner, r)

/-- An object literal; the token at hand is its brace. -/
def objectLiteral (walk : Walk text) (fuel : Nat) (r : Reader text) :
    Except SyntaxError (List Property × Outline × Reader text) := do
  let opening := r.current.span
  let r ← r.advance
  let (members, inner, r) ← properties walk fuel r
  if !r.is .closeBrace then throw ⟨.unclosedObject, opening⟩
  let r ← r.advance
  return (members, inner, r)

/-- Passes over `: type`, if it is there. -/
def passTyping (fuel : Nat) (r : Reader text) : Except SyntaxError (Reader text) := do
  if r.is .colon then
    let r ← r.advance
    passType 0 fuel r
  else return r

/-- The initialiser of a name, if there is one: its members if it starts with an object literal, and
what stands in it. -/
def initializer (walk : Walk text) (fuel : Nat) (r : Reader text) :
    Except SyntaxError (Option (List Property) × Outline × Reader text) := do
  if r.is .assign then
    let r ← r.advance
    if r.is .openBrace then
      let (members, inner, r) ← r.objectLiteral walk fuel
      let (rest, r) ← walkInitializer walk fuel r
      return (some members, inner ++ rest, r)
    else
      let (inner, r) ← walkInitializer walk fuel r
      return (none, inner, r)
  else return (none, .empty, r)

/-- One declared name; `exportStart` is where the `export` before it stands. -/
def declarator (walk : Walk text) (fuel : Nat) (kind : DeclarationKind) (exportStart : Option Nat) :
    Walk text := fun r => do
  let name := r.current
  let r ← r.advance
  let r ← r.passOver .bang
  let r ← r.passTyping fuel
  let (members, inner, r) ← r.initializer walk fuel
  let exported :=
    match exportStart with
    | some start => localExport name.lexeme name.lexeme start name.span.stop
    | none => .empty
  return (inner ++ exported ++ .ofDeclaration ⟨name.lexeme, kind, name.span, members⟩, r)

/-- A destructuring pattern; the names it binds are not recorded. -/
def pattern (walk : Walk text) (fuel : Nat) : Walk text := fun r => do
  let (group, r) ← r.walkGroup walk fuel
  let r ← r.passTyping fuel
  if r.is .assign then
    let r ← r.advance
    let (inner, r) ← walkInitializer walk fuel r
    return (group ++ inner, r)
  else return (group, r)

/-- The declarators after `const`, `let` or `var`. Anything else than a name or a pattern, such as
the `enum` of `const enum`, ends them. -/
def declarators (walk : Walk text) (kind : DeclarationKind) (exportStart : Option Nat) :
    Nat → Walk text
  | 0, r => .error (r.failAt .exhausted)
  | fuel + 1, r => do
    if r.is .identifier || r.is .openBrace || r.is .openBracket then
      let (head, r) ←
        if r.is .identifier then r.declarator walk fuel kind exportStart
        else r.pattern walk fuel
      if r.is .comma then
        let r ← r.advance
        let (tail, r) ← declarators walk kind exportStart fuel r
        return (head ++ tail, r)
      else
        let r ← r.passOver .semicolon
        return (head, r)
    else return (.empty, r)

/-- A function or class up to its name; parameters and body are walked as expressions. -/
def functionOrClass (exportStart : Option Nat) : Walk text := fun r => do
  let kind : DeclarationKind := if r.isKeyword (utf8 "class") then .classDef else .function
  let r ← r.advance
  let r ← if kind = .function then r.passOver .star else pure r
  if r.is .identifier then
    let name := r.current
    let r ← r.advance
    let exported :=
      match exportStart with
      | some start => localExport name.lexeme name.lexeme start name.span.stop
      | none => .empty
    return (exported ++ .ofDeclaration ⟨name.lexeme, kind, name.span, none⟩, r)
  else return (.empty, r)

def walkDeclaration (walk : Walk text) (fuel : Nat) (exportStart : Option Nat) : Walk text :=
  fun r => do
    let r ← if r.isWord (utf8 "async") then r.advance else pure r
    if r.atFunctionOrClass then r.functionOrClass exportStart
    else
      let kind : DeclarationKind :=
        if r.isKeyword (utf8 "let") then .let
        else if r.isKeyword (utf8 "var") then .var
        else .const
      let r ← r.advance
      declarators walk kind exportStart fuel r

/-- An exported enumeration, recorded as a constant; the token at hand is `enum`. -/
def exportEnum (start : Nat) : Walk text := fun r => do
  let r ← r.advance
  if r.is .identifier then
    let name := r.current
    let r ← r.advance
    return (.ofDeclaration ⟨name.lexeme, .const, name.span, none⟩ ++
      localExport name.lexeme name.lexeme start name.span.stop, r)
  else return (.empty, r)

/-- An export declaration. Exports of types are left to be walked as expressions. -/
def walkExport (walk : Walk text) (fuel : Nat) : Walk text := fun r => do
  let start := r.current.span.start
  let r ← r.advance
  if r.isKeyword (utf8 "default") then
    let r ← r.advance
    r.exportDefault start
  else if r.is .star then r.exportStar start fuel
  else if r.is .openBrace then r.exportList start false fuel
  else if r.isWord (utf8 "type") && r.peek.kind = .openBrace then
    let r ← r.advance
    r.exportList start true fuel
  else
    let r ←
      if r.isWord (utf8 "declare") || r.isWord (utf8 "abstract") then r.advance else pure r
    if r.isKeyword (utf8 "enum") then r.exportEnum start
    else if r.atVariableKeyword || r.atFunctionOrClass || r.atAsyncFunction then
      r.walkDeclaration walk fuel (some start)
    else return (.empty, r)

end JsxPresence.Reader
