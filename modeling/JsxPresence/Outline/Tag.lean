import JsxPresence.Outline.Expression

namespace JsxPresence

/-- Reads the element whose `<` stands at an offset; gives the offset after it. -/
abbrev ElementWalk (text : Bytes) :=
  Lexer text → Nat → Except SyntaxError (Outline × Lexer text × Nat)

namespace Tag

variable {text : Bytes}

/-- The name of a tag, as written and by its shape. -/
structure Name where
  full : Bytes
  shape : ElementName
  span : Span

/-- A name, or an error at the place where there is none. -/
def word (lx : Lexer text) (missing : SyntaxCause) : Except SyntaxError (Bytes × Lexer text) :=
  let (t, lx) := lx.elementName
  if t.kind = .error then .error ⟨missing, t.span⟩ else .ok (t.lexeme, lx)

def segments : Nat → Lexer text → Except SyntaxError (List Bytes × Lexer text)
  | 0, lx => .error ⟨.exhausted, ⟨lx.pos, lx.pos⟩⟩
  | fuel + 1, lx => do
    if lx.peek 0 = byte '.' then
      let (segment, lx) ← word lx.skipByte .missingNameAfterDot
      let (others, lx) ← segments fuel lx
      return (segment :: others, lx)
    else return ([], lx)

def name (fuel : Nat) (lx : Lexer text) : Except SyntaxError (Name × Lexer text) := do
  let start := lx.pos
  let (first, lx) ← word lx .missingElementName
  if lx.peek 0 = byte ':' then
    let (second, lx) ← word lx.skipByte .missingNameAfterColon
    return (⟨first ++ utf8 ":" ++ second, .namespaced first second, ⟨start, lx.pos⟩⟩, lx)
  else
    match ← segments fuel lx with
    | ([], lx) => return (⟨first, .identifier first, ⟨start, lx.pos⟩⟩, lx)
    | (others, lx) =>
      return (⟨(utf8 ".").intercalate (first :: others), .member (first :: others),
        ⟨start, lx.pos⟩⟩, lx)

/-- What stands in the braces that open at `offset`; gives the offset after the closing one. -/
def container (walk : Walk text) (fuel : Nat) : ElementWalk text := fun lx offset => do
  let (opening, lx) := (lx.reset offset true).next
  let r ← Reader.advance ⟨lx, opening, none, offset⟩
  let (inner, r) ← r.walkUntil walk (· = .closeBrace) fuel
  if !r.is .closeBrace then throw ⟨.unclosedContainer, opening.span⟩
  return (inner, r.lexer, r.current.span.stop)

def attributeName (element : Bytes) (lx : Lexer text) :
    Except SyntaxError (Bytes × Lexer text) := do
  let (first, lx) ← word lx (.invalidAttribute element)
  if lx.peek 0 = byte ':' then
    let (second, lx) ← word lx.skipByte .invalidNamespacedAttribute
    return (first ++ utf8 ":" ++ second, lx)
  else return (first, lx)

/-- The value of an attribute: a string, braces or an element. -/
def attributeValue (walk : Walk text) (element : ElementWalk text) (fuel : Nat) (attr : Bytes)
    (lx : Lexer text) : Except SyntaxError (Outline × Lexer text) := do
  let b := lx.peek 0
  if b = doubleQuote || b = singleQuote then
    let (t, lx) := lx.elementString
    if t.kind = .error then throw ⟨.unterminatedAttributeString, t.span⟩
    return (.empty, lx)
  else if b = openBrace then
    let (inner, lx, after) ← container walk fuel lx lx.pos
    return (inner, lx.reset after false)
  else if b = byte '<' then
    let (inner, lx, after) ← element lx lx.pos
    return (inner, lx.reset after false)
  else throw ⟨.missingAttributeValue attr, ⟨lx.pos, lx.pos + 1⟩⟩

/-- The attributes of a tag and what their values hold. -/
structure Attributes where
  names : List Bytes
  hasSpread : Bool
  inner : Outline

namespace Attributes

def empty : Attributes := ⟨[], false, .empty⟩

def addSpread (inner : Outline) (rest : Attributes) : Attributes :=
  ⟨rest.names, true, inner ++ rest.inner⟩

def add (name : Bytes) (inner : Outline) (rest : Attributes) : Attributes :=
  ⟨name :: rest.names, rest.hasSpread, inner ++ rest.inner⟩

end Attributes

/-- Reads attributes up to the `/` or `>` of the tag of `element`, which opens at `start`. -/
def attributes (walk : Walk text) (element : ElementWalk text) (start : Nat) (tag : Bytes) :
    Nat → Lexer text → Except SyntaxError (Attributes × Lexer text)
  | 0, lx => .error ⟨.exhausted, ⟨lx.pos, lx.pos⟩⟩
  | fuel + 1, lx => do
    let lx := lx.skipTrivia
    if lx.rest.isEmpty then throw ⟨.unterminatedTag tag, ⟨start, lx.pos⟩⟩
    let b := lx.peek 0
    if b = byte '/' || b = byte '>' then return (.empty, lx)
    else if b = openBrace then
      let (inner, lx, after) ← container walk fuel lx lx.pos
      let (rest, lx) ← attributes walk element start tag fuel (lx.reset after false)
      return (rest.addSpread inner, lx)
    else
      let (attr, lx) ← attributeName tag lx
      let lx := lx.skipTrivia
      if lx.peek 0 = byte '=' then
        let (inner, lx) ← attributeValue walk element fuel attr lx.skipByte.skipTrivia
        let (rest, lx) ← attributes walk element start tag fuel lx
        return (rest.add attr inner, lx)
      else
        let (rest, lx) ← attributes walk element start tag fuel lx
        return (rest.add attr .empty, lx)

/-- The rest of a closing tag; the lexer stands behind its `/`, and its `<` stands at `offset`. -/
def closing (fuel : Nat) (tag : Bytes) (offset : Nat) (lx : Lexer text) :
    Except SyntaxError (Lexer text) := do
  let lx := lx.skipTrivia
  let (found, lx) ←
    if lx.peek 0 = byte '>' then pure ([], lx)
    else do
      let (found, lx) ← name fuel lx
      pure (found.full, lx.skipTrivia)
  if found ≠ tag then throw ⟨.mismatchedClosingTag tag found, ⟨offset, lx.pos⟩⟩
  if lx.peek 0 ≠ byte '>' then throw ⟨.missingCloseOfClosingTag, ⟨lx.pos, lx.pos + 1⟩⟩
  return lx.skipByte

/-- What stands between an opening tag and its closing tag; gives the offset after the latter. The
name of a fragment is empty. -/
def children (walk : Walk text) (element : ElementWalk text) (start : Nat) (tag : Bytes) :
    Nat → Lexer text → Except SyntaxError (Outline × Lexer text × Nat)
  | 0, lx => .error ⟨.exhausted, ⟨lx.pos, lx.pos⟩⟩
  | fuel + 1, lx => do
    let (_, lx) := lx.elementText
    if lx.rest.isEmpty then throw ⟨.unterminatedElement tag, ⟨start, lx.pos⟩⟩
    if lx.peek 0 = openBrace then
      let (head, lx, after) ← container walk fuel lx lx.pos
      let (tail, lx, stop) ← children walk element start tag fuel (lx.reset after false)
      return (head ++ tail, lx, stop)
    else
      let inside := lx.skipByte.skipTrivia
      if inside.peek 0 = byte '/' then
        let lx ← closing fuel tag lx.pos inside.skipByte
        return (.empty, lx, lx.pos)
      else
        let (head, lx, after) ← element inside lx.pos
        let (tail, lx, stop) ← children walk element start tag fuel (lx.reset after false)
        return (head ++ tail, lx, stop)

/-- A fragment; the lexer stands at the `>` of its opening tag. -/
def fragment (walk : Walk text) (element : ElementWalk text) (fuel : Nat) (start : Nat)
    (lx : Lexer text) : Except SyntaxError (Outline × Lexer text × Nat) := do
  let opening : Element :=
    { name := .fragment
      span := ⟨start, lx.pos + 1⟩
      nameSpan := ⟨start + 1, start + 1⟩
      attributes := []
      hasSpread := false
      selfClosing := false
      insertAt := lx.pos }
  let (inner, lx, stop) ← children walk element start [] fuel lx.skipByte
  return (.ofElement opening ++ inner, lx, stop)

/-- The element whose `<` stands at `start`. -/
def element (walk : Walk text) (element : ElementWalk text) (fuel : Nat) : ElementWalk text :=
  fun lx start => do
    let lx := (lx.reset (start + 1) false).skipTrivia
    if lx.peek 0 = byte '>' then fragment walk element fuel start lx
    else
      let (tag, lx) ← name fuel lx
      let (attrs, lx) ← attributes walk element start tag.full fuel lx
      let opening : Element :=
        { name := tag.shape
          span := ⟨start, lx.pos + 1⟩
          nameSpan := tag.span
          attributes := attrs.names
          hasSpread := attrs.hasSpread
          selfClosing := false
          insertAt := lx.pos }
      if lx.peek 0 = byte '/' then
        if lx.peek 1 ≠ byte '>' then throw ⟨.missingCloseAfterSlash, ⟨lx.pos, lx.pos + 1⟩⟩
        let stop := lx.pos + 2
        let opening := { opening with span := ⟨start, stop⟩, selfClosing := true }
        return (.ofElement opening ++ attrs.inner, lx, stop)
      else
        let (inner, lx, stop) ← children walk element start tag.full fuel lx.skipByte
        return (.ofElement opening ++ attrs.inner ++ inner, lx, stop)

end Tag

end JsxPresence
