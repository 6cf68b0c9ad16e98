import JsxPresence.Outline.Argument

namespace JsxPresence

/-- Passes over a piece of the text and tells what it holds. -/
abbrev Walk (text : Bytes) := Reader text → Except SyntaxError (Outline × Reader text)

namespace Reader

variable {text : Bytes}

/-- Passes over the token at hand and records nothing. -/
def walkToken : Walk text := fun r => do
  let r ← r.advance
  return (.empty, r)

/-- Walks units up to a token whose kind satisfies `stop`, or to the end; `fuel` bounds their
number. -/
def walkUntil (walk : Walk text) (stop : Kind → Bool) : Nat → Walk text
  | 0, r => .error (r.failAt .exhausted)
  | fuel + 1, r => do
    if r.atEnd || stop r.current.kind then return (.empty, r)
    let (head, r) ← walk r
    let (tail, r) ← walkUntil walk stop fuel r
    return (head ++ tail, r)

/-- Walks a bracket group through its closer. -/
def walkGroup (walk : Walk text) (fuel : Nat) : Walk text := fun r => do
  let opening := r.current
  let closer := opening.kind.closer
  let r ← r.advance
  let (inner, r) ← walkUntil walk (· = closer) fuel r
  if !r.is closer then throw ⟨.unclosed opening.kind, opening.span⟩
  let r ← r.advance
  return (inner, r)

/-- Arguments up to the closing parenthesis, with what stands inside them. -/
def callArguments (walk : Walk text) :
    Nat → Reader text → Except SyntaxError (List Argument × Outline × Reader text)
  | 0, r => .error (r.failAt .exhausted)
  | fuel + 1, r => do
    if r.is .closeParen || r.atEnd then return ([], .empty, r)
    let kind := r.argumentKind fuel
    let start := r.current.span.start
    let (inner, r) ← walkUntil walk (fun k => k = .comma || k = .closeParen) fuel r
    let argument : Argument := ⟨kind, ⟨start, r.lastEnd⟩⟩
    if r.is .comma then
      let r ← r.advance
      let (others, outer, r) ← callArguments walk fuel r
      return (argument :: others, inner ++ outer, r)
    else return ([argument], inner, r)

/-- The call of a callee that starts at `start`; the token at hand is its parenthesis. If a brace
follows, it is a method definition and no call. -/
def walkCall (walk : Walk text) (fuel : Nat) (start : Nat) (callee : Callee) (calleeSpan : Span) :
    Walk text := fun r => do
  let opening := r.current
  let r ← r.advance
  let (arguments, inner, r) ← callArguments walk fuel r
  if !r.is .closeParen then throw ⟨.unclosedArguments, opening.span⟩
  let r ← r.advance
  if r.is .openBrace then return (inner, r)
  return (.ofCall ⟨callee, arguments, ⟨start, r.lastEnd⟩, calleeSpan⟩ ++ inner, r)

/-- The names after the dots of a chain, and the span of the last one. -/
def chainTail (last : Span) :
    Nat → Reader text → Except SyntaxError (List Bytes × Span × Reader text)
  | 0, r => .error (r.failAt .exhausted)
  | fuel + 1, r => do
    if (r.is .dot || r.is .optionalDot) && r.step.current.isName then
      let name := r.step.current
      let r ← r.step.advance
      let (path, last, r) ← chainTail name.span fuel r
      return (name.lexeme :: path, last, r)
    else return ([], last, r)

/-- The place of the parenthesis of a call, perhaps behind type arguments. -/
def callParen? (r : Reader text) (fuel : Nat) : Option (Reader text) :=
  if r.is .openParen then some r
  else if r.is .less then
    let types := r.skipTypeArguments fuel
    if types.done && types.reader.is .openParen then some types.reader else none
  else none

def followsDot (r : Reader text) : Bool :=
  match r.previous with
  | some t => t.kind = .dot || t.kind = .optionalDot
  | none => false

/-- The token at hand is the name of a function or class. -/
def isDeclaredName (r : Reader text) : Bool :=
  match r.previous with
  | some t => t.isKeyword (utf8 "function") || t.isKeyword (utf8 "class")
  | none => false

/-- Walks a chain of names, and the call it ends in. A single name is an identifier only if no dot
stands before it. -/
def walkChain (walk : Walk text) (fuel : Nat) : Walk text := fun r => do
  let first := r.current
  let member := r.followsDot
  let declared := r.isDeclaredName
  let r ← r.advance
  if declared then return (.empty, r)
  let (path, last, r) ← chainTail first.span fuel r
  match r.callParen? fuel with
  | none => return (.empty, r)
  | some r =>
    let callee : Callee :=
      if path.isEmpty && !member then .identifier first.lexeme else .member (first.lexeme :: path)
    walkCall walk fuel first.span.start callee last r

end Reader

end JsxPresence
