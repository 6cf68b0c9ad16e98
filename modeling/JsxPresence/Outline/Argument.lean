import JsxPresence.Outline
import JsxPresence.Outline.Reader

namespace JsxPresence.Reader

variable {text : Bytes}

/-- Walks over the parameters up to the closing parenthesis and counts them. Commas inside type
arguments do not separate parameters. -/
def paramsRest (r : Reader text) (angle count : Nat) : Nat → Option (Nat × Reader text)
  | 0 => none
  | fuel + 1 =>
    let kind := r.current.kind
    if kind = .closeParen then some (count, r)
    else if kind = .eof || kind = .error || kind = .closeBracket || kind = .closeBrace then none
    else if kind.isOpener then
      let group := r.skipGroup fuel
      if group.done then group.reader.paramsRest angle count fuel else none
    else if kind = .less then r.step.paramsRest (angle + 1) count fuel
    else if kind = .greater && 0 < angle then r.step.paramsRest (angle - 1) count fuel
    else if kind = .comma && angle = 0 then
      r.step.paramsRest angle (if r.step.is .closeParen then count else count + 1) fuel
    else r.step.paramsRest angle count fuel

/-- The shape of the first parameter, with its name and the end of its brace. -/
def firstParam (r : Reader text) : ParamShape × Bytes × Nat :=
  match r.current.kind with
  | .closeParen => (.none, [], 0)
  | .identifier => (.identifier, r.current.lexeme, 0)
  | .openBrace => (.objectPattern, [], r.current.span.stop)
  | _ => (.other, [], 0)

/-- The parameter list that opens at the token at hand, and the place after it. -/
def params? (r : Reader text) (fuel : Nat) : Option (Params × Reader text) := do
  let inside := r.step
  let (first, firstName, patternBraceEnd) := inside.firstParam
  let (count, last) ← inside.paramsRest 0 (if first = .none then 0 else 1) fuel
  let params : Params :=
    { hasParens := true
      openParenEnd := r.current.span.stop
      count := count
      first := first
      firstName := firstName
      patternBraceEnd := patternBraceEnd
      span := ⟨r.current.span.start, last.current.span.stop⟩ }
  return (params, last.step)

/-- A return type follows, and then an arrow. -/
def typeThenArrow (r : Reader text) (angle : Nat) : Nat → Bool
  | 0 => false
  | fuel + 1 =>
    let kind := r.current.kind
    if kind = .arrow && angle = 0 then true
    else if kind = .eof || kind = .error || kind = .comma || kind = .semicolon || kind.isCloser then
      false
    else if kind.isOpener then
      let group := r.skipGroup fuel
      group.done && group.reader.typeThenArrow angle fuel
    else if kind = .less then r.step.typeThenArrow (angle + 1) fuel
    else if kind = .greater && 0 < angle then r.step.typeThenArrow (angle - 1) fuel
    else r.step.typeThenArrow angle fuel

/-- `async` is passed over where it can belong to a function. -/
def afterAsync (r : Reader text) : Reader text :=
  let next := r.peek
  if r.isWord (utf8 "async") &&
      (next.isKeyword (utf8 "function") || next.kind = .openParen || next.kind = .identifier ||
        next.kind = .less) then r.step
  else r

/-- The parameters of a function expression; the token at hand is `function`. -/
def functionParams? (r : Reader text) (fuel : Nat) : Option Params := do
  let r := r.step
  let r := if r.is .star then r.step else r
  let r := if r.is .identifier then r.step else r
  let types := if r.is .less then r.skipTypeArguments fuel else ⟨true, r⟩
  guard (types.done && types.reader.is .openParen)
  let (params, _) ← types.reader.params? fuel
  return params

/-- The one parameter of `x => ...`. -/
def bareParam? (r : Reader text) : Option Params :=
  if r.step.is .arrow then
    some
      { hasParens := false
        openParenEnd := r.current.span.start
        count := 1
        first := .identifier
        firstName := r.current.lexeme
        patternBraceEnd := 0
        span := r.current.span }
  else none

/-- The parameters of an arrow function with parentheses, perhaps with type parameters before and a
return type after them. -/
def arrowParams? (r : Reader text) (fuel : Nat) : Option Params := do
  let types := if r.is .less then r.skipTypeArguments fuel else ⟨true, r⟩
  guard (types.done && types.reader.is .openParen)
  let (params, after) ← types.reader.params? fuel
  guard (if after.is .colon then after.step.typeThenArrow 0 fuel else after.is .arrow)
  return params

/-- The function literal that starts at the token at hand: whether it is an arrow function, and its
parameters. -/
def functionLiteral? (r : Reader text) (fuel : Nat) : Option (Bool × Params) :=
  let r := r.afterAsync
  if r.isKeyword (utf8 "function") then (r.functionParams? fuel).map (false, ·)
  else if r.is .identifier then r.bareParam?.map (true, ·)
  else if r.is .openParen || r.is .less then (r.arrowParams? fuel).map (true, ·)
  else none

def endsArgument (r : Reader text) : Bool := r.is .comma || r.is .closeParen

def startsLiteral (r : Reader text) : Bool :=
  match r.current.kind with
  | .string | .number | .template | .regex => true
  | .keyword =>
    [utf8 "true", utf8 "false", utf8 "null"].contains r.current.lexeme
  | _ => false

/-- Tells the argument that starts at the token at hand. Names and literals count only if nothing
follows them. -/
def argumentKind (r : Reader text) (fuel : Nat) : ArgumentKind :=
  match r.functionLiteral? fuel with
  | some (arrow, params) => .function arrow params
  | none =>
    if r.is .identifier then
      match r.dottedPath fuel with
      | (some [name], last) => if last.endsArgument then .identifier name else .other
      | (some path, last) => if last.endsArgument then .member path else .other
      | (none, _) => .other
    else if r.startsLiteral && r.step.endsArgument then .literal
    else .other

end JsxPresence.Reader
