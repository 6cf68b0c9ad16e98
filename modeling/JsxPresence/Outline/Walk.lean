import JsxPresence.Outline.Tag

namespace JsxPresence.Reader

variable {text : Bytes}

/-- The `<` at hand opens an element: one may start here, and it is no list of type parameters. -/
def atElement (elements : Bool) (r : Reader text) : Bool :=
  elements && r.is .less && r.expressionAllowed &&
    !(r.step.is .identifier &&
      (r.step.step.is .comma || r.step.step.isKeyword (utf8 "extends")))

/-- Goes on with tokens after an element that ends at `offset`. -/
def resumeAfter (lx : Lexer text) (offset : Nat) : Except SyntaxError (Reader text) :=
  let (t, lx) := (lx.reset offset false).next
  let last : Token := ⟨.elementText, utf8 ">", ⟨offset - 1, offset⟩, false⟩
  checked ⟨lx, t, some last, offset⟩

/-- A reserved word that can start a chain of names. -/
def startsChain (r : Reader text) : Bool :=
  [utf8 "this", utf8 "super", utf8 "import"].contains r.current.lexeme

def walkUnit (elements : Bool) (walk : Walk text) (element : ElementWalk text) (fuel : Nat) :
    Walk text := fun r =>
  match r.current.kind with
  | .openParen | .openBracket | .openBrace => walkGroup walk fuel r
  | .closeParen | .closeBracket | .closeBrace =>
    .error (r.failAt (.unexpectedCloser r.current.kind))
  | .less =>
    if r.atElement elements then do
      let (inner, lx, stop) ← element r.lexer r.current.span.start
      let r ← resumeAfter lx stop
      return (inner, r)
    else walkToken r
  | .identifier => walkChain walk fuel r
  | .keyword => if r.startsChain then walkChain walk fuel r else walkToken r
  | _ => walkToken r

mutual

/-- Walks one unit. -/
def walk (elements : Bool) : Nat → Walk text
  | 0, r => .error (r.failAt .exhausted)
  | fuel + 1, r => walkUnit elements (walk elements fuel) (walkElement elements fuel) fuel r

/-- Reads one element. -/
def walkElement (elements : Bool) : Nat → ElementWalk text
  | 0, _, start => .error ⟨.exhausted, ⟨start, start⟩⟩
  | fuel + 1, lx, start =>
    Tag.element (walk elements fuel) (walkElement elements fuel) fuel lx start

end

end JsxPresence.Reader
