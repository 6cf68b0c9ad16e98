import JsxPresence.Outline.Declaration
import JsxPresence.Source

namespace JsxPresence

namespace Reader

variable {text : Bytes}

/-- One item at the top level. -/
def walkItem (walk : Walk text) (fuel : Nat) : Walk text := fun r =>
  if r.atImport then r.walkImport walk fuel
  else if r.isKeyword (utf8 "export") then r.walkExport walk fuel
  else if r.atDeclaration then r.walkDeclaration walk fuel none
  else walk r

/-- Items up to the end of the text; `fuel` bounds their number. -/
def walkItems (walk : Walk text) : Nat → Walk text
  | 0, r => .error (r.failAt .exhausted)
  | fuel + 1, r => do
    if r.atEnd then return (.empty, r)
    let (head, r) ← r.walkItem walk fuel
    let (tail, r) ← walkItems walk fuel r
    return (head ++ tail, r)

end Reader

namespace Outline

/-- Enough steps to read any text: each turn passes at least one byte. -/
def stepBound (text : Bytes) : Nat := 2 * text.length + 8

/-- Reads a text up to its end, with the lexer errors that no token showed. -/
def read (elements : Bool) (text : Bytes) : Except SyntaxError (Outline × List LexicalError) := do
  let r ← (Reader.start text).checked
  let fuel := stepBound text
  let (outline, r) ← Reader.walkItems (Reader.walk elements fuel) fuel r
  return (outline, r.lexer.errors)

def parse (s : Source) : Except (List SyntaxError) Outline :=
  match read s.dialect.allowsElements s.content with
  | .error e => .error [e]
  | .ok (outline, []) => .ok outline
  | .ok (_, errors) => .error (errors.map SyntaxError.ofLexical)

end Outline

end JsxPresence
