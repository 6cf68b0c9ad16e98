import JsxPresence.Token

namespace JsxPresence.Punctuator

/-- Kinds that one byte alone decides. -/
def single? (b : UInt8) : Option Kind :=
  if b = byte '(' then some .openParen
  else if b = byte ')' then some .closeParen
  else if b = byte '[' then some .openBracket
  else if b = byte ']' then some .closeBracket
  else if b = openBrace then some .openBrace
  else if b = closeBrace then some .closeBrace
  else if b = byte ';' then some .semicolon
  else if b = byte ',' then some .comma
  else if b = byte ':' then some .colon
  else if b = byte '@' then some .atSign
  else if b = byte '~' then some .operator
  else if b = byte '>' then some .greater
  else none

/-- An operator of `n` bytes, one longer if `=` follows. -/
def assignable (n : Nat) (s : Bytes) : Kind × Nat :=
  if s.byteAt n = byte '=' then (.operator, n + 1) else (.operator, n)

/-- Kind and length of the punctuator at the front of a text. -/
def scan? (s : Bytes) : Option (Kind × Nat) :=
  let b := s.headD 0
  let c := s.byteAt 1
  match single? b with
  | some kind => some (kind, 1)
  | none =>
    if b = byte '.' then
      if c = byte '.' && s.byteAt 2 = byte '.' then some (.ellipsis, 3) else some (.dot, 1)
    else if b = byte '?' then
      if c = byte '.' && !isDigit (s.byteAt 2) then some (.optionalDot, 2)
      else if c = byte '?' then some (assignable 2 s)
      else some (.question, 1)
    else if b = byte '=' then
      if c = byte '>' then some (.arrow, 2)
      else if c = byte '=' then some (assignable 2 s)
      else some (.assign, 1)
    else if b = byte '<' then
      if c = byte '<' then some (assignable 2 s)
      else if c = byte '=' then some (.operator, 2)
      else some (.less, 1)
    else if b = byte '!' then
      if c = byte '=' then some (assignable 2 s) else some (.bang, 1)
    else if b = byte '/' then
      if c = byte '=' then some (.operator, 2) else some (.slash, 1)
    else if b = byte '*' then
      if c = byte '*' then some (assignable 2 s)
      else if c = byte '=' then some (.operator, 2)
      else some (.star, 1)
    else if b = byte '+' || b = byte '-' || b = byte '&' || b = byte '|' then
      some (assignable (if c = b then 2 else 1) s)
    else if b = byte '%' || b = byte '^' then some (assignable 1 s)
    else none

end JsxPresence.Punctuator
