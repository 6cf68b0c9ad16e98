import JsxPresence.Bytes

namespace JsxPresence.Literal

/-- How far a literal reaches, and whether it closes there. -/
structure Extent where
  length : Nat
  closed : Bool
deriving DecidableEq

/-- The rest of a string: a backslash takes the next byte along, a newline ends the attempt. -/
def quotedFrom (quote : UInt8) (n : Nat) : Bytes → Extent
  | [] => ⟨n, false⟩
  | [b] => if b = quote then ⟨n + 1, true⟩ else if b = byte '\n' then ⟨n, false⟩ else ⟨n + 1, false⟩
  | b :: c :: r =>
    if b = quote then ⟨n + 1, true⟩
    else if b = byte '\n' then ⟨n, false⟩
    else if b = backslash then quotedFrom quote (n + 2) r
    else quotedFrom quote (n + 1) (c :: r)

def quoted (quote : UInt8) (s : Bytes) : Extent := quotedFrom quote 0 s

/-- How a template part ends. -/
inductive TemplateEnd where
  | closed
  | substitution
  | unterminated
deriving DecidableEq

structure TemplatePart where
  length : Nat
  ending : TemplateEnd
  /-- A newline stands in the part outside an escape. -/
  newline : Bool
deriving DecidableEq

def templateFrom (n : Nat) (newline : Bool) : Bytes → TemplatePart
  | [] => ⟨n, .unterminated, newline⟩
  | [b] =>
    if b = backslash then ⟨n + 1, .unterminated, newline⟩
    else if b = backquote then ⟨n + 1, .closed, newline⟩
    else ⟨n + 1, .unterminated, newline || b = byte '\n'⟩
  | b :: c :: r =>
    if b = backslash then templateFrom (n + 2) newline r
    else if b = backquote then ⟨n + 1, .closed, newline⟩
    else if b = byte '$' && c = openBrace then ⟨n + 2, .substitution, newline⟩
    else templateFrom (n + 1) (newline || b = byte '\n') (c :: r)

/-- The part of a template up to its closing quote or next substitution. -/
def template (s : Bytes) : TemplatePart := templateFrom 0 false s

/-- The rest of a regular expression: a slash inside a class does not close it, and a newline ends
the attempt even after a backslash. -/
def regexFrom (n : Nat) (inClass : Bool) : Bytes → Extent
  | [] => ⟨n, false⟩
  | [b] =>
    if b = byte '\n' then ⟨n, false⟩
    else if b = byte '/' && !inClass then ⟨n + 1, true⟩
    else ⟨n + 1, false⟩
  | b :: c :: r =>
    if b = byte '\n' then ⟨n, false⟩
    else if b = backslash then
      if c = byte '\n' then ⟨n + 1, false⟩ else regexFrom (n + 2) inClass r
    else if b = byte '[' then regexFrom (n + 1) true (c :: r)
    else if b = byte ']' then regexFrom (n + 1) false (c :: r)
    else if b = byte '/' && !inClass then ⟨n + 1 + Bytes.run isNameByte (c :: r), true⟩
    else regexFrom (n + 1) inClass (c :: r)

def regex (s : Bytes) : Extent := regexFrom 0 false s

def isDigitOrGap (b : UInt8) : Bool := isDigit b || b = byte '_'

def isRadixMark (b : UInt8) : Bool :=
  b = byte 'x' || b = byte 'X' || b = byte 'o' || b = byte 'O' || b = byte 'b' || b = byte 'B'

/-- A point and the digits after it, unless a second point follows. -/
def fraction : Bytes → Nat
  | [] => 0
  | b :: r =>
    if b = byte '.' && r.headD 0 != byte '.' then 1 + Bytes.run isDigitOrGap r else 0

/-- `e`, an optional sign and digits. -/
def exponent : Bytes → Nat
  | [] => 0
  | b :: r =>
    if b = byte 'e' || b = byte 'E' then
      if isDigit (r.headD 0) then 1 + Bytes.run isDigitOrGap r
      else if (r.headD 0 = byte '+' || r.headD 0 = byte '-') && isDigit (Bytes.byteAt r 1) then
        2 + Bytes.run isDigitOrGap (r.drop 1)
      else 0
    else 0

/-- A decimal literal with its optional fraction, exponent and `n`. -/
def plainNumber (s : Bytes) : Nat :=
  let whole := Bytes.run isDigitOrGap s
  let withFraction := whole + fraction (s.drop whole)
  let withExponent := withFraction + exponent (s.drop withFraction)
  if s.byteAt withExponent = byte 'n' then withExponent + 1 else withExponent

/-- A number; it is not closed if a name follows without a gap. -/
def number (s : Bytes) : Extent :=
  if s.headD 0 = byte '0' && isRadixMark (s.byteAt 1) then
    ⟨2 + Bytes.run isNameByte (s.drop 2), true⟩
  else
    let n := plainNumber s
    if isNameStart (s.byteAt n) then ⟨n + Bytes.run isNameByte (s.drop n), false⟩
    else ⟨n, true⟩

end JsxPresence.Literal
