import JsxPresence.Bytes

namespace JsxPresence

/-- What stands before the next token. -/
structure Trivia where
  length : Nat
  /-- A newline is among the bytes passed over. -/
  newline : Bool
  /-- Where a block comment starts that the text ends in. -/
  openComment : Option Nat
deriving DecidableEq

namespace Trivia

/-- Which part of the trivia the scanner is in; a block comment remembers where it started. -/
inductive Region where
  | blank
  | lineComment
  | blockComment (start : Nat)
deriving DecidableEq

/-- Blanks other than a newline. -/
def isBlank (b : UInt8) : Bool :=
  b = byte ' ' || b = byte '\t' || b = byte '\r' || b = 0x0c || b = 0x0b

/-- Scans on from offset `n`; `newline` tells whether a newline was passed already. -/
def scanFrom : Region → Nat → Bool → Bytes → Trivia
  | .blank, n, newline, [] => ⟨n, newline, none⟩
  | .blank, n, newline, [b] =>
    if isBlank b then ⟨n + 1, newline, none⟩
    else if b = byte '\n' then ⟨n + 1, true, none⟩
    else ⟨n, newline, none⟩
  | .blank, n, newline, b :: c :: r =>
    if isBlank b then scanFrom .blank (n + 1) newline (c :: r)
    else if b = byte '\n' then scanFrom .blank (n + 1) true (c :: r)
    else if b = byte '/' && c = byte '/' then scanFrom .lineComment (n + 2) newline r
    else if b = byte '/' && c = byte '*' then scanFrom (.blockComment n) (n + 2) newline r
    else ⟨n, newline, none⟩
  | .lineComment, n, newline, [] => ⟨n, newline, none⟩
  | .lineComment, n, newline, b :: r =>
    if b = byte '\n' then scanFrom .blank (n + 1) true r
    else scanFrom .lineComment (n + 1) newline r
  | .blockComment start, n, newline, [] => ⟨n, newline, some start⟩
  | .blockComment start, n, newline, [b] => ⟨n + 1, newline || b = byte '\n', some start⟩
  | .blockComment start, n, newline, b :: c :: r =>
    if b = byte '*' && c = byte '/' then scanFrom .blank (n + 2) newline r
    else scanFrom (.blockComment start) (n + 1) (newline || b = byte '\n') (c :: r)

/-- The trivia at the front of a text. -/
def scan (s : Bytes) : Trivia := scanFrom .blank 0 false s

end Trivia

end JsxPresence
