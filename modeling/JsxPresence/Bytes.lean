namespace JsxPresence

/-- Text. Names, messages and file contents may hold any byte, so nothing assumes valid UTF-8; the
byte classes know ASCII only. -/
abbrev Bytes := List UInt8

/-- The UTF-8 bytes of a string. -/
def utf8 (s : String) : Bytes := s.toUTF8.data.toList

/-- The byte of an ASCII character. -/
def byte (c : Char) : UInt8 := c.toUInt8

def doubleQuote : UInt8 := 0x22

def singleQuote : UInt8 := 0x27

def backquote : UInt8 := 0x60

def backslash : UInt8 := 0x5c

def openBrace : UInt8 := 0x7b

def closeBrace : UInt8 := 0x7d

def isDigit (b : UInt8) : Bool := byte '0' ≤ b && b ≤ byte '9'

def isLower (b : UInt8) : Bool := byte 'a' ≤ b && b ≤ byte 'z'

def isUpper (b : UInt8) : Bool := byte 'A' ≤ b && b ≤ byte 'Z'

def isAlpha (b : UInt8) : Bool := isLower b || isUpper b

def isAlnum (b : UInt8) : Bool := isAlpha b || isDigit b

/-- Space, tab, line feed, vertical tab, form feed and carriage return. -/
def isSpace (b : UInt8) : Bool := b = byte ' ' || (0x09 ≤ b && b ≤ 0x0d)

def toLower (b : UInt8) : UInt8 := if isUpper b then b + 32 else b

/-- A byte that may stand inside an ASCII identifier. -/
def isWord (b : UInt8) : Bool := isAlnum b || b = byte '_' || b = byte '$'

/-- A byte that may start a name in program text; every byte of a non-ASCII character may. -/
def isNameStart (b : UInt8) : Bool :=
  isAlpha b || b = byte '_' || b = byte '$' || 0x80 ≤ b

def isNameByte (b : UInt8) : Bool := isNameStart b || isDigit b

namespace Bytes

/-- The number of leading bytes that satisfy `p`. -/
def run (p : UInt8 → Bool) (s : Bytes) : Nat := (s.takeWhile p).length

theorem run_le (p : UInt8 → Bool) (s : Bytes) : run p s ≤ s.length :=
  (List.takeWhile_sublist p).length_le

/-- The byte at offset `n`, zero past the end. -/
def byteAt (s : Bytes) (n : Nat) : UInt8 := s.getD n 0

/-- Bytes `[start, stop)`, cut off at the end of the text. -/
def slice (s : Bytes) (start stop : Nat) : Bytes := (s.drop start).take (stop - start)

/-- `needle` occurs somewhere in the text. -/
def hasInfix (needle : Bytes) : Bytes → Bool
  | [] => needle.isEmpty
  | b :: r => needle.isPrefixOf (b :: r) || hasInfix needle r

/-- The text from the last occurrence of `c` on. -/
def fromLast? (c : UInt8) : Bytes → Option Bytes
  | [] => none
  | b :: r =>
    match fromLast? c r with
    | some t => some t
    | none => if b = c then some (b :: r) else none

/-- Cuts at every `sep`; a text without one is a single field. -/
def fields (sep : UInt8) : Bytes → List Bytes
  | [] => [[]]
  | b :: r =>
    if b = sep then [] :: fields sep r
    else
      match fields sep r with
      | [] => [[b]]
      | f :: fs => (b :: f) :: fs

theorem fields_ne_nil (sep : UInt8) (s : Bytes) : fields sep s ≠ [] := by
  cases s with
  | nil => simp [fields]
  | cons b r =>
    by_cases h : b = sep
    · simp [fields, h]
    · cases hf : fields sep r <;> simp [fields, h, hf]

/-- Joining the fields with `sep` gives the text back. -/
theorem intercalate_fields (sep : UInt8) (s : Bytes) :
    [sep].intercalate (fields sep s) = s := by
  induction s with
  | nil => rfl
  | cons b r ih =>
    by_cases h : b = sep
    · cases hf : fields sep r with
      | nil => exact absurd hf (fields_ne_nil sep r)
      | cons f fs =>
        rw [hf] at ih
        simp [fields, h, hf, List.intercalate] at ih ⊢
        exact ih
    · cases hf : fields sep r with
      | nil => exact absurd hf (fields_ne_nil sep r)
      | cons f fs =>
        rw [hf] at ih
        cases fs <;> simp_all [fields, List.intercalate, List.intersperse]

/-- Strips `head` from the front, if the text starts with it. -/
def strip? (head : Bytes) (s : Bytes) : Option Bytes :=
  if head.isPrefixOf s then some (s.drop head.length) else none

/-- Byte-wise order; a text comes before its extensions. -/
def less : Bytes → Bytes → Bool
  | _, [] => false
  | [], _ :: _ => true
  | a :: s, b :: t => a.toNat < b.toNat || (a = b && less s t)

/-- Adds to a strictly increasing list, keeping it so. -/
def insertSorted (s : Bytes) : List Bytes → List Bytes
  | [] => [s]
  | t :: r =>
    if less s t then s :: t :: r else if s = t then t :: r else t :: insertSorted s r

end Bytes

/-- Decimal digits of a number, without leading zeros. -/
def decimal (n : Nat) : Bytes := (Nat.toDigits 10 n).map Char.toUInt8

def decimalInt : Int → Bytes
  | .ofNat n => decimal n
  | .negSucc n => byte '-' :: decimal (n + 1)

end JsxPresence
