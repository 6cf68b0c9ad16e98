import JsxPresence.Json

namespace JsxPresence.Json

/-- Space, tab, line feed and carriage return. -/
def isBlank (b : UInt8) : Bool := b = 0x20 || b = 0x09 || b = 0x0a || b = 0x0d

def Blank (w : Bytes) : Prop := ∀ b ∈ w, isBlank b = true

/-- Control bytes are never part of a string as they are. -/
def isControl (b : UInt8) : Bool := b < 0x20

/-- The number with these decimal digits. -/
def natural (digits : Bytes) : Nat := digits.foldl (fun n d => 10 * n + (d.toNat - 48)) 0

/-- A number in decimal digits; only zero itself starts with a zero. -/
structure IsNatural (n : Nat) (t : Bytes) : Prop where
  ne_nil : t ≠ []
  digits : ∀ b ∈ t, isDigit b = true
  zero : t.head? = some (byte '0') → t.length = 1
  value : natural t = n

inductive IsInteger : Int → Bytes → Prop
  | plain {n : Nat} {t : Bytes} (h : IsNatural n t) : IsInteger n t
  | minus {n : Nat} {t : Bytes} (h : IsNatural n t) : IsInteger (-n) (byte '-' :: t)

/-- What a string is made of: bytes, and code units that were written by their number. -/
inductive Piece where
  | plain (b : UInt8)
  | unit (n : Nat)
deriving DecidableEq

def isHigh (n : Nat) : Bool := 0xd800 ≤ n && n < 0xdc00

def isLow (n : Nat) : Bool := 0xdc00 ≤ n && n < 0xe000

/-- The UTF-8 bytes of a code point. Half of a pair is no code point and is replaced. -/
def encode (n : Nat) : Bytes :=
  String.utf8EncodeChar (Char.ofNat (if n.isValidChar then n else 0xfffd))

/-- The bytes that the pieces of a string stand for. Two code units can be one code point. -/
def Piece.text : List Piece → Bytes
  | [] => []
  | plain b :: rest => b :: text rest
  | unit n :: unit m :: rest =>
    if isHigh n && isLow m then
      encode (0x10000 + (n - 0xd800) * 0x400 + (m - 0xdc00)) ++ text rest
    else encode n ++ text (unit m :: rest)
  | unit n :: rest => encode n ++ text rest

/-- The byte that a letter behind a backslash stands for. -/
def letter? (e : UInt8) : Option UInt8 :=
  if e = doubleQuote || e = backslash || e = byte '/' then some e
  else if e = byte 'b' then some 0x08
  else if e = byte 'f' then some 0x0c
  else if e = byte 'n' then some 0x0a
  else if e = byte 'r' then some 0x0d
  else if e = byte 't' then some 0x09
  else none

def hexValue? (b : UInt8) : Option Nat :=
  if isDigit b then some (b.toNat - 48)
  else if byte 'a' ≤ b && b ≤ byte 'f' then some (b.toNat - 87)
  else if byte 'A' ≤ b && b ≤ byte 'F' then some (b.toNat - 55)
  else none

/-- Four hexadecimal digits. -/
def codeUnit? (a b c d : UInt8) : Option Nat := do
  return ((← hexValue? a) * 16 + (← hexValue? b)) * 256 + ((← hexValue? c) * 16 + (← hexValue? d))

/-- A piece of a string as it is written. -/
inductive IsPiece : Piece → Bytes → Prop
  | plain {b : UInt8} (hc : isControl b = false) (hq : b ≠ doubleQuote) (hb : b ≠ backslash) :
      IsPiece (.plain b) [b]
  | letter {e b : UInt8} (he : letter? e = some b) : IsPiece (.plain b) [backslash, e]
  | number {a b c d : UInt8} {n : Nat} (hn : codeUnit? a b c d = some n) :
      IsPiece (.unit n) [backslash, byte 'u', a, b, c, d]

inductive Pieces : List Piece → Bytes → Prop
  | nil : Pieces [] []
  | cons {p : Piece} {ps : List Piece} {s t : Bytes} (h : IsPiece p s) (hs : Pieces ps t) :
      Pieces (p :: ps) (s ++ t)

def IsString (s t : Bytes) : Prop :=
  ∃ ps body, Pieces ps body ∧ s = Piece.text ps ∧ t = doubleQuote :: body ++ [doubleQuote]

def comma : UInt8 := byte ','

def openBracket : UInt8 := byte '['

def closeBracket : UInt8 := byte ']'

/-- The words that are values. -/
def words : List (Bytes × Value) :=
  [(utf8 "null", .null), (utf8 "true", .bool true), (utf8 "false", .bool false)]

/-- What a stretch of text can be: a value, a value with blanks around it, or the inside of an array
or an object. -/
inductive Phrase where
  | value (v : Value)
  | spaced (v : Value)
  | items (vs : List Value)
  | member (m : Bytes × Value)
  | members (ms : List (Bytes × Value))

/-- The text says the phrase. A whole text is a value with blanks around it. -/
inductive Says : Phrase → Bytes → Prop
  | word {v : Value} {t : Bytes} (h : (t, v) ∈ words) : Says (.value v) t
  | integer {n : Int} {t : Bytes} (h : IsInteger n t) : Says (.value (.integer n)) t
  | string {s t : Bytes} (h : IsString s t) : Says (.value (.string s)) t
  | emptyArray {w : Bytes} (hw : Blank w) :
      Says (.value (.array [])) (openBracket :: w ++ [closeBracket])
  | array {vs : List Value} {t : Bytes} (h : Says (.items vs) t) :
      Says (.value (.array vs)) (openBracket :: t ++ [closeBracket])
  | emptyObject {w : Bytes} (hw : Blank w) :
      Says (.value (.object [])) (openBrace :: w ++ [closeBrace])
  | object {ms : List (Bytes × Value)} {t : Bytes} (h : Says (.members ms) t) :
      Says (.value (.ofMembers ms)) (openBrace :: t ++ [closeBrace])
  | spaced {v : Value} {a t b : Bytes} (ha : Blank a) (h : Says (.value v) t) (hb : Blank b) :
      Says (.spaced v) (a ++ t ++ b)
  | item {v : Value} {t : Bytes} (h : Says (.spaced v) t) : Says (.items [v]) t
  | moreItems {v : Value} {vs : List Value} {t u : Bytes} (h : Says (.spaced v) t)
      (hs : Says (.items vs) u) : Says (.items (v :: vs)) (t ++ comma :: u)
  | member {key : Bytes} {v : Value} {a k b t : Bytes} (ha : Blank a) (hk : IsString key k)
      (hb : Blank b) (h : Says (.spaced v) t) :
      Says (.member (key, v)) (a ++ k ++ b ++ byte ':' :: t)
  | oneMember {m : Bytes × Value} {t : Bytes} (h : Says (.member m) t) : Says (.members [m]) t
  | moreMembers {m : Bytes × Value} {ms : List (Bytes × Value)} {t u : Bytes}
      (h : Says (.member m) t) (hs : Says (.members ms) u) :
      Says (.members (m :: ms)) (t ++ comma :: u)

theorem blank_nil : Blank [] := by simp [Blank]

/-- There need not be blanks around a value. -/
theorem Says.unspaced {v : Value} {t : Bytes} (h : Says (.value v) t) : Says (.spaced v) t := by
  simpa using Says.spaced blank_nil h blank_nil

end JsxPresence.Json
