import JsxPresence.Json

namespace JsxPresence.Json

def hexDigit (n : Nat) : UInt8 := (Nat.digitChar n).toUInt8

/-- The letter that stands for a byte after a backslash. -/
def shortEscape? (b : UInt8) : Option UInt8 :=
  if b = doubleQuote || b = backslash then some b
  else if b = 0x08 then some (byte 'b')
  else if b = 0x0c then some (byte 'f')
  else if b = 0x0a then some (byte 'n')
  else if b = 0x0d then some (byte 'r')
  else if b = 0x09 then some (byte 't')
  else none

/-- Control bytes without a letter are written by their number. -/
def escapeByte (b : UInt8) : Bytes :=
  match shortEscape? b with
  | some letter => [backslash, letter]
  | none =>
    if b < 0x20 then utf8 "\\u00" ++ [hexDigit (b.toNat / 16), hexDigit (b.toNat % 16)]
    else [b]

def escape (s : Bytes) : Bytes := s.flatMap escapeByte

def quote (s : Bytes) : Bytes := doubleQuote :: escape s ++ [doubleQuote]

/-- Starts a line at a depth; on one line there are none. -/
def newline (indent depth : Nat) : Bytes :=
  if indent = 0 then [] else byte '\n' :: List.replicate (depth * indent) (byte ' ')

def colon (indent : Nat) : Bytes := if indent = 0 then utf8 ":" else utf8 ": "

namespace Value

mutual

/-- Writes a value that starts at a depth, with `indent` blanks for each level. -/
def write (indent depth : Nat) : Value → Bytes
  | null => utf8 "null"
  | bool true => utf8 "true"
  | bool false => utf8 "false"
  | integer n => decimalInt n
  | string s => quote s
  | array [] => utf8 "[]"
  | array (v :: rest) =>
    utf8 "[" ++ newline indent (depth + 1) ++ write indent (depth + 1) v ++
      writeItems indent (depth + 1) rest ++ newline indent depth ++ utf8 "]"
  | object [] => [openBrace, closeBrace]
  | object ((key, v) :: rest) =>
    openBrace :: newline indent (depth + 1) ++ quote key ++ colon indent ++
      write indent (depth + 1) v ++ writeMembers indent (depth + 1) rest ++
      newline indent depth ++ [closeBrace]

/-- The items after the first. -/
def writeItems (indent depth : Nat) : List Value → Bytes
  | [] => []
  | v :: rest =>
    utf8 "," ++ newline indent depth ++ write indent depth v ++ writeItems indent depth rest

/-- The members after the first. -/
def writeMembers (indent depth : Nat) : List (Bytes × Value) → Bytes
  | [] => []
  | (key, v) :: rest =>
    utf8 "," ++ newline indent depth ++ quote key ++ colon indent ++ write indent depth v ++
      writeMembers indent depth rest

end

def compact (v : Value) : Bytes := v.write 0 0

/-- An indent that is not positive counts as two. -/
def pretty (v : Value) (indent : Int) : Bytes := v.write (if 0 < indent then indent.toNat else 2) 0

end Value

end JsxPresence.Json
