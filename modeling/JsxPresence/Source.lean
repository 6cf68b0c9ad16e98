import JsxPresence.Bytes
import JsxPresence.Span

namespace JsxPresence

inductive Dialect where
  | ts
  | tsx
  | js
  | jsx
deriving DecidableEq

namespace Dialect

/-- The text from the last dot on decides; an unknown ending counts as `.tsx`. -/
def ofPath (path : Bytes) : Dialect :=
  match Bytes.fromLast? (byte '.') path with
  | none => .tsx
  | some ending =>
    if ending ∈ [utf8 ".ts", utf8 ".mts", utf8 ".cts"] then .ts
    else if ending ∈ [utf8 ".js", utf8 ".mjs", utf8 ".cjs"] then .js
    else if ending = utf8 ".jsx" then .jsx
    else .tsx

/-- Elements are read in every dialect but plain `.ts`. -/
def allowsElements (d : Dialect) : Bool := d != .ts

end Dialect

/-- A position as people read it; line and column count from one. -/
structure Location where
  file : Bytes
  line : Nat
  column : Nat
  offset : Nat
deriving DecidableEq

structure Source where
  filename : Bytes
  content : Bytes
deriving DecidableEq

namespace Source

/-- The name of a text that comes without one. -/
def defaultName : Bytes := utf8 "<input>.tsx"

def dialect (s : Source) : Dialect := Dialect.ofPath s.filename

def length (s : Source) : Nat := s.content.length

/-- The byte at an offset, zero past the end. -/
def byteAt (s : Source) (offset : Nat) : UInt8 := s.content.byteAt offset

def slice (s : Source) (start stop : Nat) : Bytes := s.content.slice start stop

def text (s : Source) (span : Span) : Bytes := s.slice span.start span.stop

/-- The offsets right after each newline of a text that starts at `offset`. -/
def lineBreaks (offset : Nat) : Bytes → List Nat
  | [] => []
  | b :: r =>
    if b = byte '\n' then (offset + 1) :: lineBreaks (offset + 1) r
    else lineBreaks (offset + 1) r

/-- The offset of the first byte of each line. -/
def lineStarts (s : Source) : List Nat := 0 :: lineBreaks 0 s.content

def lineCount (s : Source) : Nat := s.lineStarts.length % offsetLimit

/-- The line of an offset is the last one that starts at or before it. -/
def location (s : Source) (offset : Nat) : Location :=
  let starts := s.lineStarts.takeWhile (· ≤ offset)
  { file := s.filename
    line := starts.length % offsetLimit
    column := (offset - starts.getLastD 0 + 1) % offsetLimit
    offset := offset % offsetLimit }

/-- Drops a final `c`, if there is one. -/
def dropFinal (c : UInt8) (s : Bytes) : Bytes :=
  if s.getLast? = some c then s.dropLast else s

/-- Line `n`, counted from one, without its line break; the last line keeps a carriage return. -/
def line (s : Source) (n : Nat) : Bytes :=
  match n with
  | 0 => []
  | k + 1 =>
    match s.lineStarts[k]?, s.lineStarts[k + 1]? with
    | none, _ => []
    | some start, none => s.content.drop start
    | some start, some stop => dropFinal (byte '\r') (dropFinal (byte '\n') (s.slice start stop))

end Source

end JsxPresence
