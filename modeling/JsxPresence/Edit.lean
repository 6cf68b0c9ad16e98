import JsxPresence.Span
import JsxPresence.Bytes

namespace JsxPresence

/-- Puts `replacement` in the stead of bytes `[start, stop)`. -/
@[ext]
structure Edit where
  start : Nat
  stop : Nat
  replacement : Bytes
deriving DecidableEq

namespace Edit

def insertion (offset : Nat) (text : Bytes) : Edit := ⟨offset, offset, text⟩

def replace (span : Span) (text : Bytes) : Edit := ⟨span.start, span.stop, text⟩

def isInsertion (e : Edit) : Bool := e.start = e.stop

/-- The edit lies inside a text of the given length. -/
def fits (length : Nat) (e : Edit) : Bool := e.start ≤ e.stop && e.stop ≤ length

/-- An offset lies strictly inside the edit's range. -/
def covers (e : Edit) (offset : Nat) : Bool := e.start < offset && offset < e.stop

/-- Two insertions never overlap, an insertion overlaps a replacement strictly inside it, and two
replacements overlap if they share a byte. -/
def overlaps (a b : Edit) : Bool :=
  if a.isInsertion then !b.isInsertion && b.covers a.start
  else if b.isInsertion then a.covers b.start
  else a.start < b.stop && b.start < a.stop

theorem overlaps_comm (a b : Edit) : a.overlaps b = b.overlaps a := by
  by_cases ha : a.isInsertion <;> by_cases hb : b.isInsertion <;>
    simp [overlaps, ha, hb, Bool.and_comm]

/-- The range as people read it. -/
def rangeText (e : Edit) : Bytes :=
  utf8 "[" ++ decimal e.start ++ utf8 ", " ++ decimal e.stop ++ utf8 ")"

end Edit

/-- Why a list of edits cannot be applied. An edit is named by its place in the list. -/
inductive EditError where
  | outOfRange (edit : Edit) (index length : Nat)
  | overlap (edit : Edit) (index : Nat) (earlier : Edit)
deriving DecidableEq

namespace EditError

def index : EditError → Nat
  | outOfRange _ index _ => index
  | overlap _ index _ => index

def message : EditError → Bytes
  | outOfRange edit _ length =>
    utf8 "patch " ++ edit.rangeText ++ utf8 " is out of range for text of length " ++
      decimal length
  | overlap edit _ earlier =>
    utf8 "patch " ++ edit.rangeText ++ utf8 " overlaps " ++ earlier.rangeText

/-- Of two edits that overlap, the one that comes later in the list is at fault. -/
def ofPair (a b : Edit × Nat) : EditError :=
  if a.2 ≤ b.2 then .overlap b.1 b.2 a.1 else .overlap a.1 a.2 b.1

end EditError

namespace Edit

/-- In the order of their starts; edits with one start keep their order. -/
def sort (edits : List Edit) : List Edit := edits.mergeSort fun a b => a.start ≤ b.start

/-- In the order of the starts, the edit is left behind at `b`: neither `b` nor what comes after it
can overlap it. -/
def isPassedAt (a b : Edit) : Bool :=
  if a.isInsertion then a.start < b.start else a.stop ≤ b.start

/-- The first of the edits that overlaps `a`, looked for until `a` is left behind. -/
def overlapping? (a : Edit) : List (Edit × Nat) → Option (Edit × Nat)
  | [] => none
  | b :: rest =>
    if a.isPassedAt b.1 then none else if a.overlaps b.1 then some b else overlapping? a rest

/-- The first pair that overlaps, in a list in the order of the starts. -/
def clash? : List (Edit × Nat) → Option EditError
  | [] => none
  | a :: rest =>
    match overlapping? a.1 rest with
    | some b => some (.ofPair a b)
    | none => clash? rest

def outOfRange? (length : Nat) (edits : List Edit) : Option EditError :=
  (edits.zipIdx.find? fun e => !e.1.fits length).map fun e => .outOfRange e.1 e.2 length

/-- What is wrong with the edits of a text: first the ranges in the order of the list, then the
overlaps in the order of the starts. -/
def check (length : Nat) (edits : List Edit) : Option EditError :=
  match outOfRange? length edits with
  | some error => some error
  | none => clash? (edits.zipIdx.mergeSort fun a b => a.1.start ≤ b.1.start)

/-- By start; at one offset insertions come before a replacement. -/
def comesFirst (a b : Edit) : Bool :=
  a.start < b.start || (a.start = b.start && (a.isInsertion || !b.isInsertion))

/-- Writes the text from `cursor` on, with the edits made on the way. -/
def splice (text : Bytes) (cursor : Nat) : List Edit → Bytes
  | [] => text.drop cursor
  | e :: rest => text.slice cursor e.start ++ e.replacement ++ splice text e.stop rest

/-- The text with all edits made. -/
def apply (text : Bytes) (edits : List Edit) : Except EditError Bytes :=
  match check text.length edits with
  | some error => .error error
  | none => .ok (splice text 0 (edits.mergeSort comesFirst))

end Edit

end JsxPresence
