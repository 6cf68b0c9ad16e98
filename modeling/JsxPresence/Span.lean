namespace JsxPresence

/-- Offsets recorded in tokens, errors and locations are kept modulo this. -/
def offsetLimit : Nat := 0x100000000

/-- Bytes `[start, stop)`. -/
@[ext]
structure Span where
  start : Nat
  stop : Nat
deriving DecidableEq, Inhabited

namespace Span

def ofOffsets (start stop : Nat) : Span := ⟨start % offsetLimit, stop % offsetLimit⟩

theorem ofOffsets_eq {start stop : Nat} (h : start < offsetLimit) (k : stop < offsetLimit) :
    ofOffsets start stop = ⟨start, stop⟩ := by
  simp [ofOffsets, Nat.mod_eq_of_lt h, Nat.mod_eq_of_lt k]

def length (s : Span) : Nat := s.stop - s.start

/-- The other span starts and ends inside this one, bounds included. -/
def contains (s t : Span) : Bool := s.start ≤ t.start && t.stop ≤ s.stop

end Span

end JsxPresence
