import JsxPresence.Outline
import JsxPresence.Outline.Reader
import JsxPresence.Proofs.Token.Rewind

namespace JsxPresence

/-- A parser with one lexer. -/
structure Parser (text : Bytes) where
  reader : Reader text
  errors : List SyntaxError
  /-- Nothing is reported after the first error. -/
  aborted : Bool
  /-- What is recorded so far. -/
  outline : Outline

/-- What a parser notes to come back to. -/
structure Checkpoint where
  lexer : Lexer.Mark
  current : Token
  previous : Option Token
  lastEnd : Nat
  errorCount : Nat
  aborted : Bool

/-- The moves of a parser, with an answer. -/
abbrev ParserM (text : Bytes) := StateM (Parser text)

namespace Parser

variable {text : Bytes} {α β : Type} {p q s : Parser text}

def checkpoint (p : Parser text) : Checkpoint :=
  ⟨p.reader.lexer.mark, p.reader.current, p.reader.previous, p.reader.lastEnd, p.errors.length,
    p.aborted⟩

def rewind (p : Parser text) (c : Checkpoint) : Parser text :=
  { p with
    reader := ⟨p.reader.lexer.restore c.lexer, c.current, c.previous, c.lastEnd⟩
    errors := p.errors.take c.errorCount
    aborted := c.aborted }

def report (p : Parser text) (e : SyntaxError) : Parser text :=
  if p.aborted then p else { p with errors := p.errors ++ [e], aborted := true }

/-- Passes the token at hand. If the lexer cannot make out the next one, that is reported. -/
def step (p : Parser text) : Parser text :=
  let next : Parser text := { p with reader := p.reader.step }
  match p.reader.step.checked with
  | .ok _ => next
  | .error e => next.report e

/-- Something that can be seen without a move. -/
def view {α : Type} (f : Reader text → α) : ParserM text α := fun p => (f p.reader, p)

def advance : ParserM text Unit := fun p => ((), p.step)

/-- Makes the moves and rewinds. -/
def lookAhead {α : Type} (x : ParserM text α) : ParserM text α := do
  let p ← get
  let a ← x
  modify (·.rewind p.checkpoint)
  return a

/-- Makes the moves, and rewinds if they come to nothing. -/
def attempt (x : ParserM text Bool) : ParserM text Bool := do
  let p ← get
  if ← x then return true
  else
    modify (·.rewind p.checkpoint)
    return false

/-- Nothing is lost on the way from the first parser to the second, and nothing recorded. -/
structure Onward (p q : Parser text) : Prop where
  lexer : p.reader.lexer.errors <+: q.reader.lexer.errors
  errors : p.errors <+: q.errors
  outline : q.outline = p.outline

theorem Onward.refl (p : Parser text) : p.Onward p := ⟨List.prefix_refl _, List.prefix_refl _, rfl⟩

theorem Onward.trans (h : p.Onward q) (k : q.Onward s) : p.Onward s :=
  ⟨h.lexer.trans k.lexer, h.errors.trans k.errors, k.outline.trans h.outline⟩

/-- Whatever was met, rewinding is exact. -/
theorem rewind_checkpoint (h : p.Onward q) : q.rewind p.checkpoint = p := by
  have herrors : q.errors.take p.errors.length = p.errors := by
    obtain ⟨more, he⟩ := h.errors
    rw [← he, List.take_left]
  have hlexer : q.reader.lexer.restore p.reader.lexer.mark = p.reader.lexer :=
    Lexer.restore_mark h.lexer
  unfold rewind checkpoint
  rw [hlexer, herrors, h.outline]

theorem onward_report (p : Parser text) (e : SyntaxError) : p.Onward (p.report e) := by
  unfold report
  split
  · exact .refl p
  · exact ⟨List.prefix_refl _, List.prefix_append _ _, rfl⟩

theorem reader_report (p : Parser text) (e : SyntaxError) : (p.report e).reader = p.reader := by
  unfold report
  split <;> rfl

theorem reader_step (p : Parser text) : p.step.reader = p.reader.step := by
  unfold step
  split
  · rfl
  · exact reader_report _ _

theorem onward_step (p : Parser text) : p.Onward p.step := by
  have hreader : p.Onward { p with reader := p.reader.step } := by
    refine ⟨?_, List.prefix_refl _, rfl⟩
    unfold Reader.step
    split
    · exact List.prefix_refl _
    · exact p.reader.lexer.errors_next
  unfold step
  split
  · exact hreader
  · exact hreader.trans (onward_report _ _)

theorem bind_apply_of_eq {x : ParserM text α} {a : α} (h : x p = (a, p))
    (k : α → ParserM text β) : (x >>= k) p = k a p := by
  change k (x p).1 (x p).2 = k a p
  rw [h]

theorem view_bind_apply (f : Reader text → α) (k : α → ParserM text β) (p : Parser text) :
    (view f >>= k) p = k (f p.reader) p := rfl

/-- From `p` the moves go onward and end with an answer and a reader that satisfy `P`. -/
structure Leads (p : Parser text) (x : ParserM text α) (P : α → Reader text → Prop) : Prop where
  holds : P (x p).1 (x p).2.reader
  onward : p.Onward (x p).2

namespace Leads

variable {P P' : α → Reader text → Prop} {Q : β → Reader text → Prop} {x : ParserM text α}
  {k : α → ParserM text β}

theorem pure {a : α} (h : P a p.reader) : Leads p (Pure.pure a) P := ⟨h, .refl p⟩

theorem bind (hx : Leads p x P) (hk : ∀ a q, P a q.reader → Leads q (k a) Q) :
    Leads p (x >>= k) Q :=
  have h := hk (x p).1 (x p).2 hx.holds
  ⟨h.holds, hx.onward.trans h.onward⟩

theorem mono (hx : Leads p x P) (h : ∀ a r, P a r → P' a r) : Leads p x P' :=
  ⟨h _ _ hx.holds, hx.onward⟩

theorem view {f : Reader text → α} (h : P (f p.reader) p.reader) : Leads p (view f) P :=
  ⟨h, .refl p⟩

theorem view_bind {f : Reader text → α} (h : Leads p (k (f p.reader)) Q) :
    Leads p (Parser.view f >>= k) Q := ⟨h.holds, h.onward⟩

theorem advance {P : Unit → Reader text → Prop} (h : P () p.reader.step) :
    Leads p advance P :=
  ⟨by rw [← reader_step] at h; exact h, onward_step p⟩

theorem advance_bind {k : Unit → ParserM text β}
    (h : ∀ q : Parser text, q.reader = p.reader.step → Leads q (k ()) Q) :
    Leads p (Parser.advance >>= k) Q :=
  (advance (P := fun _ r => r = p.reader.step) rfl).bind fun _ q hq => h q hq

/-- What is seen by looking ahead does not move the parser. -/
theorem of_eq {a : α} (hx : x p = (a, p)) (h : Leads p (k a) Q) :
    Leads p (x >>= k) Q := by
  have hk := bind_apply_of_eq hx k
  exact ⟨hk ▸ h.holds, hk ▸ h.onward⟩

end Leads

/-- After looking ahead the parser is what it was. -/
theorem lookAhead_eq {x : ParserM text α} {a : α} (h : Leads p x fun b _ => b = a) :
    lookAhead x p = (a, p) :=
  Prod.ext h.holds (rewind_checkpoint h.onward)

/-- After a failed attempt the parser is what it was. -/
theorem attempt_of_false {x : ParserM text Bool} (h : Leads p x fun b _ => b = false) :
    attempt x p = (false, p) := by
  change (if (x p).1 then Pure.pure true else _ : ParserM text Bool) (x p).2 = _
  rw [h.holds]
  exact Prod.ext rfl (rewind_checkpoint h.onward)

theorem attempt_of_true {x : ParserM text Bool} {r : Reader text}
    (h : Leads p x fun b s => b = true ∧ s = r) :
    (attempt x p).1 = true ∧ (attempt x p).2.reader = r := by
  change ((if (x p).1 then Pure.pure true else _ : ParserM text Bool) (x p).2).1 = _ ∧
    ((if (x p).1 then Pure.pure true else _ : ParserM text Bool) (x p).2).2.reader = _
  rw [h.holds.1]
  exact ⟨rfl, h.holds.2⟩

end Parser

end JsxPresence
