import JsxPresence.Proofs.Token.Stream

namespace JsxPresence.Lexer

variable {text : Bytes}

theorem errors_skipTrivia (lx : Lexer text) : lx.errors <+: lx.skipTrivia.errors := by
  cases hopen : (Trivia.scan lx.rest).openComment <;> simp [skipTrivia, hopen]

theorem errors_elementName (lx : Lexer text) : lx.errors <+: lx.elementName.2.errors := by
  unfold elementName
  split <;> exact errors_emit _ _

theorem errors_elementString (lx : Lexer text) : lx.errors <+: lx.elementString.2.errors := by
  unfold elementString
  dsimp only
  split <;> exact errors_emit _ _

/-- With the errors of the marked moment, and perhaps more, going back is exact. -/
theorem restore_mark {lx ly : Lexer text} (h : lx.errors <+: ly.errors) :
    ly.restore lx.mark = lx := by
  have hcursor : ly.cursor.seek lx.pos = lx.cursor := by
    rw [Cursor.seek_eq]
    exact Cursor.ext_pos rfl
  have herrors : ly.errors.take lx.errors.length = lx.errors := by
    obtain ⟨more, he⟩ := h
    rw [← he, List.take_left]
  unfold restore mark
  rw [hcursor, herrors]

/-- What can be asked of a lexer. -/
inductive Motion where
  | next
  | elementName
  | elementString
  | elementText
  | skipTrivia
  | skipByte
  | reset (pos : Nat) (regexAllowed : Bool)

/-- The token that is found, if one is asked for, and the lexer from then on. -/
def Motion.run (lx : Lexer text) : Motion → Option Token × Lexer text
  | next => (lx.next.1, lx.next.2)
  | elementName => (lx.elementName.1, lx.elementName.2)
  | elementString => (lx.elementString.1, lx.elementString.2)
  | elementText => (lx.elementText.1, lx.elementText.2)
  | skipTrivia => (none, lx.skipTrivia)
  | skipByte => (none, lx.skipByte)
  | reset pos regexAllowed => (none, lx.reset pos regexAllowed)

theorem Motion.errors_run (lx : Lexer text) (m : Motion) : lx.errors <+: (m.run lx).2.errors := by
  cases m with
  | next => exact lx.errors_next
  | elementName => exact lx.errors_elementName
  | elementString => exact lx.errors_elementString
  | elementText => exact errors_emit _ _
  | skipTrivia => exact lx.errors_skipTrivia
  | skipByte | reset => exact List.prefix_refl _

/-- A lexer and the marks that were set, oldest first. -/
structure Marked (text : Bytes) where
  lexer : Lexer text
  marks : List Mark

inductive Command where
  | move (m : Motion)
  /-- Sets a mark. -/
  | save
  /-- Goes back to the mark with this number; without one nothing happens. -/
  | restore (n : Nat)

/-- What is seen of a lexer after a command. -/
structure Sight where
  token : Option Token
  pos : Nat
  errors : List LexicalError

namespace Marked

def perform (s : Marked text) : Command → Option Token × Marked text
  | .move m => ((m.run s.lexer).1, { s with lexer := (m.run s.lexer).2 })
  | .save => (none, { s with marks := s.marks ++ [s.lexer.mark] })
  | .restore n => (none, { s with lexer := s.marks[n]?.elim s.lexer s.lexer.restore })

def after (s : Marked text) (cs : List Command) : Marked text :=
  cs.foldl (fun s c => (s.perform c).2) s

/-- What is seen after each of the commands. -/
def sights (s : Marked text) : List Command → List Sight
  | [] => []
  | c :: cs =>
    let (token, s) := s.perform c
    ⟨token, s.lexer.pos, s.lexer.errors⟩ :: s.sights cs

/-- All that was marked since has the errors of a moment, and the lexer has them still. -/
structure Since (lx : Lexer text) (s : Marked text) : Prop where
  errors : lx.errors <+: s.lexer.errors
  marks : ∀ m ∈ s.marks, lx.errors.length ≤ m.errorCount

theorem since_start (lx : Lexer text) : Since lx ⟨lx, []⟩ :=
  ⟨List.prefix_refl _, fun _ hm => by cases hm⟩

theorem Since.perform {lx : Lexer text} {s : Marked text} (h : Since lx s) (c : Command) :
    Since lx (s.perform c).2 := by
  cases c with
  | move m => exact ⟨h.errors.trans (m.errors_run s.lexer), h.marks⟩
  | save =>
    refine ⟨h.errors, fun m hm => ?_⟩
    rcases List.mem_append.1 hm with hm | hm
    · exact h.marks m hm
    · rw [List.mem_singleton.1 hm]
      exact h.errors.length_le
  | restore n =>
    refine ⟨?_, h.marks⟩
    rw [Marked.perform]
    cases hn : s.marks[n]? with
    | none => exact h.errors
    | some m =>
      exact List.prefix_take_iff.2 ⟨h.errors, h.marks m (List.mem_of_getElem? hn)⟩

theorem Since.after {lx : Lexer text} {s : Marked text} (h : Since lx s) (cs : List Command) :
    Since lx (s.after cs) := by
  induction cs generalizing s with
  | nil => exact h
  | cons c cs ih => exact ih (h.perform c)

/-- Going back to a mark undoes all commands since, if none of them went back further. What is seen
from then on is what would have been seen from the mark on. -/
theorem sights_restored (s : Marked text) (between later : List Command) :
    let t := (⟨s.lexer, []⟩ : Marked text).after between
    sights ⟨t.lexer.restore s.lexer.mark, s.marks⟩ later = s.sights later := by
  intro t
  have hsince : Since s.lexer t := (since_start s.lexer).after between
  rw [restore_mark hsince.errors]

end Marked

end JsxPresence.Lexer
