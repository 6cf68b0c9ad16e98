import JsxPresence.Proofs.Outline.Alike.Reader

namespace JsxPresence

/-- The computation gives a result of this kind, or fails for another cause than spent fuel. -/
def Ends {α : Type} (P : α → Prop) : Except SyntaxError α → Prop
  | .ok a => P a
  | .error e => e.cause ≠ .exhausted

/-- Two computations that are the same, and end. -/
structure Sure {α : Type} (P : α → Prop) (x y : Except SyntaxError α) : Prop where
  eq : x = y
  ends : Ends P x

namespace Sure

variable {α β : Type} {P : α → Prop} {Q : β → Prop}

theorem pure {a : α} (h : P a) : Sure P (Pure.pure a) (Pure.pure a) := ⟨rfl, h⟩

theorem throw {e : SyntaxError} (h : e.cause ≠ .exhausted) :
    Sure P (MonadExcept.throw e) (MonadExcept.throw e) := ⟨rfl, h⟩

theorem throw_bind {e : SyntaxError} {f g : β → Except SyntaxError α}
    (h : e.cause ≠ .exhausted) :
    Sure P (MonadExcept.throw e >>= f) (MonadExcept.throw e >>= g) := ⟨rfl, h⟩

theorem bind {x y : Except SyntaxError α} {f g : α → Except SyntaxError β} (h : Sure P x y)
    (hf : ∀ a, P a → Sure Q (f a) (g a)) : Sure Q (x >>= f) (y >>= g) := by
  obtain ⟨rfl, hends⟩ := h
  cases x with
  | error e => exact ⟨rfl, hends⟩
  | ok a => exact hf a hends

theorem ite {p : Prop} [Decidable p] {x y x' y' : Except SyntaxError α} (hp : p → Sure P x y)
    (hn : ¬p → Sure P x' y') : Sure P (if p then x else x') (if p then y else y') :=
  rel_ite Iff.rfl hp hn

theorem mono {x y : Except SyntaxError α} {P' : α → Prop} (h : Sure P x y)
    (hi : ∀ a, P a → P' a) : Sure P' x y := by
  obtain ⟨rfl, hends⟩ := h
  cases x with
  | error e => exact ⟨rfl, hends⟩
  | ok a => exact ⟨rfl, hi a hends⟩

/-- What is known of the result besides. -/
theorem yields {x y : Except SyntaxError α} {P' : α → Prop} (h : Sure P x y) (hx : Yields x P') :
    Sure (fun a => P' a ∧ P a) x y := by
  obtain ⟨rfl, hends⟩ := h
  cases x with
  | error e => exact ⟨rfl, hends⟩
  | ok a => exact ⟨rfl, hx a rfl, hends⟩

end Sure

theorem exists_succ_of_lt_min {n fuel fuel' : Nat} (h : n < min fuel fuel') :
    ∃ k l, fuel = k + 1 ∧ fuel' = l + 1 := ⟨fuel - 1, fuel' - 1, by omega, by omega⟩

namespace Reader

variable {text : Bytes} {r s : Reader text} {n m fuel fuel' : Nat}

/-- The token at hand is one that a lexer inside the text has just read. -/
def Stands (r : Reader text) : Prop :=
  ∃ lx : Lexer text, lx.pos ≤ text.length ∧ lx.next = (r.current, r.lexer)

theorem stands_next {lx : Lexer text} (h : lx.pos ≤ text.length) (previous : Option Token)
    (lastEnd : Nat) : Stands ⟨lx.next.2, lx.next.1, previous, lastEnd⟩ := ⟨lx, h, rfl⟩

theorem Stands.pos_le (h : r.Stands) : r.lexer.pos ≤ text.length := by
  obtain ⟨lx, hle, hnext⟩ := h
  have hlexer : r.lexer = lx.next.2 := by rw [hnext]
  rw [hlexer]
  cases hr : lx.ahead.rest with
  | nil =>
    rw [Lexer.next_of_rest_nil hr]
    exact Lexer.ahead_le hle
  | cons b rest =>
    have hne : lx.next.1.kind ≠ .eof := by simp [Lexer.next_kind_eq_eof_iff, hr]
    exact (Lexer.lt_next_pos hne).2

/-- The reader stands in its text, and unless it is at the end, at most `n` bytes are before it, the
last one of the token at hand among them. -/
structure Left (n : Nat) (r : Reader text) : Prop where
  stands : r.Stands
  length_lt : r.atEnd = false → text.length < n + r.lexer.pos

namespace Left

theorem mono (h : r.Left n) (hn : n ≤ m) : r.Left m where
  stands := h.stands
  length_lt he := (h.length_lt he).trans_le (Nat.add_le_add_right hn _)

/-- Before the end there is a byte to pass. -/
theorem pos (h : r.Left n) (he : r.atEnd = false) : 0 < n := by
  have hlt := h.length_lt he
  have hle := h.stands.pos_le
  omega

theorem step (h : r.Left n) : r.step.Left (n - 1) := by
  cases he : r.atEnd with
  | true =>
    rw [step_of_atEnd he]
    exact ⟨h.stands, by simp [he]⟩
  | false =>
    have hlt := h.length_lt he
    rw [step_of_not_atEnd he]
    refine ⟨stands_next h.stands.pos_le _ _, fun hnext => ?_⟩
    have hpos := Lexer.lt_next_pos (ne_eof_of_not_atEnd hnext)
    change text.length < n - 1 + r.lexer.next.2.pos
    omega

theorem step_le (h : r.Left n) : r.step.Left n := h.step.mono (Nat.sub_le n 1)

theorem checked (h : r.Left n) : Sure (Left n) r.checked r.checked := by
  refine ⟨rfl, ?_⟩
  unfold Reader.checked
  split_ifs
  · split <;> simp [Ends, failAt]
  · exact h

theorem advance (h : r.Left n) : Sure (Left (n - 1)) r.advance r.advance := h.step.checked

theorem advance_le (h : r.Left n) : Sure (Left n) r.advance r.advance := h.step_le.checked

theorem passOver (h : r.Left n) (kind : Kind) :
    Sure (Left n) (r.passOver kind) (r.passOver kind) :=
  .ite (fun _ => h.advance_le) fun _ => .pure h

end Left

theorem atEnd_eq_false_of_is {kind : Kind} (h : r.is kind = true) (hk : kind ≠ .eof) :
    r.atEnd = false :=
  not_atEnd_of_ne_eof (of_decide_eq_true h ▸ hk)

theorem atEnd_eq_false_of_isOpener (h : r.current.kind.isOpener = true) : r.atEnd = false := by
  apply not_atEnd_of_ne_eof
  intro hk
  simp [hk, Kind.isOpener] at h

/-- A skip does not depend on the fuel and leaves so many bytes. -/
structure Skip.Sure (n : Nat) (x y : Skip text) : Prop where
  eq : x = y
  left : x.reader.Left n

theorem Skip.Sure.mono {x y : Skip text} (h : x.Sure n y) (hn : n ≤ m) : x.Sure m y :=
  ⟨h.eq, h.left.mono hn⟩

theorem skipClosers_sure (h : r.Left n) (hn : n ≤ min fuel fuel') (closers : List Kind) :
    Skip.Sure n (r.skipClosers closers fuel) (r.skipClosers closers fuel') := by
  induction n using Nat.strong_induction_on generalizing r closers fuel fuel' with
  | _ n ih =>
    cases he : r.atEnd with
    | true =>
      rw [skipClosers_of_atEnd he, skipClosers_of_atEnd he]
      exact ⟨rfl, h⟩
    | false =>
      have hpos := h.pos he
      obtain ⟨fuel, fuel', rfl, rfl⟩ := exists_succ_of_lt_min (hpos.trans_le hn)
      have next (closers : List Kind) : Skip.Sure n (r.step.skipClosers closers fuel)
          (r.step.skipClosers closers fuel') :=
        (ih (n - 1) (by omega) h.step (by omega) closers).mono (by omega)
      have here : Skip.Sure n ⟨false, r⟩ ⟨false, r⟩ := ⟨rfl, h⟩
      have past : Skip.Sure n ⟨true, r.step⟩ ⟨true, r.step⟩ := ⟨rfl, h.step_le⟩
      simp only [skipClosers]
      split_ifs
      · exact next _
      · cases closers with
        | nil => exact here
        | cons c outer =>
          dsimp only
          split_ifs
          · cases outer with
            | nil => exact past
            | cons d outer => exact next _
          · exact here
      · exact here
      · cases closers with
        | nil => exact past
        | cons c outer => exact next _

/-- A group that opens at hand is skipped with its bracket at least. -/
theorem skipGroup_sure (h : r.Left n) (ho : r.current.kind.isOpener = true)
    (hn : n ≤ min fuel fuel') : Skip.Sure (n - 1) (r.skipGroup fuel) (r.skipGroup fuel') := by
  have hpos := h.pos (atEnd_eq_false_of_isOpener ho)
  obtain ⟨fuel, fuel', rfl, rfl⟩ := exists_succ_of_lt_min (hpos.trans_le hn)
  simp only [skipGroup, skipClosers, ho, if_true]
  exact skipClosers_sure h.step (by omega) _

theorem skipAngles_sure (h : r.Left n) (hn : n < min fuel fuel') (depth : Int) :
    Skip.Sure n (r.skipAngles depth fuel) (r.skipAngles depth fuel') := by
  induction n using Nat.strong_induction_on generalizing r depth fuel fuel' with
  | _ n ih =>
    obtain ⟨fuel, fuel', rfl, rfl⟩ := exists_succ_of_lt_min hn
    have here : Skip.Sure n ⟨false, r⟩ ⟨false, r⟩ := ⟨rfl, h⟩
    cases he : r.atEnd with
    | true =>
      have hk : r.current.kind = .eof := of_decide_eq_true he
      simpa [skipAngles, hk, Kind.isOpener, Kind.isCloser] using here
    | false =>
      have hpos := h.pos he
      have further {s : Reader text} (hs : s.Left (n - 1)) (depth : Int) :
          Skip.Sure n (s.skipAngles depth fuel) (s.skipAngles depth fuel') :=
        (ih (n - 1) (by omega) hs (by omega) depth).mono (by omega)
      simp only [skipAngles]
      refine rel_ite Iff.rfl (fun _ => further h.step _) fun _ => ?_
      refine rel_ite Iff.rfl (fun _ => rel_ite Iff.rfl (fun _ => ⟨rfl, h.step_le⟩)
        fun _ => further h.step _) fun _ => ?_
      refine rel_ite Iff.rfl (fun ho => ?_) fun _ => ?_
      · have hgroup := skipGroup_sure h ho (show n ≤ min fuel fuel' by omega)
        rw [← hgroup.eq]
        exact rel_ite Iff.rfl (fun _ => further hgroup.left _)
          fun _ => ⟨rfl, hgroup.left.mono (by omega)⟩
      refine rel_ite Iff.rfl (fun _ => rel_ite Iff.rfl (fun _ => further h.step _) fun _ => here)
        fun _ => ?_
      exact rel_ite Iff.rfl (fun _ => here) fun _ => further h.step _

theorem passGroup_sure (h : r.Left n) (ho : r.current.kind.isOpener = true)
    (hn : n ≤ min fuel fuel') {unbalanced : Reader text → SyntaxError}
    (he : ∀ s, (unbalanced s).cause ≠ .exhausted) :
    Sure (Left (n - 1)) (r.passGroup fuel unbalanced) (r.passGroup fuel' unbalanced) := by
  have hgroup := skipGroup_sure h ho hn
  unfold passGroup
  rw [← hgroup.eq]
  apply hgroup.left.checked.bind
  intro s hs
  exact .ite (fun _ => .pure hs) fun _ => .throw (he s)

theorem dottedTail_sure (h : r.Left n) (hn : n < min fuel fuel') :
    r.dottedTail fuel = r.dottedTail fuel' ∧ (r.dottedTail fuel).2.Left n := by
  induction n using Nat.strong_induction_on generalizing r fuel fuel' with
  | _ n ih =>
    obtain ⟨fuel, fuel', rfl, rfl⟩ := exists_succ_of_lt_min hn
    simp only [dottedTail]
    split_ifs with hdot hname
    · have hpos := h.pos (atEnd_eq_false_of_is hdot (by decide))
      obtain ⟨heq, hleft⟩ := ih (n - 1) (by omega) h.step.step_le
        (show n - 1 < min fuel fuel' by omega)
      exact ⟨by rw [heq], hleft.mono (by omega)⟩
    · exact ⟨rfl, h.step_le⟩
    · exact ⟨rfl, h⟩

theorem dottedPath_sure (h : r.Left n) (hi : r.is .identifier = true) (hn : n ≤ min fuel fuel') :
    r.dottedPath fuel = r.dottedPath fuel' ∧ (r.dottedPath fuel).2.Left (n - 1) := by
  have hpos := h.pos (atEnd_eq_false_of_is hi (by decide))
  obtain ⟨heq, hleft⟩ := dottedTail_sure h.step (show n - 1 < min fuel fuel' by omega)
  exact ⟨by simp only [dottedPath, heq], hleft⟩

end Reader

end JsxPresence
