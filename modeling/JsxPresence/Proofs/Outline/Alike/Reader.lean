import Mathlib.Logic.Function.Iterate
import JsxPresence.Outline.Parse
import JsxPresence.Proofs.Outline.Tokens
import JsxPresence.Proofs.Outline.Unplaced

namespace JsxPresence

theorem rel_ite {α β : Sort*} {R : α → β → Prop} {p q : Prop} [Decidable p] [Decidable q]
    {x x' : α} {y y' : β} (h : p ↔ q) (ht : p → R x y) (hf : ¬p → R x' y') :
    R (if p then x else x') (if q then y else y') := by
  by_cases hp : p
  · rw [if_pos hp, if_pos (h.1 hp)]
    exact ht hp
  · rw [if_neg hp, if_neg (mt h.2 hp)]
    exact hf hp

/-- Two computations fail for the same cause, or yield results that are related. -/
def Agree {α β : Type} (R : α → β → Prop) : Except SyntaxError α → Except SyntaxError β → Prop
  | .ok x, .ok y => R x y
  | .error e, .error f => e.cause = f.cause
  | _, _ => False

namespace Agree

variable {α β γ δ : Type} {R : α → β → Prop} {S : γ → δ → Prop}

theorem pure {x : α} {y : β} (h : R x y) : Agree R (Pure.pure x) (Pure.pure y) := h

theorem throw {e f : SyntaxError} (h : e.cause = f.cause) :
    Agree R (MonadExcept.throw e) (MonadExcept.throw f) := h

theorem throw_bind {e f : SyntaxError} {g : α → Except SyntaxError γ}
    {g' : β → Except SyntaxError δ} (h : e.cause = f.cause) :
    Agree S (MonadExcept.throw e >>= g) (MonadExcept.throw f >>= g') := h

theorem bind {x : Except SyntaxError α} {y : Except SyntaxError β} {f : α → Except SyntaxError γ}
    {g : β → Except SyntaxError δ} (h : Agree R x y) (hf : ∀ a b, R a b → Agree S (f a) (g b)) :
    Agree S (x >>= f) (y >>= g) := by
  cases x with
  | error e =>
    cases y with
    | error e' => exact h
    | ok b => cases h
  | ok a =>
    cases y with
    | error e' => cases h
    | ok b => exact hf a b h

theorem ite {p q : Prop} [Decidable p] [Decidable q] {x x' : Except SyntaxError α}
    {y y' : Except SyntaxError β} (h : p ↔ q) (ht : p → Agree R x y) (hf : ¬p → Agree R x' y') :
    Agree R (if p then x else x') (if q then y else y') :=
  rel_ite h ht hf

theorem mono {x : Except SyntaxError α} {y : Except SyntaxError β} {T : α → β → Prop}
    (h : Agree R x y) (hi : ∀ a b, R a b → T a b) : Agree T x y := by
  cases x <;> cases y
  · exact h
  · cases h
  · cases h
  · exact hi _ _ h

end Agree

namespace Reader

variable {a b : Bytes} {r : Reader a} {s : Reader b} {n m fuel fuel' : Nat}

/-- Nothing in the text is an error, and so the token at hand is none. -/
structure Legible (r : Reader a) : Prop where
  clean : r.allErrors = []
  current : r.current.kind ≠ .error

theorem Legible.step (h : r.Legible) : r.step.Legible := by
  constructor
  · rw [step_allErrors, h.clean]
  · intro hk
    cases he : r.atEnd with
    | true => exact h.current (by rwa [step_of_atEnd he] at hk)
    | false =>
      rw [step_of_not_atEnd he] at hk
      have herrors := Lexer.next_errors_ne_nil hk
      have hpre := r.step.errors_prefix_allErrors
      rw [step_allErrors, h.clean, step_of_not_atEnd he] at hpre
      exact herrors (List.prefix_nil.1 hpre)

theorem Legible.checked (h : r.Legible) : r.checked = .ok r := by
  simp [Reader.checked, is, h.current]

theorem Legible.advance (h : r.Legible) : r.advance = .ok r.step := h.step.checked

theorem Legible.errors (h : r.Legible) : r.lexer.errors = [] :=
  List.prefix_nil.1 (h.clean ▸ r.errors_prefix_allErrors)

/-- Wherever the first reader comes to the word `async`, the second one sees a function follow as it
does. -/
def FollowAlike (r : Reader a) (s : Reader b) : Prop :=
  ∀ k, (step^[k] r).isWord (utf8 "async") = true →
    (step^[k] r).functionFollows = (step^[k] s).functionFollows

/-- The same tokens are before both readers, at most `n` of them behind the one at hand. -/
structure Alike (n : Nat) (r : Reader a) (s : Reader b) : Prop where
  left : r.Legible
  right : s.Legible
  current : r.current.unplaced = s.current.unplaced
  previous : r.previous.map Token.unplaced = s.previous.map Token.unplaced
  upcoming : r.upcoming.map Token.unplaced = s.upcoming.map Token.unplaced
  length_le : r.upcoming.length ≤ n
  follow : FollowAlike r s

namespace Alike

theorem mono (h : r.Alike n s) (hn : n ≤ m) : r.Alike m s :=
  { h with length_le := h.length_le.trans hn }

/-- What does not depend on the place of a token is the same for both tokens at hand. -/
theorem token {α : Type} (h : r.Alike n s) (f : Token → α) (hf : ∀ t, f t.unplaced = f t) :
    f r.current = f s.current := by
  rw [← hf, h.current, hf]

theorem kind (h : r.Alike n s) : r.current.kind = s.current.kind :=
  h.token Token.kind fun _ => rfl

theorem lexeme (h : r.Alike n s) : r.current.lexeme = s.current.lexeme :=
  h.token Token.lexeme fun _ => rfl

theorem newline (h : r.Alike n s) : r.current.newlineBefore = s.current.newlineBefore :=
  h.token Token.newlineBefore fun _ => rfl

theorem is (h : r.Alike n s) (kind : Kind) : r.is kind = s.is kind :=
  h.token (decide <| ·.kind = kind) fun _ => rfl

theorem isKeyword (h : r.Alike n s) (word : Bytes) : r.isKeyword word = s.isKeyword word :=
  h.token (·.isKeyword word) fun _ => rfl

theorem isWord (h : r.Alike n s) (word : Bytes) : r.isWord word = s.isWord word :=
  h.token (·.isWord word) fun _ => rfl

theorem isName (h : r.Alike n s) : r.current.isName = s.current.isName :=
  h.token Token.isName fun _ => rfl

theorem atEnd (h : r.Alike n s) : r.atEnd = s.atEnd := h.is .eof

/-- Before the end there is a token to pass. -/
theorem pos (h : r.Alike n s) (he : r.atEnd = false) : 0 < n := by
  have hlength := h.length_le
  rw [upcoming_of_not_atEnd he, Reader.tokens, List.length_cons] at hlength
  omega

theorem step (h : r.Alike n s) : r.step.Alike (n - 1) s.step := by
  cases he : r.atEnd with
  | true =>
    have he' : s.atEnd = true := h.atEnd ▸ he
    rw [step_of_atEnd he, step_of_atEnd he']
    exact { h with length_le := by simp [upcoming_of_atEnd he] }
  | false =>
    have he' : s.atEnd = false := h.atEnd ▸ he
    have hup := h.upcoming
    have hlength := h.length_le
    simp only [upcoming_of_not_atEnd he, upcoming_of_not_atEnd he', Reader.tokens, List.map_cons,
      List.cons.injEq, List.length_cons] at hup hlength
    exact {
      left := h.left.step
      right := h.right.step
      current := hup.1
      previous := by
        rw [step_of_not_atEnd he, step_of_not_atEnd he']
        exact congrArg some h.current
      upcoming := hup.2
      length_le := by omega
      follow := fun k => h.follow (k + 1) }

theorem peek_kind (h : r.Alike n s) : r.peek.kind = s.peek.kind := h.step.kind

theorem peek_isName (h : r.Alike n s) : r.peek.isName = s.peek.isName := h.step.isName

theorem peek_isWord (h : r.Alike n s) (word : Bytes) : r.peek.isWord word = s.peek.isWord word :=
  h.step.isWord word

theorem peek_isKeyword (h : r.Alike n s) (word : Bytes) :
    r.peek.isKeyword word = s.peek.isKeyword word := h.step.isKeyword word

theorem checked (h : r.Alike n s) : Agree (Alike n) r.checked s.checked := by
  rw [h.left.checked, h.right.checked]
  exact h

theorem advance (h : r.Alike n s) : Agree (Alike (n - 1)) r.advance s.advance := by
  rw [h.left.advance, h.right.advance]
  exact h.step

theorem passOver (h : r.Alike n s) (kind : Kind) :
    Agree (Alike n) (r.passOver kind) (s.passOver kind) := by
  apply rel_ite (by rw [h.is])
  · intro _
    exact h.advance.mono fun _ _ hrs => hrs.mono (Nat.sub_le n 1)
  · intro _
    exact h

end Alike

/-- Both skips got equally far, and both through or neither. -/
structure Skip.Alike (n : Nat) (x : Skip a) (y : Skip b) : Prop where
  done : x.done = y.done
  reader : x.reader.Alike n y.reader

theorem Skip.Alike.mono {x : Skip a} {y : Skip b} (h : x.Alike n y) (hn : n ≤ m) : x.Alike m y :=
  ⟨h.done, h.reader.mono hn⟩

theorem skipClosers_of_atEnd (he : r.atEnd = true) (closers : List Kind) (fuel : Nat) :
    r.skipClosers closers fuel = ⟨false, r⟩ := by
  have hk : r.current.kind = .eof := of_decide_eq_true he
  cases fuel <;> simp [skipClosers, hk, Kind.isOpener, Kind.isCloser]

theorem skipClosers_alike (h : r.Alike n s) (hn : n ≤ fuel) (hn' : n ≤ fuel')
    (closers : List Kind) :
    Skip.Alike n (r.skipClosers closers fuel) (s.skipClosers closers fuel') := by
  induction n using Nat.strong_induction_on generalizing r s closers fuel fuel' with
  | _ n ih =>
    cases he : r.atEnd with
    | true =>
      rw [skipClosers_of_atEnd he, skipClosers_of_atEnd (h.atEnd ▸ he)]
      exact ⟨rfl, h⟩
    | false =>
      have hpos := h.pos he
      obtain ⟨fuel, rfl⟩ := Nat.exists_eq_add_one_of_ne_zero (n := fuel) (by omega)
      obtain ⟨fuel', rfl⟩ := Nat.exists_eq_add_one_of_ne_zero (n := fuel') (by omega)
      have next (closers : List Kind) : Skip.Alike n (r.step.skipClosers closers fuel)
          (s.step.skipClosers closers fuel') :=
        (ih (n - 1) (by omega) h.step (by omega) (by omega) closers).mono (by omega)
      have here : Skip.Alike n ⟨false, r⟩ ⟨false, s⟩ := ⟨rfl, h⟩
      have past : Skip.Alike n ⟨true, r.step⟩ ⟨true, s.step⟩ := ⟨rfl, h.step.mono (by omega)⟩
      simp only [skipClosers, ← h.kind]
      split_ifs
      · exact next _
      · cases closers with
        | nil => exact here
        | cons c outer =>
          dsimp only
          split_ifs
          · cases outer with
            | nil => exact past
            | cons d outer => exact next _
          · exact here
      · exact here
      · cases closers with
        | nil => exact past
        | cons c outer => exact next _

/-- A group that opens at hand is skipped with its bracket at least. -/
theorem skipGroup_alike (h : r.Alike n s) (ho : r.current.kind.isOpener = true) (hn : n ≤ fuel)
    (hn' : n ≤ fuel') : Skip.Alike (n - 1) (r.skipGroup fuel) (s.skipGroup fuel') := by
  have hpos := h.pos (not_atEnd_of_ne_eof (by rintro hk; simp [hk, Kind.isOpener] at ho))
  obtain ⟨fuel, rfl⟩ := Nat.exists_eq_add_one_of_ne_zero (n := fuel) (by omega)
  obtain ⟨fuel', rfl⟩ := Nat.exists_eq_add_one_of_ne_zero (n := fuel') (by omega)
  simp only [skipGroup, skipClosers, ← h.kind, ho, if_true]
  exact skipClosers_alike h.step (by omega) (by omega) _

theorem skipAngles_alike (h : r.Alike n s) (hn : n < fuel) (hn' : n < fuel') (depth : Int) :
    Skip.Alike n (r.skipAngles depth fuel) (s.skipAngles depth fuel') := by
  induction n using Nat.strong_induction_on generalizing r s depth fuel fuel' with
  | _ n ih =>
    obtain ⟨fuel, rfl⟩ := Nat.exists_eq_add_one_of_ne_zero (n := fuel) (by omega)
    obtain ⟨fuel', rfl⟩ := Nat.exists_eq_add_one_of_ne_zero (n := fuel') (by omega)
    have here : Skip.Alike n ⟨false, r⟩ ⟨false, s⟩ := ⟨rfl, h⟩
    cases he : r.atEnd with
    | true =>
      have hk : r.current.kind = .eof := of_decide_eq_true he
      simpa [skipAngles, ← h.kind, hk, Kind.isOpener, Kind.isCloser] using here
    | false =>
      have hpos := h.pos he
      have next (depth : Int) : Skip.Alike n (r.step.skipAngles depth fuel)
          (s.step.skipAngles depth fuel') :=
        (ih (n - 1) (by omega) h.step (by omega) (by omega) depth).mono (by omega)
      simp only [skipAngles, ← h.kind, ← h.lexeme]
      apply rel_ite Iff.rfl fun _ => next _
      intro _
      apply rel_ite Iff.rfl fun _ =>
        rel_ite Iff.rfl (fun _ => ⟨rfl, h.step.mono (by omega)⟩) fun _ => next _
      intro _
      apply rel_ite Iff.rfl
      · intro ho
        have hgroup := skipGroup_alike h ho (show n ≤ fuel by omega) (show n ≤ fuel' by omega)
        apply rel_ite (by rw [hgroup.done])
        · intro _
          exact (ih (n - 1) (by omega) hgroup.reader (by omega) (by omega) depth).mono (by omega)
        · intro _
          exact ⟨rfl, hgroup.reader.mono (by omega)⟩
      intro _
      apply rel_ite Iff.rfl fun _ => rel_ite Iff.rfl (fun _ => next _) fun _ => here
      intro _
      exact rel_ite Iff.rfl (fun _ => here) fun _ => next _

theorem passGroup_alike (h : r.Alike n s) (ho : r.current.kind.isOpener = true) (hn : n ≤ fuel)
    (hn' : n ≤ fuel') (e : Reader a → SyntaxError) (e' : Reader b → SyntaxError)
    (hcause : ∀ r s, (e r).cause = (e' s).cause) :
    Agree (Alike (n - 1)) (r.passGroup fuel e) (s.passGroup fuel' e') := by
  have hgroup := skipGroup_alike h ho hn hn'
  apply hgroup.reader.checked.bind
  intro t u htu
  apply rel_ite (by rw [hgroup.done])
  · intro _
    exact htu
  · intro _
    exact hcause t u

/-- The names of a dotted path, and where it ends. -/
theorem dottedTail_alike (h : r.Alike n s) (hn : n < fuel) (hn' : n < fuel') :
    (r.dottedTail fuel).1 = (s.dottedTail fuel').1 ∧
      (r.dottedTail fuel).2.Alike n (s.dottedTail fuel').2 := by
  induction n using Nat.strong_induction_on generalizing r s fuel fuel' with
  | _ n ih =>
    obtain ⟨fuel, rfl⟩ := Nat.exists_eq_add_one_of_ne_zero (n := fuel) (by omega)
    obtain ⟨fuel', rfl⟩ := Nat.exists_eq_add_one_of_ne_zero (n := fuel') (by omega)
    simp only [dottedTail, ← h.is, ← h.step.isName, ← h.step.lexeme]
    split_ifs with hdot hname
    · have hpos := h.pos (not_atEnd_of_ne_eof (by simp [of_decide_eq_true hdot]))
      have htail := ih (n - 1) (by omega) (h.step.step.mono (Nat.sub_le (n - 1) 1))
        (show n - 1 < fuel by omega) (show n - 1 < fuel' by omega)
      exact ⟨by rw [htail.1], htail.2.mono (by omega)⟩
    · exact ⟨rfl, h.step.mono (by omega)⟩
    · exact ⟨rfl, h⟩

theorem dottedPath_alike (h : r.Alike n s) (hi : r.is .identifier = true) (hn : n ≤ fuel)
    (hn' : n ≤ fuel') :
    (r.dottedPath fuel).1 = (s.dottedPath fuel').1 ∧
      (r.dottedPath fuel).2.Alike (n - 1) (s.dottedPath fuel').2 := by
  have hpos := h.pos (not_atEnd_of_ne_eof (by simp [of_decide_eq_true hi]))
  have htail := dottedTail_alike h.step (show n - 1 < fuel by omega) (show n - 1 < fuel' by omega)
  exact ⟨by simp only [dottedPath, htail.1, h.lexeme], htail.2⟩

/-- Two finds that are the same without their places, before readers that are alike. -/
structure Same {α γ : Type} (erase : α → γ) (n : Nat) (x : α × Reader a) (y : α × Reader b) :
    Prop where
  value : erase x.1 = erase y.1
  reader : x.2.Alike n y.2

theorem Same.mono {α γ : Type} {erase : α → γ} {x : α × Reader a} {y : α × Reader b}
    (h : Same erase n x y) (hn : n ≤ m) : Same erase m x y := ⟨h.value, h.reader.mono hn⟩

end Reader

end JsxPresence
