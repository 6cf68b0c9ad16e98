import JsxPresence.Proofs.Presence.Reachability

namespace JsxPresence.Presence

open Session Reference

variable {env : Environment} {base s t : Session} {target : Target} {path : Bytes}
  {asked : Target → Prop}

theorem Way.then {k : Nat} {f g h : Bytes} (hw : Way env base k f g) (hs : Successor env base g h) :
    Way env base (k + 1) f h := by
  induction hw with
  | here f => exact .step hs (.here h)
  | step hfirst _ ih => exact .step hfirst (ih hs)

/-- The files that the search below a file can come to. -/
def Reached (env : Environment) (base : Session) (path f : Bytes) : Prop :=
  ∃ k, Way env base k (env.normalize path) f

theorem reached_self : Reached env base path (env.normalize path) := ⟨0, .here _⟩

theorem reached_closed : Closed env base (Reached env base path) :=
  fun _ _ ⟨k, hw⟩ hs => ⟨k + 1, hw.then hs⟩

/-- Below the file, no two of the targets have their answers kept under one key. -/
def Distinct (env : Environment) (base : Session) (path : Bytes) (asked : Target → Prop) : Prop :=
  ∀ ⦃a b⦄, asked a → asked b → ∀ ⦃f g⦄, Reached env base path f → Reached env base path g →
    a.key f = b.key g → a = b

/-- The target can be asked about: either nothing has been found yet, or the answer is kept. -/
def Ready (env : Environment) (base : Session) (path : Bytes) (target : Target) (s : Session) :
    Prop :=
  Tidy env base target (Reached env base path) s ∨
    (s.verdicts.get? (target.key (env.normalize path)) = some true ∧
      Near env base target env.options.maxDepth.toNat (env.normalize path))

/-- A session between two questions. -/
structure Asking (env : Environment) (base : Session) (path : Bytes) (asked : Target → Prop)
    (s : Session) : Prop where
  follows : Follows env base s
  idle : s.active = []
  ready : ∀ target, asked target → Ready env base path target s

theorem Asking.of_eq (h : Asking env base path asked s) (hf : Follows env base t)
    (hv : t.verdicts = s.verdicts) (ha : t.active = s.active) : Asking env base path asked t where
  follows := hf
  idle := by rw [ha, h.idle]
  ready target ht := by
    unfold Ready Tidy
    rw [hv]
    exact h.ready target ht

theorem Asking.of_quiet (h : Asking env base path asked s) (hq : Quiet env s t) :
    Asking env base path asked t :=
  h.of_eq (h.follows.of_quiet hq) hq.verdicts hq.active

/-- A computation that only looks things up does so between questions too. -/
theorem Asking.of_settled {α : Type} {x : SessionM α} (hs : Asking env base path asked s)
    (hx : Settled env base x) : (x s).1 = (x base).1 ∧ Asking env base path asked (x s).2 := by
  obtain ⟨h1, h2, h3, h4⟩ := hx s hs.follows
  exact ⟨h1, hs.of_eq h2 h3 h4⟩

/-- Where nothing has been asked, everything can be. -/
theorem asking_of_empty (h : Stable env base) (hv : base.verdicts = .empty)
    (ha : base.active = []) : Asking env base path asked base where
  follows := h.coherent
  idle := ha
  ready _ _ := .inl fun _ _ _ hg => by
    rw [hv] at hg
    cases hg

/-- What is kept about one target is not touched by a search for another. -/
theorem Ready.elsewhere {other : Target} (hr : Ready env base path other s)
    (hl : Leaves env base target (Reached env base path) s t)
    (hne : ∀ f g, Reached env base path f → Reached env base path g → other.key f ≠ target.key g) :
    Ready env base path other t := by
  have hget (f : Bytes) (hf : Reached env base path f) :
      t.verdicts.get? (other.key f) = s.verdicts.get? (other.key f) :=
    hl.elsewhere _ fun g hg => hne f g hf hg
  rcases hr with htidy | ⟨hkept, hnear⟩
  · refine .inl fun f hf found hfound => htidy f hf found ?_
    rw [← hget f hf, hfound]
  · exact .inr ⟨by rw [hget _ reached_self, hkept], hnear⟩

/-- A kept answer is given again. -/
theorem hasComponent_of_kept (ha : s.active = [])
    (hv : s.verdicts.get? (target.key (env.normalize path)) = some true) :
    (hasComponent env path target s).1 = true ∧ Quiet env s (hasComponent env path target s).2 := by
  have hsearch : search env target (env.options.maxDepth.toNat + 1) (env.normalize path) s =
      (⟨true, false⟩, s) := search_of_kept (by simp [ha]) hv
  unfold hasComponent
  rw [SessionM.bind_apply, hsearch]
  exact ⟨rfl, note_quiet env _ _ _ _⟩

/-- Between questions, a question is answered as the distance to the nearest hit says. -/
theorem hasComponent_of_asking (h : Stable env base) (hd : Distinct env base path asked)
    (ht : asked target) (hs : Asking env base path asked s) :
    ((hasComponent env path target s).1 = true ↔
      Near env base target env.options.maxDepth.toNat (env.normalize path)) ∧
    Asking env base path asked (hasComponent env path target s).2 := by
  rcases hs.ready target ht with htidy | ⟨hkept, hnear⟩
  · obtain ⟨hiff, hl, hyes, hno⟩ :=
      hasComponent_spec h reached_closed reached_self hs.follows htidy hs.idle
    refine ⟨hiff, ⟨hl.follows, hl.active.trans hs.idle, fun other ho => ?_⟩⟩
    by_cases hsame : other = target
    · subst hsame
      cases hfound : (hasComponent env path other s).1 with
      | true => exact .inr ⟨hyes hfound, hiff.1 hfound⟩
      | false => exact .inl (hno hfound)
    · exact (hs.ready other ho).elsewhere hl fun f g hf hg hk => hsame (hd ho ht hf hg hk)
  · obtain ⟨hfound, hq⟩ := hasComponent_of_kept hs.idle hkept
    exact ⟨by simp [hfound, hnear], hs.of_quiet hq⟩

/-- What was asked before does not change an answer. -/
theorem hasComponent_eq_first (h : Stable env base) (hd : Distinct env base path asked)
    (ht : asked target) (hb : Asking env base path asked base)
    (hs : Asking env base path asked s) :
    (hasComponent env path target s).1 = (hasComponent env path target base).1 := by
  rw [Bool.eq_iff_iff, (hasComponent_of_asking h hd ht hs).1, (hasComponent_of_asking h hd ht hb).1]

end JsxPresence.Presence
