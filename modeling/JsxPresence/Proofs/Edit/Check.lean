import Mathlib.Data.List.Sort
import JsxPresence.Edit

namespace JsxPresence.Edit

/-- An edit that is left behind at `b` overlaps nothing that starts there or later. -/
theorem overlaps_of_isPassedAt {a b c : Edit} (h : a.isPassedAt b = true) (hc : b.start ≤ c.start) :
    a.overlaps c = false := by
  unfold isPassedAt at h
  by_cases ha : a.isInsertion
  · have hlt : a.start < b.start := by simpa [ha] using h
    have hcovers : c.covers a.start = false := by
      simp only [covers, Bool.and_eq_false_iff, decide_eq_false_iff_not]
      omega
    simp [overlaps, ha, hcovers]
  · have hle : a.stop ≤ b.start := by simpa [ha] using h
    have hcovers : a.covers c.start = false := by
      simp only [covers, Bool.and_eq_false_iff, decide_eq_false_iff_not]
      omega
    have hbefore : decide (c.start < a.stop) = false := by
      simp only [decide_eq_false_iff_not]
      omega
    simp [overlaps, ha, hcovers, hbefore]

/-- Looking until an edit is left behind finds what looking through the whole list finds. -/
theorem overlapping?_eq_find? (a : Edit) {l : List (Edit × Nat)}
    (hl : l.Pairwise fun b c => b.1.start ≤ c.1.start) :
    overlapping? a l = l.find? fun b => a.overlaps b.1 := by
  induction l with
  | nil => rfl
  | cons b rest ih =>
    rw [List.pairwise_cons] at hl
    unfold overlapping?
    by_cases hp : a.isPassedAt b.1 = true
    · have hb : a.overlaps b.1 = false := overlaps_of_isPassedAt hp (le_refl _)
      have hrest : rest.find? (fun c => a.overlaps c.1) = none :=
        List.find?_eq_none.2 fun c hc => by simp [overlaps_of_isPassedAt hp (hl.1 c hc)]
      simp [hp, hb, hrest]
    · rw [if_neg hp, List.find?_cons, ih hl.2]
      cases a.overlaps b.1 <;> rfl

theorem clash?_eq_none_iff {l : List (Edit × Nat)}
    (hl : l.Pairwise fun a b => a.1.start ≤ b.1.start) :
    clash? l = none ↔ l.Pairwise fun a b => a.1.overlaps b.1 = false := by
  induction l with
  | nil => simp [clash?]
  | cons a rest ih =>
    rw [List.pairwise_cons] at hl
    unfold clash?
    rw [List.pairwise_cons, overlapping?_eq_find? a.1 hl.2]
    cases hf : rest.find? fun b => a.1.overlaps b.1 with
    | some b =>
      have hb := List.find?_some hf
      have hm := List.mem_of_find?_eq_some hf
      simp only [reduceCtorEq, false_iff, not_and]
      intro hall
      rw [hall b hm] at hb
      cases hb
    | none =>
      rw [List.find?_eq_none] at hf
      simp only [ih hl.2, iff_and_self]
      intro _ b hb
      simpa using hf b hb

/-- The edits in the order of their starts, each with its place in the list. -/
theorem pairwise_byStart (edits : List Edit) :
    (edits.zipIdx.mergeSort fun a b => a.1.start ≤ b.1.start).Pairwise
      fun a b => a.1.start ≤ b.1.start := by
  refine (List.pairwise_mergeSort (fun a b c hab hbc => ?_) (fun a b => ?_) _).imp
    (fun h => of_decide_eq_true h)
  · simp only [decide_eq_true_eq] at *
    omega
  · simp only [Bool.or_eq_true, decide_eq_true_eq]
    omega

theorem outOfRange?_eq_none_iff (length : Nat) (edits : List Edit) :
    outOfRange? length edits = none ↔ ∀ e ∈ edits, e.fits length = true := by
  simp only [outOfRange?, Option.map_eq_none_iff, List.find?_eq_none, Bool.not_eq_true,
    Bool.not_eq_false']
  constructor
  · intro h e he
    obtain ⟨i, hi, rfl⟩ := List.mem_iff_getElem.1 he
    exact h (edits[i], i) (List.mem_iff_getElem.2 ⟨i, by simpa using hi, by simp⟩)
  · intro h x hx
    exact h x.1 (List.fst_mem_of_mem_zipIdx hx)

/-- A list of edits passes the check exactly if all of them fit and no two overlap, in whatever
order they are listed. -/
theorem check_eq_none_iff (length : Nat) (edits : List Edit) :
    check length edits = none ↔
      (∀ e ∈ edits, e.fits length = true) ∧ edits.Pairwise fun a b => a.overlaps b = false := by
  rw [← outOfRange?_eq_none_iff]
  unfold check
  cases outOfRange? length edits with
  | some error => simp
  | none =>
    have hsym : ∀ {a b : Edit × Nat}, a.1.overlaps b.1 = false → b.1.overlaps a.1 = false :=
      fun {a b} h => by rwa [overlaps_comm]
    simp only [true_and, clash?_eq_none_iff (pairwise_byStart edits)]
    rw [(List.mergeSort_perm _ _).pairwise_iff hsym]
    have hmap : edits = edits.zipIdx.map (·.1) := by simp
    conv_rhs => rw [hmap, List.pairwise_map]

/-- Two lists of the same edits pass the check alike. -/
theorem check_eq_none_of_perm {length : Nat} {a b : List Edit} (h : a.Perm b) :
    check length a = none ↔ check length b = none := by
  rw [check_eq_none_iff, check_eq_none_iff,
    h.pairwise_iff fun {x y} hxy => by rwa [overlaps_comm]]
  simp only [h.mem_iff]

theorem check_sort_eq_none_iff (length : Nat) (edits : List Edit) :
    check length (sort edits) = none ↔ check length edits = none :=
  check_eq_none_of_perm (List.mergeSort_perm _ _)

theorem apply_of_check {text : Bytes} {edits : List Edit} (h : check text.length edits = none) :
    ∃ out, apply text edits = .ok out := by
  simp [apply, h]

end JsxPresence.Edit
