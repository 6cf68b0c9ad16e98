import Mathlib.Logic.Function.Iterate
import JsxPresence.Proofs.Path

namespace JsxPresence.Path

/-- The path of the names below the root, without a slash at the end of names. -/
def stem (ns : List Bytes) : Bytes := if ns = [] then [slash] else rooted ns

/-- What a parent can be: the root, names below it, or nothing. -/
def IsStem (p : Bytes) : Prop := p = [] ∨ ∃ ns, (∀ n ∈ ns, Ordinary n) ∧ p = stem ns

theorem stem_eq_rooted_ending {ns : List Bytes} :
    stem ns = rooted (Partial.ending ⟨ns.reverse, false⟩) := by
  cases ns with
  | nil => rfl
  | cons n ns => simp [stem, Partial.ending]

theorem isNormal_stem {ns : List Bytes} (h : ∀ n ∈ ns, Ordinary n) : Normal (stem ns) :=
  ⟨⟨ns.reverse, false⟩, fun n hn => h n (List.mem_reverse.1 hn), stem_eq_rooted_ending⟩

theorem names_stem {ns : List Bytes} (h : ∀ n ∈ ns, Ordinary n) : names (stem ns) = ns := by
  have hfine : Partial.Fine ⟨ns.reverse, false⟩ := fun n hn => h n (List.mem_reverse.1 hn)
  rw [stem_eq_rooted_ending, names_rooted_ending hfine]
  cases ns with
  | nil => rfl
  | cons n ns => simp [Partial.ending]

theorem stem_ne_nil (ns : List Bytes) : stem ns ≠ [] := by
  cases ns with
  | nil => simp [stem]
  | cons n ns => simp [stem, rooted_cons]

theorem stem_snoc (ns : List Bytes) (n : Bytes) : stem (ns ++ [n]) = rooted ns ++ slash :: n := by
  simp [stem, rooted_snoc]

theorem length_stem_lt {ns : List Bytes} {n : Bytes} (h : ∀ m ∈ ns ++ [n], Ordinary m) :
    (stem ns).length < (stem (ns ++ [n])).length := by
  have hn : 0 < n.length := List.length_pos_iff.2 (h n (by simp)).ne_nil
  rw [stem_snoc, List.length_append, List.length_cons]
  unfold stem
  split
  · rw [List.length_singleton]
    omega
  · omega

theorem parent_rooted {ns : List Bytes} (h : ∀ n ∈ ns, Ordinary n) {last : Bytes}
    (hl : slash ∉ last) : parent (rooted (ns ++ [last])) = stem ns :=
  parent_rooted_snoc (fun n hn => ⟨(h n hn).ne_nil, (h n hn).slash_not_mem⟩) hl

theorem parent_stem_snoc {ns : List Bytes} {n : Bytes} (h : ∀ m ∈ ns ++ [n], Ordinary m) :
    parent (stem (ns ++ [n])) = stem ns := by
  obtain ⟨hns, hn⟩ := List.forall_mem_append.1 h
  rw [stem_snoc, ← rooted_snoc]
  exact parent_rooted hns (hn n (List.mem_singleton_self n)).slash_not_mem

theorem isStem_parent {p : Bytes} (h : IsStem p) : IsStem (parent p) := by
  rcases h with rfl | ⟨ns, hns, rfl⟩
  · exact .inl rfl
  · rcases List.eq_nil_or_concat ns with rfl | ⟨before, last, rfl⟩
    · exact .inr ⟨[], by simp, rfl⟩
    · rw [List.concat_eq_append] at hns ⊢
      exact .inr ⟨before, (List.forall_mem_append.1 hns).1, parent_stem_snoc hns⟩

theorem isStem_parent_of_isNormal {p : Bytes} (h : Normal p) : IsStem (parent p) := by
  obtain ⟨q, hq, rfl⟩ := h
  obtain ⟨before, last, he, hcases⟩ := q.ending_eq_snoc
  have hlast := hq.slash_not_mem_ending last (by rw [he]; simp)
  have hbefore : ∀ n ∈ before, Ordinary n := by
    rcases hcases with ⟨-, rfl, -⟩ | ⟨-, ⟨-, rfl, -⟩ | ⟨-, hkept⟩⟩
    · simp
    · exact fun n hn => hq n (List.mem_reverse.1 hn)
    · exact fun n hn => hq n (List.mem_reverse.1 (by rw [hkept]; exact List.mem_append_left _ hn))
  refine .inr ⟨before, hbefore, ?_⟩
  rw [he]
  exact parent_rooted hbefore hlast

/-- The first of a path and its parents that has a property. -/
def Nearest (P : Bytes → Prop) (p d : Bytes) : Prop :=
  ∃ k, d = parent^[k] p ∧ P d ∧ ∀ j < k, ¬P (parent^[j] p)

section

variable {P : Bytes → Prop} {p d : Bytes}

theorem nearest_of_self (h : P p) : Nearest P p d ↔ d = p := by
  constructor
  · rintro ⟨k, rfl, -, hbefore⟩
    cases k with
    | zero => rfl
    | succ k => exact absurd h (hbefore 0 (Nat.zero_lt_succ k))
  · rintro rfl
    exact ⟨0, rfl, h, by simp⟩

theorem nearest_parent (h : ¬P p) : Nearest P (parent p) d ↔ Nearest P p d := by
  constructor
  · rintro ⟨k, hd, hP, hbefore⟩
    refine ⟨k + 1, hd, hP, fun j hj => ?_⟩
    cases j with
    | zero => exact h
    | succ j => exact hbefore j (by omega)
  · rintro ⟨k, hd, hP, hbefore⟩
    cases k with
    | zero =>
      rw [hd] at hP
      exact absurd hP h
    | succ k => exact ⟨k, hd, hP, fun j hj => hbefore (j + 1) (by omega)⟩

theorem nearest_of_fixed (hp : parent p = p) : Nearest P p d ↔ P p ∧ d = p := by
  constructor
  · rintro ⟨k, hd, hP, -⟩
    rw [Function.iterate_fixed hp] at hd
    exact ⟨hd ▸ hP, hd⟩
  · rintro ⟨hP, rfl⟩
    exact ⟨0, rfl, hP, by simp⟩

end

theorem find?_ancestorsWithin {p : Bytes} (hp : IsStem p) {fuel : Nat} (hf : p.length ≤ fuel)
    (P : Bytes → Bool) (d : Bytes) :
    (ancestorsWithin p fuel).find? P = some d ↔ Nearest (fun d => P d = true) p d := by
  have hfixed {p : Bytes} (h : parent p = p) :
      [p].find? P = some d ↔ Nearest (fun d => P d = true) p d := by
    rw [nearest_of_fixed h]
    by_cases hP : P p = true
    · simp [hP, eq_comm]
    · simp [hP]
  induction fuel generalizing p with
  | zero =>
    obtain rfl : p = [] := List.length_eq_zero_iff.1 (Nat.le_zero.1 hf)
    exact hfixed rfl
  | succ fuel ih =>
    rw [ancestorsWithin]
    rcases hp with rfl | ⟨ns, hns, rfl⟩
    · exact hfixed rfl
    · rcases List.eq_nil_or_concat ns with rfl | ⟨before, last, rfl⟩
      · exact hfixed rfl
      · rw [List.concat_eq_append] at hns hf ⊢
        have hbefore := (List.forall_mem_append.1 hns).1
        have hne : ¬(same (stem before) (stem (before ++ [last])) ||
            (stem before).isEmpty) = true := by
          simp [same, names_stem hns, names_stem hbefore, stem_ne_nil]
        have hlt := length_stem_lt hns
        rw [parent_stem_snoc hns]
        rw [if_neg hne]
        by_cases hP : P (stem (before ++ [last])) = true
        · rw [List.find?_cons_of_pos hP, nearest_of_self hP, Option.some.injEq, eq_comm]
        · have hrest := ih (.inr ⟨before, hbefore, rfl⟩) (p := stem before) (by omega)
          rw [← parent_stem_snoc hns, nearest_parent hP, parent_stem_snoc hns] at hrest
          rw [List.find?_cons_of_neg hP]
          exact hrest

/-- Among a parent and its own parents, the first one with a property is the nearest. -/
theorem find?_ancestors {p : Bytes} (hp : IsStem p) (P : Bytes → Bool) (d : Bytes) :
    (ancestors p).find? P = some d ↔ Nearest (fun d => P d = true) p d :=
  find?_ancestorsWithin hp (Nat.le_refl _) P d

end JsxPresence.Path
