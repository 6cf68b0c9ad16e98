import Mathlib.Order.Nat
import JsxPresence.Bytes

namespace JsxPresence

namespace Bytes

theorem less_irrefl (s : Bytes) : less s s = false := by
  induction s with
  | nil => rfl
  | cons b s ih => simp [less, ih]

theorem less_trans {s t u : Bytes} (h : less s t = true) (k : less t u = true) :
    less s u = true := by
  induction s generalizing t u with
  | nil => cases t <;> cases u <;> simp_all [less]
  | cons a s ih =>
    cases t with
    | nil => cases h
    | cons b t =>
      cases u with
      | nil => cases k
      | cons c u =>
        simp only [less, Bool.or_eq_true, Bool.and_eq_true, decide_eq_true_eq] at h k ⊢
        rcases h with h | ⟨rfl, h⟩ <;> rcases k with k | ⟨rfl, k⟩
        · exact .inl (h.trans k)
        · exact .inl h
        · exact .inl k
        · exact .inr ⟨rfl, ih h k⟩

theorem less_of_not_less {s t : Bytes} (h : ¬less s t = true) (hne : s ≠ t) :
    less t s = true := by
  induction s generalizing t with
  | nil => cases t <;> simp_all [less]
  | cons a s ih =>
    cases t with
    | nil => rfl
    | cons b t =>
      simp only [less, Bool.or_eq_true, Bool.and_eq_true, decide_eq_true_eq, not_or, not_and,
        not_lt] at h ⊢
      rcases Nat.lt_or_eq_of_le h.1 with hlt | heq
      · exact .inl hlt
      · have hab : a = b := UInt8.toNat_inj.1 heq.symm
        subst hab
        exact .inr ⟨rfl, ih (h.2 rfl) fun e => hne (e ▸ rfl)⟩

theorem mem_insertSorted {s t : Bytes} {l : List Bytes} :
    t ∈ insertSorted s l ↔ t = s ∨ t ∈ l := by
  induction l with
  | nil => simp [insertSorted]
  | cons u l ih =>
    unfold insertSorted
    split
    · simp
    · split
      · rename_i h
        subst h
        simp
      · simp only [List.mem_cons, ih]
        exact or_left_comm

theorem pairwise_insertSorted (s : Bytes) {l : List Bytes}
    (h : l.Pairwise (less · · = true)) : (insertSorted s l).Pairwise (less · · = true) := by
  induction l with
  | nil => exact List.pairwise_singleton _ _
  | cons u l ih =>
    obtain ⟨hu, hl⟩ := List.pairwise_cons.1 h
    unfold insertSorted
    split
    · rename_i hs
      refine List.pairwise_cons.2 ⟨fun t ht => ?_, h⟩
      rcases List.mem_cons.1 ht with rfl | ht
      · exact hs
      · exact less_trans hs (hu t ht)
    · rename_i hs
      split
      · exact h
      · rename_i hne
        refine List.pairwise_cons.2 ⟨fun t ht => ?_, ih hl⟩
        rcases mem_insertSorted.1 ht with rfl | ht
        · exact less_of_not_less hs hne
        · exact hu t ht

theorem strip?_eq_some_iff {head s t : Bytes} : strip? head s = some t ↔ s = head ++ t := by
  unfold strip?
  constructor
  · intro h
    split at h
    · rename_i hp
      obtain ⟨u, rfl⟩ := List.isPrefixOf_iff_prefix.1 hp
      simpa using h
    · cases h
  · rintro rfl
    simp

theorem strip?_append (head t : Bytes) : strip? head (head ++ t) = some t :=
  strip?_eq_some_iff.2 rfl

theorem strip?_ne {b c : UInt8} (h : b ≠ c) (s t : Bytes) :
    strip? (c :: s) (b :: t) = none := by
  simp [strip?, Ne.symm h]

end Bytes

end JsxPresence
