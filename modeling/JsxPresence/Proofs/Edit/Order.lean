import JsxPresence.Proofs.Edit.Splice

namespace JsxPresence

namespace Order

variable {α : Type} {le : α → α → Bool} {l l' : List α} {p : α → Bool}

/-- Neither of the two comes before the other. -/
def tied (le : α → α → Bool) (x y : α) : Bool := le x y && le y x

/-- Sorting keeps the order among members of which none has to come before another. -/
theorem filter_mergeSort (trans : ∀ x y z, le x y = true → le y z = true → le x z = true)
    (total : ∀ x y, (le x y || le y x) = true)
    (hp : ∀ x y, p x = true → p y = true → le x y = true) :
    (l.mergeSort le).filter p = l.filter p := by
  have hordered : (l.filter p).Pairwise (fun x y => le x y = true) := by
    refine List.pairwise_iff_forall_sublist.2 fun {x y} hxy => ?_
    have hx := hxy.subset List.mem_cons_self
    have hy := hxy.subset (List.mem_cons_of_mem x List.mem_cons_self)
    exact hp x y (List.mem_filter.1 hx).2 (List.mem_filter.1 hy).2
  have hsub : (l.filter p).Sublist (l.mergeSort le) :=
    List.sublist_mergeSort trans total hordered List.filter_sublist
  have hsub : (l.filter p).Sublist ((l.mergeSort le).filter p) := by
    simpa using hsub.filter p
  have hlength : (l.filter p).length = ((l.mergeSort le).filter p).length :=
    ((List.mergeSort_perm l le).filter p).length_eq.symm
  exact (hsub.eq_of_length hlength).symm

/-- Two sorted lists of the same members are equal if they agree on the order among members of
which none has to come before another. -/
theorem eq_of_sorted (total : ∀ x y, (le x y || le y x) = true)
    (hl : l.Pairwise fun x y => le x y = true) (hl' : l'.Pairwise fun x y => le x y = true)
    (hp : l.Perm l') (ht : ∀ x ∈ l, l.filter (tied le x) = l'.filter (tied le x)) : l = l' := by
  induction l generalizing l' with
  | nil => exact (List.nil_perm.1 hp).symm
  | cons a l ih =>
    have hrefl (x : α) : le x x = true := by simpa using total x x
    obtain ⟨b, l', rfl⟩ : ∃ b t, l' = b :: t := by
      cases l' with
      | nil => simp at hp
      | cons b t => exact ⟨b, t, rfl⟩
    rw [List.pairwise_cons] at hl hl'
    have hab : le a b = true := by
      rcases List.mem_cons.1 (hp.mem_iff.2 List.mem_cons_self) with rfl | hb
      · exact hrefl b
      · exact hl.1 b hb
    have hba : le b a = true := by
      rcases List.mem_cons.1 (hp.mem_iff.1 List.mem_cons_self) with rfl | ha
      · exact hrefl a
      · exact hl'.1 a ha
    have hheads := ht a List.mem_cons_self
    rw [List.filter_cons_of_pos (by simp [tied, hrefl]),
      List.filter_cons_of_pos (by simp [tied, hab, hba])] at hheads
    obtain ⟨rfl, -⟩ := List.cons.inj hheads
    have htails : l = l' := by
      refine ih hl.2 hl'.2 hp.cons_inv fun x hx => ?_
      have hx := ht x (List.mem_cons_of_mem _ hx)
      rw [List.filter_cons, List.filter_cons] at hx
      split_ifs at hx
      · exact (List.cons.inj hx).2
      · exact hx
    rw [htails]

end Order

namespace Edit

variable {length : Nat} {a b : List Edit}

/-- The insertions at one offset, in the order of the list. -/
def insertionsAt (offset : Nat) (edits : List Edit) : List Edit :=
  edits.filter fun e => e.isInsertion && e.start = offset

/-- The same edits in another order, with the insertions at each offset in the order they had. -/
structure Reordered (a b : List Edit) : Prop where
  perm : a.Perm b
  insertions : ∀ offset, insertionsAt offset a = insertionsAt offset b

theorem tied_comesFirst_iff (x y : Edit) :
    Order.tied comesFirst x y = true ↔ x.start = y.start ∧ x.isInsertion = y.isInsertion := by
  simp only [Order.tied, comesFirst, Bool.and_eq_true, Bool.or_eq_true, Bool.not_eq_true',
    decide_eq_true_eq]
  cases x.isInsertion <;> cases y.isInsertion <;> simp <;> omega

theorem filter_tied_of_isInsertion {x : Edit} (hx : x.isInsertion = true) (edits : List Edit) :
    edits.filter (Order.tied comesFirst x) = insertionsAt x.start edits := by
  refine List.filter_congr fun e _ => ?_
  rw [Bool.eq_iff_iff, tied_comesFirst_iff, hx]
  simp only [Bool.and_eq_true, decide_eq_true_eq]
  exact ⟨fun h => ⟨h.2.symm, h.1.symm⟩, fun h => ⟨h.2.symm, h.1.symm⟩⟩

/-- Replacements at one start share their first byte. -/
theorem collide_of_tied {x y : Edit} (hx : x.isInsertion = false) (hwx : x.start ≤ x.stop)
    (hwy : y.start ≤ y.stop) (ht : Order.tied comesFirst x y = true) : Collide x y := by
  obtain ⟨hstart, hkind⟩ := (tied_comesFirst_iff x y).1 ht
  have hx' : x.start ≠ x.stop := of_decide_eq_false hx
  have hy : y.start ≠ y.stop := of_decide_eq_false (hkind.symm.trans hx)
  exact .shared x.start ⟨le_refl _, by omega⟩ ⟨by omega, by omega⟩

/-- So there is at most one of them among edits that can be made. -/
theorem filter_tied_of_replacement (h : Applicable length a) {x : Edit} (hx : x ∈ a)
    (hi : x.isInsertion = false) : a.filter (Order.tied comesFirst x) = [x] := by
  have hself : Order.tied comesFirst x x = true := (tied_comesFirst_iff x x).2 ⟨rfl, rfl⟩
  have happ : Applicable length (a.filter (Order.tied comesFirst x)) :=
    ⟨fun e he => h.within e (List.mem_of_mem_filter he), h.apart.filter _⟩
  have hmem : x ∈ a.filter (Order.tied comesFirst x) := List.mem_filter.2 ⟨hx, hself⟩
  have htied : ∀ e ∈ a.filter (Order.tied comesFirst x), Order.tied comesFirst x e = true :=
    fun e he => (List.mem_filter.1 he).2
  generalize a.filter (Order.tied comesFirst x) = l at happ hmem htied
  rcases l with _ | ⟨y, _ | ⟨z, rest⟩⟩
  · cases hmem
  · rw [List.mem_singleton.1 hmem]
  · have hy := (tied_comesFirst_iff x y).1 (htied y (by simp))
    have hz := (tied_comesFirst_iff x z).1 (htied z (by simp))
    have hyz : Order.tied comesFirst y z = true :=
      (tied_comesFirst_iff y z).2 ⟨hy.1.symm.trans hz.1, hy.2.symm.trans hz.2⟩
    have hcollide := collide_of_tied (hy.2.symm.trans hi) (happ.within y (by simp)).1
      (happ.within z (by simp)).1 hyz
    exact absurd hcollide ((List.pairwise_cons.1 happ.apart).1 z List.mem_cons_self)

/-- Edits that can be made are written in one order, however they are listed. -/
theorem mergeSort_of_reordered (h : Reordered a b) (ha : Applicable length a)
    (hb : Applicable length b) : a.mergeSort comesFirst = b.mergeSort comesFirst := by
  have hclass (edits : List Edit) (x : Edit) :
      (edits.mergeSort comesFirst).filter (Order.tied comesFirst x) =
        edits.filter (Order.tied comesFirst x) := by
    refine Order.filter_mergeSort comesFirst_trans comesFirst_total fun y z hy hz => ?_
    simp only [Order.tied, Bool.and_eq_true] at hy hz
    exact comesFirst_trans y x z hy.2 hz.1
  have hperm : (a.mergeSort comesFirst).Perm (b.mergeSort comesFirst) :=
    ((List.mergeSort_perm a _).trans h.perm).trans (List.mergeSort_perm b _).symm
  refine Order.eq_of_sorted comesFirst_total
    (List.pairwise_mergeSort comesFirst_trans comesFirst_total a)
    (List.pairwise_mergeSort comesFirst_trans comesFirst_total b) hperm fun x hx => ?_
  rw [hclass, hclass]
  cases hi : x.isInsertion with
  | true => rw [filter_tied_of_isInsertion hi, filter_tied_of_isInsertion hi, h.insertions]
  | false =>
    have hx : x ∈ a := List.mem_mergeSort.1 hx
    rw [filter_tied_of_replacement ha hx hi,
      filter_tied_of_replacement hb (h.perm.mem_iff.1 hx) hi]

/-- Putting edits in the order of their starts leaves insertions at one offset as they are. -/
theorem reordered_sort (edits : List Edit) : Reordered (sort edits) edits where
  perm := List.mergeSort_perm _ _
  insertions offset := by
    refine Order.filter_mergeSort (fun x y z hxy hyz => ?_) (fun x y => ?_) fun x y hx hy => ?_
    · simp only [decide_eq_true_eq] at *
      omega
    · simp only [Bool.or_eq_true, decide_eq_true_eq]
      omega
    · simp only [Bool.and_eq_true, decide_eq_true_eq] at *
      omega

/-- Lists of the same edits are applied with the same outcome, or neither can be. -/
theorem apply_eq_ok_of_reordered (text : Bytes) (h : Reordered a b) (out : Bytes) :
    apply text a = .ok out ↔ apply text b = .ok out := by
  have hcheck : check text.length a = none ↔ check text.length b = none :=
    check_eq_none_of_perm h.perm
  unfold apply
  cases ha : check text.length a with
  | some error =>
    obtain ⟨error', hb⟩ : ∃ e, check text.length b = some e := by
      rw [← Option.ne_none_iff_exists']
      exact fun hb => by simp [hcheck.2 hb] at ha
    simp [hb]
  | none =>
    have hb := hcheck.1 ha
    have hsame := mergeSort_of_reordered h ((check_eq_none_iff_applicable _ _).1 ha)
      ((check_eq_none_iff_applicable _ _).1 hb)
    simp [hb, hsame]

/-- Only the order among insertions at one offset matters: lists of the same edits that agree on it
give the same text, or both none. In particular edits may be put in the order of their starts
before they are applied. -/
theorem apply_reordered (text : Bytes) (h : Reordered a b) :
    (∀ out, apply text a = .ok out ↔ apply text b = .ok out) ∧
    ∀ out, apply text (sort a) = .ok out ↔ apply text a = .ok out :=
  ⟨apply_eq_ok_of_reordered text h, apply_eq_ok_of_reordered text (reordered_sort a)⟩

/-- Two insertions in front of a replacement, and one behind it. -/
def frontedEdits : List Edit :=
  [.insertion 1 (utf8 "p"), .insertion 1 (utf8 "q"), .replace ⟨1, 2⟩ (utf8 "X"),
    .insertion 3 (utf8 "r")]

def shuffledEdits : List Edit :=
  [.insertion 3 (utf8 "r"), .replace ⟨1, 2⟩ (utf8 "X"), .insertion 1 (utf8 "p"),
    .insertion 1 (utf8 "q")]

theorem apply_reordered_shuffled :
    Reordered frontedEdits shuffledEdits ∧
      apply (utf8 "abcd") frontedEdits = .ok (utf8 "apqXcrd") ∧
      apply (utf8 "abcd") shuffledEdits = .ok (utf8 "apqXcrd") := by
  have hreordered : Reordered frontedEdits shuffledEdits := by
    refine ⟨by decide +kernel, fun offset => ?_⟩
    by_cases h1 : 1 = offset
    · rw [← h1]
      decide +kernel
    by_cases h3 : 3 = offset
    · rw [← h3]
      decide +kernel
    · simp [insertionsAt, frontedEdits, shuffledEdits, isInsertion, insertion, replace, h1, h3]
  have hcheck : check (utf8 "abcd").length frontedEdits = none := by
    rw [check_eq_none_iff]
    decide +kernel
  have hsorted : frontedEdits.mergeSort comesFirst = frontedEdits :=
    List.mergeSort_of_pairwise (by decide +kernel)
  have happly : apply (utf8 "abcd") frontedEdits = .ok (utf8 "apqXcrd") := by
    simp only [apply, hcheck, hsorted]
    decide +kernel
  exact ⟨hreordered, happly, ((apply_reordered _ hreordered).1 _).1 happly⟩

end Edit

end JsxPresence
