import JsxPresence.Proofs.Edit.Check

namespace JsxPresence.Edit

/-- The edits share a byte, or one of them is an insertion strictly inside the other. -/
inductive Collide (a b : Edit) : Prop
  | shared (offset : Nat) (ha : a.start ≤ offset ∧ offset < a.stop)
      (hb : b.start ≤ offset ∧ offset < b.stop)
  | inside (ha : a.start = a.stop) (hb : b.start < a.start ∧ a.start < b.stop)
  | around (hb : b.start = b.stop) (ha : a.start < b.start ∧ b.start < a.stop)

theorem overlaps_iff_collide {length : Nat} {a b : Edit} (ha : a.fits length = true)
    (hb : b.fits length = true) : a.overlaps b = true ↔ Collide a b := by
  simp only [fits, Bool.and_eq_true, decide_eq_true_eq] at ha hb
  by_cases hi : a.start = a.stop
  · have hiff : a.overlaps b = true ↔ b.start ≠ b.stop ∧ b.start < a.start ∧ a.start < b.stop := by
      simp [overlaps, isInsertion, covers, hi]
    rw [hiff]
    constructor
    · exact fun h => .inside hi h.2
    · rintro (⟨offset, ha', -⟩ | ⟨-, hb'⟩ | ⟨-, ha'⟩) <;> omega
  by_cases hj : b.start = b.stop
  · have hiff : a.overlaps b = true ↔ a.start < b.start ∧ b.start < a.stop := by
      simp [overlaps, isInsertion, covers, hi, hj]
    rw [hiff]
    constructor
    · exact fun h => .around hj h
    · rintro (⟨offset, -, hb'⟩ | ⟨ha', -⟩ | ⟨-, ha'⟩) <;> omega
  · have hiff : a.overlaps b = true ↔ a.start < b.stop ∧ b.start < a.stop := by
      simp [overlaps, isInsertion, hi, hj]
    rw [hiff]
    constructor
    · exact fun h => .shared (max a.start b.start) (by omega) (by omega)
    · rintro (⟨offset, ha', hb'⟩ | ⟨ha', -⟩ | ⟨hb', -⟩) <;> omega

/-- The edits can be made: each lies inside the text, and no two of them collide. -/
structure Applicable (length : Nat) (edits : List Edit) : Prop where
  within : ∀ e ∈ edits, e.start ≤ e.stop ∧ e.stop ≤ length
  apart : edits.Pairwise fun a b => ¬Collide a b

theorem check_eq_none_iff_applicable (length : Nat) (edits : List Edit) :
    check length edits = none ↔ Applicable length edits := by
  have hfits (e : Edit) : e.fits length = true ↔ e.start ≤ e.stop ∧ e.stop ≤ length := by
    simp [fits]
  have hapart (hall : ∀ e ∈ edits, e.fits length = true) :
      (edits.Pairwise fun a b => a.overlaps b = false) ↔ edits.Pairwise fun a b => ¬Collide a b := by
    refine List.Pairwise.iff_of_mem fun {a b} ha hb => ?_
    rw [← overlaps_iff_collide (hall a ha) (hall b hb), Bool.not_eq_true]
  rw [check_eq_none_iff]
  constructor
  · rintro ⟨hall, hpair⟩
    exact ⟨fun e he => (hfits e).1 (hall e he), (hapart hall).1 hpair⟩
  · rintro ⟨hall, hpair⟩
    have hall (e : Edit) (he : e ∈ edits) : e.fits length = true := (hfits e).2 (hall e he)
    exact ⟨hall, (hapart hall).2 hpair⟩

theorem comesFirst_trans (a b c : Edit) (hab : a.comesFirst b = true) (hbc : b.comesFirst c = true) :
    a.comesFirst c = true := by
  simp only [comesFirst, Bool.or_eq_true, Bool.and_eq_true, Bool.not_eq_true',
    decide_eq_true_eq] at *
  grind

theorem comesFirst_total (a b : Edit) : (a.comesFirst b || b.comesFirst a) = true := by
  simp only [comesFirst, Bool.or_eq_true, Bool.and_eq_true, Bool.not_eq_true', decide_eq_true_eq]
  grind

/-- Of two edits that do not collide, the one that comes first ends where the other starts, or
before. -/
theorem stop_le_start {a b : Edit} (hb : b.start ≤ b.stop) (h : a.comesFirst b = true)
    (hc : ¬Collide a b) : a.stop ≤ b.start := by
  by_contra hlt
  simp only [comesFirst, isInsertion, Bool.or_eq_true, Bool.and_eq_true, Bool.not_eq_true',
    decide_eq_true_eq, decide_eq_false_iff_not] at h
  by_cases hins : b.start = b.stop
  · exact hc (.around hins (by omega))
  · exact hc (.shared b.start (by omega) (by omega))

theorem pairwise_stop_le_start {length : Nat} {edits : List Edit} (h : Applicable length edits) :
    (edits.mergeSort comesFirst).Pairwise fun a b => a.stop ≤ b.start := by
  have hperm := List.mergeSort_perm edits comesFirst
  have hfirst := List.pairwise_mergeSort comesFirst_trans comesFirst_total edits
  have hsymm {a b : Edit} (hab : ¬Collide a b) : ¬Collide b a := by
    rintro (⟨i, hb, ha⟩ | ⟨hb, ha⟩ | ⟨ha, hb⟩)
    · exact hab (.shared i ha hb)
    · exact hab (.around hb ha)
    · exact hab (.inside ha hb)
  have hapart : (edits.mergeSort comesFirst).Pairwise fun a b => ¬Collide a b :=
    (hperm.pairwise_iff hsymm).2 h.apart
  refine (hfirst.and hapart).imp_of_mem fun {a b} _ hb hab => ?_
  exact stop_le_start (h.within b (hperm.mem_iff.1 hb)).1 hab.1 hab.2

/-- Each edit of the pass starts at the cursor or behind it, and so does the rest of a text of this
length. -/
def Forward (length cursor : Nat) : List Edit → Prop
  | [] => cursor ≤ length
  | e :: rest => cursor ≤ e.start ∧ Forward length e.stop rest

theorem forward_of_pairwise {length cursor : Nat} {l : List Edit}
    (hl : l.Pairwise fun a b => a.stop ≤ b.start) (hw : ∀ e ∈ l, e.start ≤ e.stop ∧ e.stop ≤ length)
    (hc : cursor ≤ length) (hs : ∀ e ∈ l, cursor ≤ e.start) : Forward length cursor l := by
  induction l generalizing cursor with
  | nil => exact hc
  | cons e rest ih =>
    rw [List.pairwise_cons] at hl
    refine ⟨hs e List.mem_cons_self, ?_⟩
    exact ih hl.2 (fun x hx => hw x (List.mem_cons_of_mem _ hx)) (hw e List.mem_cons_self).2 hl.1

/-- The text with one edit made. -/
def substitute (text : Bytes) (e : Edit) : Bytes :=
  text.take e.start ++ e.replacement ++ text.drop e.stop

/-- Edits behind an offset leave what stands before it. -/
theorem take_foldr_substitute {text : Bytes} {n : Nat} {l : List Edit} (hn : n ≤ text.length)
    (hl : ∀ e ∈ l, n ≤ e.start) :
    (l.foldr (fun e t => substitute t e) text).take n = text.take n := by
  induction l with
  | nil => rfl
  | cons e rest ih =>
    have ih := ih fun x hx => hl x (List.mem_cons_of_mem _ hx)
    have he := hl e List.mem_cons_self
    rw [List.foldr_cons]
    generalize rest.foldr (fun e t => substitute t e) text = t at ih ⊢
    have hlen : n ≤ t.length := by
      have := congrArg List.length ih
      simp only [List.length_take] at this
      omega
    rw [← ih, substitute, List.append_assoc, List.take_append_of_le_length, List.take_take,
      Nat.min_eq_left he]
    simp only [List.length_take]
    omega

/-- Writing the text from the cursor on is making the edits from the last one to the first. -/
theorem splice_eq_foldr {text : Bytes} {cursor : Nat} {l : List Edit}
    (hl : l.Pairwise fun a b => a.stop ≤ b.start)
    (hw : ∀ e ∈ l, e.start ≤ e.stop ∧ e.stop ≤ text.length) (hs : ∀ e ∈ l, cursor ≤ e.start) :
    splice text cursor l = (l.foldr (fun e t => substitute t e) text).drop cursor := by
  induction l generalizing cursor with
  | nil => rfl
  | cons e rest ih =>
    rw [List.pairwise_cons] at hl
    have hrest : ∀ x ∈ rest, x.start ≤ x.stop ∧ x.stop ≤ text.length :=
      fun x hx => hw x (List.mem_cons_of_mem _ hx)
    obtain ⟨hes, hel⟩ := hw e List.mem_cons_self
    have hcur := hs e List.mem_cons_self
    have htake : (rest.foldr (fun e t => substitute t e) text).take e.start = text.take e.start :=
      take_foldr_substitute (by omega) fun x hx => hes.trans (hl.1 x hx)
    rw [splice, ih hl.2 hrest hl.1, List.foldr_cons]
    generalize rest.foldr (fun e t => substitute t e) text = t at htake ⊢
    have hlen : cursor ≤ (text.take e.start).length := by
      rw [List.length_take]
      omega
    rw [substitute, htake, List.append_assoc, List.append_assoc,
      List.drop_append_of_le_length hlen, List.drop_take, Bytes.slice]

/-- The first edit is made before the second: at a higher start, or at the same start as the
replacement before an insertion or as the insertion that is listed later. -/
def Sooner (a b : Edit × Nat) : Prop :=
  b.1.start < a.1.start ∨ a.1.start = b.1.start ∧
    ((a.1.isInsertion = false ∧ b.1.isInsertion = true) ∨
      (a.1.isInsertion = true ∧ b.1.isInsertion = true ∧ b.2 < a.2))

/-- All edits, with their places in the list, in the order in which they are made one by one. -/
structure BackToFront (edits : List Edit) (order : List (Edit × Nat)) : Prop where
  perm : order.Perm edits.zipIdx
  sorted : order.Pairwise Sooner

/-- The order of the pass, with the places in the list. -/
def passOrder (edits : List Edit) : List (Edit × Nat) :=
  edits.zipIdx.mergeSort (List.zipIdxLE comesFirst)

theorem passOrder_perm (edits : List Edit) : (passOrder edits).Perm edits.zipIdx :=
  List.mergeSort_perm _ _

theorem passOrder_edits (edits : List Edit) :
    (passOrder edits).map (·.1) = edits.mergeSort comesFirst := List.mergeSort_zipIdx

/-- Edits are found in the list by their places. -/
theorem pairwise_zipIdx_ne (edits : List Edit) :
    edits.zipIdx.Pairwise fun a b => a.2 ≠ b.2 := by
  have hnodup : (edits.zipIdx.map (·.2)).Nodup := by
    rw [List.zipIdx_map_snd]
    exact List.nodup_range'
  exact List.pairwise_map.1 hnodup

/-- Two edits that stand in the order of the pass are made in the other order. -/
theorem sooner_of_zipIdxLE {a b : Edit × Nat} (ha : a.1.start ≤ a.1.stop)
    (h : List.zipIdxLE comesFirst a b = true) (hne : a.2 ≠ b.2) (hstop : a.1.stop ≤ b.1.start) :
    Sooner b a := by
  simp only [List.zipIdxLE] at h
  split_ifs at h with hab hba
  all_goals
    simp only [comesFirst, isInsertion, Bool.or_eq_true, Bool.and_eq_true, Bool.not_eq_true',
      decide_eq_true_eq, decide_eq_false_iff_not] at hab hba h
    simp only [Sooner, isInsertion, decide_eq_true_eq, decide_eq_false_iff_not]
    omega

/-- The order of the pass, turned round, goes from the back to the front. -/
theorem backToFront_reverse {length : Nat} {edits : List Edit} (h : Applicable length edits) :
    BackToFront edits (passOrder edits).reverse where
  perm := (List.reverse_perm _).trans (passOrder_perm edits)
  sorted := by
    rw [List.pairwise_reverse]
    have hperm := passOrder_perm edits
    have hfirst := List.pairwise_mergeSort (List.zipIdxLE_trans comesFirst_trans)
      (List.zipIdxLE_total comesFirst_total) edits.zipIdx
    have hne : (passOrder edits).Pairwise fun a b => a.2 ≠ b.2 :=
      (hperm.pairwise_iff fun {a b} (h : a.2 ≠ b.2) => h.symm).2 (pairwise_zipIdx_ne edits)
    have hstop : (passOrder edits).Pairwise fun a b => a.1.stop ≤ b.1.start := by
      have := pairwise_stop_le_start h
      rwa [← passOrder_edits, List.pairwise_map] at this
    have hwithin (x : Edit × Nat) (hx : x ∈ passOrder edits) :=
      h.within x.1 (List.fst_mem_of_mem_zipIdx (hperm.mem_iff.1 hx))
    refine ((hfirst.and hne).and hstop).imp_of_mem fun {a b} ha _ hab => ?_
    exact sooner_of_zipIdxLE (hwithin a ha).1 hab.1.1 hab.1.2 hab.2

theorem Sooner.asymm {a b : Edit × Nat} (h : Sooner a b) : ¬Sooner b a := by
  intro k
  unfold Sooner at h k
  grind

/-- There is one way to go from the back to the front. -/
theorem BackToFront.eq_reverse {length : Nat} {edits : List Edit} {order : List (Edit × Nat)}
    (ho : BackToFront edits order) (h : Applicable length edits) :
    order = (passOrder edits).reverse := by
  have hp := backToFront_reverse h
  exact List.Perm.eq_of_pairwise (fun _ _ _ _ hab hba => absurd hba hab.asymm) ho.sorted hp.sorted
    (ho.perm.trans hp.perm.symm)

/-- What one pass writes is what making the edits one by one gives. -/
theorem splice_eq_foldl {text : Bytes} {edits : List Edit} {order : List (Edit × Nat)}
    (h : Applicable text.length edits) (ho : BackToFront edits order) :
    splice text 0 (edits.mergeSort comesFirst) =
      order.foldl (fun t x => substitute t x.1) text := by
  have hwithin : ∀ e ∈ edits.mergeSort comesFirst, e.start ≤ e.stop ∧ e.stop ≤ text.length :=
    fun e he => h.within e (List.mem_mergeSort.1 he)
  rw [ho.eq_reverse h, List.foldl_reverse,
    splice_eq_foldr (pairwise_stop_le_start h) hwithin fun _ _ => Nat.zero_le _, List.drop_zero,
    ← passOrder_edits, List.foldr_map]

/-- The edit with this place in the list lies outside the text, or collides with one before it. -/
def AtFault (length : Nat) (edits : List Edit) (index : Nat) : Prop :=
  ∃ e, edits[index]? = some e ∧ (¬(e.start ≤ e.stop ∧ e.stop ≤ length) ∨
    ∃ place < index, ∃ earlier, edits[place]? = some earlier ∧ Collide earlier e)

theorem outOfRange?_atFault {length : Nat} {edits : List Edit} {error : EditError}
    (h : outOfRange? length edits = some error) : AtFault length edits error.index := by
  obtain ⟨⟨e, i⟩, hf, rfl⟩ := Option.map_eq_some_iff.1 h
  have hm := List.mem_of_find?_eq_some hf
  have hout := List.find?_some hf
  refine ⟨e, List.mk_mem_zipIdx_iff_getElem?.1 hm, .inl fun hin => ?_⟩
  simp [fits, hin] at hout

/-- A clash is that of two edits of the list. -/
theorem exists_of_clash? {l : List (Edit × Nat)} {error : EditError}
    (hl : l.Pairwise fun a b => a.1.start ≤ b.1.start) (h : clash? l = some error) :
    ∃ a b, List.Sublist [a, b] l ∧ a.1.overlaps b.1 = true ∧ error = .ofPair a b := by
  induction l with
  | nil => cases h
  | cons a rest ih =>
    rw [List.pairwise_cons] at hl
    unfold clash? at h
    rw [overlapping?_eq_find? a.1 hl.2] at h
    cases hf : rest.find? fun b => a.1.overlaps b.1 with
    | some b =>
      rw [hf] at h
      cases h
      have hm := List.mem_of_find?_eq_some hf
      have ho : a.1.overlaps b.1 = true := List.find?_some (p := fun b : Edit × Nat => a.1.overlaps b.1) hf
      exact ⟨a, b, (List.singleton_sublist.2 hm).cons_cons a, ho, rfl⟩
    | none =>
      rw [hf] at h
      obtain ⟨c, d, hs, ho⟩ := ih hl.2 h
      exact ⟨c, d, hs.cons a, ho⟩

theorem ofPair_atFault {length : Nat} {edits : List Edit} {a b : Edit × Nat}
    (ha : edits[a.2]? = some a.1) (hb : edits[b.2]? = some b.1) (hne : a.2 ≠ b.2)
    (hc : Collide a.1 b.1) (hc' : Collide b.1 a.1) :
    AtFault length edits (EditError.ofPair a b).index := by
  unfold EditError.ofPair
  split_ifs with hle
  · exact ⟨b.1, hb, .inr ⟨a.2, lt_of_le_of_ne hle hne, a.1, ha, hc⟩⟩
  · exact ⟨a.1, ha, .inr ⟨b.2, lt_of_not_ge hle, b.1, hb, hc'⟩⟩

/-- The error names an edit that is at fault. -/
theorem check_atFault {length : Nat} {edits : List Edit} {error : EditError}
    (h : check length edits = some error) : AtFault length edits error.index := by
  unfold check at h
  cases ho : outOfRange? length edits with
  | some e =>
    rw [ho] at h
    cases h
    exact outOfRange?_atFault ho
  | none =>
    rw [ho] at h
    obtain ⟨a, b, hs, hov, rfl⟩ := exists_of_clash? (pairwise_byStart edits) h
    have hperm := List.mergeSort_perm edits.zipIdx fun a b => decide (a.1.start ≤ b.1.start)
    have hmem (x : Edit × Nat) (hx : x ∈ [a, b]) : x ∈ edits.zipIdx :=
      hperm.mem_iff.1 (hs.subset hx)
    have ha := hmem a (by simp)
    have hb := hmem b (by simp)
    have hne : a.2 ≠ b.2 := by
      have hall := (hperm.pairwise_iff fun {a b} (h : a.2 ≠ b.2) => h.symm).2
        (pairwise_zipIdx_ne edits)
      simpa using hall.sublist hs
    have hfits (x : Edit × Nat) (hx : x ∈ edits.zipIdx) : x.1.fits length = true :=
      (outOfRange?_eq_none_iff length edits).1 ho x.1 (List.fst_mem_of_mem_zipIdx hx)
    refine ofPair_atFault (List.mk_mem_zipIdx_iff_getElem?.1 ha)
      (List.mk_mem_zipIdx_iff_getElem?.1 hb) hne ?_ ?_
    · exact (overlaps_iff_collide (hfits a ha) (hfits b hb)).1 hov
    · exact (overlaps_iff_collide (hfits b hb) (hfits a ha)).1 (by rwa [overlaps_comm])

/-- Edits are applied exactly if they lie inside the text and no two collide. The text that comes
out is the one that making them one by one from the back to the front gives, in one pass that never
goes back; and if they cannot be applied, the error names one that is at fault. -/
theorem apply_spec (text : Bytes) (edits : List Edit) :
    ((∃ out, apply text edits = .ok out) ↔ Applicable text.length edits) ∧
    (∀ out, apply text edits = .ok out → (∃ order, BackToFront edits order) ∧
      ∀ order, BackToFront edits order → out = order.foldl (fun t x => substitute t x.1) text) ∧
    (∀ error, apply text edits = .error error → AtFault text.length edits error.index) ∧
    (Applicable text.length edits → Forward text.length 0 (edits.mergeSort comesFirst)) := by
  have hiff := check_eq_none_iff_applicable text.length edits
  have hforward (h : Applicable text.length edits) :
      Forward text.length 0 (edits.mergeSort comesFirst) :=
    forward_of_pairwise (pairwise_stop_le_start h)
      (fun e he => h.within e (List.mem_mergeSort.1 he)) (Nat.zero_le _) fun _ _ => Nat.zero_le _
  unfold apply
  cases hc : check text.length edits with
  | some error =>
    refine ⟨?_, ?_, ?_, hforward⟩
    · simp [← hiff, hc]
    · simp
    · rintro _ ⟨⟩
      exact check_atFault hc
  | none =>
    have happ := hiff.1 hc
    refine ⟨by simp [happ], ?_, by simp, hforward⟩
    rintro out ⟨⟩
    exact ⟨⟨_, backToFront_reverse happ⟩, fun order ho => splice_eq_foldl happ ho⟩

end JsxPresence.Edit
