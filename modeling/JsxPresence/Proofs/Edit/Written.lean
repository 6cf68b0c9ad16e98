import JsxPresence.Proofs.Edit.Splice
import JsxPresence.Proofs.Outline.Nesting
import JsxPresence.Proofs.Token.Partition

namespace JsxPresence

namespace Bytes

variable {text : Bytes} {a p q b : Nat}

theorem slice_append (h : a ≤ p) (k : p ≤ q) :
    text.slice a p ++ text.slice p q = text.slice a q := by
  have hdrop : text.drop p = (text.drop a).drop (p - a) := by
    rw [List.drop_drop, Nat.add_sub_cancel' h]
  have hlen : q - a = (p - a) + (q - p) := by omega
  rw [slice, slice, slice, hdrop, hlen, List.take_add]

theorem slice_take (h : q ≤ b) : slice (text.take b) p q = text.slice p q := by
  rw [slice, slice, List.drop_take, List.take_take, Nat.min_eq_left (by omega)]

theorem drop_take_eq_slice : (text.take q).drop p = text.slice p q := List.drop_take

end Bytes

namespace Edit

/-- No edit meets the bytes `[p, q)`. -/
def Spares (edits : List Edit) (p q : Nat) : Prop := ∀ e ∈ edits, e.stop ≤ p ∨ q ≤ e.start

/-- The edits of a pass over the text, one behind the other. -/
structure InOrder (length : Nat) (l : List Edit) : Prop where
  within : ∀ e ∈ l, e.start ≤ e.stop ∧ e.stop ≤ length
  ordered : l.Pairwise fun a b => a.stop ≤ b.start

theorem inOrder_sorted {length : Nat} {edits : List Edit} (h : check length edits = none) :
    InOrder length (edits.mergeSort comesFirst) := by
  have happlicable := (check_eq_none_iff_applicable length edits).1 h
  refine ⟨fun e he => ?_, pairwise_stop_le_start happlicable⟩
  exact happlicable.within e ((List.mergeSort_perm edits comesFirst).mem_iff.1 he)

/-- The bytes `[a, b)` of the text with the edits made that fall into them. -/
def written (text : Bytes) (l : List Edit) (a b : Nat) : Bytes :=
  splice (text.take b) a (l.filter fun e => decide (a ≤ e.start) && decide (e.stop ≤ b))

variable {text : Bytes} {l : List Edit} {a p q b : Nat}

theorem splice_eq_written (h : InOrder text.length l) :
    splice text 0 l = written text l 0 text.length := by
  have hall : (l.filter fun e => decide (0 ≤ e.start) && decide (e.stop ≤ text.length)) = l :=
    List.filter_eq_self.2 fun e he => by simp [(h.within e he).2]
  rw [written, hall, List.take_length]

/-- Edits that are made can be made one behind the other, and the whole text is written so. -/
theorem of_apply_eq_ok {edits : List Edit} {out : Bytes} (h : apply text edits = .ok out) :
    InOrder text.length (edits.mergeSort comesFirst) ∧
      out = written text (edits.mergeSort comesFirst) 0 text.length := by
  unfold apply at h
  split at h
  · cases h
  · rename_i hcheck
    have horder := inOrder_sorted hcheck
    exact ⟨horder, by rw [← splice_eq_written horder, Except.ok.inj h]⟩

/-- Writing a text splits at bytes that no edit meets. -/
theorem splice_split (h : InOrder text.length l) {cursor : Nat} (hl : ∀ e ∈ l, cursor ≤ e.start)
    (hp : cursor ≤ p) (hpq : p < q) (hspares : Spares l p q) :
    splice text cursor l =
      splice (text.take p) cursor (l.filter fun e => decide (e.stop ≤ p)) ++ text.slice p q ++
        splice text q (l.filter fun e => decide (q ≤ e.start)) := by
  induction l generalizing cursor with
  | nil =>
    simp only [List.filter_nil, splice, Bytes.drop_take_eq_slice]
    rw [Bytes.slice_append hp hpq.le, Bytes.slice_append_drop text (hp.trans hpq.le)]
  | cons e rest ih =>
    have hcursor := hl e List.mem_cons_self
    have hwithin := h.within e List.mem_cons_self
    obtain ⟨hfirst, hordered⟩ := List.pairwise_cons.1 h.ordered
    rcases hspares e List.mem_cons_self with hbefore | hbehind
    · have hrest := ih ⟨fun x hx => h.within x (List.mem_cons_of_mem _ hx), hordered⟩ hfirst hbefore
        fun x hx => hspares x (List.mem_cons_of_mem _ hx)
      have hnot : ¬q ≤ e.start := by omega
      rw [List.filter_cons_of_pos (by simpa using hbefore),
        List.filter_cons_of_neg (by simpa using hnot), splice, splice, hrest,
        Bytes.slice_take (by omega)]
      simp only [List.append_assoc]
    · have hnone : (e :: rest).filter (fun x => decide (x.stop ≤ p)) = [] := by
        refine List.filter_eq_nil_iff.2 fun x hx => ?_
        have hx' := h.within x hx
        have hle : e.start ≤ x.start := by
          rcases List.mem_cons.1 hx with rfl | hx
          · exact le_refl _
          · exact hwithin.1.trans (hfirst x hx)
        simpa using (by omega : p < x.stop)
      have hall : (e :: rest).filter (fun x => decide (q ≤ x.start)) = e :: rest := by
        refine List.filter_eq_self.2 fun x hx => ?_
        rcases List.mem_cons.1 hx with rfl | hx
        · simpa using hbehind
        · simpa using hbehind.trans (hwithin.1.trans (hfirst x hx))
      rw [hnone, hall, splice, splice, splice, Bytes.drop_take_eq_slice,
        Bytes.slice_append hp hpq.le, ← List.append_assoc, ← List.append_assoc,
        Bytes.slice_append (hp.trans hpq.le) hbehind]

/-- Bytes that no edit meets are kept. -/
theorem written_split (h : InOrder text.length l) (hap : a ≤ p) (hpq : p < q) (hqb : q ≤ b)
    (hb : b ≤ text.length) (hspares : Spares l p q) :
    written text l a b = written text l a p ++ text.slice p q ++ written text l q b := by
  have hlength : (text.take b).length = b := by rw [List.length_take, Nat.min_eq_left hb]
  have hinner : InOrder (text.take b).length
      (l.filter fun e => decide (a ≤ e.start) && decide (e.stop ≤ b)) := by
    refine ⟨fun e he => ?_, h.ordered.sublist List.filter_sublist⟩
    obtain ⟨he, hin⟩ := List.mem_filter.1 he
    simp only [Bool.and_eq_true, decide_eq_true_eq] at hin
    exact ⟨(h.within e he).1, by omega⟩
  have hstart : ∀ e ∈ l.filter (fun e => decide (a ≤ e.start) && decide (e.stop ≤ b)),
      a ≤ e.start := by
    intro e he
    have hin := (List.mem_filter.1 he).2
    simp only [Bool.and_eq_true, decide_eq_true_eq] at hin
    exact hin.1
  have hbefore : (l.filter fun e => decide (a ≤ e.start) && decide (e.stop ≤ b)).filter
      (fun e => decide (e.stop ≤ p)) =
        l.filter fun e => decide (a ≤ e.start) && decide (e.stop ≤ p) := by
    rw [List.filter_filter]
    refine List.filter_congr fun e _ => ?_
    rw [Bool.eq_iff_iff]
    simp only [Bool.and_eq_true, decide_eq_true_eq]
    omega
  have hbehind : (l.filter fun e => decide (a ≤ e.start) && decide (e.stop ≤ b)).filter
      (fun e => decide (q ≤ e.start)) =
        l.filter fun e => decide (q ≤ e.start) && decide (e.stop ≤ b) := by
    rw [List.filter_filter]
    refine List.filter_congr fun e _ => ?_
    rw [Bool.eq_iff_iff]
    simp only [Bool.and_eq_true, decide_eq_true_eq]
    omega
  rw [written, splice_split hinner hstart hap hpq fun e he => hspares e (List.mem_filter.1 he).1,
    List.take_take, Nat.min_eq_left (by omega), Bytes.slice_take hqb, hbefore, hbehind, written,
    written]

theorem written_byte (h : InOrder text.length l) (haq : a ≤ q) (hqb : q < b)
    (hb : b ≤ text.length) (hspares : Spares l q (q + 1)) :
    written text l a b = written text l a q ++ text.byteAt q :: written text l (q + 1) b := by
  have hbyte : text.slice q (q + 1) = [text.byteAt q] := by
    rw [Bytes.slice_succ le_rfl (by omega), Bytes.slice_self, List.nil_append]
  rw [written_split h haq (Nat.lt_succ_self q) hqb hb hspares, hbyte]
  simp

/-- At a single offset stands what is inserted there. -/
theorem written_self (h : InOrder text.length l) :
    written text l p p =
      (l.filter fun e => decide (p ≤ e.start) && decide (e.stop ≤ p)).flatMap (·.replacement) := by
  have hpoint : ∀ e ∈ l.filter (fun e => decide (p ≤ e.start) && decide (e.stop ≤ p)),
      e.start = p ∧ e.stop = p := by
    intro e he
    obtain ⟨he, hin⟩ := List.mem_filter.1 he
    simp only [Bool.and_eq_true, decide_eq_true_eq] at hin
    have hle := (h.within e he).1
    omega
  unfold written
  generalize (l.filter fun e => decide (p ≤ e.start) && decide (e.stop ≤ p)) = l' at hpoint
  induction l' with
  | nil => simp [splice]
  | cons e rest ih =>
    obtain ⟨hstart, hstop⟩ := hpoint e List.mem_cons_self
    have hrest := ih fun x hx => hpoint x (List.mem_cons_of_mem _ hx)
    rw [splice, hstart, hstop, hrest]
    simp [Bytes.slice]

/-- Where nothing is inserted nothing stands. -/
theorem written_self_eq_nil (h : InOrder text.length l)
    (hl : ∀ e ∈ l, e.stop < p ∨ p < e.start) : written text l p p = [] := by
  have hnone : (l.filter fun e => decide (p ≤ e.start) && decide (e.stop ≤ p)) = [] := by
    refine List.filter_eq_nil_iff.2 fun e he => ?_
    have hwithin := (h.within e he).1
    simp only [Bool.and_eq_true, decide_eq_true_eq]
    rcases hl e he with hlt | hlt <;> omega
  rw [written_self h, hnone]
  rfl

/-- What an edit brings in stands in the part of the text that the edit falls into. -/
theorem exists_written_eq {e : Edit} (he : e ∈ l) (ha : a ≤ e.start) (hb : e.stop ≤ b) :
    ∃ before behind, written text l a b = before ++ e.replacement ++ behind := by
  have hmem : e ∈ l.filter fun x => decide (a ≤ x.start) && decide (x.stop ≤ b) := by
    simp [List.mem_filter, he, ha, hb]
  unfold written
  generalize (l.filter fun x => decide (a ≤ x.start) && decide (x.stop ≤ b)) = l' at hmem
  generalize a = cursor
  induction l' generalizing cursor with
  | nil => cases hmem
  | cons x rest ih =>
    rw [splice]
    rcases List.mem_cons.1 hmem with rfl | hmem
    · exact ⟨_, _, rfl⟩
    · obtain ⟨before, behind, hrest⟩ := ih hmem x.stop
      rw [hrest]
      exact ⟨Bytes.slice (text.take b) cursor x.start ++ x.replacement ++ before, behind,
        by simp only [List.append_assoc]⟩

end Edit

end JsxPresence
