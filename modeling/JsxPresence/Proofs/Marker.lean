import JsxPresence.Marker
import JsxPresence.Proofs.Name
import JsxPresence.Proofs.Outline.Parse

namespace JsxPresence

/-- The file's outline is the outline of its text. -/
def ParsedFile.Read (file : ParsedFile) : Prop := Outline.parse file.source = .ok file.outline

theorem ParsedFile.Read.sound {file : ParsedFile} (h : file.Read) :
    file.outline.Sound file.source.content 0 file.source.content.length :=
  Outline.parse_sound h

theorem ParsedFile.Read.held {file : ParsedFile} (h : file.Read)
    (hs : file.source.content.Short) :
    file.outline.Held file.source.content 0 file.source.content.length :=
  h.sound.held hs

namespace Outline.Held

variable {text : Bytes} {lo hi : Nat} {o : Outline}

theorem clear_calls (h : o.Held text lo hi) :
    o.calls.Pairwise fun c d => c.piece.Clear d.piece :=
  List.pairwise_map.1 (List.pairwise_append.1 h.clear).1

theorem clear_mixed (h : o.Held text lo hi) {c : Call} (hc : c ∈ o.calls) {e : Element}
    (he : e ∈ o.elements) : c.piece.Clear e.piece :=
  (List.pairwise_append.1 h.clear).2.2 _ (List.mem_map_of_mem hc) _ (List.mem_map_of_mem he)

/-- Every recorded part of a text has a byte that stands in no dotted name. -/
theorem exists_byte (h : o.Held text lo hi) {p : Piece} (hp : p ∈ o.pieces) :
    ∃ n, p.span.start ≤ n ∧ n < p.span.stop ∧ n < text.length ∧
      (text.byteAt n = byte ')' ∨ text.byteAt n = byte '<') := by
  have hw := h.within p hp
  rcases List.mem_append.1 hp with hp | hp
  · obtain ⟨c, hc, rfl⟩ := List.mem_map.1 hp
    have hpl := h.calls c hc
    have hl := hpl.le_length
    simp only [Call.piece] at hw ⊢
    exact ⟨c.span.stop - 1, by omega, by omega, by omega, .inl hpl.closed⟩
  · obtain ⟨e, he, rfl⟩ := List.mem_map.1 hp
    have hpl := h.elements e he
    have hl := hpl.le_length
    exact ⟨e.span.start, le_refl _, hw.2.1, hw.2.1.trans_le hl, .inr hpl.opening⟩

end Outline.Held

theorem Bytes.byteAt_mem_slice {text : Bytes} {start stop n : Nat} (h : start ≤ n) (hn : n < stop)
    (hl : n < text.length) : text.byteAt n ∈ text.slice start stop := by
  have hb : text.byteAt n = text[n] := by simp [byteAt, List.getD, hl]
  rw [hb]
  refine List.mem_iff_getElem.2 ⟨n - start, ?_, ?_⟩
  · simp only [slice, List.length_take, List.length_drop]
    omega
  · simp only [slice, List.getElem_take, List.getElem_drop]
    congr 1
    omega

namespace Marker

variable {options : Options} {file : ParsedFile} {m : Marker}

/-- The call that a marker was made of. -/
structure IsOf (options : Options) (file : ParsedFile) (call : Call) (m : Marker) : Prop where
  called : call.isTo options.markerFunction = true
  callSpan : m.callSpan = call.span
  arguments : ∃ first rest, call.arguments = first :: rest ∧ m.argumentSpan = first.span ∧
    target? first (file.source.text first.span) = some m.target
  count : m.argumentCount = call.arguments.length
  owner : m.owner = Owner.around? file.outline options.componentFunction call.span

theorem isOf_of_ofCall? {call : Call} (h : ofCall? options file call = some (.marker m)) :
    IsOf options file call m := by
  unfold ofCall? at h
  split at h
  · cases h
  · rename_i first rest hargs
    rcases ite_eq_some h with ⟨hto, h⟩ | ⟨-, h⟩
    · dsimp only at h
      split at h
      · cases h
      · rename_i target ht
        cases h
        exact ⟨hto, rfl, ⟨first, rest, hargs, rfl, ht⟩, rfl, rfl⟩
    · cases h

theorem scan_of_isImported (h : isImported options file.outline = true) :
    scan options file = file.outline.calls.filterMap (ofCall? options file) := by
  rw [scan, if_pos h]

/-- The markers of a file are made of some of its calls, in their order. -/
theorem all_eq (options : Options) (file : ParsedFile) :
    all options file = [] ∨ isImported options file.outline = true ∧ all options file =
      file.outline.calls.filterMap fun call => (ofCall? options file call).bind Finding.marker? := by
  by_cases hi : isImported options file.outline = true
  · refine .inr ⟨hi, ?_⟩
    rw [all, scan_of_isImported hi, List.filterMap_filterMap]
  · simp [all, scan, hi]

theorem isOf_of_bind {call : Call}
    (h : (ofCall? options file call).bind Finding.marker? = some m) :
    IsOf options file call m := by
  obtain ⟨found, hf, hm⟩ := Option.bind_eq_some_iff.1 h
  cases found with
  | marker n =>
    cases hm
    exact isOf_of_ofCall? hf
  | malformed => cases hm

theorem exists_call_of_mem_all (h : m ∈ all options file) :
    isImported options file.outline = true ∧
      ∃ call ∈ file.outline.calls, IsOf options file call m := by
  rcases all_eq options file with he | ⟨hi, he⟩
  · rw [he] at h
    cases h
  · rw [he] at h
    obtain ⟨call, hc, hm⟩ := List.mem_filterMap.1 h
    exact ⟨hi, call, hc, isOf_of_bind hm⟩

/-- What holds between any two calls in their order holds between the markers made of them. -/
theorem pairwise_all {R : Call → Call → Prop} {S : Marker → Marker → Prop}
    (h : file.outline.calls.Pairwise R)
    (hi : ∀ c ∈ file.outline.calls, ∀ d ∈ file.outline.calls, R c d → ∀ m n,
      IsOf options file c m → IsOf options file d n → S m n) :
    (all options file).Pairwise S := by
  rcases all_eq options file with he | ⟨-, he⟩
  · rw [he]
    exact .nil
  · rw [he, List.pairwise_filterMap]
    exact h.imp_of_mem fun hc hd hr m hm n hn =>
      hi _ hc _ hd hr m n (isOf_of_bind hm) (isOf_of_bind hn)

/-- A marker's target stands on one line. -/
theorem newline_not_mem_target (hf : file.Read) (h : m ∈ all options file) :
    byte '\n' ∉ m.target := by
  obtain ⟨-, call, hc, hof⟩ := exists_call_of_mem_all h
  obtain ⟨first, rest, hargs, -, ht⟩ := hof.arguments
  have hp := hf.sound.arguments_plain call hc first (by simp [hargs])
  unfold target? at ht
  cases hk : first.kind with
  | identifier name =>
    rw [hk] at ht hp
    cases ht
    exact hp
  | member path =>
    rw [hk] at ht hp
    rw [← Option.some.inj ht]
    exact Name.newline_not_mem_join hp
  | function | literal | other =>
    rw [hk] at ht
    exact Name.newline_not_mem_dottedReference? ht

/-- Nothing stands in a marker call that lacks its answer: its only argument is a name. -/
theorem no_piece_in_hole (hf : file.Read) (hs : file.source.content.Short) {call : Call}
    (hof : IsOf options file call m) (hn : m.isAugmented = false) {p : Piece}
    (hp : p ∈ file.outline.pieces) : ¬∃ h ∈ call.piece.holes, h.contains p.span = true := by
  rintro ⟨hole, hh, hin⟩
  obtain ⟨first, rest, hargs, -, ht⟩ := hof.arguments
  have hrest : rest = [] := by
    simp only [isAugmented, decide_eq_false_iff_not, hof.count, hargs, List.length_cons] at hn
    exact List.eq_nil_of_length_eq_zero (by omega)
  subst hrest
  obtain ⟨a, ha, rfl⟩ := List.mem_map.1 hh
  rw [hargs] at ha
  obtain ⟨hmem, href⟩ := List.mem_filter.1 ha
  obtain rfl := List.mem_singleton.1 hmem
  have hd : Name.dottedReference? (file.source.text a.span) = some m.target := by
    unfold target? at ht
    cases hk : a.kind <;> simp_all [ArgumentKind.isReference]
  obtain ⟨n, h1, h2, h3, hb⟩ := (hf.held hs).exists_byte hp
  simp only [Span.contains, Bool.and_eq_true, decide_eq_true_eq] at hin
  have hmem := @Bytes.byteAt_mem_slice file.source.content _ _ _ (hin.1.trans h1)
    (h2.trans_le hin.2) h3
  have hbytes := Name.dottedReference?_bytes hd hmem
  rcases hb with hb | hb <;> rw [hb] at hbytes <;> exact absurd hbytes (by decide)

end Marker

end JsxPresence
