import Mathlib.Data.List.Pairwise
import JsxPresence.Edit.Plan
import JsxPresence.Proofs.Edit.Check
import JsxPresence.Proofs.Marker.Owner

namespace JsxPresence

namespace Edit

/-- Nothing lies strictly inside an insertion. -/
theorem covers_of_isInsertion {e : Edit} (h : e.isInsertion = true) (offset : Nat) :
    e.covers offset = false := by
  have he : e.start = e.stop := of_decide_eq_true h
  simp only [covers, Bool.and_eq_false_iff, decide_eq_false_iff_not]
  omega

theorem overlaps_of_isInsertion {a b : Edit} (h : a.isInsertion = true) :
    a.overlaps b = b.covers a.start := by
  cases hb : b.isInsertion with
  | false => simp [overlaps, h, hb]
  | true => rw [overlaps, if_pos h, covers_of_isInsertion hb, Bool.and_false]

/-- Replacements of ranges that are apart do not overlap. -/
theorem overlaps_of_apart {a b : Edit} (h : a.stop ≤ b.start ∨ b.stop ≤ a.start) :
    a.overlaps b = false := by
  unfold overlaps covers
  split_ifs <;>
    simp only [Bool.and_eq_false_iff, Bool.not_eq_false', decide_eq_false_iff_not, isInsertion,
      decide_eq_true_eq] at * <;> omega

/-- No two edits overlap if no two replacements do and no insertion falls inside one. -/
theorem pairwise_iff (l : List Edit) :
    (l.Pairwise fun a b => a.overlaps b = false) ↔
      ((l.filter (!·.isInsertion)).Pairwise fun a b => a.overlaps b = false) ∧
        ∀ i ∈ l, i.isInsertion = true → ∀ r ∈ l, r.covers i.start = false := by
  constructor
  · intro h
    refine ⟨h.sublist List.filter_sublist, fun i hi hins r hr => ?_⟩
    by_cases hir : i = r
    · subst hir
      exact covers_of_isInsertion hins _
    · have : Std.Symm fun a b : Edit => a.overlaps b = false :=
        ⟨fun a b hab => by rwa [overlaps_comm]⟩
      rw [← overlaps_of_isInsertion hins]
      exact h.forall hi hr hir
  · rintro ⟨hr, hi⟩
    induction l with
    | nil => exact .nil
    | cons a l ih =>
      refine List.pairwise_cons.2 ⟨fun b hb => ?_, ih ?_ fun i him => ?_⟩
      · by_cases ha : a.isInsertion = true
        · rw [overlaps_of_isInsertion ha]
          exact hi a List.mem_cons_self ha b (List.mem_cons_of_mem _ hb)
        by_cases hb' : b.isInsertion = true
        · rw [overlaps_comm, overlaps_of_isInsertion hb']
          exact hi b (List.mem_cons_of_mem _ hb) hb' a List.mem_cons_self
        · have hfa : (a :: l).filter (!·.isInsertion) = a :: l.filter (!·.isInsertion) := by
            simp [ha]
          rw [hfa, List.pairwise_cons] at hr
          exact hr.1 b (List.mem_filter.2 ⟨hb, by simp [hb']⟩)
      · exact hr.sublist ((List.sublist_cons_self a l).filter _)
      · exact fun hins r hrm => hi i (List.mem_cons_of_mem _ him) hins r (List.mem_cons_of_mem _ hrm)

end Edit

namespace Plan

variable {options : Options} {file : ParsedFile}

theorem of_ofMarker? {m : Marker} {r : Augmentation}
    (h : Augmentation.ofMarker? options m = some r) :
    r.marker = m ∧ m.isAugmented = false ∧ m.owner = some r.owner ∧
      r.owner.params.first ≠ .other := by
  unfold Augmentation.ofMarker? at h
  obtain ⟨_, hg, h⟩ := Option.bind_eq_some_iff.1 h
  obtain ⟨owner, ho, h⟩ := Option.bind_eq_some_iff.1 h
  obtain ⟨reference, href, h⟩ := Option.bind_eq_some_iff.1 h
  cases h
  refine ⟨rfl, ?_, ho, fun hother => ?_⟩
  · cases ha : m.isAugmented with
    | false => rfl
    | true =>
      rw [ha] at hg
      cases hg
  · change owner.params.first = .other at hother
    rw [reference?, hother] at href
    cases href

/-- A marker without its answer is given it if its owner can be given the prop. -/
theorem exists_ofMarker? {m : Marker} {owner : Owner} (ha : m.isAugmented = false)
    (ho : m.owner = some owner) (hother : owner.params.first ≠ .other) :
    ∃ r, Augmentation.ofMarker? options m = some r := by
  have href : ∃ reference, reference? options owner.params (options.propName m.target) =
      some reference := by
    unfold reference?
    cases hf : owner.params.first with
    | none => exact ⟨_, rfl⟩
    | identifier => exact ⟨_, rfl⟩
    | objectPattern => exact ⟨_, rfl⟩
    | other => exact absurd hf hother
  obtain ⟨reference, href⟩ := href
  simp [Augmentation.ofMarker?, ha, ho, href]

/-- The marker calls of a file that get their answer. -/
def augmentations (options : Options) (file : ParsedFile) : List Augmentation :=
  (Marker.all options file).filterMap (Augmentation.ofMarker? options)

theorem markerEdits_eq :
    markerEdits options file.source (Marker.all options file) =
      callEdits options [] (augmentations options file) ++
        (patternStarts (augmentations options file)).filterMap
          (patternEdit? file.source (Marker.all options file) (augmentations options file)) := rfl

theorem markerEdits_nil (source : Source) : markerEdits options source [] = [] := by
  simp [markerEdits, callEdits, patternStarts]

/-- Each of them is a call of the file, and its owner another one. -/
theorem exists_call_of_mem {r : Augmentation} (h : r ∈ augmentations options file) :
    ∃ call ∈ file.outline.calls, Marker.IsOf options file call r.marker ∧
      r.marker.isAugmented = false ∧ ∃ outer ∈ file.outline.calls, ∃ arrow,
        outer.arguments = [⟨.function arrow r.owner.params, r.owner.functionSpan⟩] := by
  obtain ⟨m, hm, hr⟩ := List.mem_filterMap.1 h
  obtain ⟨rfl, ha, ho, -⟩ := of_ofMarker? hr
  obtain ⟨-, call, hc, hof⟩ := Marker.exists_call_of_mem_all hm
  rw [hof.owner] at ho
  obtain ⟨outer, houter, haround⟩ := Owner.exists_call_of_around? ho
  exact ⟨call, hc, hof, ha, outer, houter, haround.argument⟩

/-- The offsets at which a parameter may be added are offsets of the text. -/
theorem owner_placed (hf : file.Read) (hs : file.source.content.Short) {r : Augmentation}
    (h : r ∈ augmentations options file) : r.owner.params.Placed file.source.content := by
  obtain ⟨-, -, -, -, outer, ho, arrow, hargs⟩ := exists_call_of_mem h
  exact (((hf.held hs).calls outer ho).argument _ (hargs ▸ List.mem_singleton_self _)).2.2

theorem callSpan_placed (hf : file.Read) (hs : file.source.content.Short) {r : Augmentation}
    (h : r ∈ augmentations options file) :
    r.marker.callSpan.start < r.marker.callSpan.stop ∧
      r.marker.callSpan.stop ≤ file.source.length := by
  obtain ⟨call, hc, hof, -⟩ := exists_call_of_mem h
  rw [hof.callSpan]
  exact ⟨((hf.held hs).within _ (Outline.piece_mem_of_call hc)).2.1,
    ((hf.held hs).calls call hc).le_length⟩

/-- Two calls that get their answer are apart. -/
theorem augmentations_apart (hf : file.Read) (hs : file.source.content.Short) :
    (augmentations options file).Pairwise fun r s =>
      r.marker.callSpan.stop ≤ s.marker.callSpan.start ∨
        s.marker.callSpan.stop ≤ r.marker.callSpan.start := by
  unfold augmentations
  rw [List.pairwise_filterMap]
  refine Marker.pairwise_all (hf.held hs).clear_calls fun c hc d hd hclear m n hm hn r hr s hs' => ?_
  obtain ⟨rfl, ham, -⟩ := of_ofMarker? hr
  obtain ⟨rfl, han, -⟩ := of_ofMarker? hs'
  rw [hm.callSpan, hn.callSpan]
  rcases hclear with h | h | h | h
  · exact .inl h
  · exact .inr h
  · exact absurd h (Marker.no_piece_in_hole hf hs hm ham (Outline.piece_mem_of_call hd))
  · exact absurd h (Marker.no_piece_in_hole hf hs hn han (Outline.piece_mem_of_call hc))

/-- No attribute is added strictly inside a call that gets its answer. -/
theorem not_covers_insertAt (hf : file.Read) (hs : file.source.content.Short) {r : Augmentation}
    (h : r ∈ augmentations options file) {e : Element} (he : e ∈ file.outline.elements) :
    (r.edit options).covers e.insertAt = false := by
  obtain ⟨call, hc, hof, ha, -⟩ := exists_call_of_mem h
  have hpl := (hf.held hs).elements e he
  have h1 := hpl.start_lt
  have h2 := hpl.insertAt_lt
  have hor : call.span.stop ≤ e.insertAt ∨ e.insertAt ≤ call.span.start := by
    rcases (hf.held hs).clear_mixed hc he with h | h | h | h
    · simp only [Call.piece, Element.piece] at h
      omega
    · simp only [Call.piece, Element.piece] at h
      omega
    · exact absurd h (Marker.no_piece_in_hole hf hs hof ha (Outline.piece_mem_of_element he))
    · obtain ⟨hole, hh, hin⟩ := h
      obtain rfl := List.mem_singleton.1 hh
      exact .inl (of_decide_eq_true (Bool.and_eq_true_iff.1 hin).2)
  simp only [Edit.covers, Augmentation.edit, Edit.replace, hof.callSpan, Bool.and_eq_false_iff,
    decide_eq_false_iff_not]
  omega

/-- The edits of the calls are their replacements, and parameters for their owners. -/
theorem filter_callEdits {l : List Augmentation}
    (h : ∀ r ∈ l, (r.edit options).isInsertion = false) (given : List Nat) :
    (callEdits options given l).filter (!·.isInsertion) = l.map (·.edit options) := by
  induction l generalizing given with
  | nil => rfl
  | cons r l ih =>
    have hr := h r List.mem_cons_self
    have ih := fun given => ih (fun s hs => h s (List.mem_cons_of_mem _ hs)) given
    have hp (n : Nat) : (Edit.insertion n options.propsParam).isInsertion = true := by
      simp [Edit.insertion, Edit.isInsertion]
    unfold callEdits
    split_ifs <;> simp [hr, hp, ih]

theorem mem_callEdits {l : List Augmentation} {given : List Nat} {e : Edit}
    (h : e ∈ callEdits options given l) :
    ∃ r ∈ l, e = r.edit options ∨
      e = .insertion r.owner.params.openParenEnd options.propsParam := by
  induction l generalizing given with
  | nil => cases h
  | cons r l ih =>
    have later {given : List Nat} (h : e ∈ callEdits options given l) :
        ∃ s ∈ r :: l, e = s.edit options ∨
          e = .insertion s.owner.params.openParenEnd options.propsParam := by
      obtain ⟨s, hs, he⟩ := ih h
      exact ⟨s, List.mem_cons_of_mem _ hs, he⟩
    unfold callEdits at h
    split_ifs at h
    · rcases List.mem_cons.1 h with rfl | h
      · exact ⟨r, List.mem_cons_self, .inr rfl⟩
      rcases List.mem_cons.1 h with rfl | h
      · exact ⟨r, List.mem_cons_self, .inl rfl⟩
      · exact later h
    · rcases List.mem_cons.1 h with rfl | h
      · exact ⟨r, List.mem_cons_self, .inl rfl⟩
      · exact later h

theorem isInsertion_insertion (offset : Nat) (text : Bytes) :
    (Edit.insertion offset text).isInsertion = true := by
  simp [Edit.insertion, Edit.isInsertion]

theorem mem_patternStarts {calls : List Augmentation} {start : Nat} :
    start ∈ patternStarts calls ↔ ∃ r ∈ calls, r.owner.params.first = .objectPattern ∧
      r.owner.functionSpan.start = start := by
  rw [patternStarts, (List.mergeSort_perm _ _).mem_iff, List.mem_eraseDups, List.mem_map]
  simp [and_assoc]

/-- The function that owns a marker call is an argument of one of the file's calls. -/
theorem exists_definition (hf : file.Read) (hs : file.source.content.Short) {m : Marker}
    (hm : m ∈ Marker.all options file) {owner : Owner} (ho : m.owner = some owner) :
    ∃ call ∈ file.outline.calls, Owner.IsOf options.componentFunction call owner ∧
      owner.functionSpan.start < owner.functionSpan.stop := by
  obtain ⟨-, inner, hinner, hof⟩ := Marker.exists_call_of_mem_all hm
  rw [hof.owner] at ho
  obtain ⟨call, hc, haround⟩ := Owner.exists_call_of_around? ho
  have hholds := haround.holds ((hf.held hs).within _ (Outline.piece_mem_of_call hinner)).2.1
  exact ⟨call, hc, haround.toIsOf, hholds.1.trans_lt hholds.2⟩

/-- Functions that own marker calls and start at the same place are the same. -/
theorem owner_eq_of_start (hf : file.Read) (hs : file.source.content.Short) {m n : Marker}
    (hm : m ∈ Marker.all options file) (hn : n ∈ Marker.all options file) {a b : Owner}
    (ha : m.owner = some a) (hb : n.owner = some b)
    (h : a.functionSpan.start = b.functionSpan.start) : a = b := by
  obtain ⟨c, hc, hca, hlt⟩ := exists_definition hf hs hm ha
  obtain ⟨d, hd, hdb, hlt'⟩ := exists_definition hf hs hn hb
  rcases Owner.eq_or_inside (hf.held hs) hc hd hca hdb ⟨le_rfl, hlt⟩ ⟨h.ge, h ▸ hlt'⟩ with
    heq | hin | hin
  · exact heq
  · exact absurd hin.1 (by omega)
  · exact absurd hin.1 (by omega)

theorem owner_eq_of_mem (hf : file.Read) (hs : file.source.content.Short) {r r' : Augmentation}
    (h : r ∈ augmentations options file) (h' : r' ∈ augmentations options file)
    (hstart : r.owner.functionSpan.start = r'.owner.functionSpan.start) : r.owner = r'.owner := by
  obtain ⟨m, hm, hr⟩ := List.mem_filterMap.1 h
  obtain ⟨n, hn, hr'⟩ := List.mem_filterMap.1 h'
  exact owner_eq_of_start hf hs hm hn (of_ofMarker? hr).2.2.1 (of_ofMarker? hr').2.2.1 hstart

/-- What is remembered of the function that owns a call is that function. -/
theorem ownerAt?_eq (hf : file.Read) (hs : file.source.content.Short) {r : Augmentation}
    (h : r ∈ augmentations options file) :
    ownerAt? (Marker.all options file) r.owner.functionSpan.start = some r.owner := by
  obtain ⟨m, hm, hr⟩ := List.mem_filterMap.1 h
  obtain ⟨-, ha, ho, -⟩ := of_ofMarker? hr
  have hmem : r.owner ∈ (((Marker.all options file).filter (!·.isAugmented)).filterMap
      (·.owner)).reverse :=
    List.mem_reverse.2 (List.mem_filterMap.2 ⟨m, List.mem_filter.2 ⟨hm, by simp [ha]⟩, ho⟩)
  obtain ⟨found, hfind⟩ : ∃ found,
      ownerAt? (Marker.all options file) r.owner.functionSpan.start = some found :=
    Option.isSome_iff_exists.1 (List.find?_isSome.2 ⟨r.owner, hmem, by simp⟩)
  have hstart : found.functionSpan.start = r.owner.functionSpan.start := by
    simpa using List.find?_some hfind
  obtain ⟨n, hn, hfound⟩ :=
    List.mem_filterMap.1 (List.mem_reverse.1 (List.mem_of_find?_eq_some hfind))
  rw [hfind, owner_eq_of_start hf hs (List.mem_filter.1 hn).1 hm hfound ho hstart]

theorem patternEdit?_eq_some {source : Source} {markers : List Marker} {calls : List Augmentation}
    {start : Nat} {e : Edit} (h : patternEdit? source markers calls start = some e) :
    ∃ owner, ownerAt? markers start = some owner ∧
      e = .insertion owner.params.patternBraceEnd
        (utf8 " " ++ (utf8 ", ").intercalate (missingProps source start calls) ++ utf8 ",") := by
  unfold patternEdit? at h
  dsimp only at h
  split_ifs at h
  obtain ⟨owner, howner, rfl⟩ := Option.map_eq_some_iff.1 h
  exact ⟨owner, howner, rfl⟩

/-- The edits of the patterns are insertions. -/
theorem isInsertion_of_mem_patternEdits {source : Source} {markers : List Marker}
    {calls : List Augmentation} {starts : List Nat} {e : Edit}
    (h : e ∈ starts.filterMap (patternEdit? source markers calls)) : e.isInsertion = true := by
  obtain ⟨start, -, he⟩ := List.mem_filterMap.1 h
  obtain ⟨owner, -, rfl⟩ := patternEdit?_eq_some he
  exact isInsertion_insertion _ _

/-- They stand behind the braces of the patterns. -/
theorem mem_patternEdits (hf : file.Read) (hs : file.source.content.Short) {e : Edit}
    (h : e ∈ (patternStarts (augmentations options file)).filterMap
      (patternEdit? file.source (Marker.all options file) (augmentations options file))) :
    ∃ r ∈ augmentations options file, ∃ text, e = .insertion r.owner.params.patternBraceEnd text := by
  obtain ⟨start, hstart, he⟩ := List.mem_filterMap.1 h
  obtain ⟨r, hr, -, rfl⟩ := mem_patternStarts.1 hstart
  obtain ⟨owner, howner, rfl⟩ := patternEdit?_eq_some he
  rw [ownerAt?_eq hf hs hr] at howner
  cases howner
  exact ⟨r, hr, _, rfl⟩

/-- A parameter is added strictly inside a call that is rewritten. -/
def Torn (options : Options) (file : ParsedFile) : Prop :=
  ∃ i ∈ markerEdits options file.source (Marker.all options file), i.isInsertion = true ∧
    ∃ r ∈ markerEdits options file.source (Marker.all options file), r.covers i.start = true

theorem accepted_usage {symbols : Symbols} {made : List (Nat × Bytes)} {injections : List Injection}
    {x : Usage × Injection} (h : x ∈ accepted options symbols made injections) :
    x.1 ∈ symbols.usages := by
  induction injections generalizing made with
  | nil => cases h
  | cons i rest ih =>
    unfold accepted at h
    split at h
    · exact ih h
    · rename_i usage hu
      split_ifs at h
      · exact ih h
      · rcases List.mem_cons.1 h with rfl | h
        · exact List.mem_of_getElem? hu
        · exact ih h

theorem exists_element_of_usage {o : Outline} {u : Usage} (h : u ∈ (Symbols.ofOutline o).usages) :
    ∃ e ∈ o.elements, u.insertAt = e.insertAt := by
  obtain ⟨e, he, hu⟩ := List.mem_filterMap.1 h
  obtain ⟨path, -, rfl⟩ := Option.map_eq_some_iff.1 hu
  exact ⟨e, he, rfl⟩

/-- The edits that add attributes. -/
def attributeEdits (options : Options) (symbols : Symbols) (injections : List Injection) :
    List Edit :=
  (accepted options symbols [] injections).map fun (usage, i) => injectionEdit usage i

theorem edits_eq (symbols : Symbols) (markers : List Marker) (injections : List Injection) :
    edits options file.source symbols markers injections =
      Edit.sort (markerEdits options file.source markers ++
        attributeEdits options symbols injections) := rfl

/-- An attribute goes where an element of the file has room for it. -/
theorem mem_attributeEdits {injections : List Injection} {e : Edit}
    (h : e ∈ attributeEdits options (Symbols.ofOutline file.outline) injections) :
    ∃ element ∈ file.outline.elements, ∃ text, e = .insertion element.insertAt text := by
  obtain ⟨⟨usage, i⟩, hx, rfl⟩ := List.mem_map.1 h
  obtain ⟨element, he, hu⟩ := exists_element_of_usage (accepted_usage hx)
  exact ⟨element, he, _, by rw [← hu]; rfl⟩

theorem edit_isInsertion (hf : file.Read) (hs : file.source.content.Short) {r : Augmentation}
    (h : r ∈ augmentations options file) : (r.edit options).isInsertion = false := by
  have hlt := (callSpan_placed hf hs h).1
  exact decide_eq_false hlt.ne

/-- The replacements among the planned edits are the rewritten calls. -/
theorem filter_edits (hf : file.Read) (hs : file.source.content.Short)
    (injections : List Injection) :
    (markerEdits options file.source (Marker.all options file) ++
      attributeEdits options (Symbols.ofOutline file.outline) injections).filter
        (!·.isInsertion) = (augmentations options file).map (·.edit options) := by
  have hattr : (attributeEdits options (Symbols.ofOutline file.outline) injections).filter
      (!·.isInsertion) = [] := by
    rw [List.filter_eq_nil_iff]
    intro e he
    obtain ⟨-, -, text, rfl⟩ := mem_attributeEdits he
    simp [isInsertion_insertion]
  have hpattern : ((patternStarts (augmentations options file)).filterMap
      (patternEdit? file.source (Marker.all options file) (augmentations options file))).filter
        (!·.isInsertion) = [] := by
    rw [List.filter_eq_nil_iff]
    intro e he
    simp [isInsertion_of_mem_patternEdits he]
  rw [markerEdits_eq, List.filter_append, List.filter_append, hattr, hpattern, List.append_nil,
    List.append_nil]
  exact filter_callEdits (fun r hr => edit_isInsertion hf hs hr) []

/-- Only a rewritten call can hold an offset strictly inside. -/
theorem exists_of_covers {e : Edit} {offset : Nat}
    (h : e ∈ markerEdits options file.source (Marker.all options file))
    (hc : e.covers offset = true) : ∃ r ∈ augmentations options file, e = r.edit options := by
  rcases List.mem_append.1 h with h | h
  · obtain ⟨r, hr, he | rfl⟩ := mem_callEdits h
    · exact ⟨r, hr, he⟩
    · rw [Edit.covers_of_isInsertion (isInsertion_insertion _ _)] at hc
      cases hc
  · rw [Edit.covers_of_isInsertion (isInsertion_of_mem_patternEdits h)] at hc
    cases hc

/-- Every planned edit fits the text. -/
theorem edits_fit (hf : file.Read) (hs : file.source.content.Short) (injections : List Injection) :
    ∀ e ∈ markerEdits options file.source (Marker.all options file) ++
        attributeEdits options (Symbols.ofOutline file.outline) injections,
      e.fits file.source.length = true := by
  have insertion {n : Nat} {text : Bytes} (h : n ≤ file.source.length) :
      (Edit.insertion n text).fits file.source.length = true := by
    simp [Edit.insertion, Edit.fits, h]
  intro e he
  rcases List.mem_append.1 he with he | he
  · rcases List.mem_append.1 he with he | he
    · obtain ⟨r, hr, rfl | rfl⟩ := mem_callEdits he
      · have h := callSpan_placed hf hs hr
        simp [Edit.fits, Augmentation.edit, Edit.replace, h.1.le, h.2]
      · exact insertion (owner_placed hf hs hr).openParenEnd_le
    · obtain ⟨r, hr, text, rfl⟩ := mem_patternEdits hf hs he
      exact insertion (owner_placed hf hs hr).patternBraceEnd_le
  · obtain ⟨element, hel, text, rfl⟩ := mem_attributeEdits he
    have hpl := (hf.held hs).elements element hel
    exact insertion (hpl.insertAt_lt.le.trans hpl.le_length)

/-- The planned edits pass the check unless a parameter falls inside a rewritten call. -/
theorem check_edits_eq_none_iff (hf : file.Read) (hs : file.source.content.Short)
    (injections : List Injection) :
    Edit.check file.source.length (edits options file.source (Symbols.ofOutline file.outline)
      (Marker.all options file) injections) = none ↔ ¬Torn options file := by
  have hapart : (augmentations options file).Pairwise fun r s =>
      (r.edit options).overlaps (s.edit options) = false :=
    (augmentations_apart hf hs).imp Edit.overlaps_of_apart
  rw [edits_eq, Edit.check_sort_eq_none_iff, Edit.check_eq_none_iff, Edit.pairwise_iff,
    filter_edits hf hs, List.pairwise_map]
  constructor
  · rintro ⟨-, -, h⟩ ⟨i, hi, hins, r, hr, hc⟩
    rw [h i (List.mem_append_left _ hi) hins r (List.mem_append_left _ hr)] at hc
    cases hc
  · intro ht
    refine ⟨edits_fit hf hs injections, hapart, fun i hi hins r hr => ?_⟩
    by_contra hc
    have hc : r.covers i.start = true := by simpa using hc
    rcases List.mem_append.1 hr with hr | hr
    · rcases List.mem_append.1 hi with hi | hi
      · exact ht ⟨i, hi, hins, r, hr, hc⟩
      · obtain ⟨a, ha, rfl⟩ := exists_of_covers hr hc
        obtain ⟨element, hel, text, rfl⟩ := mem_attributeEdits hi
        rw [show (Edit.insertion element.insertAt text).start = element.insertAt from rfl,
          not_covers_insertAt hf hs ha hel] at hc
        cases hc
    · obtain ⟨element, -, text, rfl⟩ := mem_attributeEdits hr
      rw [Edit.covers_of_isInsertion (isInsertion_insertion _ _)] at hc
      cases hc

end Plan

end JsxPresence
