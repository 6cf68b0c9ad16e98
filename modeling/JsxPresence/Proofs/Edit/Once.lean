import Mathlib.Data.List.Forall2
import JsxPresence.Proofs.Edit.Pattern

namespace JsxPresence

/-- What is left of a list without its repetitions comes in the order of the list. -/
theorem pairwise_eraseDups_filter {α : Type} [BEq α] [LawfulBEq α] (p : α → Bool) (l : List α) :
    (l.filter p).eraseDups.Pairwise fun x y => l.idxOf x < l.idxOf y := by
  induction l generalizing p with
  | nil => simp
  | cons a l ih =>
    have later {q : α → Bool} (hq : ∀ x, q x = true → x ≠ a) :
        (l.filter q).eraseDups.Pairwise fun x y => (a :: l).idxOf x < (a :: l).idxOf y := by
      refine (ih q).imp_of_mem fun {x y} hx hy hlt => ?_
      have hxa := hq x (List.mem_filter.1 (List.mem_eraseDups.1 hx)).2
      have hya := hq y (List.mem_filter.1 (List.mem_eraseDups.1 hy)).2
      rw [List.idxOf_cons_ne l hxa.symm, List.idxOf_cons_ne l hya.symm]
      exact Nat.succ_lt_succ hlt
    cases hp : p a with
    | true =>
      rw [List.filter_cons_of_pos hp, List.eraseDups_cons, List.filter_filter]
      refine List.pairwise_cons.2 ⟨fun y hy => ?_, later fun x hx => by simp_all⟩
      have hya : y ≠ a := by
        have hkept := (List.mem_filter.1 (List.mem_eraseDups.1 hy)).2
        simp_all
      rw [List.idxOf_cons_self, List.idxOf_cons_ne l hya.symm]
      exact Nat.succ_pos _
    | false =>
      rw [List.filter_cons_of_neg (by simp [hp])]
      exact later fun x hx hxa => by simp [hxa, hp] at hx

theorem nodup_eraseDups {α : Type} [BEq α] [LawfulBEq α] (l : List α) : l.eraseDups.Nodup := by
  have h := pairwise_eraseDups_filter (fun _ => true) l
  rw [List.filter_true] at h
  exact h.imp fun hlt heq => by simp [heq] at hlt

/-- The word stands somewhere in the text, with no word byte on either side. -/
def Bytes.HasWord (text word : Bytes) : Prop :=
  ∃ a b, text = a ++ word ++ b ∧ word ++ b ≠ [] ∧ isWord (a.getLastD 0) = false ∧
    isWord (b.headD 0) = false

/-- The call lacks its answer, and the definition around it can be given the prop. -/
def Marker.isRewritable (m : Marker) : Bool :=
  !m.isAugmented && m.owner.any (·.params.first ≠ .other)

namespace Plan

variable {options : Options} {file : ParsedFile}

theorem hasWord_iff {word text : Bytes} : hasWord word 0 text = true ↔ text.HasWord word := by
  constructor
  · suffices h : ∀ before, hasWord word before text = true →
        ∃ a b, text = a ++ word ++ b ∧ word ++ b ≠ [] ∧ isWord (a.getLastD before) = false ∧
          isWord (b.headD 0) = false from h 0
    intro before h
    induction text generalizing before with
    | nil => cases h
    | cons c r ih =>
      simp only [hasWord, Bool.or_eq_true, Bool.and_eq_true, Bool.not_eq_true'] at h
      rcases h with ⟨⟨hbefore, hprefix⟩, hbehind⟩ | h
      · obtain ⟨b, hb⟩ := List.isPrefixOf_iff_prefix.1 hprefix
        refine ⟨[], b, by simp [hb], by simp [hb], hbefore, ?_⟩
        rw [← hb] at hbehind
        cases b <;> simpa [Bytes.byteAt] using hbehind
      · obtain ⟨a, b, rfl, hne, ha, hb⟩ := ih c h
        exact ⟨c :: a, b, rfl, hne, by rwa [List.getLastD_cons], hb⟩
  · rintro ⟨a, b, heq, hne, ha, hb⟩
    exact hasWord_of_eq heq ha hb hne

/-- The edit gives a marker call its answer. -/
def Rewrites (options : Options) (m : Marker) (e : Edit) : Prop :=
  ∃ owner reference, m.owner = some owner ∧
    reference? options owner.params (options.propName m.target) = some reference ∧
    e = .replace m.callSpan (Marker.callText options (m.argumentText ++ utf8 ", " ++ reference))

/-- The functions with a first parameter of the given shape around calls that lack their answer,
each of them once. -/
structure IsOwners (options : Options) (file : ParsedFile) (shape : ParamShape)
    (owners : List Owner) : Prop where
  distinct : owners.Pairwise fun a b => a.functionSpan.start ≠ b.functionSpan.start
  mem_iff : ∀ owner, owner ∈ owners ↔ owner.params.first = shape ∧
    ∃ m ∈ Marker.all options file, m.isAugmented = false ∧ m.owner = some owner

/-- The props that the calls of a function ask for, in the order of the calls. -/
def asked (options : Options) (file : ParsedFile) (owner : Owner) : List Bytes :=
  ((Marker.all options file).filter fun m => !m.isAugmented && m.owner = some owner).map
    fun m => options.propName m.target

/-- The props that are asked for and not named in the parameter list, each once, the one that is
asked for first before the others. -/
structure IsMissing (options : Options) (file : ParsedFile) (owner : Owner)
    (names : List Bytes) : Prop where
  mem_iff : ∀ prop, prop ∈ names ↔ prop ∈ asked options file owner ∧
    ¬(file.source.text owner.params.span).HasWord prop
  ordered : names.Pairwise fun p q =>
    (asked options file owner).idxOf p < (asked options file owner).idxOf q

theorem isRewritable_iff {m : Marker} : m.isRewritable = true ↔
    m.isAugmented = false ∧ ∃ owner, m.owner = some owner ∧ owner.params.first ≠ .other := by
  simp [Marker.isRewritable, Option.any_eq_true]

theorem reference_of_ofMarker? {m : Marker} {r : Augmentation}
    (h : Augmentation.ofMarker? options m = some r) :
    r.prop = options.propName m.target ∧
      reference? options r.owner.params (options.propName m.target) = some r.reference := by
  unfold Augmentation.ofMarker? at h
  obtain ⟨_, -, h⟩ := Option.bind_eq_some_iff.1 h
  obtain ⟨owner, -, h⟩ := Option.bind_eq_some_iff.1 h
  obtain ⟨reference, href, h⟩ := Option.bind_eq_some_iff.1 h
  cases h
  exact ⟨rfl, href⟩

/-- The markers that can be given their answer are rewritten, one edit for each. -/
theorem rewrites_edits (l : List Marker) :
    List.Forall₂ (Rewrites options) (l.filter (·.isRewritable))
      ((l.filterMap (Augmentation.ofMarker? options)).map (·.edit options)) := by
  induction l with
  | nil => exact .nil
  | cons m l ih =>
    cases hr : Augmentation.ofMarker? options m with
    | none =>
      have hnot : ¬m.isRewritable = true := by
        intro h
        obtain ⟨ha, owner, ho, hother⟩ := isRewritable_iff.1 h
        obtain ⟨r, hsome⟩ := @exists_ofMarker? options m owner ha ho hother
        simp [hr] at hsome
      rw [List.filter_cons_of_neg hnot, List.filterMap_cons_none hr]
      exact ih
    | some r =>
      obtain ⟨hmarker, ha, ho, hother⟩ := of_ofMarker? hr
      obtain ⟨-, href⟩ := reference_of_ofMarker? hr
      have hcan : m.isRewritable = true := isRewritable_iff.2 ⟨ha, r.owner, ho, hother⟩
      rw [List.filter_cons_of_pos hcan, List.filterMap_cons_some hr, List.map_cons]
      exact .cons ⟨r.owner, r.reference, ho, href, by rw [Augmentation.edit, hmarker]⟩ ih

/-- The rewritten calls stand one behind the other. -/
theorem augmentations_ordered (hf : file.Read) (hs : file.source.content.Short) :
    (augmentations options file).Pairwise fun r s =>
      r.marker.callSpan.stop ≤ s.marker.callSpan.start := by
  have hsorted : (augmentations options file).Pairwise fun r s =>
      r.marker.callSpan.start < s.marker.callSpan.start := by
    rw [augmentations, List.pairwise_filterMap]
    refine Marker.pairwise_all (hf.held hs).calls_sorted fun c _ d _ hlt m n hm hn r hr s hs' => ?_
    rw [(of_ofMarker? hr).1, (of_ofMarker? hs').1, hm.callSpan, hn.callSpan]
    exact hlt
  refine ((augmentations_apart hf hs).and hsorted).imp_of_mem fun {r s} _ hs' ⟨hapart, hlt⟩ => ?_
  have hpos := (callSpan_placed hf hs hs').1
  omega

/-- The owners of augmented calls are those of the calls that lack their answer, as far as their
parameters can be extended. -/
theorem exists_augmentation_iff {owner : Owner} (hother : owner.params.first ≠ .other) :
    (∃ r ∈ augmentations options file, r.owner = owner) ↔
      ∃ m ∈ Marker.all options file, m.isAugmented = false ∧ m.owner = some owner := by
  constructor
  · rintro ⟨r, hr, rfl⟩
    obtain ⟨m, hm, hof⟩ := List.mem_filterMap.1 hr
    obtain ⟨-, ha, ho, -⟩ := of_ofMarker? hof
    exact ⟨m, hm, ha, ho⟩
  · rintro ⟨m, hm, ha, ho⟩
    obtain ⟨r, hr⟩ := @exists_ofMarker? options m owner ha ho hother
    have howner := (of_ofMarker? hr).2.2.1
    rw [ho] at howner
    exact ⟨r, List.mem_filterMap.2 ⟨m, hm, hr⟩, (Option.some.inj howner).symm⟩

/-- A list of all owners with a given shape, told apart by where they start. -/
theorem isOwners_of_mem_iff {shape : ParamShape} (hshape : shape ≠ .other) {owners : List Owner}
    (hdistinct : owners.Pairwise fun a b => a.functionSpan.start ≠ b.functionSpan.start)
    (hmem : ∀ owner, owner ∈ owners ↔ owner.params.first = shape ∧
      ∃ r ∈ augmentations options file, r.owner = owner) :
    IsOwners options file shape owners := by
  refine ⟨hdistinct, fun owner => ?_⟩
  rw [hmem]
  refine and_congr_right fun hfirst => exists_augmentation_iff ?_
  rwa [hfirst]

/-- The parameters that are added are one for each function without any that has not got one
before, as long as functions that start at the same place are the same. -/
theorem insertions_callEdits {l : List Augmentation}
    (h : ∀ r ∈ l, (r.edit options).isInsertion = false)
    (hstart : ∀ r ∈ l, ∀ s ∈ l, r.owner.functionSpan.start = s.owner.functionSpan.start →
      r.owner = s.owner) (given : List Nat) :
    ∃ owners : List Owner,
      owners.Pairwise (fun a b => a.functionSpan.start ≠ b.functionSpan.start) ∧
      (∀ owner, owner ∈ owners ↔ owner.functionSpan.start ∉ given ∧ owner.params.first = .none ∧
        ∃ r ∈ l, r.owner = owner) ∧
      (callEdits options given l).filter (·.isInsertion) =
        owners.map fun owner => .insertion owner.params.openParenEnd options.propsParam := by
  induction l generalizing given with
  | nil => exact ⟨[], by simp, by simp, rfl⟩
  | cons r l ih =>
    obtain ⟨hr, hl⟩ := List.forall_mem_cons.1 h
    have ih := ih hl fun s hs t ht =>
      hstart s (List.mem_cons_of_mem r hs) t (List.mem_cons_of_mem r ht)
    unfold callEdits
    by_cases hfresh : (r.owner.params.first = .none &&
        !given.contains r.owner.functionSpan.start) = true
    · obtain ⟨owners, hdistinct, hmem, heq⟩ := ih (r.owner.functionSpan.start :: given)
      rw [if_pos hfresh]
      simp only [Bool.and_eq_true, decide_eq_true_eq, Bool.not_eq_true', List.contains_eq_mem,
        decide_eq_false_iff_not] at hfresh
      refine ⟨r.owner :: owners, ?_, fun owner => ?_, ?_⟩
      · refine List.pairwise_cons.2 ⟨fun owner howner heq => ?_, hdistinct⟩
        exact ((hmem owner).1 howner).1 (heq ▸ List.mem_cons_self)
      · by_cases howner : owner = r.owner
        · simp [howner, hfresh]
        · have hother : (∃ s ∈ l, s.owner = owner) →
              owner.functionSpan.start ≠ r.owner.functionSpan.start := by
            rintro ⟨s, hs, rfl⟩ heq
            exact howner (hstart s (List.mem_cons_of_mem r hs) r List.mem_cons_self heq)
          rw [List.mem_cons, or_iff_right howner, hmem, List.exists_mem_cons_iff,
            or_iff_right (Ne.symm howner), List.mem_cons, not_or]
          exact ⟨fun hm => ⟨hm.1.2, hm.2⟩, fun hm => ⟨⟨hother hm.2.2, hm.1⟩, hm.2⟩⟩
      · simp [hr, heq, isInsertion_insertion]
    · obtain ⟨owners, hdistinct, hmem, heq⟩ := ih given
      rw [if_neg hfresh]
      refine ⟨owners, hdistinct, fun owner => ?_, by simp [hr, heq]⟩
      simp only [Bool.and_eq_true, decide_eq_true_eq, Bool.not_eq_true', List.contains_eq_mem,
        decide_eq_false_iff_not, not_and_not_right] at hfresh
      rw [hmem, List.exists_mem_cons_iff]
      constructor
      · rintro ⟨hg, hf, hex⟩
        exact ⟨hg, hf, .inr hex⟩
      · rintro ⟨hg, hf, rfl | hex⟩
        · exact absurd (hfresh hf) hg
        · exact ⟨hg, hf, hex⟩

/-- The functions whose patterns are looked at. -/
def patternOwners (options : Options) (file : ParsedFile) : List Owner :=
  (patternStarts (augmentations options file)).filterMap (ownerAt? (Marker.all options file))

theorem start_of_ownerAt? {markers : List Marker} {start : Nat} {owner : Owner}
    (h : ownerAt? markers start = some owner) : owner.functionSpan.start = start := by
  simpa using List.find?_some h

theorem mem_patternOwners (hf : file.Read) (hs : file.source.content.Short) {owner : Owner} :
    owner ∈ patternOwners options file ↔ owner.params.first = .objectPattern ∧
      ∃ r ∈ augmentations options file, r.owner = owner := by
  rw [patternOwners, List.mem_filterMap]
  constructor
  · rintro ⟨start, hstart, howner⟩
    obtain ⟨r, hr, hp, rfl⟩ := mem_patternStarts.1 hstart
    rw [ownerAt?_eq hf hs hr] at howner
    cases howner
    exact ⟨hp, r, hr, rfl⟩
  · rintro ⟨hp, r, hr, rfl⟩
    exact ⟨_, mem_patternStarts.2 ⟨r, hr, hp, rfl⟩, ownerAt?_eq hf hs hr⟩

theorem pairwise_patternOwners :
    (patternOwners options file).Pairwise fun a b =>
      a.functionSpan.start ≠ b.functionSpan.start := by
  have hnodup : (patternStarts (augmentations options file)).Nodup :=
    (List.mergeSort_perm _ _).nodup_iff.2 (nodup_eraseDups _)
  rw [patternOwners, List.pairwise_filterMap]
  refine hnodup.imp fun hne a ha b hb => ?_
  rwa [start_of_ownerAt? ha, start_of_ownerAt? hb]

/-- The props of the augmented calls of a function are those its calls ask for. -/
theorem asked_eq {owner : Owner} (hother : owner.params.first ≠ .other) :
    ((augmentations options file).filter (·.owner = owner)).map (·.prop) =
      asked options file owner := by
  unfold augmentations asked
  induction Marker.all options file with
  | nil => rfl
  | cons m l ih =>
    cases hr : Augmentation.ofMarker? options m with
    | none =>
      have hnot : ¬(!m.isAugmented && decide (m.owner = some owner)) = true := by
        intro h
        simp only [Bool.and_eq_true, Bool.not_eq_true', decide_eq_true_eq] at h
        obtain ⟨r, hsome⟩ := @exists_ofMarker? options m owner h.1 h.2 hother
        simp [hr] at hsome
      rw [List.filterMap_cons_none hr, List.filter_cons, if_neg hnot]
      exact ih
    | some r =>
      obtain ⟨-, ha, ho, -⟩ := of_ofMarker? hr
      have hprop := (reference_of_ofMarker? hr).1
      rw [List.filterMap_cons_some hr]
      by_cases howner : r.owner = owner
      · simp [howner, ha, ho, hprop, ih]
      · simp [howner, ha, ho, ih]

/-- The props that a pattern lacks, told by its function instead of the place where that starts. -/
theorem missingProps_eq (hf : file.Read) (hs : file.source.content.Short) {r : Augmentation}
    (hr : r ∈ augmentations options file) (hp : r.owner.params.first = .objectPattern) :
    missingProps file.source r.owner.functionSpan.start (augmentations options file) =
      ((asked options file r.owner).filter
        (!hasWord · 0 (file.source.text r.owner.params.span))).eraseDups := by
  have hother : r.owner.params.first ≠ .other := by
    rw [hp]
    decide
  rw [missingProps, ← asked_eq hother, List.filter_map, List.filter_filter]
  congr 2
  refine List.filter_congr fun s hmem => ?_
  by_cases howner : s.owner = r.owner
  · simp [howner, hp]
  · have hstart : s.owner.functionSpan.start ≠ r.owner.functionSpan.start :=
      fun heq => howner (owner_eq_of_mem hf hs hmem hr heq)
    simp [howner, hstart]

theorem isMissing_missingProps (hf : file.Read) (hs : file.source.content.Short)
    {owner : Owner} (h : owner ∈ patternOwners options file) :
    IsMissing options file owner
      (missingProps file.source owner.functionSpan.start (augmentations options file)) := by
  obtain ⟨hp, r, hr, rfl⟩ := (mem_patternOwners hf hs).1 h
  rw [missingProps_eq hf hs hr hp]
  refine ⟨fun prop => ?_, pairwise_eraseDups_filter _ _⟩
  rw [List.mem_eraseDups, List.mem_filter, ← hasWord_iff]
  simp

theorem patternEdits_eq (source : Source) (markers : List Marker) (calls : List Augmentation)
    {starts : List Nat} (h : ∀ start ∈ starts, ∃ owner, ownerAt? markers start = some owner) :
    starts.filterMap (patternEdit? source markers calls) =
      ((starts.filterMap (ownerAt? markers)).filter
        (missingProps source ·.functionSpan.start calls ≠ [])).map fun owner =>
          .insertion owner.params.patternBraceEnd (utf8 " " ++ (utf8 ", ").intercalate
            (missingProps source owner.functionSpan.start calls) ++ utf8 ",") := by
  induction starts with
  | nil => rfl
  | cons start starts ih =>
    obtain ⟨hstart, hstarts⟩ := List.forall_mem_cons.1 h
    obtain ⟨owner, howner⟩ := hstart
    obtain rfl := start_of_ownerAt? howner
    have ih := ih hstarts
    by_cases hnil : missingProps source owner.functionSpan.start calls = []
    · simp [patternEdit?, hnil, howner, ih]
    · simp [patternEdit?, hnil, howner, ih]

/-- Each marker call that lacks its answer and can be given it is rewritten once. Besides, each
function without parameters around such a call gets one once, each function with a pattern the
names that the pattern lacks, if there are any, and there are no other edits. -/
theorem markings_once (hf : file.Read) (hs : file.source.content.Short) :
    List.Forall₂ (Rewrites options) ((Marker.all options file).filter (·.isRewritable))
      ((markings options file).filter (!·.isInsertion)) ∧
    ((markings options file).filter (!·.isInsertion)).Pairwise (fun e f => e.stop ≤ f.start) ∧
    ∃ (bare patterns : List Owner) (names : Owner → List Bytes),
      IsOwners options file .none bare ∧ IsOwners options file .objectPattern patterns ∧
      (∀ owner ∈ patterns, IsMissing options file owner (names owner)) ∧
      (markings options file).filter (·.isInsertion) =
        bare.map (fun owner => .insertion owner.params.openParenEnd options.propsParam) ++
          (patterns.filter (names · ≠ [])).map fun owner =>
            .insertion owner.params.patternBraceEnd
              (utf8 " " ++ (utf8 ", ").intercalate (names owner) ++ utf8 ",") := by
  have hreplaced : (markings options file ++ []).filter (!·.isInsertion) =
      (augmentations options file).map (·.edit options) := filter_edits hf hs []
  rw [List.append_nil] at hreplaced
  have hpatterns : ((patternStarts (augmentations options file)).filterMap
      (patternEdit? file.source (Marker.all options file) (augmentations options file))).filter
        (·.isInsertion) = (patternStarts (augmentations options file)).filterMap
          (patternEdit? file.source (Marker.all options file) (augmentations options file)) :=
    List.filter_eq_self.2 fun e he => isInsertion_of_mem_patternEdits he
  have hfound : ∀ start ∈ patternStarts (augmentations options file),
      ∃ owner, ownerAt? (Marker.all options file) start = some owner := by
    intro start hstart
    obtain ⟨r, hr, -, rfl⟩ := mem_patternStarts.1 hstart
    exact ⟨r.owner, ownerAt?_eq hf hs hr⟩
  obtain ⟨bare, hdistinct, hmem, hbare⟩ :=
    insertions_callEdits (fun r hr => edit_isInsertion hf hs hr)
      (fun r hr s hs' => owner_eq_of_mem hf hs hr hs') []
  refine ⟨?_, ?_, bare, patternOwners options file,
    fun owner => missingProps file.source owner.functionSpan.start (augmentations options file),
    ?_, ?_, ?_, ?_⟩
  · rw [hreplaced]
    exact rewrites_edits _
  · rw [hreplaced, List.pairwise_map]
    exact augmentations_ordered hf hs
  · exact isOwners_of_mem_iff (by decide) hdistinct (by simpa using hmem)
  · exact isOwners_of_mem_iff (by decide) pairwise_patternOwners fun _ => mem_patternOwners hf hs
  · exact fun owner howner => isMissing_missingProps hf hs howner
  · rw [markings, markerEdits_eq, List.filter_append, hbare, hpatterns, patternEdits_eq _ _ _ hfound]
    rfl

/-- A function without parameters beside one with a pattern, both around several calls. -/
def siblingsSource : Source :=
  ⟨utf8 "a.tsx", utf8 "component$(() => isComponentPresent(X) || isComponentPresent(Y)); " ++
    utf8 "component$((\x7ba\x7d) => isComponentPresent(X) || isComponentPresent(X, a))"⟩

def siblingsFile : ParsedFile where
  path := utf8 "/proj/a.tsx"
  source := siblingsSource
  outline :=
    match Outline.parse siblingsSource with
    | .ok o => o
    | .error _ => .empty

theorem markings_once_siblings :
    siblingsFile.Read ∧ (Marker.all {} siblingsFile).length = 4 ∧
    ((markings {} siblingsFile).filter (!·.isInsertion)).length = 3 ∧
    ((markings {} siblingsFile).filter (·.isInsertion)).length = 2 ∧
    ∃ (bare patterns : List Owner) (names : Owner → List Bytes),
      IsOwners {} siblingsFile .none bare ∧ IsOwners {} siblingsFile .objectPattern patterns ∧
      (∀ owner ∈ patterns, IsMissing {} siblingsFile owner (names owner)) ∧
      (markings {} siblingsFile).filter (·.isInsertion) =
        bare.map (fun owner => .insertion owner.params.openParenEnd (utf8 "props")) ++
          (patterns.filter (names · ≠ [])).map fun owner =>
            .insertion owner.params.patternBraceEnd
              (utf8 " " ++ (utf8 ", ").intercalate (names owner) ++ utf8 ",") := by
  have hread : siblingsFile.Read := by
    unfold ParsedFile.Read
    decide +kernel
  have hshort : siblingsFile.source.content.Short := by
    unfold Bytes.Short
    decide +kernel
  obtain ⟨hrewrites, -, hinsertions⟩ := markings_once hread hshort
  refine ⟨hread, by decide +kernel, ?_, by decide +kernel, hinsertions⟩
  rw [← hrewrites.length_eq]
  decide +kernel

def asyncText : Bytes := utf8 "component$(async()=>isComponentPresent(Y))"

def asyncOwner : Owner where
  callSpan := ⟨0, 42⟩
  functionSpan := ⟨11, 41⟩
  params :=
    { hasParens := true
      openParenEnd := 17
      count := 0
      first := .none
      firstName := []
      patternBraceEnd := 0
      span := ⟨16, 18⟩ }

def asyncMarker : Marker where
  target := utf8 "Y"
  callSpan := ⟨20, 41⟩
  argumentSpan := ⟨39, 40⟩
  argumentText := utf8 " "
  argumentCount := 1
  owner := some asyncOwner

/-- In a text that is too long two functions can be recorded from one place on, and one of them is
left without its parameter. -/
theorem markings_once_unrecorded :
    (Marker.soloThen asyncText).Read ∧ asyncMarker ∈ Marker.all {} (Marker.soloThen asyncText) ∧
      asyncMarker.isAugmented = false ∧ asyncMarker.owner = some asyncOwner ∧
      asyncOwner.params.first = .none ∧
      .insertion asyncOwner.params.openParenEnd (utf8 "props") ∉
        markings {} (Marker.soloThen asyncText) := by
  refine ⟨?_, by decide +kernel, rfl, rfl, rfl, by decide +kernel⟩
  exact Marker.soloThen_read 8589934683 (by decide +kernel) (by decide +kernel) (by decide +kernel)
    (by decide +kernel) (by decide +kernel) (by decide +kernel)

end Plan

end JsxPresence
