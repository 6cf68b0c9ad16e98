import JsxPresence.Proofs.Edit.Plan
import JsxPresence.Proofs.Edit.Written

namespace JsxPresence

theorem getLastD_append {α : Type} (s t : List α) (a : α) :
    (s ++ t).getLastD a = t.getLastD (s.getLastD a) := by
  rw [List.getLastD_eq_getLast?, List.getLastD_eq_getLast?, List.getLastD_eq_getLast?,
    List.getLast?_append]
  cases t.getLast? <;> rfl

/-- A part of a joint has the separator or an end of the joint on either side. -/
theorem exists_intercalate_eq (sep : Bytes) {part : Bytes} {parts : List Bytes} (h : part ∈ parts) :
    ∃ a b, sep.intercalate parts = a ++ part ++ b ∧ (a = [] ∨ sep <:+ a) ∧
      (b = [] ∨ sep <+: b) := by
  induction parts with
  | nil => cases h
  | cons s l ih =>
    cases l with
    | nil =>
      obtain rfl := List.mem_singleton.1 h
      exact ⟨[], [], by simp [List.intercalate], .inl rfl, .inl rfl⟩
    | cons t l =>
      have happ : sep.intercalate (s :: t :: l) = s ++ (sep ++ sep.intercalate (t :: l)) := by
        simp [List.intercalate, List.intersperse]
      rcases List.mem_cons.1 h with rfl | h
      · exact ⟨[], _, happ, .inl rfl, .inr (List.prefix_append _ _)⟩
      · obtain ⟨a, b, heq, ha, hb⟩ := ih h
        refine ⟨s ++ sep ++ a, b, by simp [happ, heq], .inr ?_, hb⟩
        rcases ha with rfl | ha
        · simp
        · exact ha.trans (List.suffix_append _ _)

namespace Plan

/-- A word of the second part of a text is one of the text. -/
theorem hasWord_append {word s t : Bytes} {before : UInt8}
    (h : hasWord word (s.getLastD before) t = true) : hasWord word before (s ++ t) = true := by
  induction s generalizing before with
  | nil => exact h
  | cons b s ih =>
    rw [List.getLastD_cons] at h
    simp [hasWord, ih h]

/-- A word with no word byte on either side stands in the text as a whole. -/
theorem hasWord_of_eq {word s a b : Bytes} (h : s = a ++ word ++ b)
    (ha : isWord (a.getLastD 0) = false) (hb : isWord (b.headD 0) = false)
    (hne : word ++ b ≠ []) : hasWord word 0 s = true := by
  rw [h, List.append_assoc]
  apply hasWord_append
  have hbyte : (word ++ b).byteAt word.length = b.headD 0 := by
    cases b <;> simp [Bytes.byteAt]
  have hprefix : word.isPrefixOf (word ++ b) = true := by simp
  cases heq : word ++ b with
  | nil => exact absurd heq hne
  | cons c r =>
    rw [heq] at hbyte hprefix
    rw [hasWord, ha, hprefix, hbyte, hb]
    rfl

end Plan

/-- The word stands in the text at an offset, with no word byte on either side. -/
structure Bytes.WordAt (text word : Bytes) (p : Nat) : Prop where
  ne_nil : word ≠ []
  eq : text.slice p (p + word.length) = word
  before : 0 < p → isWord (text.byteAt (p - 1)) = false
  behind : isWord (text.byteAt (p + word.length)) = false

namespace Edit

variable {text : Bytes} {l : List Edit} {p : Nat}

/-- Insertions that end in a comma leave no word byte at their end. -/
theorem isWord_getLastD_flatMap (hl : ∀ e ∈ l, e.replacement.getLast? = some (byte ','))
    {before : UInt8} (hb : isWord before = false) :
    isWord ((l.flatMap (·.replacement)).getLastD before) = false := by
  induction l generalizing before with
  | nil => exact hb
  | cons e rest ih =>
    have hlast : e.replacement.getLastD before = byte ',' := by
      rw [List.getLastD_eq_getLast?, hl e List.mem_cons_self]
      rfl
    rw [List.flatMap_cons, getLastD_append, hlast]
    exact ih (fun x hx => hl x (List.mem_cons_of_mem _ hx)) (by decide)

/-- A word that the edits leave alone still stands as a whole; what is inserted right behind the
opening brace ends in a comma. -/
theorem hasWord_written {word : Bytes} {opening closing : Nat} (h : InOrder text.length l)
    (hword : text.WordAt word p) (ho : opening < p) (hc : p + word.length ≤ closing)
    (hlength : closing ≤ text.length)
    (hapart : ∀ e ∈ l, e.stop < p ∨ p + word.length < e.start ∨
      (e.start = opening + 1 ∧ e.stop = opening + 1 ∧ e.replacement.getLast? = some (byte ','))) :
    Plan.hasWord word 0 (written text l (opening + 1) closing) = true := by
  have hpos : 0 < word.length := List.length_pos_iff.2 hword.ne_nil
  have hspares {a b : Nat} (ha : p ≤ a + 1) (hoa : opening < a) (hb : b ≤ p + word.length + 1) :
      Spares l a b := by
    intro e he
    rcases hapart e he with hlt | hlt | ⟨-, hstop, -⟩ <;> omega
  have hnone {q : Nat} (hq : p ≤ q) (hoq : opening + 1 < q) (hqp : q ≤ p + word.length) :
      written text l q q = [] := by
    refine written_self_eq_nil h fun e he => ?_
    rcases hapart e he with hlt | hlt | ⟨-, hstop, -⟩ <;> omega
  have hsplit := written_split h (Nat.succ_le_of_lt ho) (by omega) hc hlength
    (hspares (Nat.le_succ p) ho (Nat.le_succ _))
  rw [hword.eq] at hsplit
  refine Plan.hasWord_of_eq hsplit ?_ ?_ (by simp [hword.ne_nil])
  · rcases Nat.lt_or_ge (opening + 1) p with hlt | hge
    · obtain ⟨q, rfl⟩ : ∃ q, p = q + 1 := ⟨p - 1, by omega⟩
      have hkept : Spares l q (q + 1) := hspares le_rfl (by omega) (by omega)
      rw [written_byte h (by omega) (Nat.lt_succ_self q) (by omega) hkept,
        hnone le_rfl hlt (by omega), getLastD_append]
      exact hword.before (Nat.succ_pos q)
    · obtain rfl : p = opening + 1 := by omega
      rw [written_self h]
      refine isWord_getLastD_flatMap (fun e he => ?_) (by decide)
      obtain ⟨he, hin⟩ := List.mem_filter.1 he
      simp only [Bool.and_eq_true, decide_eq_true_eq] at hin
      have hle := (h.within e he).1
      rcases hapart e he with hlt | hlt | ⟨-, -, hlast⟩
      · omega
      · omega
      · exact hlast
  · have hbehind : written text l (p + word.length) (p + word.length) = [] :=
      hnone (by omega) (by omega) le_rfl
    rcases Nat.lt_or_ge (p + word.length) closing with hlt | hge
    · have hkept : Spares l (p + word.length) (p + word.length + 1) :=
        hspares (by omega) (by omega) le_rfl
      rw [written_byte h le_rfl hlt hlength hkept, hbehind]
      exact hword.behind
    · obtain rfl : closing = p + word.length := by omega
      rw [hbehind]
      decide

end Edit

namespace Plan

variable {options : Options} {file : ParsedFile}

/-- What is inserted into a pattern names each of the props as a whole word. -/
theorem exists_patternText_eq {props : List Bytes} {prop : Bytes} (h : prop ∈ props) :
    ∃ a b, utf8 " " ++ (utf8 ", ").intercalate props ++ utf8 "," = a ++ prop ++ byte ',' :: b ∧
      ∀ before, a.getLastD before = byte ' ' := by
  obtain ⟨a, b, heq, ha, hb⟩ := exists_intercalate_eq (utf8 ", ") h
  have hlast (before : UInt8) : (utf8 " " ++ a).getLastD before = byte ' ' := by
    rw [getLastD_append]
    rcases ha with rfl | ⟨front, rfl⟩
    · rfl
    · rw [getLastD_append]
      rfl
  rw [heq]
  rcases hb with rfl | ⟨back, rfl⟩
  · exact ⟨utf8 " " ++ a, [], by simp only [List.append_assoc]; rfl, hlast⟩
  · exact ⟨utf8 " " ++ a, byte ' ' :: (back ++ utf8 ","), by simp only [List.append_assoc]; rfl,
      hlast⟩

/-- The edits for the markers of a file. -/
def markings (options : Options) (file : ParsedFile) : List Edit :=
  markerEdits options file.source (Marker.all options file)

/-- What these edits make of the bytes `[a, b)` of the text. -/
def markedUp (options : Options) (file : ParsedFile) (a b : Nat) : Bytes :=
  Edit.written file.source.content ((markings options file).mergeSort Edit.comesFirst) a b

theorem mem_sorted_markings {e : Edit} :
    e ∈ (markings options file).mergeSort Edit.comesFirst ↔ e ∈ markings options file :=
  (List.mergeSort_perm _ _).mem_iff

/-- The edits leave the pattern between two braces recognizable: none meets a brace, and if the
parameter list has the prop for a word, then the pattern has, apart from all edits but its own. -/
structure Undisturbed (options : Options) (file : ParsedFile) (owner : Owner) (prop : Bytes)
    (opening closing : Nat) : Prop where
  opening_spared : Edit.Spares (markings options file) opening (opening + 1)
  closing_spared : Edit.Spares (markings options file) closing (closing + 1)
  named : hasWord prop 0 (file.source.text owner.params.span) = true →
    ∃ p, opening < p ∧ p + prop.length ≤ closing ∧ file.source.content.WordAt prop p ∧
      ∀ e ∈ markings options file, e.stop < p ∨ p + prop.length < e.start ∨
        patternEdit? file.source (Marker.all options file) (augmentations options file)
          owner.functionSpan.start = some e

/-- A prop that the parameter list does not name is added to the pattern. -/
theorem exists_patternEdit (hf : file.Read) (hs : file.source.content.Short) {r : Augmentation}
    (hr : r ∈ augmentations options file) (hp : r.owner.params.first = .objectPattern)
    (hmissing : hasWord r.prop 0 (file.source.text r.owner.params.span) = false) :
    ∃ props, r.prop ∈ props ∧
      Edit.insertion r.owner.params.patternBraceEnd
          (utf8 " " ++ (utf8 ", ").intercalate props ++ utf8 ",") ∈ markings options file := by
  have hprop : r.prop ∈ missingProps file.source r.owner.functionSpan.start
      (augmentations options file) :=
    List.mem_eraseDups.2 (List.mem_map_of_mem (List.mem_filter.2 ⟨hr, by simp [hp, hmissing]⟩))
  have hstart : r.owner.functionSpan.start ∈ patternStarts (augmentations options file) :=
    mem_patternStarts.2 ⟨r, hr, hp, rfl⟩
  have hedit : patternEdit? file.source (Marker.all options file) (augmentations options file)
      r.owner.functionSpan.start =
        some (.insertion r.owner.params.patternBraceEnd
          (utf8 " " ++ (utf8 ", ").intercalate (missingProps file.source
            r.owner.functionSpan.start (augmentations options file)) ++ utf8 ",")) := by
    have hne : (missingProps file.source r.owner.functionSpan.start
        (augmentations options file)).isEmpty = false :=
      List.isEmpty_eq_false_iff.2 (List.ne_nil_of_mem hprop)
    simp [patternEdit?, hne, ownerAt?_eq hf hs hr]
  exact ⟨_, hprop, List.mem_append_right _ (List.mem_filterMap.2 ⟨_, hstart, hedit⟩)⟩

theorem edit_mem_callEdits {calls : List Augmentation} {r : Augmentation} (h : r ∈ calls)
    (given : List Nat) : r.edit options ∈ callEdits options given calls := by
  induction calls generalizing given with
  | nil => cases h
  | cons s rest ih =>
    unfold callEdits
    rcases List.mem_cons.1 h with rfl | h
    · split_ifs <;> simp
    · split_ifs <;> simp [ih h]

/-- How a call is rewritten whose owner has a pattern for its parameter. -/
theorem ofMarker?_of_pattern {m : Marker} {owner : Owner} (ha : m.isAugmented = false)
    (ho : m.owner = some owner) (hp : owner.params.first = .objectPattern) :
    Augmentation.ofMarker? options m =
      some ⟨m, owner, options.propName m.target, options.propName m.target⟩ := by
  simp [Augmentation.ofMarker?, ha, ho, reference?, hp]

section

variable {r : Augmentation} {opening closing : Nat}

/-- Between the braces of a pattern that the edits leave recognizable stands the prop of each call
that the pattern has to bind it for. -/
theorem hasWord_markedUp (hf : file.Read) (hs : file.source.content.Short)
    (horder : Edit.InOrder file.source.length ((markings options file).mergeSort Edit.comesFirst))
    (hr : r ∈ augmentations options file) (hp : r.owner.params.first = .objectPattern)
    (hopening : r.owner.params.patternBraceEnd = opening + 1) (hlt : opening < closing)
    (hlength : closing < file.source.length)
    (hundisturbed : Undisturbed options file r.owner r.prop opening closing) :
    hasWord r.prop 0 (markedUp options file (opening + 1) closing) = true := by
  cases hword : hasWord r.prop 0 (file.source.text r.owner.params.span) with
  | false =>
    obtain ⟨props, hprop, hedit⟩ := exists_patternEdit hf hs hr hp hword
    rw [hopening] at hedit
    have hpart : ∃ before behind, markedUp options file (opening + 1) closing =
        before ++ (Edit.insertion (opening + 1) _).replacement ++ behind :=
      Edit.exists_written_eq (mem_sorted_markings.2 hedit) le_rfl (Nat.succ_le_of_lt hlt)
    obtain ⟨before, behind, heq⟩ := hpart
    obtain ⟨a, b, htext, hlast⟩ := exists_patternText_eq hprop
    have hsplit : markedUp options file (opening + 1) closing =
        (before ++ a) ++ r.prop ++ (byte ',' :: b ++ behind) := by
      rw [heq, Edit.insertion, htext]
      simp only [List.append_assoc]
    have hcomma : isWord (byte ',') = false := by decide
    refine hasWord_of_eq hsplit ?_ hcomma (by simp)
    rw [getLastD_append, hlast]
    decide
  | true =>
    obtain ⟨p, hop, hpc, hat, hapart⟩ := hundisturbed.named hword
    refine Edit.hasWord_written horder hat hop hpc hlength.le fun e he => ?_
    rcases hapart e (mem_sorted_markings.1 he) with hbefore | hbehind | hown
    · exact .inl hbefore
    · exact .inr (.inl hbehind)
    · obtain ⟨owner, howner, rfl⟩ := patternEdit?_eq_some hown
      rw [ownerAt?_eq hf hs hr] at howner
      cases howner
      rw [hopening]
      exact .inr (.inr ⟨rfl, rfl, List.getLast?_append_of_ne_nil _ (by decide)⟩)

/-- The new text has the braces that no edit meets. -/
theorem markedUp_braces
    (horder : Edit.InOrder file.source.length ((markings options file).mergeSort Edit.comesFirst))
    (hs : file.source.content.Short)
    (henclosed : Reader.Encloses file.source.content opening closing)
    (hopening : Edit.Spares (markings options file) opening (opening + 1))
    (hclosing : Edit.Spares (markings options file) closing (closing + 1)) :
    markedUp options file 0 file.source.length =
      markedUp options file 0 opening ++ openBrace ::
        (markedUp options file (opening + 1) closing ++ closeBrace ::
          markedUp options file (closing + 1) file.source.length) := by
  obtain ⟨hlt, hlength, hopen, hclose⟩ := henclosed.placed hs
  have sorted {p q : Nat} (h : Edit.Spares (markings options file) p q) :
      Edit.Spares ((markings options file).mergeSort Edit.comesFirst) p q :=
    fun e he => h e (mem_sorted_markings.1 he)
  unfold markedUp Source.length
  rw [Edit.written_byte horder (Nat.zero_le opening) (hlt.trans hlength) le_rfl (sorted hopening),
    Edit.written_byte horder (Nat.succ_le_of_lt hlt) hlength le_rfl (sorted hclosing), hopen,
    hclose]

end

/-- A call that is rewritten under a destructured parameter reads a name that the pattern binds:
the braces of the pattern stand in the new text, and between them the prop as a whole word. -/
theorem rewritten_reads_bound (hf : file.Read) (hs : file.source.content.Short) {m : Marker}
    (hm : m ∈ Marker.all options file) (ha : m.isAugmented = false) {owner : Owner}
    (ho : m.owner = some owner) (hp : owner.params.first = .objectPattern)
    {out : Bytes} (hout : Edit.apply file.source.content (markings options file) = .ok out) :
    Edit.replace m.callSpan (Marker.callText options
        (m.argumentText ++ utf8 ", " ++ options.propName m.target)) ∈ markings options file ∧
    ∃ opening, owner.params.patternBraceEnd = opening + 1 ∧
      (∃ closing, Reader.Encloses file.source.content opening closing) ∧
      ∀ closing, Reader.Encloses file.source.content opening closing →
        Undisturbed options file owner (options.propName m.target) opening closing →
        out = markedUp options file 0 opening ++ openBrace ::
            (markedUp options file (opening + 1) closing ++ closeBrace ::
              markedUp options file (closing + 1) file.source.length) ∧
          hasWord (options.propName m.target) 0 (markedUp options file (opening + 1) closing) =
            true := by
  have hr : ⟨m, owner, options.propName m.target, options.propName m.target⟩ ∈
      augmentations options file :=
    List.mem_filterMap.2 ⟨m, hm, ofMarker?_of_pattern ha ho hp⟩
  obtain ⟨horder, hwritten⟩ := Edit.of_apply_eq_ok hout
  obtain ⟨opening, closing, hopening, henclosed⟩ := (owner_placed hf hs hr).pattern hp
  refine ⟨List.mem_append_left _ (edit_mem_callEdits hr []), opening, hopening,
    ⟨closing, henclosed⟩, fun closing henclosed hundisturbed => ⟨?_, ?_⟩⟩
  · exact hwritten.trans (markedUp_braces horder hs henclosed hundisturbed.opening_spared
      hundisturbed.closing_spared)
  · obtain ⟨hlt, hlength, -, -⟩ := henclosed.placed hs
    exact hasWord_markedUp hf hs horder hr hp hopening hlt hlength hundisturbed

/-- The pattern names one of the two props that are asked for. -/
def halfNamedSource : Source :=
  ⟨utf8 "a.tsx", utf8 "component$((\x7b__qwik_analyzer_has_X\x7d) => " ++
    utf8 "isComponentPresent(X) || isComponentPresent(Y))"⟩

def halfNamedFile : ParsedFile where
  path := utf8 "/proj/a.tsx"
  source := halfNamedSource
  outline :=
    match Outline.parse halfNamedSource with
    | .ok o => o
    | .error _ => .empty

def halfNamedOwner : Owner where
  callSpan := ⟨0, 87⟩
  functionSpan := ⟨11, 86⟩
  params :=
    { hasParens := true
      openParenEnd := 12
      count := 1
      first := .objectPattern
      firstName := []
      patternBraceEnd := 13
      span := ⟨11, 36⟩ }

def halfNamedMarker : Marker where
  target := utf8 "X"
  callSpan := ⟨40, 61⟩
  argumentSpan := ⟨59, 60⟩
  argumentText := utf8 "X"
  argumentCount := 1
  owner := some halfNamedOwner

theorem halfNamed_undisturbed :
    Undisturbed {} halfNamedFile halfNamedOwner (utf8 "__qwik_analyzer_has_X") 12 34 where
  opening_spared := by unfold Edit.Spares; decide +kernel
  closing_spared := by unfold Edit.Spares; decide +kernel
  named _ := by
    refine ⟨13, by decide, by decide, ⟨by decide, ?_, ?_, ?_⟩, ?_⟩ <;> decide +kernel

theorem rewritten_reads_bound_halfNamed :
    halfNamedMarker ∈ Marker.all {} halfNamedFile ∧
      Reader.Encloses halfNamedFile.source.content 12 34 ∧
      Undisturbed {} halfNamedFile halfNamedOwner (utf8 "__qwik_analyzer_has_X") 12 34 ∧
      ∃ out, Edit.apply halfNamedFile.source.content (markings {} halfNamedFile) = .ok out ∧
        out = markedUp {} halfNamedFile 0 12 ++ openBrace ::
          (markedUp {} halfNamedFile 13 34 ++ closeBrace :: markedUp {} halfNamedFile 35 87) ∧
        hasWord (utf8 "__qwik_analyzer_has_X") 0 (markedUp {} halfNamedFile 13 34) = true := by
  have hread : halfNamedFile.Read := by
    unfold ParsedFile.Read
    decide +kernel
  have hshort : halfNamedFile.source.content.Short := by
    unfold Bytes.Short
    decide +kernel
  have hm : halfNamedMarker ∈ Marker.all {} halfNamedFile := by decide +kernel
  have henclosed : Reader.Encloses halfNamedFile.source.content 12 34 :=
    ⟨by decide +kernel, by decide +kernel, 4, by decide +kernel, by decide +kernel⟩
  have hcheck : Edit.check halfNamedFile.source.content.length (markings {} halfNamedFile) = none :=
    (Edit.check_eq_none_iff _ _).2 (by decide +kernel)
  obtain ⟨out, hout⟩ := Edit.apply_of_check hcheck
  obtain ⟨-, opening, hopening, -, hbound⟩ :=
    rewritten_reads_bound hread hshort hm (by decide) rfl rfl hout
  obtain rfl : opening = 12 := (Nat.succ.inj hopening).symm
  exact ⟨hm, henclosed, halfNamed_undisturbed, out, hout,
    hbound 34 henclosed halfNamed_undisturbed⟩

/-- The parameter list names the prop in a type and not in the pattern. -/
def typedSource : Source :=
  ⟨utf8 "a.tsx", utf8 "component$((\x7b a \x7d: \x7b __qwik_analyzer_has_X: boolean \x7d) => " ++
    utf8 "isComponentPresent(X))"⟩

def typedFile : ParsedFile where
  path := utf8 "/proj/a.tsx"
  source := typedSource
  outline :=
    match Outline.parse typedSource with
    | .ok o => o
    | .error _ => .empty

/-- There the call reads a name that the pattern does not bind. -/
theorem rewritten_reads_unbound :
    typedFile.Read ∧
    (∃ m ∈ Marker.all {} typedFile, ∃ owner, m.owner = some owner ∧ m.isAugmented = false ∧
      owner.params.first = .objectPattern ∧ owner.params.patternBraceEnd = 13 ∧
      Options.propName {} m.target = utf8 "__qwik_analyzer_has_X") ∧
    ∃ out, Edit.apply typedFile.source.content (markings {} typedFile) = .ok out ∧
      out = utf8 "component$((\x7b a \x7d: \x7b __qwik_analyzer_has_X: boolean \x7d) => " ++
        utf8 "isComponentPresent(X, __qwik_analyzer_has_X))" ∧
      Reader.Encloses out 12 16 ∧
      hasWord (utf8 "__qwik_analyzer_has_X") 0 (out.slice 13 16) = false := by
  have hread : typedFile.Read := by
    unfold ParsedFile.Read
    decide +kernel
  have hmarkers : (Marker.all {} typedFile).any (fun m => m.owner.any fun owner =>
      !m.isAugmented && owner.params.first = .objectPattern && owner.params.patternBraceEnd = 13 &&
        Options.propName {} m.target = utf8 "__qwik_analyzer_has_X") = true := by
    decide +kernel
  obtain ⟨m, hm, hfacts⟩ := List.any_eq_true.1 hmarkers
  obtain ⟨owner, ho, hfacts⟩ := (Option.any_eq_true _ _).1 hfacts
  simp only [Bool.and_eq_true, Bool.not_eq_true', decide_eq_true_eq] at hfacts
  obtain ⟨⟨⟨ha, hp⟩, hb⟩, hprop⟩ := hfacts
  refine ⟨hread, ⟨m, hm, owner, ho, ha, hp, hb, hprop⟩, _, ?_, rfl, ?_, ?_⟩
  · decide +kernel
  · exact ⟨by decide +kernel, by decide +kernel, 4, by decide +kernel, by decide +kernel⟩
  · decide +kernel

end Plan

end JsxPresence
