import JsxPresence.Proofs.Name

namespace JsxPresence

namespace Bytes

/-- Nothing but blanks. -/
def Blank (s : Bytes) : Prop := ∀ b ∈ s, isSpace b = true

/-- The text without its blanks. -/
def compact (s : Bytes) : Bytes := s.filter (!isSpace ·)

/-- Blanks stand between two bytes of words. -/
def SplitsWord (s : Bytes) : Prop :=
  ∃ a blanks b, isWord a = true ∧ isWord b = true ∧ blanks ≠ [] ∧ Blank blanks ∧
    a :: (blanks ++ [b]) <:+: s

theorem SplitsWord.of_infix {s t : Bytes} (h : SplitsWord s) (hst : s <:+: t) : SplitsWord t := by
  obtain ⟨a, blanks, b, ha, hb, hne, hblank, hin⟩ := h
  exact ⟨a, blanks, b, ha, hb, hne, hblank, hin.trans hst⟩

theorem compact_append (s t : Bytes) : compact (s ++ t) = compact s ++ compact t :=
  List.filter_append ..

theorem compact_cons (b : UInt8) (s : Bytes) :
    compact (b :: s) = if isSpace b then compact s else b :: compact s := by
  cases h : isSpace b <;> simp [compact, h]

theorem Blank.compact_eq {s : Bytes} (h : Blank s) : compact s = [] :=
  List.filter_eq_nil_iff.2 fun b hb => by simp [h b hb]

theorem isSpace_of_isWord {b : UInt8} (h : isWord b = true) : isSpace b = false := by
  have hall : ∀ n : Fin 256, isWord (.ofFin n) = true → isSpace (.ofFin n) = false := by
    decide +kernel
  exact hall b.toFin h

theorem compact_of_isWord {s : Bytes} (h : ∀ b ∈ s, isWord b = true) : compact s = s :=
  List.filter_eq_self.2 fun b hb => by simp [isSpace_of_isWord (h b hb)]

/-- Dropping blanks drops them from every field. -/
theorem fields_compact {sep : UInt8} (h : isSpace sep = false) (s : Bytes) :
    fields sep (compact s) = (fields sep s).map compact := by
  induction s with
  | nil => rfl
  | cons b r ih =>
    cases hf : fields sep r with
    | nil => exact absurd hf (fields_ne_nil sep r)
    | cons f fs =>
      rw [hf, List.map_cons] at ih
      by_cases hb : b = sep
      · subst hb
        simp only [compact_cons, h, Bool.false_eq_true, if_false, fields, if_true, hf, ih,
          List.map_cons]
        rfl
      · cases hspace : isSpace b with
        | true => simp [fields, hb, hf, compact_cons, hspace, ih]
        | false => simp [fields, hb, hf, compact_cons, hspace, ih]

/-- What the text starts with, the first field does, if there is no separator in it. -/
theorem exists_field_of_prefix {sep : UInt8} {part s : Bytes} (hp : sep ∉ part)
    (h : part <+: s) : ∃ f fs, fields sep s = f :: fs ∧ part <+: f := by
  induction s generalizing part with
  | nil => exact ⟨[], [], rfl, h⟩
  | cons b r ih =>
    cases hf : fields sep (b :: r) with
    | nil => exact absurd hf (fields_ne_nil sep _)
    | cons f fs =>
      refine ⟨f, fs, rfl, ?_⟩
      rcases List.prefix_cons_iff.1 h with rfl | ⟨part, rfl, hpart⟩
      · exact List.nil_prefix
      have hb : b ≠ sep := fun hb => hp (hb ▸ List.mem_cons_self)
      obtain ⟨g, gs, hg, hpart⟩ := ih (fun hm => hp (List.mem_cons_of_mem _ hm)) hpart
      simp only [fields, if_neg hb, hg, List.cons.injEq] at hf
      rw [← hf.1]
      exact (List.prefix_cons_inj b).2 hpart

/-- What holds no separator stands in one of the fields. -/
theorem exists_field_of_infix {sep : UInt8} {part s : Bytes} (hp : sep ∉ part)
    (h : part <:+: s) : ∃ f ∈ fields sep s, part <:+: f := by
  induction s with
  | nil => exact ⟨[], List.mem_singleton_self _, h⟩
  | cons b r ih =>
    rcases List.infix_cons_iff.1 h with h | h
    · obtain ⟨f, fs, hf, hpart⟩ := exists_field_of_prefix hp h
      exact ⟨f, hf ▸ List.mem_cons_self, hpart.isInfix⟩
    · obtain ⟨f, hf, hpart⟩ := ih h
      by_cases hb : b = sep
      · refine ⟨f, ?_, hpart⟩
        rw [fields, if_pos hb]
        exact List.mem_cons_of_mem _ hf
      cases hr : fields sep r with
      | nil => exact absurd hr (fields_ne_nil sep r)
      | cons g gs =>
        rw [hr] at hf
        rw [fields, if_neg hb, hr]
        rcases List.mem_cons.1 hf with rfl | hf
        · exact ⟨b :: f, List.mem_cons_self, hpart.trans (List.suffix_cons b f).isInfix⟩
        · exact ⟨f, List.mem_cons_of_mem _ hf, hpart⟩

theorem infix_of_mem_fields {sep : UInt8} {f s : Bytes} (h : f ∈ fields sep s) : f <:+: s := by
  rw [← intercalate_fields sep s]
  generalize fields sep s = l at h
  induction l with
  | nil => cases h
  | cons g l ih =>
    cases l with
    | nil =>
      obtain rfl := List.mem_singleton.1 h
      simp [List.intercalate]
    | cons t l =>
      have happ : [sep].intercalate (g :: t :: l) = g ++ sep :: [sep].intercalate (t :: l) := by
        simp [List.intercalate, List.intersperse]
      rw [happ]
      rcases List.mem_cons.1 h with rfl | h
      · exact (List.prefix_append _ _).isInfix
      · exact (ih h).trans ((List.suffix_cons _ _).trans (List.suffix_append _ _)).isInfix

/-- Blanks stand inside a word of the text if they do so in a field that words and blanks cannot
end. -/
theorem splitsWord_iff_field (sep : UInt8) (hw : isWord sep = false) (hs : isSpace sep = false)
    (s : Bytes) : SplitsWord s ↔ ∃ f ∈ fields sep s, SplitsWord f := by
  constructor
  · rintro ⟨a, blanks, b, ha, hb, hne, hblank, hin⟩
    have hsep : sep ∉ a :: (blanks ++ [b]) := by
      intro hm
      simp only [List.mem_cons, List.mem_append, List.not_mem_nil, or_false] at hm
      rcases hm with rfl | hm | rfl
      · simp [hw] at ha
      · exact absurd (hblank sep hm) (by simp [hs])
      · simp [hw] at hb
    obtain ⟨f, hf, hin⟩ := exists_field_of_infix hsep hin
    exact ⟨f, hf, a, blanks, b, ha, hb, hne, hblank, hin⟩
  · rintro ⟨f, hf, h⟩
    exact h.of_infix (infix_of_mem_fields hf)

/-- No blanks stand inside the words of blanks, words and blanks. -/
theorem not_splitsWord_padded {before name behind : Bytes} (hb : Blank before)
    (hn : ∀ b ∈ name, isWord b = true) (ha : Blank behind) :
    ¬SplitsWord (before ++ (name ++ behind)) := by
  have hspace {c : UInt8} (hc : isSpace c = true) (hw : isWord c = true) : False := by
    simp [isSpace_of_isWord hw] at hc
  rintro ⟨a, blanks, b, hwa, hwb, hne, hblank, hin⟩
  induction before with
  | cons c before ih =>
    rcases List.infix_cons_iff.1 hin with h | h
    · obtain ⟨rfl, -⟩ := List.cons_prefix_cons.1 h
      exact hspace (hb a List.mem_cons_self) hwa
    · exact ih (fun x hx => hb x (List.mem_cons_of_mem _ hx)) h
  | nil =>
    rw [List.nil_append] at hin
    induction name with
    | nil => exact hspace (ha a (hin.subset List.mem_cons_self)) hwa
    | cons c name ih =>
      rcases List.infix_cons_iff.1 hin with h | h
      · obtain ⟨d, blanks, rfl⟩ := List.exists_cons_of_ne_nil hne
        have htail := (List.cons_prefix_cons.1 h).2
        cases name with
        | nil => exact hspace (ha b (htail.subset (by simp))) hwb
        | cons e name =>
          have hde : d = e := (List.cons_prefix_cons.1 htail).1
          exact hspace (hblank d List.mem_cons_self) (hn d (by simp [hde]))
      · exact ih (fun x hx => hn x (List.mem_cons_of_mem _ hx)) h

/-- Words and blanks that are not all blanks have a first byte of a word. -/
theorem exists_word_of_not_blank {s : Bytes} (hs : ∀ b ∈ s, isSpace b = true ∨ isWord b = true)
    (h : ¬Blank s) : ∃ blanks w r, s = blanks ++ w :: r ∧ Blank blanks ∧ isWord w = true := by
  induction s with
  | nil => exact absurd (by simp [Blank]) h
  | cons c s ih =>
    rcases hs c List.mem_cons_self with hc | hc
    · have hblank : ¬Blank s := fun hb => h (List.forall_mem_cons.2 ⟨hc, hb⟩)
      obtain ⟨blanks, w, r, rfl, hb, hw⟩ :=
        ih (fun b hb => hs b (List.mem_cons_of_mem _ hb)) hblank
      exact ⟨c :: blanks, w, r, rfl, List.forall_mem_cons.2 ⟨hc, hb⟩, hw⟩
    · exact ⟨[], c, s, rfl, by simp [Blank], hc⟩

/-- Behind a byte of a word come the rest of the word and blanks. -/
theorem exists_blank_behind {a : UInt8} {r : Bytes} (ha : isWord a = true)
    (hr : ∀ b ∈ r, isSpace b = true ∨ isWord b = true) (hs : ¬SplitsWord (a :: r)) :
    ∃ name behind, r = name ++ behind ∧ (∀ b ∈ name, isWord b = true) ∧ Blank behind := by
  induction r generalizing a with
  | nil => exact ⟨[], [], rfl, by simp, by simp [Blank]⟩
  | cons c r ih =>
    rcases hr c List.mem_cons_self with hc | hc
    · refine ⟨[], c :: r, rfl, by simp, ?_⟩
      by_contra hblank
      obtain ⟨blanks, w, rest, happ, hb, hw⟩ := exists_word_of_not_blank hr hblank
      have hne : blanks ≠ [] := by
        rintro rfl
        obtain rfl := (List.cons.inj happ).1
        simp [isSpace_of_isWord hw] at hc
      exact hs ⟨a, blanks, w, ha, hw, hne, hb, [], rest, by simp [happ]⟩
    · have hnot : ¬SplitsWord (c :: r) := fun h => hs (h.of_infix (List.suffix_cons a _).isInfix)
      obtain ⟨name, behind, rfl, hname, hbehind⟩ :=
        ih hc (fun b hb => hr b (List.mem_cons_of_mem _ hb)) hnot
      exact ⟨c :: name, behind, rfl, List.forall_mem_cons.2 ⟨hc, hname⟩, hbehind⟩

end Bytes

namespace Name

open Bytes

/-- A letter, `_` or `$`, and letters, digits, `_` or `$` behind it. -/
inductive Ident : Bytes → Prop
  | mk {b : UInt8} {r : Bytes} (hb : isAlpha b = true ∨ b = byte '_' ∨ b = byte '$')
      (hr : ∀ c ∈ r, isAlpha c = true ∨ isDigit c = true ∨ c = byte '_' ∨ c = byte '$') :
      Ident (b :: r)

/-- Identifiers with dots between them and blanks around each. -/
inductive Spelling : List Bytes → Bytes → Prop
  | last {before name behind : Bytes} (hb : Blank before) (hn : Ident name) (ha : Blank behind) :
      Spelling [name] (before ++ name ++ behind)
  | dot {before name behind rest : Bytes} {path : List Bytes} (hb : Blank before) (hn : Ident name)
      (ha : Blank behind) (h : Spelling path rest) :
      Spelling (name :: path) (before ++ name ++ behind ++ byte '.' :: rest)

theorem isWord_iff {b : UInt8} :
    isWord b = true ↔ isAlpha b = true ∨ isDigit b = true ∨ b = byte '_' ∨ b = byte '$' := by
  simp [isWord, isAlnum, or_assoc]

theorem isIdentifier_iff {name : Bytes} : isIdentifier name = true ↔ Ident name := by
  constructor
  · intro h
    cases name with
    | nil => cases h
    | cons b r =>
      simp only [isIdentifier, Bool.and_eq_true, Bool.or_eq_true, decide_eq_true_eq,
        List.all_eq_true, or_assoc] at h
      exact .mk h.1 fun c hc => isWord_iff.1 (h.2 c hc)
  · rintro ⟨hb, hr⟩
    simp only [isIdentifier, Bool.and_eq_true, Bool.or_eq_true, decide_eq_true_eq,
      List.all_eq_true, or_assoc]
    exact ⟨hb, fun c hc => isWord_iff.2 (hr c hc)⟩

theorem Ident.isWord {name : Bytes} (h : Ident name) {b : UInt8} (hb : b ∈ name) :
    isWord b = true :=
  isWord_of_isIdentifier (isIdentifier_iff.2 h) hb

theorem Ident.ne_nil {name : Bytes} (h : Ident name) : name ≠ [] := by
  cases h
  simp

theorem dot_not_mem_padded {before name behind : Bytes} (hb : Blank before) (hn : Ident name)
    (ha : Blank behind) : byte '.' ∉ before ++ name ++ behind := by
  intro h
  rcases List.mem_append.1 h with h | h
  · rcases List.mem_append.1 h with h | h
    · exact absurd (hb _ h) (by decide)
    · exact absurd (hn.isWord h) (by decide)
  · exact absurd (ha _ h) (by decide)

theorem compact_padded {before name behind : Bytes} (hb : Blank before) (hn : Ident name)
    (ha : Blank behind) : compact (before ++ name ++ behind) = name := by
  rw [compact_append, compact_append, hb.compact_eq, ha.compact_eq,
    compact_of_isWord fun _ => hn.isWord]
  simp

/-- A field whose blanks stand outside its words is a name with blanks on either side. -/
theorem exists_padding {field : Bytes} (hn : Ident (compact field)) (hs : ¬SplitsWord field) :
    ∃ before behind, Blank before ∧ Blank behind ∧ field = before ++ compact field ++ behind := by
  have hall : ∀ b ∈ field, isSpace b = true ∨ isWord b = true := by
    intro b hb
    cases hspace : isSpace b with
    | true => exact .inl rfl
    | false => exact .inr (hn.isWord (List.mem_filter.2 ⟨hb, by simp [hspace]⟩))
  obtain ⟨before, w, r, rfl, hbefore, hw⟩ :=
    exists_word_of_not_blank hall fun hb => hn.ne_nil hb.compact_eq
  have hnot : ¬SplitsWord (w :: r) := fun h => hs (h.of_infix (List.suffix_append ..).isInfix)
  obtain ⟨name, behind, rfl, hname, hbehind⟩ := exists_blank_behind hw
    (fun b hb => hall b (List.mem_append_right _ (List.mem_cons_of_mem _ hb))) hnot
  have hcompact : compact (before ++ w :: (name ++ behind)) = w :: name := by
    rw [← List.cons_append, compact_append, compact_append, hbefore.compact_eq,
      hbehind.compact_eq, compact_of_isWord (List.forall_mem_cons.2 ⟨hw, hname⟩)]
    simp
  exact ⟨before, behind, hbefore, hbehind, by rw [hcompact]; simp⟩

theorem Spelling.ident {path : List Bytes} {text : Bytes} (h : Spelling path text) :
    ∀ name ∈ path, Ident name := by
  induction h with
  | last _ hn _ => exact fun name hm => List.mem_singleton.1 hm ▸ hn
  | dot _ hn _ _ ih => exact List.forall_mem_cons.2 ⟨hn, ih⟩

/-- The segments are left when the blanks are dropped. -/
theorem Spelling.split_compact {path : List Bytes} {text : Bytes} (h : Spelling path text) :
    split (compact text) = path := by
  induction h with
  | @last before name behind hb hn ha =>
    rw [compact_padded hb hn ha]
    exact fields_of_not_mem fun hm => absurd (hn.isWord hm) (by decide)
  | @dot before name behind rest path hb hn ha _ ih =>
    rw [compact_append, compact_padded hb hn ha, compact_cons, if_neg (by decide)]
    rw [split, fields_append_sep fun hm => absurd (hn.isWord hm) (by decide)]
    exact congrArg (name :: ·) ih

theorem Spelling.not_splitsWord {path : List Bytes} {text : Bytes} (h : Spelling path text) :
    ¬SplitsWord text := by
  have hfields := splitsWord_iff_field (byte '.') (by decide) (by decide)
  induction h with
  | @last before name behind hb hn ha =>
    rw [List.append_assoc]
    exact not_splitsWord_padded hb (fun _ => hn.isWord) ha
  | @dot before name behind rest path hb hn ha _ ih =>
    intro hs
    rw [hfields, fields_append_sep (dot_not_mem_padded hb hn ha)] at hs
    obtain ⟨field, hfield, hs⟩ := hs
    rcases List.mem_cons.1 hfield with rfl | hfield
    · rw [List.append_assoc] at hs
      exact not_splitsWord_padded hb (fun _ => hn.isWord) ha hs
    · exact ih ((hfields rest).2 ⟨field, hfield, hs⟩)

/-- Fields that are identifiers, blanks around them aside, spell them when dots join them. -/
theorem spelling_of_fields {l : List Bytes} (hne : l ≠ [])
    (h : ∀ field ∈ l, Ident (compact field) ∧ ¬SplitsWord field) :
    Spelling (l.map compact) ([byte '.'].intercalate l) := by
  induction l with
  | nil => exact absurd rfl hne
  | cons field l ih =>
    obtain ⟨⟨hn, hs⟩, htail⟩ := List.forall_mem_cons.1 h
    obtain ⟨before, behind, hb, ha, hfield⟩ := exists_padding hn hs
    cases l with
    | nil =>
      have hlast := Spelling.last hb hn ha
      rw [← hfield] at hlast
      simpa [List.intercalate] using hlast
    | cons next l =>
      have hdot := Spelling.dot hb hn ha (ih (by simp) htail)
      rw [← hfield] at hdot
      simpa [List.intercalate, List.intersperse] using hdot

/-- A text spells what is left of it without its blanks, if that is identifiers and no blanks stand
inside a word. -/
theorem spelling_iff {path : List Bytes} {text : Bytes} : Spelling path text ↔
    split (compact text) = path ∧ (∀ name ∈ path, Ident name) ∧ ¬SplitsWord text := by
  constructor
  · exact fun h => ⟨h.split_compact, h.ident, h.not_splitsWord⟩
  · rintro ⟨hpath, hident, hs⟩
    rw [splitsWord_iff_field (byte '.') (by decide) (by decide)] at hs
    rw [split, fields_compact (by decide)] at hpath
    rw [← hpath] at hident ⊢
    have hspelling := spelling_of_fields (fields_ne_nil (byte '.') text) fun field hf =>
      ⟨hident _ (List.mem_map_of_mem hf), fun h => hs ⟨field, hf, h⟩⟩
    rwa [intercalate_fields] at hspelling

/-- The text spells at least two identifiers, which joined by dots are the name. -/
def Dotted (text name : Bytes) : Prop :=
  ∃ path, 2 ≤ path.length ∧ Spelling path text ∧ name = join path

/-- A text spells a dotted name just if it is taken for it and no blanks stand inside a word. -/
theorem dotted_iff (text name : Bytes) :
    Dotted text name ↔ dottedReference? text = some name ∧ ¬SplitsWord text := by
  have htaken : dottedReference? text = some name ↔ 2 ≤ (split (compact text)).length ∧
      (∀ s ∈ split (compact text), Ident s) ∧ compact text = name := by
    simp only [dottedReference?, ← isIdentifier_iff]
    simp [compact, Nat.lt_iff_add_one_le, and_assoc]
  rw [htaken]
  constructor
  · rintro ⟨path, hlen, hpath, rfl⟩
    obtain ⟨rfl, hident, hs⟩ := spelling_iff.1 hpath
    exact ⟨⟨hlen, hident, (join_split _).symm⟩, hs⟩
  · rintro ⟨⟨hlen, hident, rfl⟩, hs⟩
    exact ⟨_, hlen, spelling_iff.2 ⟨rfl, hident, hs⟩, (join_split _).symm⟩

/-- The blank between a keyword and a name is dropped like any other, so the two are read as one
identifier. -/
theorem keyword_before_dotted :
    dottedReference? (utf8 "new A.B") = some (utf8 "newA.B") ∧
      ∀ name, ¬Dotted (utf8 "new A.B") name := by
  refine ⟨by decide +kernel, ?_⟩
  rintro name ⟨path, -, hpath, -⟩
  refine hpath.not_splitsWord ⟨byte 'w', [byte ' '], byte 'A', by decide, by decide, by decide,
    by simp [Blank]; decide, utf8 "ne", utf8 ".B", by decide +kernel⟩

end Name

end JsxPresence
