import Mathlib.Data.List.Basic
import JsxPresence.Name
import JsxPresence.Proofs.Outline.Placement

namespace JsxPresence

namespace Bytes

theorem mem_fields (sep : UInt8) {s : Bytes} {b : UInt8} (h : b ∈ s) :
    b = sep ∨ ∃ f ∈ fields sep s, b ∈ f := by
  induction s with
  | nil => cases h
  | cons c r ih =>
    unfold fields
    by_cases hc : c = sep
    · rw [if_pos hc]
      rcases List.mem_cons.1 h with rfl | h
      · exact .inl hc
      · rcases ih h with h | ⟨f, hf, hb⟩
        · exact .inl h
        · exact .inr ⟨f, List.mem_cons_of_mem _ hf, hb⟩
    · rw [if_neg hc]
      cases hf : fields sep r with
      | nil => exact absurd hf (fields_ne_nil sep r)
      | cons f fs =>
        rw [hf] at ih
        rcases List.mem_cons.1 h with rfl | h
        · exact .inr ⟨b :: f, List.mem_cons_self, List.mem_cons_self⟩
        rcases ih h with h | ⟨g, hg, hb⟩
        · exact .inl h
        rcases List.mem_cons.1 hg with rfl | hg
        · exact .inr ⟨c :: g, List.mem_cons_self, List.mem_cons_of_mem _ hb⟩
        · exact .inr ⟨g, List.mem_cons_of_mem _ hg, hb⟩

theorem fields_of_not_mem {sep : UInt8} {s : Bytes} (h : sep ∉ s) : fields sep s = [s] := by
  induction s with
  | nil => rfl
  | cons c r ih =>
    have hc : c ≠ sep := fun e => h (e ▸ List.mem_cons_self)
    simp [fields, hc, ih fun hm => h (List.mem_cons_of_mem _ hm)]

theorem fields_append_sep {sep : UInt8} {s : Bytes} (h : sep ∉ s) (t : Bytes) :
    fields sep (s ++ sep :: t) = s :: fields sep t := by
  induction s with
  | nil => simp [fields]
  | cons c r ih =>
    have hc : c ≠ sep := fun e => h (e ▸ List.mem_cons_self)
    simp [fields, hc, ih fun hm => h (List.mem_cons_of_mem _ hm)]

/-- Texts without a separator can be told from their joint. -/
theorem fields_intercalate {sep : UInt8} {l : List Bytes} (hl : l ≠ [])
    (h : ∀ s ∈ l, sep ∉ s) : fields sep ([sep].intercalate l) = l := by
  induction l with
  | nil => exact absurd rfl hl
  | cons s l ih =>
    have hs := h s List.mem_cons_self
    cases l with
    | nil => simpa [List.intercalate] using fields_of_not_mem hs
    | cons t l =>
      have hrest := ih (by simp) fun u hu => h u (List.mem_cons_of_mem _ hu)
      have happ : [sep].intercalate (s :: t :: l) = s ++ sep :: [sep].intercalate (t :: l) := by
        simp [List.intercalate, List.intersperse]
      rw [happ, fields_append_sep hs, hrest]

/-- The bytes of a joint are those of its parts and the separator. -/
theorem mem_intercalate {sep b : UInt8} {l : List Bytes} (h : b ∈ [sep].intercalate l) :
    b = sep ∨ ∃ s ∈ l, b ∈ s := by
  induction l with
  | nil => simp [List.intercalate] at h
  | cons s l ih =>
    cases l with
    | nil => exact .inr ⟨s, by simp, by simpa [List.intercalate] using h⟩
    | cons t l =>
      have happ : [sep].intercalate (s :: t :: l) = s ++ sep :: [sep].intercalate (t :: l) := by
        simp [List.intercalate, List.intersperse]
      rw [happ, List.mem_append, List.mem_cons] at h
      rcases h with h | h | h
      · exact .inr ⟨s, by simp, h⟩
      · exact .inl h
      · rcases ih h with h | ⟨u, hu, hb⟩
        · exact .inl h
        · exact .inr ⟨u, List.mem_cons_of_mem _ hu, hb⟩

/-- A key of two texts, the first without the separator, tells them apart. -/
theorem sep_append_inj {sep : UInt8} {a b s t : Bytes} (ha : sep ∉ a) (hb : sep ∉ b)
    (h : a ++ sep :: s = b ++ sep :: t) : a = b ∧ s = t := by
  have hhead : a = b := by
    have hfields := fields_append_sep ha s
    rw [h, fields_append_sep hb t] at hfields
    exact (List.cons.inj hfields).1.symm
  rw [hhead] at h
  exact ⟨hhead, (List.cons.inj (List.append_cancel_left h)).2⟩

/-- A key of two texts, the second without the separator, tells them apart. -/
theorem append_sep_inj {sep : UInt8} {a b s t : Bytes} (hs : sep ∉ s) (ht : sep ∉ t)
    (h : a ++ sep :: s = b ++ sep :: t) : a = b ∧ s = t := by
  have hr : s.reverse ++ sep :: a.reverse = t.reverse ++ sep :: b.reverse := by
    simpa using congrArg List.reverse h
  obtain ⟨hst, hab⟩ := sep_append_inj (by simpa using hs) (by simpa using ht) hr
  exact ⟨List.reverse_injective hab, List.reverse_injective hst⟩

end Bytes

namespace Name

theorem split_join {path : List Bytes} (hp : path ≠ []) (h : ∀ s ∈ path, Plain s) :
    split (join path) = path :=
  Bytes.fields_intercalate hp fun s hs => (h s hs).1

/-- The path can be told from its dotted name, which stands on one line. -/
structure Spelled (path : List Bytes) : Prop where
  ne_nil : path ≠ []
  split_join : split (join path) = path
  newline_not_mem : byte '\n' ∉ join path

theorem newline_not_mem_join {path : List Bytes} (h : ∀ s ∈ path, byte '\n' ∉ s) :
    byte '\n' ∉ join path := by
  intro hm
  rcases Bytes.mem_intercalate hm with hd | ⟨s, hs, hb⟩
  · exact absurd hd (by decide)
  · exact h s hs hb

theorem spelled_of_plain {path : List Bytes} (hp : path ≠ []) (h : ∀ s ∈ path, Plain s) :
    Spelled path :=
  ⟨hp, split_join hp h, newline_not_mem_join fun s hs => (h s hs).2⟩

theorem spelled_split {dotted : Bytes} (h : byte '\n' ∉ dotted) : Spelled (split dotted) where
  ne_nil := Bytes.fields_ne_nil _ _
  split_join := by rw [join_split]
  newline_not_mem := by rwa [join_split]

theorem isWord_of_isIdentifier {name : Bytes} (h : isIdentifier name = true) {b : UInt8}
    (hb : b ∈ name) : isWord b = true := by
  cases name with
  | nil => cases hb
  | cons c r =>
    simp only [isIdentifier, Bool.and_eq_true, List.all_eq_true] at h
    rcases List.mem_cons.1 hb with rfl | hb
    · have h1 := h.1
      simp only [isWord, isAlnum, Bool.or_eq_true, decide_eq_true_eq] at h1 ⊢
      tauto
    · exact h.2 b hb

/-- A dotted reference is made of words, dots and blanks. -/
theorem dottedReference?_bytes {text name : Bytes} (h : dottedReference? text = some name)
    {b : UInt8} (hb : b ∈ text) : isSpace b = true ∨ b = byte '.' ∨ isWord b = true := by
  unfold dottedReference? at h
  rcases ite_eq_some h with ⟨hc, -⟩ | ⟨-, h⟩
  · have hall := (Bool.and_eq_true_iff.1 hc).2
    cases hsp : isSpace b with
    | true => exact .inl rfl
    | false =>
      have hm : b ∈ text.filter (!isSpace ·) := List.mem_filter.2 ⟨hb, by simp [hsp]⟩
      rcases Bytes.mem_fields (byte '.') hm with hd | ⟨f, hf, hbf⟩
      · exact .inr (.inl hd)
      · exact .inr (.inr (isWord_of_isIdentifier (List.all_eq_true.1 hall f hf) hbf))
  · cases h

/-- The name it spells stands on one line. -/
theorem newline_not_mem_dottedReference? {text name : Bytes} (h : dottedReference? text = some name) :
    byte '\n' ∉ name := by
  unfold dottedReference? at h
  rcases ite_eq_some h with ⟨-, h⟩ | ⟨-, h⟩
  · cases h
    intro hm
    exact absurd (List.mem_filter.1 hm).2 (by decide)
  · cases h

end Name

end JsxPresence
