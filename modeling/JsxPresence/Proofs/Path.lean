import JsxPresence.Path
import JsxPresence.Proofs.Name

namespace JsxPresence

/-- The fields of a text hold its bytes, but no separator. -/
theorem Bytes.of_mem_fields {sep : UInt8} {s f : Bytes} (h : f ∈ fields sep s) :
    sep ∉ f ∧ ∀ b ∈ f, b ∈ s := by
  induction s generalizing f with
  | nil =>
    rw [List.mem_singleton.1 h]
    simp
  | cons c r ih =>
    have later {g : Bytes} (hg : g ∈ fields sep r) : sep ∉ g ∧ ∀ b ∈ g, b ∈ c :: r :=
      ⟨(ih hg).1, fun b hb => List.mem_cons_of_mem _ ((ih hg).2 b hb)⟩
    by_cases hc : c = sep
    · rw [fields, if_pos hc] at h
      rcases List.mem_cons.1 h with rfl | h
      · simp
      · exact later h
    · rw [fields, if_neg hc] at h
      cases hf : fields sep r with
      | nil => exact absurd hf (fields_ne_nil sep r)
      | cons g gs =>
        rw [hf] at h later
        rcases List.mem_cons.1 h with rfl | h
        · obtain ⟨hs, hb⟩ := later List.mem_cons_self
          refine ⟨by simp [Ne.symm hc, hs], fun b hm => ?_⟩
          rcases List.mem_cons.1 hm with rfl | hm
          · exact List.mem_cons_self
          · exact hb b hm
        · exact later (List.mem_cons_of_mem _ h)

namespace Path

/-- A name that leads to something of that name. -/
structure Ordinary (name : Bytes) : Prop where
  ne_nil : name ≠ []
  ne_dot : name ≠ dot
  ne_dotDot : name ≠ dotDot
  slash_not_mem : slash ∉ name

/-- The text in which each name stands behind a slash. -/
def rooted (ns : List Bytes) : Bytes := ns.flatMap (slash :: ·)

theorem rooted_cons (n : Bytes) (ns : List Bytes) : rooted (n :: ns) = slash :: (n ++ rooted ns) := rfl

theorem rooted_snoc (ns : List Bytes) (n : Bytes) : rooted (ns ++ [n]) = rooted ns ++ slash :: n := by
  simp [rooted]

theorem mem_rooted {b : UInt8} {ns : List Bytes} (h : b ∈ rooted ns) :
    b = slash ∨ ∃ n ∈ ns, b ∈ n := by
  obtain ⟨n, hn, hb⟩ := List.mem_flatMap.1 h
  rcases List.mem_cons.1 hb with rfl | hb
  · exact .inl rfl
  · exact .inr ⟨n, hn, hb⟩

theorem slash_cons_intercalate {ns : List Bytes} (h : ns ≠ []) :
    slash :: [slash].intercalate ns = rooted ns := by
  induction ns with
  | nil => exact absurd rfl h
  | cons n ns ih =>
    cases ns with
    | nil => simp [rooted, List.intercalate]
    | cons m ns =>
      have happ : [slash].intercalate (n :: m :: ns) = n ++ slash :: [slash].intercalate (m :: ns) := by
        simp [List.intercalate, List.intersperse]
      rw [happ, ih (by simp), rooted_cons n]

/-- Nothing stands before the first slash. -/
theorem fields_rooted {ns : List Bytes} (h : ∀ n ∈ ns, slash ∉ n) :
    Bytes.fields slash (rooted ns) = [] :: ns := by
  induction ns with
  | nil => rfl
  | cons n ns ih =>
    have hn := h n List.mem_cons_self
    have ih := ih fun m hm => h m (List.mem_cons_of_mem _ hm)
    rw [rooted_cons, Bytes.fields, if_pos rfl]
    cases ns with
    | nil => simp [rooted, Bytes.fields_of_not_mem hn]
    | cons m ns =>
      rw [rooted_cons, Bytes.fields, if_pos rfl] at ih
      rw [rooted_cons, Bytes.fields_append_sep hn, List.tail_eq_of_cons_eq ih]

theorem endsInSlash_rooted_snoc {ns : List Bytes} {n : Bytes} (h : slash ∉ n) :
    endsInSlash (rooted (ns ++ [n])) = n.isEmpty := by
  rw [rooted_snoc]
  unfold endsInSlash
  cases hn : n.getLast? with
  | none =>
    rw [List.getLast?_eq_none_iff.1 hn]
    simp
  | some b =>
    have hb : b ∈ n := List.mem_of_getLast? hn
    have hne : b ≠ slash := fun e => h (e ▸ hb)
    have hemp : n.isEmpty = false := by
      cases n with
      | nil => cases hb
      | cons _ _ => rfl
    simp [List.getLast?_append, List.getLast?_cons, hn, hne, hemp]

theorem isAbsolute_rooted_snoc (ns : List Bytes) (n : Bytes) :
    isAbsolute (rooted (ns ++ [n])) = true := by
  cases ns <;> simp [rooted, isAbsolute]

theorem names_ne_nil {ns : List Bytes} (h : ∀ n ∈ ns, slash ∉ n) {n : Bytes} (hn : n ∈ ns)
    (hne : n ≠ []) : (names (rooted ns)).isEmpty = false := by
  have hm : n ∈ (Bytes.fields slash (rooted ns)).filter (!·.isEmpty) := by
    rw [fields_rooted h]
    exact List.mem_filter.2 ⟨List.mem_cons_of_mem _ hn, by simpa using hne⟩
  unfold names
  dsimp only
  split
  · simp
  · exact List.isEmpty_eq_false_iff.2 (List.ne_nil_of_mem hm)

theorem names_slash_not_mem {p n : Bytes} (h : n ∈ names p) : slash ∉ n := by
  unfold names at h
  dsimp only at h
  split at h
  · rcases List.mem_append.1 h with h | h
    · exact (Bytes.of_mem_fields (List.mem_of_mem_filter h)).1
    · rw [List.mem_singleton.1 h]
      simp
  · exact (Bytes.of_mem_fields (List.mem_of_mem_filter h)).1

theorem mem_of_mem_names {p n : Bytes} (h : n ∈ names p) {b : UInt8} (hb : b ∈ n) : b ∈ p := by
  unfold names at h
  dsimp only at h
  split at h
  · rcases List.mem_append.1 h with h | h
    · exact (Bytes.of_mem_fields (List.mem_of_mem_filter h)).2 b hb
    · rw [List.mem_singleton.1 h] at hb
      cases hb
  · exact (Bytes.of_mem_fields (List.mem_of_mem_filter h)).2 b hb

namespace Partial

/-- The names kept are ordinary ones. -/
def Fine (p : Partial) : Prop := ∀ n ∈ p.kept, Ordinary n

/-- The names of the text, with an empty one at the end if a slash ends it. -/
def ending (p : Partial) : List Bytes :=
  p.kept.reverse ++ if p.trailing || p.kept.isEmpty then [[]] else []

theorem fine_start : Fine ⟨[], false⟩ := by
  intro n hn
  cases hn

/-- Below the root no double dot is kept. -/
theorem fine_take {p : Partial} (h : p.Fine) {name : Bytes} (hs : slash ∉ name) :
    (p.take true name).Fine := by
  unfold take
  split
  · exact h
  · rename_i hn
    simp only [Bool.or_eq_true, List.isEmpty_iff, decide_eq_true_eq, not_or] at hn
    split
    · split
      · exact fine_start
      · rename_i last before hk
        have hlast := h last (by rw [hk]; exact List.mem_cons_self)
        rw [if_neg hlast.ne_dotDot]
        exact fun n hm => h n (by rw [hk]; exact List.mem_cons_of_mem _ hm)
    · rename_i hd
      intro n hm
      rcases List.mem_cons.1 hm with rfl | hm
      · exact ⟨hn.1, hn.2, hd, hs⟩
      · exact h n hm

theorem fine_foldl {p : Partial} (h : p.Fine) {ns : List Bytes} (hs : ∀ n ∈ ns, slash ∉ n) :
    (ns.foldl (take true) p).Fine := by
  induction ns generalizing p with
  | nil => exact h
  | cons n ns ih =>
    exact ih (fine_take h (hs n List.mem_cons_self)) fun m hm => hs m (List.mem_cons_of_mem _ hm)

theorem kept_take {p : Partial} {name : Bytes} :
    ∀ n ∈ (p.take true name).kept, n = name ∨ n ∈ p.kept := by
  unfold take
  intro n hn
  split at hn
  · exact .inr hn
  · split at hn
    · rename_i hd
      split at hn
      · cases hn
      · rename_i hk
        split at hn
        · rcases List.mem_cons.1 hn with rfl | hn
          · exact .inl hd.symm
          · exact .inr (by rw [hk]; exact hn)
        · exact .inr (by rw [hk]; exact List.mem_cons_of_mem _ hn)
    · rcases List.mem_cons.1 hn with rfl | hn
      · exact .inl rfl
      · exact .inr hn

theorem kept_foldl {p : Partial} {ns : List Bytes} :
    ∀ n ∈ (ns.foldl (take true) p).kept, n ∈ ns ∨ n ∈ p.kept := by
  induction ns generalizing p with
  | nil => exact fun n hn => .inr hn
  | cons m ns ih =>
    intro n hn
    rcases ih n hn with hn | hn
    · exact .inl (List.mem_cons_of_mem _ hn)
    · rcases kept_take n hn with rfl | hn
      · exact .inl List.mem_cons_self
      · exact .inr hn

theorem text_eq_rooted {p : Partial} (h : p.Fine) : p.text true = rooted p.ending := by
  unfold text ending
  cases hk : p.kept with
  | nil => simp [rooted]
  | cons last before =>
    have hlast := (h last (by rw [hk]; exact List.mem_cons_self)).ne_dotDot
    have hbody : slash :: [slash].intercalate (last :: before).reverse =
        rooted (last :: before).reverse := slash_cons_intercalate (by simp)
    cases p.trailing with
    | false => simpa using hbody
    | true =>
      have hends : rooted ((last :: before).reverse ++ [[]]) =
          slash :: [slash].intercalate (last :: before).reverse ++ [slash] := by
        rw [rooted_snoc, hbody]
      simpa [hlast] using hends.symm

theorem take_ordinary (p : Partial) {name : Bytes} (h : Ordinary name) :
    p.take true name = ⟨name :: p.kept, false⟩ := by
  simp [take, h.ne_nil, h.ne_dot, h.ne_dotDot]

theorem foldl_ordinary {ns : List Bytes} (h : ∀ n ∈ ns, Ordinary n) (kept : List Bytes) :
    ns.foldl (take true) ⟨kept, false⟩ = ⟨ns.reverse ++ kept, false⟩ := by
  induction ns generalizing kept with
  | nil => rfl
  | cons n ns ih =>
    rw [List.foldl_cons, take_ordinary _ (h n List.mem_cons_self),
      ih fun m hm => h m (List.mem_cons_of_mem _ hm)]
    simp

/-- Taking in the names of a normal form gives it back. -/
theorem foldl_ending {p : Partial} (h : p.Fine) (hk : p.kept ≠ []) :
    p.ending.foldl (take true) ⟨[], false⟩ = p := by
  have hkept : p.kept.reverse.foldl (take true) ⟨[], false⟩ = ⟨p.kept, false⟩ := by
    rw [foldl_ordinary fun n hn => h n (List.mem_reverse.1 hn)]
    simp
  obtain ⟨kept, trailing⟩ := p
  rw [ending, List.foldl_append, hkept, List.isEmpty_eq_false_iff.2 hk]
  cases trailing <;> rfl

end Partial

/-- A text that is the normal form of an absolute path. -/
def Normal (p : Bytes) : Prop := ∃ q : Partial, q.Fine ∧ p = rooted q.ending

theorem normal_eq_rooted {p : Bytes} (h : isAbsolute p = true) :
    normal p = rooted ((names p).foldl (Partial.take true) ⟨[], false⟩).ending := by
  have hp : p.isEmpty = false := by
    cases p with
    | nil => cases h
    | cons _ _ => rfl
  unfold normal
  rw [hp, h]
  exact Partial.text_eq_rooted
    (Partial.fine_foldl Partial.fine_start fun _ hn => names_slash_not_mem hn)

theorem isNormal_normal {p : Bytes} (h : isAbsolute p = true) : Normal (normal p) :=
  ⟨_, Partial.fine_foldl Partial.fine_start fun _ hn => names_slash_not_mem hn, normal_eq_rooted h⟩

theorem Partial.Fine.slash_not_mem_ending {q : Partial} (h : q.Fine) :
    ∀ n ∈ q.ending, slash ∉ n := by
  intro n hn
  rcases List.mem_append.1 hn with hn | hn
  · exact (h n (List.mem_reverse.1 hn)).slash_not_mem
  · split at hn
    · rw [List.mem_singleton.1 hn]
      simp
    · cases hn

theorem Partial.ending_eq_snoc (q : Partial) :
    ∃ before last, q.ending = before ++ [last] ∧
      (q.kept = [] ∧ before = [] ∧ last = [] ∨
        q.kept ≠ [] ∧ (q.trailing = true ∧ before = q.kept.reverse ∧ last = [] ∨
          q.trailing = false ∧ q.kept.reverse = before ++ [last])) := by
  unfold ending
  cases hk : q.kept with
  | nil => exact ⟨[], [], by simp, .inl ⟨rfl, rfl, rfl⟩⟩
  | cons last before =>
    cases q.trailing with
    | true => exact ⟨(last :: before).reverse, [], by simp, .inr ⟨by simp, .inl ⟨rfl, rfl, rfl⟩⟩⟩
    | false =>
      exact ⟨before.reverse, last, by simp, .inr ⟨by simp, .inr ⟨rfl, by simp⟩⟩⟩

theorem Partial.isAbsolute_rooted_ending (q : Partial) : isAbsolute (rooted q.ending) = true := by
  obtain ⟨before, last, he, -⟩ := q.ending_eq_snoc
  rw [he]
  exact isAbsolute_rooted_snoc before last

/-- The names of a normal form are the names it is made of. -/
theorem names_rooted_ending {q : Partial} (h : q.Fine) :
    names (rooted q.ending) = if q.kept = [] then [] else q.ending := by
  have hfields := fields_rooted h.slash_not_mem_ending
  have hfilter : (([] : Bytes) :: q.ending).filter (!·.isEmpty) = q.kept.reverse := by
    have hkept : q.kept.reverse.filter (!·.isEmpty) = q.kept.reverse := by
      refine List.filter_eq_self.2 fun n hn => ?_
      simpa using (h n (List.mem_reverse.1 hn)).ne_nil
    rw [List.filter_cons_of_neg (by simp), Partial.ending, List.filter_append, hkept]
    split <;> simp
  have hends : endsInSlash (rooted q.ending) = (q.trailing || q.kept.isEmpty) := by
    obtain ⟨before, last, he, hcases⟩ := q.ending_eq_snoc
    have hlast := h.slash_not_mem_ending last (by rw [he]; simp)
    rw [he, endsInSlash_rooted_snoc hlast]
    rcases hcases with ⟨hk, -, rfl⟩ | ⟨hk, ⟨ht, -, rfl⟩ | ⟨ht, hk'⟩⟩
    · simp [hk]
    · simp [ht]
    · have hne := (h last (List.mem_reverse.1 (by rw [hk']; simp))).ne_nil
      rw [ht, Bool.false_or, List.isEmpty_eq_false_iff.2 hne, List.isEmpty_eq_false_iff.2 hk]
  unfold names
  rw [hfields, hfilter, hends]
  cases hk : q.kept with
  | nil => simp
  | cons last before => cases ht : q.trailing <;> simp [Partial.ending, hk, ht]

/-- Taking the normal form again changes nothing. -/
theorem normal_of_isNormal {p : Bytes} (h : Normal p) : normal p = p := by
  obtain ⟨q, hq, rfl⟩ := h
  rw [normal_eq_rooted q.isAbsolute_rooted_ending, names_rooted_ending hq]
  by_cases hk : q.kept = []
  · rw [if_pos hk]
    simp [Partial.ending, hk]
  · rw [if_neg hk, Partial.foldl_ending hq hk]

theorem mem_normal {p : Bytes} (h : isAbsolute p = true) {b : UInt8} (hb : b ∈ normal p) :
    b = slash ∨ b ∈ p := by
  rw [normal_eq_rooted h] at hb
  rcases mem_rooted hb with hb | ⟨n, hn, hb⟩
  · exact .inl hb
  · rcases List.mem_append.1 hn with hn | hn
    · rcases Partial.kept_foldl n (List.mem_reverse.1 hn) with hn | hn
      · exact .inr (mem_of_mem_names hn hb)
      · cases hn
    · split at hn
      · rw [List.mem_singleton.1 hn] at hb
        cases hb
      · cases hn

theorem dropSlashes_append_slash {ns : List Bytes} (h : ∀ n ∈ ns, n ≠ [] ∧ slash ∉ n) :
    dropSlashes (rooted ns ++ [slash]) = rooted ns := by
  unfold dropSlashes
  rw [List.reverse_append, List.reverse_singleton, List.singleton_append,
    List.dropWhile_cons_of_pos (by simp)]
  rcases List.eq_nil_or_concat ns with rfl | ⟨before, last, rfl⟩
  · rfl
  · obtain ⟨hne, hs⟩ := h last (by simp)
    rw [List.concat_eq_append, rooted_snoc]
    cases hr : last.reverse with
    | nil => exact absurd (List.reverse_eq_nil_iff.1 hr) hne
    | cons b r =>
      have hb : b ≠ slash := by
        intro e
        exact hs (List.mem_reverse.1 (by rw [hr, e]; exact List.mem_cons_self))
      rw [List.reverse_append, List.reverse_cons, hr, List.append_assoc, List.cons_append,
        List.dropWhile_cons_of_neg (by simpa using hb)]
      rw [← List.cons_append, ← hr]
      simp

/-- The parent of a path leaves its last name out. -/
theorem parent_rooted_snoc {ns : List Bytes} {last : Bytes} (h : ∀ n ∈ ns, n ≠ [] ∧ slash ∉ n)
    (hl : slash ∉ last) :
    parent (rooted (ns ++ [last])) = if ns = [] then [slash] else rooted ns := by
  have habs := isAbsolute_rooted_snoc ns last
  have hrest : (if endsInSlash (rooted (ns ++ [last])) then dropSlashes (rooted (ns ++ [last]))
      else dropSlashes ((rooted (ns ++ [last])).reverse.dropWhile (· ≠ slash)).reverse) =
      rooted ns := by
    rw [endsInSlash_rooted_snoc hl]
    cases last with
    | nil =>
      rw [if_pos (by rfl), rooted_snoc]
      exact dropSlashes_append_slash h
    | cons b r =>
      have hdrop : (rooted (ns ++ [b :: r])).reverse.dropWhile (· ≠ slash) =
          slash :: (rooted ns).reverse := by
        rw [rooted_snoc, List.reverse_append, List.reverse_cons, List.append_assoc,
          List.dropWhile_append_of_pos fun c hc => ?_]
        · simp
        · have hc : c ∈ b :: r := List.mem_reverse.1 hc
          simpa using fun e : c = slash => hl (e ▸ hc)
      rw [hdrop, List.reverse_cons, List.reverse_reverse]
      exact dropSlashes_append_slash h
  unfold parent
  rw [hrest, habs]
  by_cases hroot : ns = [] ∧ last = []
  · obtain ⟨rfl, rfl⟩ := hroot
    rfl
  · have hnames : (names (rooted (ns ++ [last]))).isEmpty = false := by
      have hslash : ∀ n ∈ ns ++ [last], slash ∉ n := by
        intro n hn
        rcases List.mem_append.1 hn with hn | hn
        · exact (h n hn).2
        · rw [List.mem_singleton.1 hn]
          exact hl
      have hmem : ∃ n ∈ ns ++ [last], n ≠ [] := by
        cases ns with
        | nil => exact ⟨last, by simp, fun e => hroot ⟨rfl, e⟩⟩
        | cons n ns => exact ⟨n, by simp, (h n List.mem_cons_self).1⟩
      obtain ⟨n, hn, hne⟩ := hmem
      exact names_ne_nil hslash hn hne
    rw [hnames]
    cases ns with
    | nil => rfl
    | cons n ns => rfl

theorem mem_join {p q : Bytes} {b : UInt8} (h : b ∈ join p q) : b ∈ p ∨ b ∈ q ∨ b = slash := by
  unfold join at h
  split at h
  · exact .inr (.inl h)
  · split at h
    · rcases List.mem_append.1 h with h | h
      · exact .inl h
      · exact .inr (.inl h)
    · rcases List.mem_append.1 h with h | h
      · exact .inl h
      · rcases List.mem_cons.1 h with h | h
        · exact .inr (.inr h)
        · exact .inr (.inl h)

variable {cwd : Bytes} (h : isAbsolute cwd = true)
include h

theorem isAbsolute_join (p : Bytes) : isAbsolute (join cwd p) = true := by
  have hc : cwd.isEmpty = false := by
    cases cwd with
    | nil => cases h
    | cons _ _ => rfl
  unfold join
  rw [hc, Bool.false_or]
  split
  · assumption
  · split <;> cases cwd <;> simp_all [isAbsolute]

omit h in
theorem join_of_isAbsolute {p : Bytes} (hp : isAbsolute p = true) : join cwd p = p := by
  simp [join, hp]

theorem isNormal_normalize {p : Bytes} (hp : p ≠ []) : Normal (normalize cwd p) := by
  rw [normalize, List.isEmpty_eq_false_iff.2 hp]
  exact isNormal_normal (isAbsolute_join h p)

omit h in
theorem Normal.isAbsolute {p : Bytes} (hp : Normal p) : Path.isAbsolute p = true := by
  obtain ⟨q, -, rfl⟩ := hp
  exact q.isAbsolute_rooted_ending

omit h in
theorem normalize_of_isNormal {p : Bytes} (hp : Normal p) : normalize cwd p = p := by
  have habs := hp.isAbsolute
  have hne : p.isEmpty = false := by
    cases p with
    | nil => cases habs
    | cons _ _ => rfl
  rw [normalize, hne, join_of_isAbsolute habs]
  exact normal_of_isNormal hp

/-- The identity of a file is its own identity. -/
theorem normalize_normalize (p : Bytes) : normalize cwd (normalize cwd p) = normalize cwd p := by
  by_cases hp : p = []
  · rw [hp]
    rfl
  · exact normalize_of_isNormal (isNormal_normalize h hp)

end Path

end JsxPresence
