import JsxPresence.Proofs.Path.Ancestors
import JsxPresence.Proofs.Session
import JsxPresence.Proofs.Specifier

namespace JsxPresence

/-- The normal form of a path to a file is the text of the file's place. -/
theorem FileSystem.normalize_eq_rooted {fs : FileSystem} (hcwd : Path.isAbsolute fs.cwd = true)
    {p : Bytes} (h0 : 0 ∉ p) (h : fs.isFile p = true) :
    ∃ place, fs.follow [] (fs.namesOf p) = some place ∧
      Path.normalize fs.cwd p = Path.rooted place := by
  obtain ⟨content, hfind⟩ := isFile_iff.1 h
  obtain ⟨he, place, hfollow, hnode⟩ := find?_eq_some hfind
  refine ⟨place, hfollow, ?_⟩
  have hp : p.isEmpty = false := by
    cases p with
    | nil => cases he
    | cons b p => rfl
  have hplace : place ≠ [] := by
    rintro rfl
    cases hnode
  rw [namesOf, takeWhile_ne_zero h0] at hfollow
  obtain ⟨trailing, hfold, -, hdirectory⟩ := foldl_of_follow hfollow .root
    (fun _ hn => Path.names_slash_not_mem hn) (b := false) (fun hf => by cases hf)
  have htrailing : trailing = false := by
    cases trailing with
    | false => rfl
    | true =>
      rw [hdirectory rfl] at hnode
      cases hnode
  rw [List.reverse_nil, htrailing] at hfold
  rw [Path.normalize, hp, if_neg Bool.false_ne_true,
    Path.normal_eq_rooted (Path.isAbsolute_join hcwd p), hfold]
  simp [Path.Partial.ending, hplace]

namespace Specifier

open Session (directory)

variable {env : Environment}

/-- The nearest directory at or above another that has the root marker. What is no directory but a
file does not count itself. -/
def IsRoot (env : Environment) (directory root : Bytes) : Prop :=
  Path.Nearest (fun d => env.files.isFile (Path.join d env.options.rootMarker) = true)
    (if env.files.isFile directory then Path.parent directory else directory) root

/-- Where the search for a specifier starts. -/
inductive IsBase (env : Environment) (s directory : Bytes) : Bytes → Prop
  | relative (hs : isRelative s = true) :
      IsBase env s directory (Path.normal (Path.join directory s))
  | aliased {rest root : Bytes} (hs : isRelative s = false)
      (hrest : s = env.options.aliasPrefix ++ rest) (hroot : IsRoot env directory root) :
      IsBase env s directory (Path.normal (if rest = [] then Path.join root env.options.sourceDir
        else Path.join (Path.join root env.options.sourceDir) rest))

/-- The files that a base may stand for: itself, with an extension, or an index if it is a
directory. -/
def candidates (env : Environment) (base : Bytes) : List Bytes :=
  base :: env.options.extensions.map (base ++ ·) ++
    if env.files.isDirectory base then indexCandidates env.options base else []

/-- The first of some paths that is a file. -/
def IsFirstFile (env : Environment) (paths : List Bytes) (c : Bytes) : Prop :=
  ∃ before after, paths = before ++ c :: after ∧ env.files.isFile c = true ∧
    ∀ d ∈ before, env.files.isFile d = false

theorem firstFile?_eq_some_iff {paths : List Bytes} {path : Bytes} :
    firstFile? env paths = some path ↔ ∃ c, IsFirstFile env paths c ∧ path = env.normalize c := by
  simp only [firstFile?, Option.map_eq_some_iff, List.find?_eq_some_iff_append, IsFirstFile]
  constructor
  · rintro ⟨c, ⟨hc, before, after, hpaths, hbefore⟩, rfl⟩
    exact ⟨c, ⟨before, after, hpaths, hc, by simpa using hbefore⟩, rfl⟩
  · rintro ⟨c, ⟨before, after, hpaths, hc, hbefore⟩, rfl⟩
    exact ⟨c, ⟨hc, before, after, hpaths, by simpa using hbefore⟩, rfl⟩

theorem exists_isFirstFile {paths : List Bytes} {c : Bytes} (hmem : c ∈ paths)
    (hc : env.files.isFile c = true) : ∃ d, IsFirstFile env paths d := by
  obtain ⟨d, hd⟩ : ∃ d, paths.find? env.files.isFile = some d := by
    rw [← Option.isSome_iff_exists, List.find?_isSome]
    exact ⟨c, hmem, hc⟩
  have hfirst : firstFile? env paths = some (env.normalize d) := by simp [firstFile?, hd]
  obtain ⟨e, he, -⟩ := firstFile?_eq_some_iff.1 hfirst
  exact ⟨e, he⟩

theorem IsFirstFile.mem {paths : List Bytes} {c : Bytes} (h : IsFirstFile env paths c) :
    c ∈ paths ∧ env.files.isFile c = true := by
  obtain ⟨before, after, rfl, hc, -⟩ := h
  exact ⟨by simp, hc⟩

/-- A base is probed by going through its candidates. -/
theorem probe?_eq (base : Bytes) : probe? env base = firstFile? env (candidates env base) := by
  unfold probe? candidates firstFile?
  rw [List.find?_append]
  cases hfind : (base :: env.options.extensions.map (base ++ ·)).find? env.files.isFile with
  | some c => rfl
  | none =>
    have hbase : ¬env.files.isFile base = true := by
      simpa using List.find?_eq_none.1 hfind base List.mem_cons_self
    rw [Option.map_none, Option.none_or, directoryIndex?, if_neg hbase]
    by_cases hd : env.files.isDirectory base = true
    · rw [if_pos hd, if_pos hd, firstFile?]
    · rw [if_neg hd, if_neg hd]
      rfl

theorem isStem_directory (hcwd : Path.isAbsolute env.files.cwd = true) (path : Bytes) :
    Path.IsStem (directory env path) := by
  by_cases hp : path = []
  · rw [hp]
    exact .inl rfl
  · exact Path.isStem_parent_of_isNormal (Path.isNormal_normalize hcwd hp)

theorem normalize_of_isStem {p : Bytes} (h : Path.IsStem p) : env.normalize p = p := by
  rcases h with rfl | ⟨ns, hns, rfl⟩
  · rfl
  · exact Path.normalize_of_isNormal (Path.isNormal_stem hns)

theorem projectRoot?_eq_some_iff {d root : Bytes} (hd : Path.IsStem d) :
    projectRoot? env d = some root ↔ IsRoot env d root := by
  have hstart : Path.IsStem (if env.files.isFile d then Path.parent d else d) := by
    split
    · exact Path.isStem_parent hd
    · exact hd
  unfold projectRoot? IsRoot
  rw [normalize_of_isStem hd]
  exact Path.find?_ancestors hstart _ root

theorem base?_eq_some_iff {s d base : Bytes} (hd : Path.IsStem d)
    (hs : isExternal env.options s = false) : base? env s d = some base ↔ IsBase env s d base := by
  unfold base?
  cases hrel : isRelative s with
  | true =>
    rw [if_pos rfl, Option.some.injEq]
    constructor
    · rintro rfl
      exact .relative hrel
    · intro h
      cases h with
      | relative _ => rfl
      | aliased hno _ _ =>
        rw [hrel] at hno
        cases hno
  | false =>
    have halias : isAlias env.options s = true := by simpa [isExternal, hrel] using hs
    obtain ⟨rest, rfl⟩ : env.options.aliasPrefix <+: s := by
      simp only [isAlias, Bool.and_eq_true, List.isPrefixOf_iff_prefix] at halias
      exact halias.2
    rw [if_neg Bool.false_ne_true, Option.bind_eq_bind, Option.bind_eq_some_iff,
      List.drop_left]
    simp only [projectRoot?_eq_some_iff hd, List.isEmpty_iff]
    constructor
    · rintro ⟨root, hroot, hbase⟩
      cases hbase
      exact .aliased hrel rfl hroot
    · intro h
      cases h with
      | relative hyes =>
        rw [hrel] at hyes
        cases hyes
      | aliased _ hrest hroot =>
        obtain rfl := List.append_cancel_left hrest
        exact ⟨_, hroot, rfl⟩

/-- What a specifier that is not external is found to be in a directory. -/
theorem find?_eq_some_iff {s d path : Bytes} (hd : Path.IsStem d)
    (hs : isExternal env.options s = false) :
    find? env s d = some path ↔
      ∃ base c, IsBase env s d base ∧ IsFirstFile env (candidates env base) c ∧
        path = env.normalize c := by
  simp only [find?, Option.bind_eq_bind, Option.bind_eq_some_iff, base?_eq_some_iff hd hs,
    probe?_eq, firstFile?_eq_some_iff]
  constructor
  · rintro ⟨base, hbase, c, hc, hpath⟩
    exact ⟨base, c, hbase, hc, hpath⟩
  · rintro ⟨base, c, hbase, hc, hpath⟩
    exact ⟨base, hbase, c, hc, hpath⟩

end Specifier

namespace Workspace

open Session (directory targetOf)
open Specifier (IsBase IsFirstFile candidates isRelative isAlias)

variable {env : Environment}

/-- Asks for some specifiers, each with the file that it stands in. -/
def askAll (env : Environment) (questions : List (Bytes × Bytes)) (w : Workspace) : Workspace :=
  questions.foldl (fun w q => (w.resolve env q.1 q.2).2) w

/-- All that is remembered was the answer to one of the questions. -/
def Remembers (env : Environment) (questions : List (Bytes × Bytes)) (w : Workspace) : Prop :=
  ∀ k found, w.resolved.get? k = some found → ∃ q ∈ questions,
    Specifier.isExternal env.options q.1 = false ∧ k = key (directory env q.2) q.1 ∧
      found = Specifier.find? env q.1 (directory env q.2)

theorem Remembers.resolve {questions : List (Bytes × Bytes)} {w : Workspace}
    (h : w.Remembers env questions) (s importer : Bytes) :
    (w.resolve env s importer).2.Remembers env (questions ++ [(s, importer)]) := by
  have hmore : w.Remembers env (questions ++ [(s, importer)]) := by
    intro k found hget
    obtain ⟨q, hq, hrest⟩ := h k found hget
    exact ⟨q, List.mem_append_left _ hq, hrest⟩
  cases hs : Specifier.isExternal env.options s with
  | true =>
    intro k found hget
    rw [(Session.resolve_external hs importer w).2] at hget
    exact hmore k found hget
  | false =>
    cases hget : w.resolved.get? (key (directory env importer) s) with
    | some found =>
      rw [Session.resolve_remembered hs hget]
      exact hmore
    | none =>
      intro k found hfound
      rw [(Session.resolve_new hs hget).2] at hfound
      by_cases hk : k = key (directory env importer) s
      · rw [hk, Table.get?_insert_self, Option.some.injEq] at hfound
        exact ⟨(s, importer), by simp, hs, hk, hfound.symm⟩
      · rw [Table.get?_insert_ne _ hk] at hfound
        exact hmore k found hfound

theorem remembers_askAll {asked : List (Bytes × Bytes)} {w : Workspace}
    (h : w.Remembers env asked) (questions : List (Bytes × Bytes)) :
    (w.askAll env questions).Remembers env (asked ++ questions) := by
  induction questions generalizing asked w with
  | nil => simpa [askAll] using h
  | cons q questions ih => simpa [askAll] using ih (h.resolve q.1 q.2)

/-- The answer to a question, after others. -/
def answerAfter (env : Environment) (journal : Log.Journal) (questions : List (Bytes × Bytes))
    (s importer : Bytes) : Except Specifier.Failure Bytes :=
  (((start journal).askAll env questions).resolve env s importer).1

/-- Earlier questions under the key of a new one had the answer that the new one should have. -/
def Unconfused (env : Environment) (questions : List (Bytes × Bytes)) (s importer : Bytes) : Prop :=
  ∀ q ∈ questions, Specifier.isExternal env.options q.1 = false →
    key (directory env q.2) q.1 = key (directory env importer) s →
    Specifier.find? env q.1 (directory env q.2) = Specifier.find? env s (directory env importer)

theorem answerAfter_eq {journal : Log.Journal} {questions : List (Bytes × Bytes)}
    {s importer : Bytes} (h : Unconfused env questions s importer) :
    answerAfter env journal questions s importer = targetOf env s importer := by
  have hstart : (start journal).Remembers env [] := by
    intro k found hget
    cases hget
  have hremembers := remembers_askAll hstart questions
  rw [List.nil_append] at hremembers
  unfold answerAfter
  cases hs : Specifier.isExternal env.options s with
  | true => simp [Session.resolve_external hs, targetOf, Session.target, hs]
  | false =>
    cases hget : ((start journal).askAll env questions).resolved.get?
        (key (directory env importer) s) with
    | some found =>
      obtain ⟨q, hq, hext, hkey, rfl⟩ := hremembers _ _ hget
      rw [Session.resolve_remembered hs hget, h q hq hext hkey.symm]
      rfl
    | none => exact (Session.resolve_new hs hget).1

theorem targetOf_eq_external_iff {s importer : Bytes} :
    targetOf env s importer = .error .external ↔
      isRelative s = false ∧ isAlias env.options s = false := by
  unfold targetOf Session.target
  cases hs : Specifier.isExternal env.options s with
  | true => simpa [Specifier.isExternal] using hs
  | false =>
    have hnot : ¬(isRelative s = false ∧ isAlias env.options s = false) := by
      simpa [Specifier.isExternal] using hs
    cases Specifier.find? env s (directory env importer) <;> simp [hnot]

theorem targetOf_eq_ok_iff {s importer path : Bytes} :
    targetOf env s importer = .ok path ↔
      Specifier.isExternal env.options s = false ∧
        Specifier.find? env s (directory env importer) = some path := by
  unfold targetOf Session.target
  cases hs : Specifier.isExternal env.options s with
  | true => simp
  | false => cases Specifier.find? env s (directory env importer) <;> simp

/-- A specifier is external if it is neither relative nor an alias. For any other there is an answer
exactly if one of the candidates of its base is a file, and it is the normal form of the first such
candidate: an absolute path, the same for all that lead to the file's place without a zero byte. -/
theorem answerAfter_first (hcwd : Path.isAbsolute env.files.cwd = true) (journal : Log.Journal)
    {questions : List (Bytes × Bytes)} {s importer : Bytes}
    (h : Unconfused env questions s importer) :
    (answerAfter env journal questions s importer = .error .external ↔
      isRelative s = false ∧ isAlias env.options s = false) ∧
    (isRelative s = true ∨ isAlias env.options s = true →
      ((∃ path, answerAfter env journal questions s importer = .ok path) ↔
        ∃ base c, IsBase env s (directory env importer) base ∧ c ∈ candidates env base ∧
          env.files.isFile c = true)) ∧
    ∀ path, answerAfter env journal questions s importer = .ok path →
      Path.isAbsolute path = true ∧ env.normalize path = path ∧
        ∃ base c, IsBase env s (directory env importer) base ∧
          IsFirstFile env (candidates env base) c ∧ path = env.normalize c ∧
          (0 ∉ c → ∃ place, env.files.follow [] (env.files.namesOf c) = some place ∧
            path = Path.rooted place) := by
  have hstem := Specifier.isStem_directory hcwd importer
  rw [answerAfter_eq h]
  simp only [targetOf_eq_ok_iff]
  refine ⟨targetOf_eq_external_iff, fun hs => ?_, fun path hpath => ?_⟩
  · have hext : Specifier.isExternal env.options s = false := by
      rcases hs with hs | hs <;> simp [Specifier.isExternal, hs]
    simp only [hext, true_and, Specifier.find?_eq_some_iff hstem hext]
    constructor
    · rintro ⟨path, base, c, hbase, hfirst, -⟩
      exact ⟨base, c, hbase, hfirst.mem⟩
    · rintro ⟨base, c, hbase, hmem, hc⟩
      obtain ⟨d, hd⟩ := Specifier.exists_isFirstFile hmem hc
      exact ⟨_, base, d, hbase, hd, rfl⟩
  · obtain ⟨base, c, hbase, hfirst, rfl⟩ := (Specifier.find?_eq_some_iff hstem hpath.1).1 hpath.2
    have hc := hfirst.mem.2
    have hne : c ≠ [] := by
      rintro rfl
      cases hc
    have hnormal := Path.isNormal_normalize hcwd hne
    exact ⟨hnormal.isAbsolute, Path.normalize_of_isNormal hnormal, base, c, hbase, hfirst, rfl,
      fun h0 => FileSystem.normalize_eq_rooted hcwd h0 hc⟩

/-- A project with a directory that has an index. -/
def indexed : Environment where
  options := {}
  files := ((FileSystem.bare (utf8 "/proj")).install (utf8 "/proj/package.json") []).install
    (utf8 "/proj/src/lib/index.ts") []

theorem answerAfter_first_indexed :
    Path.isAbsolute indexed.files.cwd = true ∧
      Unconfused indexed [(utf8 "./lib", utf8 "src/a.ts")] (utf8 "~/lib") (utf8 "src/deep/b.ts") ∧
      answerAfter indexed (.ofLevel .off) [(utf8 "./lib", utf8 "src/a.ts")] (utf8 "~/lib")
        (utf8 "src/deep/b.ts") = .ok (utf8 "/proj/src/lib/index.ts") ∧
      ∃ base c, IsBase indexed (utf8 "~/lib") (directory indexed (utf8 "src/deep/b.ts")) base ∧
        IsFirstFile indexed (candidates indexed base) c ∧
        utf8 "/proj/src/lib/index.ts" = indexed.normalize c := by
  have hcwd : Path.isAbsolute indexed.files.cwd = true := by decide
  have hu : Unconfused indexed [(utf8 "./lib", utf8 "src/a.ts")] (utf8 "~/lib")
      (utf8 "src/deep/b.ts") := by
    unfold Unconfused
    decide +kernel
  have hanswer : answerAfter indexed (.ofLevel .off) [(utf8 "./lib", utf8 "src/a.ts")]
      (utf8 "~/lib") (utf8 "src/deep/b.ts") = .ok (utf8 "/proj/src/lib/index.ts") := by
    decide +kernel
  obtain ⟨-, -, base, c, hbase, hfirst, hpath, -⟩ :=
    (answerAfter_first hcwd (.ofLevel .off) hu).2.2 _ hanswer
  exact ⟨hcwd, hu, hanswer, base, c, hbase, hfirst, hpath⟩

/-- Two files whose paths are a directory, a line break and a specifier in two ways. -/
def crossed : Environment where
  options := {}
  files := ((FileSystem.bare (utf8 "/proj")).install (utf8 "/proj\n./q\\/t.tsx") []).install
    (utf8 "/proj/q\\\n./t.tsx") []

/-- One of them is answered for the other, whose own answer depends on what stands behind a zero
byte. -/
theorem answerAfter_crossed :
    (∃ base c, IsBase crossed (utf8 "./q\\\n./t") (directory crossed (utf8 "a.tsx")) base ∧
      IsFirstFile crossed (candidates crossed base) c ∧
      answerAfter crossed (.ofLevel .off) [(utf8 "./t", utf8 "/proj\n./q\\/a.tsx")]
        (utf8 "./q\\\n./t") (utf8 "a.tsx") = .ok (utf8 "/proj\n./q\\/t.tsx") ∧
      crossed.normalize c = utf8 "/proj/q\\\n./t.tsx") ∧
    answerAfter crossed (.ofLevel .off) [] (utf8 "./q\\\n./t") (utf8 "a.tsx") =
      .ok (utf8 "/proj/q\\\n./t.tsx") ∧
    answerAfter crossed (.ofLevel .off) [] (utf8 "./q\\\n./t.tsx\x00x") (utf8 "a.tsx") =
      .ok (utf8 "/proj/q\\\n./t.tsx\x00x") ∧
    crossed.files.namesOf (utf8 "/proj/q\\\n./t.tsx\x00x") =
      crossed.files.namesOf (utf8 "/proj/q\\\n./t.tsx") := by
  refine ⟨⟨_, utf8 "/proj/q\\\n./t.tsx", .relative (by decide +kernel),
    ⟨[utf8 "/proj/q\\\n./t"], _, rfl, by decide +kernel, by decide +kernel⟩, by decide +kernel,
    by decide +kernel⟩, by decide +kernel, by decide +kernel, by decide +kernel⟩

end Workspace

end JsxPresence
