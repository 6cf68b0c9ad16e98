import JsxPresence.Proofs.Analysis.Failure
import JsxPresence.Proofs.Analysis.Mirror

namespace JsxPresence.Analysis

open Session

variable {env env' : Environment} {file : ParsedFile} {path text : Bytes} {text? : Option Bytes}
  {right : Bytes → Option Bytes → Prop} {w w' : Workspace}

/-- Which file a text is taken as does not depend on what is in other files. -/
theorem parsed?_congr (h : env.SameTree env') (path text : Bytes) :
    parsed? env' path text = parsed? env path text := by
  simp only [parsed?, Specifier.normalize_congr h]

theorem givenText?_congr (h : env.SameTree env') (hown : text? = none →
    env'.files.read? (env.normalize path) = env.files.read? (env.normalize path)) :
    givenText? env' path text? = givenText? env path text? := by
  unfold givenText?
  rw [Specifier.normalize_congr h]
  cases text? with
  | none => rw [hown rfl]
  | some text => rfl

/-- A session that knows nothing but the analyzed text keeps track of it. -/
theorem opened_tracked (h : parsed? env path text = some file) (hw : w.resolved = .empty) :
    (opened env path text w).Tracked env file where
  holds := opened_holds h w
  own := by
    rw [opened_eq h]
    exact Table.get?_insert_self _ _ _
  resolved key found hget := by
    rw [opened_eq h] at hget
    change w.resolved.get? key = some found at hget
    rw [hw] at hget
    cases hget
  usages key id hget := by
    rw [opened_eq h] at hget
    cases hget
  sorted := by
    rw [opened_eq h]
    exact .nil
  reached p hp := by
    rw [opened_eq h] at hp
    cases hp

theorem opened_mirror (hs : env.SameTree env') (h : parsed? env path text = some file)
    (hw : w.resolved = .empty) (hw' : ∀ key found, w'.resolved.get? key = some found →
      right key found) :
    Mirror env env' file right (opened env path text w) (opened env' path text w') where
  tracked := opened_tracked h hw
  unchanged p hp := by
    rw [opened_eq h] at hp
    cases hp
  same := by
    rw [opened_eq h, opened_eq (by rw [parsed?_congr hs]; exact h)]
    exact ⟨_, _, rfl⟩
  covers := by
    rw [opened_eq h, opened_eq (by rw [parsed?_congr hs]; exact h)]
    refine ⟨fun key found hget => ?_, fun key found hget => .inr (hw' key found hget)⟩
    change w.resolved.get? key = some found at hget
    rw [hw] at hget
    cases hget

/-- The analysis of a parsed file goes on alike in both sessions. -/
theorem ofFile_mirror (hs : env.SameTree env') (hc : Path.isAbsolute env.files.cwd = true)
    (h : parsed? env path text = some file) (hright : Answers env file right) :
    Lockstep (mirror env env' file right) Eq (ofFile env file) (ofFile env' file) := by
  obtain ⟨hread, hpath, -⟩ := read_of_parsed? h
  have hown : Reached env file (env.normalize file.path) := by
    rw [hpath, Environment.normalize, Environment.normalize, Path.normalize_normalize hc]
    have hself : Reached env file file.path := .self
    rwa [hpath] at hself
  refine ofFile_lockstep (mirror_searches hs hread hright) ⟨rfl, shelf_self env file, .self⟩ hown
    (fun _ _ hp _ => hp.same) fun s t hi => ?_
  obtain ⟨w, n, rfl⟩ := hi.same
  exact ⟨rfl, rfl⟩

/-- What a successful analysis is the analysis of. -/
theorem of_analyze_eq_ok {a : Analysis} (h : (analyze env path text? w).1 = .ok a) :
    ∃ text file, givenText? env path text? = some text ∧ parsed? env path text = some file ∧
      (ofFile env file (opened env path text w)).1 = .ok a ∧
      a.dependencies = (ofFile env file (opened env path text w)).2.readFiles := by
  rw [analyze_fst] at h
  cases hg : givenText? env path text? with
  | none =>
    rw [run_of_none hg] at h
    cases h
  | some text =>
    cases hp : parsed? env path text with
    | none =>
      obtain ⟨message, he⟩ := run_of_unparsed hg hp w
      rw [he] at h
      cases h
    | some file =>
      have hknows := opened_knowsSymbols hp w
      rw [run_of_parsed hg hp] at h
      refine ⟨text, file, rfl, hp, ?_⟩
      cases hc : Edit.check file.source.length (planned env file (opened env path text w)) with
      | some error =>
        rw [ofFile_of_check_eq_some hknows hc] at h
        cases h
      | none =>
        obtain ⟨b, hb, -, -, hd⟩ := ofFile_of_check_eq_none hknows hc
        rw [hb] at h
        cases h
        exact ⟨hb, hd⟩

/-- An analysis depends on nothing but the analyzed text and its dependencies: those are other
files, in order, each of them the normal form of a path at which there is a file. -/
theorem analyze_of_dependencies {env env' : Environment} {path : Bytes} {text? : Option Bytes}
    {journal journal' : Log.Journal} {a : Analysis} (hr : env.files.Rooted)
    (hs : env.SameTree env') (ha : (analyze env path text? (.start journal)).1 = .ok a)
    (hown : text? = none → env'.files.read? (env.normalize path) =
      env.files.read? (env.normalize path))
    (hdeps : ∀ p ∈ a.dependencies, env'.files.read? p = env.files.read? p) :
    (analyze env' path text? (.start journal')).1 = .ok a ∧
    a.dependencies.Pairwise (Bytes.less · · = true) ∧ env.normalize path ∉ a.dependencies ∧
    ∀ p ∈ a.dependencies, ∃ c, env.files.isFile c = true ∧ p = env.normalize c ∧
      (0 ∉ c → env.files.isFile p = true) := by
  obtain ⟨text, file, hg, hp, hok, hd⟩ := of_analyze_eq_ok ha
  obtain ⟨-, hpath, -⟩ := read_of_parsed? hp
  have hright : Answers env file fun _ _ => False := fun _ _ _ _ _ _ _ _ hf => hf.elim
  have hstart : Mirror env env' file (fun _ _ => False) (opened env path text (.start journal))
      (opened env' path text (.start journal')) :=
    opened_mirror hs hp rfl fun _ _ hget => by cases hget
  have hmirror : (ofFile env' file (opened env' path text (.start journal'))).1 = .ok a ∧
      (ofFile env file (opened env path text (.start journal))).2.Tracked env file := by
    rcases (ofFile_mirror hs hr.absolute hp hright).step _ _ hstart with ⟨heq, hm⟩ | ⟨hl, -⟩
    · exact ⟨by rw [← heq, hok], hm.tracked⟩
    · obtain ⟨p, hmem, hne⟩ := hl.changed
      exact absurd (hdeps p (by rw [hd]; exact hmem)) hne
  obtain ⟨hok', htracked⟩ := hmirror
  refine ⟨?_, by rw [hd]; exact htracked.sorted, fun hmem => ?_, fun p hmem => ?_⟩
  · have hg' := (givenText?_congr hs hown).trans hg
    rw [analyze_fst, run_of_parsed hg' (by rw [parsed?_congr hs]; exact hp), hok']
    rfl
  · rw [hd, ← hpath] at hmem
    exact (htracked.reached _ hmem).2 rfl
  · rw [hd] at hmem
    obtain ⟨hreach, hne⟩ := htracked.reached p hmem
    obtain ⟨c, hc, rfl⟩ := hreach.namesFile hne
    exact ⟨c, hc, rfl, fun h0 => FileSystem.isFile_normalize hr h0 hc⟩

/-- A project of three files, the first of which imports the second. -/
def threeFiles (third : Bytes) : Environment where
  options := {}
  files := (((FileSystem.bare (utf8 "/proj")).install (utf8 "/proj/a.tsx")
    (utf8 "import \x7bBb\x7d from './b';<Bb/>")).install (utf8 "/proj/b.tsx")
    (utf8 "export const Bb = 1;")).install (utf8 "/proj/c.tsx") third

def importing : Analysis :=
  ⟨false, utf8 "/proj/a.tsx", [], [utf8 "/proj/b.tsx"], []⟩

theorem threeFiles_sameTree (third third' : Bytes) :
    (threeFiles third).SameTree (threeFiles third') :=
  ⟨rfl, .install _ _ third third'⟩

theorem analyze_of_dependencies_threeFiles :
    (analyze (threeFiles (utf8 "1")) (utf8 "a.tsx") none (.start (.ofLevel .off))).1 =
      .ok importing ∧
    (analyze (threeFiles (utf8 "<A/>")) (utf8 "a.tsx") none (.start (.ofLevel .off))).1 =
      .ok importing :=
  have ha : (analyze (threeFiles (utf8 "1")) (utf8 "a.tsx") none
      (.start (.ofLevel .off))).1 = .ok importing := by decide +kernel
  ⟨ha, (analyze_of_dependencies ⟨by decide +kernel, by decide +kernel⟩ (threeFiles_sameTree _ _) ha
    (fun _ => by decide +kernel) (by decide +kernel)).1⟩

/-- An extension with a zero byte, behind which the directory is left again. -/
def cutExtension : Environment where
  options := { extensions := [utf8 ".tsx" ++ 0 :: utf8 "/.."] }
  files := ((FileSystem.bare (utf8 "/proj")).install (utf8 "/proj/a.tsx")
    (utf8 "import \x7bBb\x7d from './b';<Bb/>")).install (utf8 "/proj/b.tsx")
    (utf8 "export const Bb = 1;")

/-- There the directory is a dependency: what is asked for ends at the zero byte, and is a file,
but its normal form does not. -/
theorem directory_among_dependencies :
    cutExtension.files.Rooted ∧
    ∃ a, (analyze cutExtension (utf8 "a.tsx") none (.start (.ofLevel .off))).1 = .ok a ∧
      utf8 "/proj/" ∈ a.dependencies ∧ cutExtension.files.isFile (utf8 "/proj/") = false := by
  refine ⟨⟨by decide +kernel, by decide +kernel⟩,
    ⟨false, utf8 "/proj/a.tsx", [], [utf8 "/proj/"], []⟩, ?_⟩
  decide +kernel

end JsxPresence.Analysis
