import JsxPresence.Proofs.Bytes
import JsxPresence.Proofs.Lockstep
import JsxPresence.Proofs.Specifier

namespace JsxPresence

namespace Session

open Reference

/-- The paths that the analysis of a file may come to. -/
inductive Reached (env : Environment) (file : ParsedFile) : Bytes → Prop
  | self : Reached env file file.path
  | specifier {p q s : Bytes} {f : ParsedFile} : Reached env file p → shelf env file p = .ok f →
    s ∈ f.outline.specifiers → Specifier.find? env s (directory env p) = some q →
    Reached env file q
  | namesake {p o m c : Bytes} {g : ParsedFile} : Reached env file p → Reached env file o →
    shelf env file o = .ok g → m ∈ g.memberNames env.options → c ∈ namesakes env p m →
    env.files.isFile c = true → Reached env file (env.normalize c)

variable {env : Environment} {file f : ParsedFile} {s t : Session} {path : Bytes}

/-- Every other path that may be come to is the normal form of one at which there is a file. -/
theorem Reached.namesFile (h : Reached env file path) (hne : path ≠ file.path) :
    Specifier.NamesFile env path := by
  cases h with
  | self => exact absurd rfl hne
  | specifier _ _ _ hfound => exact Specifier.find?_namesFile hfound
  | namesake _ _ _ _ _ hc => exact ⟨_, hc, rfl⟩

/-- All paths are among the given ones: the analyzed one, and those that specifiers and members of
these lead to. -/
def closedUnder (env : Environment) (file : ParsedFile) (paths : List Bytes) : Bool :=
  paths.contains file.path && paths.all fun p => (shelf env file p).toOption.all fun f =>
    (f.outline.specifiers.all fun s =>
      (Specifier.find? env s (directory env p)).all (paths.contains ·)) &&
    paths.all fun q => (f.memberNames env.options).all fun m =>
      ((namesakes env q m).filter env.files.isFile).all fun c => paths.contains (env.normalize c)

theorem Reached.mem_of_closedUnder {paths : List Bytes} (hc : closedUnder env file paths = true)
    (h : Reached env file path) : path ∈ paths := by
  simp only [closedUnder, Bool.and_eq_true, List.contains_iff_mem, List.all_eq_true] at hc
  obtain ⟨hself, hstep⟩ := hc
  induction h with
  | self => exact hself
  | @specifier p q s f hp hf hs hq ih =>
    have hall := hstep p ih
    simp only [hf, Except.toOption, Option.all_some, Bool.and_eq_true, List.all_eq_true] at hall
    simpa [hq] using hall.1 s hs
  | @namesake p o m c g hp ho hg hm hmem hfile ihp iho =>
    have hall := hstep o iho
    simp only [hg, Except.toOption, Option.all_some, Bool.and_eq_true, List.all_eq_true] at hall
    simpa using hall.2 p ihp m hm c (List.mem_filter.2 ⟨hmem, hfile⟩)

/-- The directory of a file that can be read has no line break in its name. -/
theorem newline_not_mem_directory (hc : Path.isAbsolute env.files.cwd = true)
    (hl : env.files.OneLine) {path text : Bytes} (h0 : 0 ∉ env.normalize path)
    (hr : env.files.read? (env.normalize path) = some text) : byte '\n' ∉ directory env path := by
  have hp : path ≠ [] := by
    rintro rfl
    cases hr
  obtain ⟨node, hfind, -⟩ := Option.map_eq_some_iff.1 hr
  exact FileSystem.newline_not_mem_parent hl (Path.isNormal_normalize hc hp) h0 hfind

/-- What the analysis of a file may come across. -/
def reach (env : Environment) (file : ParsedFile) : Scope where
  opens := Reached env file
  members m := ∃ o g, Reached env file o ∧ shelf env file o = .ok g ∧ m ∈ g.memberNames env.options

/-- The answer to a specifier of a file that may be come to. -/
def Traced (env : Environment) (file : ParsedFile) (key : Bytes) (found : Option Bytes) : Prop :=
  ∃ p f specifier, Reached env file p ∧ shelf env file p = .ok f ∧
    specifier ∈ f.outline.specifiers ∧ key = Workspace.key (directory env p) specifier ∧
    found = Specifier.find? env specifier (directory env p)

theorem Traced.reached {key q : Bytes} (h : Traced env file key (some q)) :
    Reached env file q := by
  obtain ⟨p, f, specifier, hp, hf, hm, -, hfound⟩ := h
  exact .specifier hp hf hm hfound.symm

/-- The session has read files of the project only, and remembers where it has read what. -/
structure Tracked (env : Environment) (file : ParsedFile) (s : Session) : Prop where
  holds : s.Holds env file
  own : s.files.get? file.path = some file
  resolved : ∀ key found, s.workspace.resolved.get? key = some found → Traced env file key found
  usages : ∀ key id, s.usages.get? key = some id → (reach env file).AdmitsId id
  sorted : s.readFiles.Pairwise (Bytes.less · · = true)
  reached : ∀ p ∈ s.readFiles, Reached env file p ∧ p ≠ file.path

/-- A session that knows the same has read the same. -/
theorem Tracked.of_quiet (h : s.Tracked env file) (hq : Quiet env s t)
    (hf : t.files.get? file.path = s.files.get? file.path) (hr : t.readFiles = s.readFiles) :
    t.Tracked env file where
  holds := h.holds.of_quiet hq
  own := hf.trans h.own
  resolved := by
    rw [hq.resolved]
    exact h.resolved
  usages := by
    rw [hq.usages]
    exact h.usages
  sorted := by
    rw [hr]
    exact h.sorted
  reached := by
    rw [hr]
    exact h.reached

/-- What has been searched for has no part in it. -/
theorem Tracked.searching (h : s.Tracked env file) (verdicts : Table Bool) (active : List Bytes)
    (visits : Nat) :
    Tracked env file { s with verdicts := verdicts, active := active, visits := visits } :=
  ⟨⟨h.holds.library, h.holds.symbols⟩, h.own, h.resolved, h.usages, h.sorted, h.reached⟩

theorem store_files (path text : Bytes) (s : Session) {q : Bytes} (hq : q ≠ path) :
    (store path text s).2.files.get? q = s.files.get? q := by
  unfold store
  cases Outline.parse ⟨path, text⟩ with
  | error errors => rfl
  | ok outline => exact Table.get?_insert_ne _ hq _

theorem store_readFiles (path text : Bytes) (s : Session) :
    (store path text s).2.readFiles = s.readFiles := by
  unfold store
  cases Outline.parse ⟨path, text⟩ <;> rfl

/-- The four ways to come by a file: it is known, it is known to fail, there is nothing to read, or
it is read now. -/
inductive Loading (env : Environment) (path : Bytes) (s : Session) : Prop
  | known {g : ParsedFile} : s.files.get? path = some g → Loading env path s
  | failed {message : Bytes} : s.files.get? path = none → s.failures.get? path = some message →
    Loading env path s
  | missing : s.files.get? path = none → s.failures.get? path = none →
    env.files.read? path = none → Loading env path s
  | read {text : Bytes} : s.files.get? path = none → s.failures.get? path = none →
    env.files.read? path = some text → Loading env path s

theorem loading (env : Environment) (path : Bytes) (s : Session) : Loading env path s := by
  cases hf : s.files.get? path with
  | some g => exact .known hf
  | none =>
    cases hm : s.failures.get? path with
    | some message => exact .failed hf hm
    | none =>
      cases hr : env.files.read? path with
      | none => exact .missing hf hm hr
      | some text => exact .read hf hm hr

theorem load_known {g : ParsedFile} (hf : s.files.get? path = some g) :
    load env path s = (.ok g, s) := by
  unfold load
  simp only [SessionM.bind_apply, SessionM.get_apply, hf]
  rfl

theorem load_failed {message : Bytes} (hf : s.files.get? path = none)
    (hm : s.failures.get? path = some message) : load env path s = (.error message, s) := by
  unfold load
  simp only [SessionM.bind_apply, SessionM.get_apply, hf, hm]
  rfl

theorem load_missing (hf : s.files.get? path = none) (hm : s.failures.get? path = none)
    (hr : env.files.read? path = none) : load env path s = fail path (cannotOpen path) s := by
  unfold load
  simp only [SessionM.bind_apply, SessionM.get_apply, hf, hm, hr]

theorem load_read (hf : s.files.get? path = none) (hm : s.failures.get? path = none)
    {text : Bytes} (hr : env.files.read? path = some text) :
    load env path s =
      store path text { s with readFiles := Bytes.insertSorted path s.readFiles } := by
  unfold load
  simp only [SessionM.bind_apply, SessionM.get_apply, hf, hm, hr, SessionM.modify_apply]

/-- A session that reads a file it may come to keeps track of it. -/
theorem Tracked.load (h : s.Tracked env file) (hp : Reached env file path) :
    (load env path s).2.Tracked env file := by
  obtain ⟨-, hq⟩ := load_quiet env path s
  rcases loading env path s with hf | ⟨hf, hm⟩ | ⟨hf, hm, hr⟩ | ⟨hf, hm, hr⟩
  · rw [load_known hf]
    exact h
  · rw [load_failed hf hm]
    exact h
  · rw [load_missing hf hm hr] at hq ⊢
    exact h.of_quiet hq rfl rfl
  · rename_i text
    have hne : path ≠ file.path := by
      rintro rfl
      rw [h.own] at hf
      cases hf
    have hown := store_files path text
      { s with readFiles := Bytes.insertSorted path s.readFiles } (Ne.symm hne)
    have hread := store_readFiles path text
      { s with readFiles := Bytes.insertSorted path s.readFiles }
    rw [load_read hf hm hr] at hq ⊢
    refine ⟨h.holds.of_quiet hq, hown.trans h.own, ?_, ?_, ?_, ?_⟩
    · rw [hq.resolved]
      exact h.resolved
    · rw [hq.usages]
      exact h.usages
    · rw [hread]
      exact Bytes.pairwise_insertSorted path h.sorted
    · rw [hread]
      intro p hmem
      rcases Bytes.mem_insertSorted.1 hmem with rfl | hmem
      · exact ⟨hp, hne⟩
      · exact h.reached p hmem

end Session

end JsxPresence
