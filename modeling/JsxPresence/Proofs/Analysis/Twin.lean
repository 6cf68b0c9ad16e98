import JsxPresence.Proofs.Analysis.Failure
import JsxPresence.Proofs.Analysis.Lockstep

namespace JsxPresence

namespace Session

variable {env : Environment} {file file' f g : ParsedFile} {s t : Session}

/-- Two sessions with the same memory, which take two versions of one file for it. -/
structure Twin (env : Environment) (file file' : ParsedFile) (s t : Session) : Prop where
  left : s.Holds env file
  right : t.Holds env file'
  resolved : t.workspace.resolved = s.workspace.resolved
  usages : t.usages = s.usages
  verdicts : t.verdicts = s.verdicts
  active : t.active = s.active

theorem Twin.of_quiet {s' t' : Session} (h : Twin env file file' s t) (hs : Quiet env s s')
    (ht : Quiet env t t') : Twin env file file' s' t' where
  left := h.left.of_quiet hs
  right := h.right.of_quiet ht
  resolved := by rw [ht.resolved, hs.resolved, h.resolved]
  usages := by rw [ht.usages, hs.usages, h.usages]
  verdicts := by rw [ht.verdicts, hs.verdicts, h.verdicts]
  active := by rw [ht.active, hs.active, h.active]

/-- The two versions of the file, or another file of the project. -/
def Versions (env : Environment) (file file' f g : ParsedFile) : Prop :=
  (f = file ∧ g = file') ∨ (f = g ∧ f.path ≠ file.path ∧ disk env f.path = .ok f)

theorem Versions.shelf_left (h : Versions env file file' f g) : shelf env file f.path = .ok f := by
  rcases h with ⟨rfl, rfl⟩ | ⟨-, hne, hf⟩
  · exact shelf_self env f
  · rw [shelf, if_neg hne, hf]

theorem Versions.shelf_right (ha : file.Alike file') (h : Versions env file file' f g) :
    shelf env file' g.path = .ok g := by
  rcases h with ⟨rfl, rfl⟩ | ⟨rfl, hne, hf⟩
  · exact shelf_self env g
  · rw [shelf, if_neg (by rwa [ha.path]), hf]

/-- What a specifier leads to depends on what is remembered of specifiers only. -/
theorem resolve_congr {w w' : Workspace} (h : w'.resolved = w.resolved) (specifier path : Bytes) :
    (w'.resolve env specifier path).1 = (w.resolve env specifier path).1 ∧
      (w'.resolve env specifier path).2.resolved = (w.resolve env specifier path).2.resolved := by
  cases he : Specifier.isExternal env.options specifier with
  | true =>
    obtain ⟨h1, h2⟩ := resolve_external he path w
    obtain ⟨k1, k2⟩ := resolve_external he path w'
    exact ⟨by rw [k1, h1], by rw [k2, h2, h]⟩
  | false =>
    cases hg : w.resolved.get? (Workspace.key (directory env path) specifier) with
    | some found =>
      rw [resolve_remembered he hg, resolve_remembered he (by rw [h, hg])]
      exact ⟨rfl, h⟩
    | none =>
      obtain ⟨h1, h2⟩ := resolve_new he hg
      obtain ⟨k1, k2⟩ := resolve_new (w := w') he (by rw [h, hg])
      exact ⟨by rw [k1, h1], by rw [k2, h2, h]⟩

theorem twin_lookups (ha : file.Alike file') :
    Lookups env env (.strict (Twin env file file')) .all (Versions env file file') where
  options := rfl
  normalize _ := rfl
  isFile _ := rfl
  alike := by
    rintro f g (⟨rfl, rfl⟩ | ⟨rfl, -⟩)
    · exact ha
    · exact .refl f
  opens _ _ _ := trivial
  members _ _ _ _ _ := trivial
  namesake _ _ _ _ _ _ _ := trivial
  note _ _ _ _ _ _ := .strict fun s t h =>
    ⟨rfl, h.of_quiet (note_quiet env _ _ _ s) (note_quiet env _ _ _ t)⟩
  diagnose _ _ _ := .strict fun s t h =>
    ⟨rfl, h.of_quiet (diagnose_quiet env _ _ _ s) (diagnose_quiet env _ _ _ t)⟩
  load path _ := .strict fun s t h => by
    obtain ⟨h1, hq⟩ := load_quiet env path s
    obtain ⟨k1, kq⟩ := load_quiet env path t
    refine ⟨?_, h.of_quiet hq kq⟩
    rw [h1, k1, h.left.library, h.right.library]
    unfold shelf
    rw [ha.path]
    by_cases hpath : path = file.path
    · rw [if_pos hpath, if_pos hpath]
      exact .ok (.inl ⟨rfl, rfl⟩) hpath.symm
    · rw [if_neg hpath, if_neg hpath]
      cases hd : disk env path with
      | error message => exact .error message
      | ok f =>
        have hf := (disk_proper env hd).1
        exact .ok (.inr ⟨rfl, by rwa [hf], by rw [hf, hd]⟩) hf
  symbolsOf f g hp := .strict fun s t h => by
    obtain ⟨h1, h2, h3⟩ := h.left.symbolsOf hp.shelf_left
    obtain ⟨k1, k2, k3⟩ := h.right.symbolsOf (hp.shelf_right ha)
    refine ⟨⟨h1, k1⟩, h2, k2, ?_, ?_, ?_, ?_⟩ <;> rw [h3, k3]
    · exact h.resolved
    · exact h.usages
    · exact h.verdicts
    · exact h.active
  resolve f g hp specifier _ := .strict fun s t h => by
    have hpath : g.path = f.path := by
      rcases hp with ⟨rfl, rfl⟩ | ⟨rfl, -⟩
      · exact ha.path
      · rfl
    obtain ⟨h1, h2⟩ := @resolve_congr env _ _ h.resolved specifier f.path
    rw [hpath]
    exact ⟨⟨h1.symm, fun _ _ => trivial⟩, ⟨h.left.library, h.left.symbols⟩,
      ⟨h.right.library, h.right.symbols⟩, h2, h.usages, h.verdicts, h.active⟩

theorem twin_keepsUsages : Reference.KeepsUsages (.strict (Twin env file file')) .all where
  same _ _ h := h.usages
  admits _ _ _ _ _ _ := fun _ _ _ => trivial
  admits_lost _ hl := hl.elim
  keep key id _ := .modify (fun _ _ h => ⟨⟨h.left.library, h.left.symbols⟩,
    ⟨h.right.library, h.right.symbols⟩, h.resolved,
    congrArg (Table.insert · key id) h.usages, h.verdicts, h.active⟩) fun _ hl => hl

theorem twin_searches (ha : file.Alike file') (hread : file.Read) :
    Searches env env (.strict (Twin env file file')) .all (Versions env file file') where
  toLookups := twin_lookups ha
  read := by
    rintro f g (⟨rfl, rfl⟩ | ⟨rfl, -, hf⟩)
    · exact hread
    · exact (disk_proper env hf).2
  usage _ _ hp _ _ := Reference.usage_lockstep (twin_lookups ha) twin_keepsUsages hp
  verdicts _ _ h := h.verdicts
  active _ _ h := h.active
  keep change := .modify (fun _ _ h => ⟨⟨h.left.library, h.left.symbols⟩,
    ⟨h.right.library, h.right.symbols⟩, h.resolved, h.usages, congrArg change h.verdicts,
    h.active⟩) fun _ hl => hl
  enter change := .modify (fun _ _ h => ⟨⟨h.left.library, h.left.symbols⟩,
    ⟨h.right.library, h.right.symbols⟩, h.resolved, h.usages, h.verdicts,
    congrArg change h.active⟩) fun _ hl => hl
  count := .modify (fun _ _ h => ⟨⟨h.left.library, h.left.symbols⟩,
    ⟨h.right.library, h.right.symbols⟩, h.resolved, h.usages, h.verdicts, h.active⟩) fun _ hl => hl

end Session

namespace Analysis

open Session

variable {env : Environment} {file file' : ParsedFile} {path text text' : Bytes}

/-- Two versions of a file are taken up alike. -/
theorem opened_twin (h : parsed? env path text = some file)
    (h' : parsed? env path text' = some file') {w w' : Workspace}
    (hw : w'.resolved = w.resolved) :
    Twin env file file' (opened env path text w) (opened env path text' w') where
  left := opened_holds h w
  right := opened_holds h' w'
  resolved := by
    rw [opened_eq h, opened_eq h']
    exact hw
  usages := by rw [opened_eq h, opened_eq h']; rfl
  verdicts := by rw [opened_eq h, opened_eq h']; rfl
  active := by rw [opened_eq h, opened_eq h']; rfl

/-- Two versions of a file that bind, export and render the same names get the same answers. -/
theorem progress_twin (ha : file.Alike file') (hread : file.Read) {s t : Session}
    (h : Twin env file file' s t) : progress env file' t = progress env file s := by
  have hsearch := @twin_searches env file file' ha hread
  have hp : Versions env file file' file file' := .inl ⟨rfl, rfl⟩
  obtain ⟨-, h1⟩ := (hsearch.symbolsOf hp).of_strict h
  have h2 := h1.of_quiet (find_quiet env env.options file _) (find_quiet env env.options file' _)
  have h3 := h2.of_quiet (diagnoseMarkers_quiet env env.options file _)
    (diagnoseMarkers_quiet env env.options file' _)
  have hother : ∀ ⦃d e⦄, Versions env file file' d e → d.path ≠ file.path → d = e := by
    rintro d e (⟨rfl, -⟩ | ⟨rfl, -⟩) hne
    · exact absurd rfl hne
    · rfl
  have hsame := (answerUsages_lockstep hsearch hp trivial hother ha.usages
    (Presence.askable hsearch.toMeanings hp) 0 (Progress.plain_start _)).of_strict h3
  exact hsame.1.1.symm

/-- Whether there is an analysis, and with which edits, depends on what is remembered of specifiers
only. -/
theorem run_fst_congr (path : Bytes) (text? : Option Bytes) {w w' : Workspace}
    (hw : w'.resolved = w.resolved) :
    (run env path text? w').1 = (run env path text? w).1 ∨
      ∃ a a' text, (run env path text? w).1 = .ok (a, text) ∧
        (run env path text? w').1 = .ok (a', text) ∧ a'.file = a.file ∧ a'.edits = a.edits := by
  by_cases hnone : ∀ text, givenText? env path text? = some text → parsed? env path text = none
  · exact .inl (run_fst_of_unparsed hnone w' w)
  push Not at hnone
  obtain ⟨text, hg, hp⟩ := hnone
  obtain ⟨file, hp⟩ := Option.ne_none_iff_exists'.1 hp
  have hk := opened_knowsSymbols hp w
  have hk' := opened_knowsSymbols hp w'
  have hplanned : planned env file (opened env path text w') =
      planned env file (opened env path text w) := by
    unfold planned
    rw [progress_twin (.refl file) (read_of_parsed? hp).1 (opened_twin hp hp hw)]
  rw [run_of_parsed hg hp, run_of_parsed hg hp]
  cases hc : Edit.check file.source.length (planned env file (opened env path text w)) with
  | some error =>
    rw [ofFile_of_check_eq_some hk hc, ofFile_of_check_eq_some hk' (by rw [hplanned, hc])]
    exact .inl rfl
  | none =>
    obtain ⟨a, ha, he, -⟩ := ofFile_of_check_eq_none hk hc
    obtain ⟨a', ha', he', -⟩ := ofFile_of_check_eq_none hk' (by rw [hplanned, hc])
    refine .inr ⟨a, a', text, congrArg (Except.map (·, text)) ha,
      congrArg (Except.map (·, text)) ha', ?_, ?_⟩
    · rw [file_of_ofFile hk ha, file_of_ofFile hk' ha']
    · rw [he, he', hplanned]

theorem transform_fst_congr (path : Bytes) (text? : Option Bytes) {w w' : Workspace}
    (hw : w'.resolved = w.resolved) :
    (transform env path text? w').1 = (transform env path text? w).1 := by
  rw [transform_fst, transform_fst]
  obtain heq | ⟨a, a', text, ha, ha', hfile, hedits⟩ := @run_fst_congr env path text? _ _ hw
  · rw [heq]
  · rw [ha, ha']
    change a'.applied text = a.applied text
    unfold applied
    rw [hfile, hedits]

theorem analyze_eq_error_congr (path : Bytes) (text? : Option Bytes) {w w' : Workspace}
    (hw : w'.resolved = w.resolved) (failure : Failure) :
    (analyze env path text? w').1 = .error failure ↔
      (analyze env path text? w).1 = .error failure := by
  rw [analyze_fst, analyze_fst]
  obtain heq | ⟨a, a', text, ha, ha', -, -⟩ := @run_fst_congr env path text? _ _ hw
  · rw [heq]
  · rw [ha, ha']
    exact iff_of_false nofun nofun

end Analysis

end JsxPresence
