import JsxPresence.Analysis
import JsxPresence.Proofs.Edit.Plan
import JsxPresence.Proofs.Session

namespace JsxPresence

namespace Session

/-- What has been worked out about the file itself is true of it. -/
def KnowsSymbols (s : Session) (file : ParsedFile) : Prop :=
  ∀ symbols, s.symbols.get? file.path = some symbols → symbols = Symbols.ofOutline file.outline

theorem symbolsOf_eq {s : Session} {file : ParsedFile} (h : s.KnowsSymbols file) :
    (symbolsOf file s).1 = Symbols.ofOutline file.outline := by
  unfold symbolsOf
  simp only [SessionM.bind_apply, SessionM.get_apply]
  cases hg : s.symbols.get? file.path with
  | some symbols => exact h symbols hg
  | none => rfl

/-- Taking a text as a file gives its outline, or says what is wrong with it. -/
theorem insert_start (w : Workspace) (path text : Bytes) :
    (∃ errors, Outline.parse ⟨path, text⟩ = .error errors ∧
      (insert path text (start w)).1 = .error (syntaxMessage ⟨path, text⟩ errors)) ∨
    ∃ outline, Outline.parse ⟨path, text⟩ = .ok outline ∧
      (insert path text (start w)).1 = .ok ⟨path, ⟨path, text⟩, outline⟩ ∧
      (insert path text (start w)).2.symbols = .empty := by
  cases hp : Outline.parse ⟨path, text⟩ with
  | error errors =>
    refine .inl ⟨errors, rfl, ?_⟩
    simp only [insert, store, SessionM.bind_apply, hp]
    rfl
  | ok outline =>
    refine .inr ⟨outline, rfl, ?_⟩
    simp only [insert, store, SessionM.bind_apply, hp]
    exact ⟨rfl, rfl⟩

end Session

namespace Analysis

/-- The session in which the usages of a file are gone through. -/
def scanned (env : Environment) (file : ParsedFile) (s : Session) : Session :=
  (Marker.diagnose env.options file (Marker.find env.options file (Session.symbolsOf file s).2).2).2

/-- What is known when all usages of a file are gone through. -/
def progress (env : Environment) (file : ParsedFile) (s : Session) : Progress :=
  ((Symbols.ofOutline file.outline).usages.zipIdx.foldlM (answerUsage env file) .start
    (scanned env file s)).1

/-- The edits that the analysis of a file comes to. -/
def planned (env : Environment) (file : ParsedFile) (s : Session) : List Edit :=
  Plan.edits env.options file.source (Symbols.ofOutline file.outline)
    (Marker.all env.options file) (progress env file s).injections

variable {env : Environment} {file : ParsedFile} {s : Session}

theorem ofFile_of_check_eq_some (h : s.KnowsSymbols file) {error : EditError}
    (hc : Edit.check file.source.length (planned env file s) = some error) :
    (ofFile env file s).1 = .error ⟨.badEdits, file.path, error.message⟩ := by
  unfold planned progress scanned at hc
  unfold ofFile
  simp only [SessionM.bind_apply, Session.symbolsOf_eq h]
  erw [hc]
  rfl

theorem ofFile_of_check_eq_none (h : s.KnowsSymbols file)
    (hc : Edit.check file.source.length (planned env file s) = none) :
    ∃ a, (ofFile env file s).1 = .ok a ∧ a.edits = planned env file s ∧
      a.hasComponent = (progress env file s).hasComponent ∧
      a.dependencies = (ofFile env file s).2.readFiles := by
  unfold planned progress scanned at *
  unfold ofFile
  simp only [SessionM.bind_apply, Session.symbolsOf_eq h]
  erw [hc]
  exact ⟨_, rfl, rfl, rfl, rfl⟩

theorem file_of_ofFile (h : s.KnowsSymbols file) {a : Analysis}
    (ha : (ofFile env file s).1 = .ok a) : a.file = file.path := by
  cases hc : Edit.check file.source.length (planned env file s) with
  | some error =>
    rw [ofFile_of_check_eq_some h hc] at ha
    cases ha
  | none =>
    unfold planned progress scanned at hc
    unfold ofFile at ha
    simp only [SessionM.bind_apply, Session.symbolsOf_eq h] at ha
    erw [hc] at ha
    cases ha
    rfl

/-- A file that can be read as a program is analyzed unless a parameter falls inside a rewritten
call. -/
theorem ofFile_iff (h : s.KnowsSymbols file) (hf : file.Read) (hs : file.source.content.Short) :
    (Plan.Torn env.options file → ∃ message,
      (ofFile env file s).1 = .error ⟨.badEdits, file.path, message⟩) ∧
    (¬Plan.Torn env.options file → ∃ a, (ofFile env file s).1 = .ok a ∧
      Edit.check file.source.length a.edits = none) := by
  have hiff : Edit.check file.source.length (planned env file s) = none ↔
      ¬Plan.Torn env.options file := Plan.check_edits_eq_none_iff hf hs _
  cases hc : Edit.check file.source.length (planned env file s) with
  | some error =>
    refine ⟨fun _ => ⟨_, ofFile_of_check_eq_some h hc⟩, fun ht => ?_⟩
    rw [← hiff, hc] at ht
    cases ht
  | none =>
    refine ⟨fun ht => absurd ht (hiff.1 hc), fun _ => ?_⟩
    obtain ⟨a, ha, he, -⟩ := ofFile_of_check_eq_none h hc
    exact ⟨a, ha, by rw [he]; exact hc⟩

/-- The text that an analysis looks at. -/
def givenText? (env : Environment) (path : Bytes) (text? : Option Bytes) : Option Bytes :=
  text?.or (env.files.read? (env.normalize path))

/-- The file that a text is taken as, if it is a program. -/
def parsed? (env : Environment) (path text : Bytes) : Option ParsedFile :=
  match Outline.parse ⟨env.normalize path, text⟩ with
  | .error _ => none
  | .ok outline => some ⟨env.normalize path, ⟨env.normalize path, text⟩, outline⟩

theorem read_of_parsed? {path text : Bytes} (h : parsed? env path text = some file) :
    file.Read ∧ file.path = env.normalize path ∧ file.source.content = text := by
  unfold parsed? at h
  split at h
  · cases h
  · rename_i hp
    cases h
    exact ⟨hp, rfl, rfl⟩

/-- Why there is no analysis. -/
def Fails (env : Environment) (path : Bytes) (text? : Option Bytes) : FailureKind → Prop
  | .unreadable => givenText? env path text? = none
  | .unparseable => ∃ text, givenText? env path text? = some text ∧ parsed? env path text = none
  | .badEdits => ∃ text file, givenText? env path text? = some text ∧
      parsed? env path text = some file ∧ Plan.Torn env.options file

/-- The session in which a text is analyzed. -/
def opened (env : Environment) (path text : Bytes) (w : Workspace) : Session :=
  (Session.insert (env.normalize path) text (Session.start w)).2

theorem opened_knowsSymbols {path text : Bytes} (h : parsed? env path text = some file)
    (w : Workspace) : (opened env path text w).KnowsSymbols file := by
  intro symbols hget
  rcases Session.insert_start w (env.normalize path) text with ⟨errors, hp, -⟩ | ⟨_, -, -, hsym⟩
  · simp [parsed?, hp] at h
  · rw [opened, hsym] at hget
    cases hget

/-- The session in which a text is analyzed first knows nothing but that text. -/
theorem opened_eq {path text : Bytes} (h : parsed? env path text = some file) (w : Workspace) :
    opened env path text w =
      { Session.start w with
        workspace := w.note .trace (utf8 "parse") (Session.summary file.path file.outline)
        files := Table.empty.insert file.path file } := by
  unfold parsed? at h
  split at h
  · cases h
  · rename_i hp
    cases h
    simp only [opened, Session.insert, Session.store, SessionM.bind_apply, hp]
    rfl

theorem library_opened {path text : Bytes} (h : parsed? env path text = some file)
    (w : Workspace) : (opened env path text w).library env = Session.shelf env file := by
  funext q
  rw [opened_eq h]
  unfold Session.library Session.shelf
  by_cases hq : q = file.path
  · rw [if_pos hq, hq]
    simp only [Table.get?_insert_self]
  · rw [if_neg hq]
    simp only [Table.get?_insert_ne _ hq]
    rfl

theorem opened_holds {path text : Bytes} (h : parsed? env path text = some file) (w : Workspace) :
    (opened env path text w).Holds env file where
  library := library_opened h w
  symbols _ _ _ symbols hget := by
    rw [opened_eq h] at hget
    cases hget

theorem run_of_none {path : Bytes} {text? : Option Bytes} (h : givenText? env path text? = none)
    (w : Workspace) :
    (run env path text? w).1 =
      .error ⟨.unreadable, env.normalize path, Session.cannotOpen (env.normalize path)⟩ := by
  unfold givenText? at h
  simp only [run, h]

theorem run_of_syntaxErrors {path text : Bytes} {text? : Option Bytes} {errors : List SyntaxError}
    (h : givenText? env path text? = some text)
    (hp : Outline.parse ⟨env.normalize path, text⟩ = .error errors) (w : Workspace) :
    (run env path text? w).1 = .error ⟨.unparseable, env.normalize path,
      Session.syntaxMessage ⟨env.normalize path, text⟩ errors⟩ := by
  unfold givenText? at h
  rcases Session.insert_start w (env.normalize path) text with ⟨errors', he, hi⟩ | ⟨_, hok, -⟩
  · rw [hp] at he
    cases he
    simp only [run, h, StateT.run, ofText, SessionM.bind_apply]
    rw [hi]
    rfl
  · rw [hp] at hok
    cases hok

theorem run_of_unparsed {path text : Bytes} {text? : Option Bytes}
    (h : givenText? env path text? = some text) (hp : parsed? env path text = none)
    (w : Workspace) :
    ∃ message, (run env path text? w).1 = .error ⟨.unparseable, env.normalize path, message⟩ := by
  cases he : Outline.parse ⟨env.normalize path, text⟩ with
  | error errors => exact ⟨_, run_of_syntaxErrors h he w⟩
  | ok outline => simp [parsed?, he] at hp

theorem run_eq_of_parsed {path text : Bytes} {text? : Option Bytes}
    (h : givenText? env path text? = some text) (hp : parsed? env path text = some file)
    (w : Workspace) :
    run env path text? w = ((ofFile env file (opened env path text w)).1.map (·, text),
      (ofFile env file (opened env path text w)).2.workspace) := by
  unfold givenText? at h
  rcases Session.insert_start w (env.normalize path) text with
    ⟨errors, he, -⟩ | ⟨outline, hok, hi, -⟩
  · simp [parsed?, he] at hp
  · simp only [parsed?, hok] at hp
    cases hp
    simp only [run, h, StateT.run, ofText, SessionM.bind_apply]
    rw [hi]
    unfold opened
    generalize Session.insert (env.normalize path) text (Session.start w) = x
    dsimp only
    generalize ofFile env _ x.2 = y
    obtain ⟨answer, session⟩ := y
    rfl

theorem run_of_parsed {path text : Bytes} {text? : Option Bytes}
    (h : givenText? env path text? = some text) (hp : parsed? env path text = some file)
    (w : Workspace) :
    (run env path text? w).1 = (ofFile env file (opened env path text w)).1.map (·, text) := by
  rw [run_eq_of_parsed h hp]

theorem run_snd_of_parsed {path text : Bytes} {text? : Option Bytes}
    (h : givenText? env path text? = some text) (hp : parsed? env path text = some file)
    (w : Workspace) :
    (run env path text? w).2 = (ofFile env file (opened env path text w)).2.workspace := by
  rw [run_eq_of_parsed h hp]

/-- Without a program, the answer does not depend on what is remembered. -/
theorem run_fst_of_unparsed {path : Bytes} {text? : Option Bytes}
    (h : ∀ text, givenText? env path text? = some text → parsed? env path text = none)
    (w w' : Workspace) : (run env path text? w).1 = (run env path text? w').1 := by
  cases hg : givenText? env path text? with
  | none => rw [run_of_none hg, run_of_none hg]
  | some text =>
    cases he : Outline.parse ⟨env.normalize path, text⟩ with
    | error errors => rw [run_of_syntaxErrors hg he, run_of_syntaxErrors hg he]
    | ok outline =>
      have hp := h text hg
      simp [parsed?, he] at hp

/-- A text that is no program leaves alone what is remembered of specifiers. -/
theorem run_resolved_of_unparsed {path : Bytes} {text? : Option Bytes}
    (h : ∀ text, givenText? env path text? = some text → parsed? env path text = none)
    (w : Workspace) : (run env path text? w).2.resolved = w.resolved := by
  cases hg : givenText? env path text? with
  | none =>
    unfold givenText? at hg
    simp only [run, hg]
    rfl
  | some text =>
    have hp := h text hg
    unfold givenText? at hg
    unfold parsed? at hp
    split at hp
    · rename_i errors he
      simp only [run, hg, StateT.run, ofText, Session.insert, Session.store, SessionM.bind_apply, he]
      rfl
    · cases hp

theorem analyze_fst (path : Bytes) (text? : Option Bytes) (w : Workspace) :
    (analyze env path text? w).1 = (run env path text? w).1.map (·.1) := by
  unfold analyze
  obtain ⟨answer, w⟩ := run env path text? w
  rfl

theorem analyze_snd (path : Bytes) (text? : Option Bytes) (w : Workspace) :
    (analyze env path text? w).2 = (run env path text? w).2 := by
  unfold analyze
  obtain ⟨answer, w⟩ := run env path text? w
  rfl

theorem transform_fst (path : Bytes) (text? : Option Bytes) (w : Workspace) :
    (transform env path text? w).1 = (run env path text? w).1.bind fun x => x.1.applied x.2 := by
  unfold transform
  obtain ⟨answer, w⟩ := run env path text? w
  rfl

theorem transform_snd (path : Bytes) (text? : Option Bytes) (w : Workspace) :
    (transform env path text? w).2 = (run env path text? w).2 := by
  unfold transform
  obtain ⟨answer, w⟩ := run env path text? w
  rfl

/-- The four ways a run can go. -/
theorem run_cases (env : Environment) (path : Bytes) (text? : Option Bytes) (w : Workspace)
    (hs : ∀ text, givenText? env path text? = some text → text.Short) :
    (∃ kind, Fails env path text? kind ∧ ∃ message,
      (run env path text? w).1 = .error ⟨kind, env.normalize path, message⟩) ∨
    (∃ text file a, givenText? env path text? = some text ∧ parsed? env path text = some file ∧
      ¬Plan.Torn env.options file ∧ (run env path text? w).1 = .ok (a, text) ∧
      Edit.check text.length a.edits = none) := by
  cases hg : givenText? env path text? with
  | none => exact .inl ⟨.unreadable, hg, _, run_of_none hg w⟩
  | some text =>
    cases hp : parsed? env path text with
    | none => exact .inl ⟨.unparseable, ⟨text, hg, hp⟩, run_of_unparsed hg hp w⟩
    | some file =>
      obtain ⟨hread, hpath, htext⟩ := read_of_parsed? hp
      have hiff := @ofFile_iff env file _ (opened_knowsSymbols hp w) hread
        (by rw [htext]; exact hs text hg)
      rw [run_of_parsed hg hp]
      by_cases ht : Plan.Torn env.options file
      · obtain ⟨message, he⟩ := hiff.1 ht
        refine .inl ⟨.badEdits, ⟨text, file, hg, hp, ht⟩, message, ?_⟩
        rw [he, hpath]
        rfl
      · obtain ⟨a, ha, hc⟩ := hiff.2 ht
        refine .inr ⟨text, file, a, rfl, hp, ht, ?_, by rw [← htext]; exact hc⟩
        rw [ha]
        rfl

theorem Fails.unique {path : Bytes} {text? : Option Bytes} {j k : FailureKind}
    (hj : Fails env path text? j) (hk : Fails env path text? k) : j = k := by
  cases hg : givenText? env path text? with
  | none => cases j <;> cases k <;> simp_all [Fails]
  | some text =>
    cases hp : parsed? env path text <;> cases j <;> cases k <;> simp_all [Fails]

/-- An analysis fails, with or without its edits being made, for exactly one of three reasons, all
of them in the analyzed text: there is none, it is no program, or a parameter would be added inside
a rewritten call. -/
theorem fails_iff (env : Environment) (path : Bytes) (text? : Option Bytes) (w : Workspace)
    (hs : ∀ text, givenText? env path text? = some text → text.Short) (kind : FailureKind) :
    ((∃ failure, (analyze env path text? w).1 = .error failure ∧ failure.kind = kind) ↔
      Fails env path text? kind) ∧
    ((∃ failure, (transform env path text? w).1 = .error failure ∧ failure.kind = kind) ↔
      Fails env path text? kind) := by
  have hunique {k : FailureKind} (hk : Fails env path text? k) :
      k = kind ↔ Fails env path text? kind := ⟨fun h => h ▸ hk, fun h => hk.unique h⟩
  rw [analyze_fst, transform_fst]
  rcases run_cases env path text? w hs with
    ⟨k, hk, message, he⟩ | ⟨text, file, a, hg, hp, ht, ha, hc⟩
  · rw [he, ← hunique hk]
    simp [Except.map, Except.bind]
  · have hnot : ¬Fails env path text? kind := by
      cases kind <;> simp_all [Fails]
    obtain ⟨out, hout⟩ := Edit.apply_of_check hc
    have happ : a.applied text = .ok out := by simp [applied, hout, Except.mapError]
    rw [ha]
    simp [Except.map, Except.bind, hnot, happ]

/-- Looking ahead takes the slash behind the brace for the start of a regular expression that ends
in the comment, and finds the parentheses in the type arguments to be those of a function. -/
def tornText : Bytes :=
  utf8 "component$(<A b=\x7bc\x7d /> || isComponentPresent<A< /* / */ B>() => void>(X))"

/-- An empty project with the usual options. -/
def emptyProject : Environment := ⟨{}, .bare (utf8 "/proj")⟩

theorem tornText_short : tornText.Short := by
  unfold Bytes.Short
  decide +kernel

theorem fails_iff_tornText :
    tornText.Short ∧
    ((∃ failure, (analyze emptyProject (utf8 "/proj/a.tsx") (some tornText)
        (.start (.ofLevel .off))).1 = .error failure ∧ failure.kind = .badEdits) ↔
      Fails emptyProject (utf8 "/proj/a.tsx") (some tornText) .badEdits) ∧
    ((∃ failure, (transform emptyProject (utf8 "/proj/a.tsx") (some tornText)
        (.start (.ofLevel .off))).1 = .error failure ∧ failure.kind = .badEdits) ↔
      Fails emptyProject (utf8 "/proj/a.tsx") (some tornText) .badEdits) :=
  ⟨tornText_short, fails_iff emptyProject _ _ _
    (fun text h => by cases h; exact tornText_short) .badEdits⟩

theorem exists_torn : ∃ file, parsed? emptyProject (utf8 "/proj/a.tsx") tornText = some file ∧
    Plan.Torn {} file := by
  have h : (parsed? emptyProject (utf8 "/proj/a.tsx") tornText).any (fun file =>
      (Plan.callEdits {} [] (Plan.augmentations {} file)).any fun i => i.isInsertion &&
        (Plan.callEdits {} [] (Plan.augmentations {} file)).any (·.covers i.start)) = true := by
    decide +kernel
  obtain ⟨file, hp, hany⟩ := (Option.any_eq_true _ _).1 h
  obtain ⟨i, hi, hany⟩ := List.any_eq_true.1 hany
  obtain ⟨hins, hany⟩ := Bool.and_eq_true_iff.1 hany
  obtain ⟨r, hr, hc⟩ := List.any_eq_true.1 hany
  exact ⟨file, hp, i, List.mem_append_left _ hi, hins, r, List.mem_append_left _ hr, hc⟩

/-- A short text that is a program may have edits that overlap. -/
theorem parsed_text_with_badEdits :
    tornText.Short ∧ (parsed? emptyProject (utf8 "/proj/a.tsx") tornText).isSome = true ∧
    (∃ failure, (analyze emptyProject (utf8 "/proj/a.tsx") (some tornText)
      (.start (.ofLevel .off))).1 = .error failure ∧ failure.kind = .badEdits) ∧
    ∃ failure, (transform emptyProject (utf8 "/proj/a.tsx") (some tornText)
      (.start (.ofLevel .off))).1 = .error failure ∧ failure.kind = .badEdits := by
  obtain ⟨file, hp, ht⟩ := exists_torn
  obtain ⟨hread, -, htext⟩ := read_of_parsed? hp
  obtain ⟨message, he⟩ := (@ofFile_iff emptyProject file _
    (opened_knowsSymbols hp (.start (.ofLevel .off))) hread (htext ▸ tornText_short)).1 ht
  have hrun := @run_of_parsed emptyProject file _ _ (some tornText) rfl hp (.start (.ofLevel .off))
  rw [he] at hrun
  refine ⟨tornText_short, by rw [hp]; rfl, ?_, ?_⟩
  · rw [analyze_fst, hrun]
    exact ⟨_, rfl, rfl⟩
  · rw [transform_fst, hrun]
    exact ⟨_, rfl, rfl⟩

end Analysis

end JsxPresence
