import JsxPresence.Session
import JsxPresence.Proofs.Marker

namespace JsxPresence

namespace SessionM

variable {α β : Type}

theorem bind_apply (x : SessionM α) (f : α → SessionM β) (s : Session) :
    (x >>= f) s = f (x s).1 (x s).2 := rfl

theorem pure_apply (a : α) (s : Session) : (pure a : SessionM α) s = (a, s) := rfl

theorem get_apply (s : Session) : (get : SessionM Session) s = (s, s) := rfl

theorem modify_apply (f : Session → Session) (s : Session) :
    (modify f : SessionM Unit) s = ((), f s) := rfl

end SessionM

/-- The specifier of an export of another file's names. -/
def ExportKind.specifier? : ExportKind → Option Bytes
  | .fromHere _ _ => none
  | .fromFile _ _ specifier | .allFrom specifier | .moduleFrom _ specifier => some specifier

/-- The specifiers of a file's imports and exports. -/
def Outline.specifiers (o : Outline) : List Bytes :=
  o.imports.map (·.specifier) ++ o.exports.filterMap (·.kind.specifier?)

namespace Session

/-- What reading a file from disk gives. -/
def disk (env : Environment) (path : Bytes) : Except Bytes ParsedFile :=
  match env.files.read? path with
  | none => .error (cannotOpen path)
  | some text =>
    match Outline.parse ⟨path, text⟩ with
    | .error errors => .error (syntaxMessage ⟨path, text⟩ errors)
    | .ok outline => .ok ⟨path, ⟨path, text⟩, outline⟩

/-- What a session gives as the file at a path. -/
def library (env : Environment) (s : Session) (path : Bytes) : Except Bytes ParsedFile :=
  match s.files.get? path, s.failures.get? path with
  | some file, _ => .ok file
  | none, some message => .error message
  | none, none => disk env path

/-- The second session knows the same as the first, except for what it has read meanwhile. -/
structure Quiet (env : Environment) (s t : Session) : Prop where
  library : t.library env = s.library env
  resolved : t.workspace.resolved = s.workspace.resolved
  symbols : t.symbols = s.symbols
  usages : t.usages = s.usages
  verdicts : t.verdicts = s.verdicts
  active : t.active = s.active

theorem Quiet.refl (env : Environment) (s : Session) : Quiet env s s := ⟨rfl, rfl, rfl, rfl, rfl, rfl⟩

theorem Quiet.trans {env : Environment} {s t u : Session} (h : Quiet env s t) (k : Quiet env t u) :
    Quiet env s u :=
  ⟨k.library.trans h.library, k.resolved.trans h.resolved, k.symbols.trans h.symbols,
    k.usages.trans h.usages, k.verdicts.trans h.verdicts, k.active.trans h.active⟩

theorem note_quiet (env : Environment) (level : Log.Level) (module message : Bytes) (s : Session) :
    Quiet env s (note level module message s).2 := ⟨rfl, rfl, rfl, rfl, rfl, rfl⟩

theorem diagnose_quiet (env : Environment) (kind : DiagnosticKind) (file message : Bytes)
    (s : Session) : Quiet env s (diagnose kind file message s).2 := ⟨rfl, rfl, rfl, rfl, rfl, rfl⟩

theorem forM_quiet {α : Type} {env : Environment} {f : α → SessionM Unit}
    (h : ∀ a s, Quiet env s (f a s).2) (l : List α) (s : Session) : Quiet env s (l.forM f s).2 := by
  induction l generalizing s with
  | nil => exact .refl env s
  | cons a l ih => exact (h a s).trans (ih _)

/-- The notes on what a file asks change nothing that is known. -/
theorem find_quiet (env : Environment) (options : Options) (file : ParsedFile) (s : Session) :
    Quiet env s (Marker.find options file s).2 := by
  refine forM_quiet (fun finding s => ?_) (Marker.scan options file) s
  cases finding <;> exact note_quiet env _ _ _ _

theorem diagnoseMarkers_quiet (env : Environment) (options : Options) (file : ParsedFile)
    (s : Session) : Quiet env s (Marker.diagnose options file s).2 := by
  refine forM_quiet (fun finding s => ?_) (Marker.scan options file) s
  cases finding
  · exact .refl env s
  · exact diagnose_quiet env _ _ _ _

private theorem library_insert_file {env : Environment} {s : Session} {path : Bytes}
    {file : ParsedFile} (h : s.library env path = .ok file) :
    ({ s with files := s.files.insert path file } : Session).library env = s.library env := by
  funext q
  by_cases hq : q = path
  · subst hq
    rw [h]
    simp [library, Table.get?_insert_self]
  · simp [library, Table.get?_insert_ne _ hq]

private theorem library_insert_failure {env : Environment} {s : Session} {path message : Bytes}
    (h : s.library env path = .error message) (hf : s.files.get? path = none) :
    ({ s with failures := s.failures.insert path message } : Session).library env =
      s.library env := by
  funext q
  by_cases hq : q = path
  · subst hq
    rw [h]
    simp [library, Table.get?_insert_self, hf]
  · simp [library, Table.get?_insert_ne _ hq]

/-- Reading a file gives what the session takes for it, and changes nothing else. -/
theorem load_quiet (env : Environment) (path : Bytes) (s : Session) :
    (load env path s).1 = s.library env path ∧ Quiet env s (load env path s).2 := by
  unfold load
  simp only [SessionM.bind_apply, SessionM.get_apply]
  cases hfile : s.files.get? path with
  | some file => exact ⟨by simp [library, hfile, SessionM.pure_apply], Quiet.refl env s⟩
  | none =>
    cases hfail : s.failures.get? path with
    | some message => exact ⟨by simp [library, hfile, hfail, SessionM.pure_apply], Quiet.refl env s⟩
    | none =>
      have hlib : s.library env path = disk env path := by simp [library, hfile, hfail]
      have failed {t : Session} {message : Bytes} (ht : Quiet env s t)
          (hdisk : disk env path = .error message) (hn : t.files.get? path = none) :
          (fail path message t).1 = s.library env path ∧ Quiet env s (fail path message t).2 := by
        refine ⟨by rw [hlib, hdisk]; rfl, ht.trans ⟨?_, rfl, rfl, rfl, rfl, rfl⟩⟩
        have hlt : t.library env path = .error message := by rw [ht.library, hlib, hdisk]
        exact library_insert_failure (s := (note .debug (utf8 "parse") message t).2) hlt hn
      dsimp only
      cases hread : env.files.read? path with
      | none => exact failed (Quiet.refl env s) (by simp [disk, hread]) hfile
      | some text =>
        simp only [SessionM.bind_apply, SessionM.modify_apply, store]
        have hq : Quiet env s { s with readFiles := Bytes.insertSorted path s.readFiles } :=
          ⟨rfl, rfl, rfl, rfl, rfl, rfl⟩
        cases hp : Outline.parse ⟨path, text⟩ with
        | error errors => exact failed hq (by simp [disk, hread, hp]) hfile
        | ok outline =>
          have hdisk : disk env path = .ok ⟨path, ⟨path, text⟩, outline⟩ := by
            simp [disk, hread, hp]
          refine ⟨by rw [hlib, hdisk]; rfl, ⟨?_, rfl, rfl, rfl, rfl, rfl⟩⟩
          exact library_insert_file (s := (note .trace (utf8 "parse") (summary path outline)
            { s with readFiles := Bytes.insertSorted path s.readFiles }).2)
            (show s.library env path = _ by rw [hlib, hdisk])

/-- The files of a library are read at their own paths. -/
def Proper (lib : Bytes → Except Bytes ParsedFile) : Prop :=
  ∀ ⦃path file⦄, lib path = .ok file → file.path = path ∧ file.Read

theorem disk_eq_ok {env : Environment} {path : Bytes} {file : ParsedFile}
    (h : disk env path = .ok file) :
    ∃ text, env.files.read? path = some text ∧ file.path = path ∧ file.source = ⟨path, text⟩ ∧
      Outline.parse ⟨path, text⟩ = .ok file.outline := by
  unfold disk at h
  split at h
  · cases h
  · rename_i text hread
    split at h
    · cases h
    · rename_i outline hp
      cases h
      exact ⟨text, hread, rfl, rfl, hp⟩

theorem disk_proper (env : Environment) : Proper (disk env) := by
  intro path file h
  obtain ⟨text, -, hpath, hsource, hp⟩ := disk_eq_ok h
  exact ⟨hpath, show Outline.parse file.source = _ by rw [hsource, hp]⟩

/-- The files of a project in which one is given. -/
def shelf (env : Environment) (file : ParsedFile) (path : Bytes) : Except Bytes ParsedFile :=
  if path = file.path then .ok file else disk env path

theorem shelf_self (env : Environment) (file : ParsedFile) : shelf env file file.path = .ok file :=
  if_pos rfl

theorem shelf_proper {env : Environment} {file : ParsedFile} (h : file.Read) :
    Proper (shelf env file) := by
  intro path f hf
  unfold shelf at hf
  by_cases hpath : path = file.path
  · rw [if_pos hpath] at hf
    cases hf
    exact ⟨hpath.symm, h⟩
  · rw [if_neg hpath] at hf
    exact disk_proper env hf

/-- The directory from which a file's specifiers start. -/
def directory (env : Environment) (path : Bytes) : Bytes := Path.parent (env.normalize path)

/-- Where two specifiers in files of the library are remembered under one key, they lead to the same
file. -/
def Unambiguous (env : Environment) (lib : Bytes → Except Bytes ParsedFile) : Prop :=
  ∀ ⦃p f q g⦄, lib p = .ok f → lib q = .ok g → ∀ s ∈ f.outline.specifiers,
    ∀ t ∈ g.outline.specifiers, Specifier.isExternal env.options s = false →
    Specifier.isExternal env.options t = false →
    Workspace.key (directory env p) s = Workspace.key (directory env q) t →
    Specifier.find? env s (directory env p) = Specifier.find? env t (directory env q)

/-- Specifiers on one line are never confused. -/
theorem unambiguous_of_newline_free {env : Environment} {lib : Bytes → Except Bytes ParsedFile}
    (h : ∀ p f, lib p = .ok f → ∀ s ∈ f.outline.specifiers, byte '\n' ∉ s) :
    Unambiguous env lib := by
  intro p f q g hf hg s hs t ht _ _ hk
  obtain ⟨hd, rfl⟩ := Bytes.append_sep_inj (h p f hf s hs) (h q g hg t ht) hk
  rw [hd]

/-- The session remembers nothing that is not so: about the files of a library, and about what paths
mean in them. -/
structure Coherent (env : Environment) (lib : Bytes → Except Bytes ParsedFile)
    (means : ParsedFile → List Bytes → Option ComponentId) (s : Session) : Prop where
  library : s.library env = lib
  resolved : ∀ ⦃p f⦄, lib p = .ok f → ∀ specifier ∈ f.outline.specifiers,
    Specifier.isExternal env.options specifier = false → ∀ found,
    s.workspace.resolved.get? (Workspace.key (directory env p) specifier) = some found →
    found = Specifier.find? env specifier (directory env p)
  symbols : ∀ ⦃p f⦄, lib p = .ok f → ∀ symbols, s.symbols.get? p = some symbols →
    symbols = Symbols.ofOutline f.outline
  usages : ∀ ⦃p f⦄, lib p = .ok f → ∀ path, Name.Spelled path → ∀ id,
    s.usages.get? (p ++ byte '\n' :: Name.join path) = some id → id = means f path

variable {env : Environment} {lib : Bytes → Except Bytes ParsedFile}
  {means : ParsedFile → List Bytes → Option ComponentId} {s t : Session}

theorem Coherent.of_quiet (h : s.Coherent env lib means) (hq : Quiet env s t) :
    t.Coherent env lib means where
  library := hq.library.trans h.library
  resolved := by
    rw [hq.resolved]
    exact h.resolved
  symbols := by
    rw [hq.symbols]
    exact h.symbols
  usages := by
    rw [hq.usages]
    exact h.usages

/-- From every coherent session the computation gives this answer; it leaves the session coherent
and does not touch the presence search. -/
def Gives {α : Type} (env : Environment) (lib : Bytes → Except Bytes ParsedFile)
    (means : ParsedFile → List Bytes → Option ComponentId) (x : SessionM α) (a : α) : Prop :=
  ∀ s : Session, s.Coherent env lib means → (x s).1 = a ∧ (x s).2.Coherent env lib means ∧
    (x s).2.verdicts = s.verdicts ∧ (x s).2.active = s.active

theorem Gives.of_quiet {α : Type} {x : SessionM α} {a : α}
    (h : ∀ s, s.Coherent env lib means → (x s).1 = a ∧ Quiet env s (x s).2) :
    Gives env lib means x a := by
  intro s hs
  obtain ⟨h1, hq⟩ := h s hs
  exact ⟨h1, hs.of_quiet hq, hq.verdicts, hq.active⟩

theorem diagnose_gives (kind : DiagnosticKind) (file message : Bytes) :
    Gives env lib means (diagnose kind file message) () :=
  .of_quiet fun s _ => ⟨rfl, diagnose_quiet env kind file message s⟩

theorem load_gives (path : Bytes) : Gives env lib means (load env path) (lib path) :=
  .of_quiet fun s hs => by
    obtain ⟨h1, hq⟩ := load_quiet env path s
    exact ⟨h1.trans (by rw [hs.library]), hq⟩

theorem symbolsOf_gives {file : ParsedFile} (hf : lib file.path = .ok file) :
    Gives env lib means (symbolsOf file) (Symbols.ofOutline file.outline) := by
  intro s hs
  unfold symbolsOf
  simp only [SessionM.bind_apply, SessionM.get_apply]
  cases hg : s.symbols.get? file.path with
  | some symbols => exact ⟨hs.symbols hf symbols hg, hs, rfl, rfl⟩
  | none =>
    refine ⟨rfl, ⟨hs.library, hs.resolved, fun p f hp symbols hg' => ?_, hs.usages⟩, rfl, rfl⟩
    change (s.symbols.insert file.path (Symbols.ofOutline file.outline)).get? p = _ at hg'
    by_cases hpath : p = file.path
    · subst hpath
      rw [Table.get?_insert_self] at hg'
      cases hg'
      rw [hf] at hp
      cases hp
      rfl
    · rw [Table.get?_insert_ne _ hpath] at hg'
      exact hs.symbols hp symbols hg'

/-- What a specifier in a file comes to, given what is found for it. -/
def target (env : Environment) (specifier path : Bytes) (found : Option Bytes) :
    Except Specifier.Failure Bytes :=
  if Specifier.isExternal env.options specifier then .error .external
  else
    match found with
    | some file => .ok file
    | none => .error (.notFound (directory env path))

/-- What a specifier in a file leads to, with nothing remembered. -/
def targetOf (env : Environment) (specifier path : Bytes) : Except Specifier.Failure Bytes :=
  target env specifier path (Specifier.find? env specifier (directory env path))

/-- A session stays coherent if it remembers where a specifier leads. -/
theorem Coherent.remember (hs : s.Coherent env lib means) (hu : Unambiguous env lib) {path : Bytes}
    {file : ParsedFile} (hf : lib path = .ok file) {specifier : Bytes}
    (hm : specifier ∈ file.outline.specifiers)
    (he : Specifier.isExternal env.options specifier = false) {w : Workspace}
    (hw : w.resolved = s.workspace.resolved.insert (Workspace.key (directory env path) specifier)
      (Specifier.find? env specifier (directory env path))) :
    Coherent env lib means { s with workspace := w } := by
  refine ⟨hs.library, fun p f hp sp hsp hex found hget => ?_, hs.symbols, hs.usages⟩
  simp only [hw] at hget
  by_cases hk : Workspace.key (directory env p) sp = Workspace.key (directory env path) specifier
  · rw [hk, Table.get?_insert_self] at hget
    cases hget
    exact hu hf hp specifier hm sp hsp he hex hk.symm
  · rw [Table.get?_insert_ne _ hk] at hget
    exact hs.resolved hp sp hsp hex found hget

theorem resolve_external {specifier : Bytes}
    (he : Specifier.isExternal env.options specifier = true) (path : Bytes) (w : Workspace) :
    (w.resolve env specifier path).1 = .error .external ∧
      (w.resolve env specifier path).2.resolved = w.resolved := by
  constructor <;> simp only [Workspace.resolve, he, if_true]
  rfl

theorem resolve_remembered {specifier path : Bytes} {w : Workspace} {found : Option Bytes}
    (he : Specifier.isExternal env.options specifier = false)
    (hg : w.resolved.get? (Workspace.key (directory env path) specifier) = some found) :
    w.resolve env specifier path = (target env specifier path found, w) := by
  unfold directory at hg
  simp only [Workspace.resolve, he, hg, target]
  cases found <;> rfl

theorem resolve_new {specifier path : Bytes} {w : Workspace}
    (he : Specifier.isExternal env.options specifier = false)
    (hg : w.resolved.get? (Workspace.key (directory env path) specifier) = none) :
    (w.resolve env specifier path).1 = targetOf env specifier path ∧
      (w.resolve env specifier path).2.resolved =
        w.resolved.insert (Workspace.key (directory env path) specifier)
          (Specifier.find? env specifier (directory env path)) := by
  have hroot : (w.noteMissingRoot env specifier (directory env path)).resolved = w.resolved :=
    of_ite (P := fun v : Workspace => v.resolved = w.resolved) (fun _ => rfl) fun _ => rfl
  unfold directory at hg hroot
  unfold targetOf target directory
  simp only [Workspace.resolve, he, hg, Workspace.lookUp, Bool.false_eq_true, if_false]
  cases Specifier.find? env specifier (Path.parent (env.normalize path)) <;>
    exact ⟨rfl, by rw [← hroot]; rfl⟩

theorem resolve_gives (hu : Unambiguous env lib) {path : Bytes} {file : ParsedFile}
    (hf : lib path = .ok file) {specifier : Bytes} (hm : specifier ∈ file.outline.specifiers) :
    Gives env lib means (resolve env specifier path) (targetOf env specifier path) := by
  intro s hs
  have happ : resolve env specifier path s = ((s.workspace.resolve env specifier path).1,
    { s with workspace := (s.workspace.resolve env specifier path).2 }) := rfl
  rw [happ]
  cases he : Specifier.isExternal env.options specifier with
  | true =>
    obtain ⟨h1, h2⟩ := resolve_external he path s.workspace
    exact ⟨by rw [h1]; simp [targetOf, target, he],
      hs.of_quiet ⟨rfl, h2, rfl, rfl, rfl, rfl⟩, rfl, rfl⟩
  | false =>
    cases hg : s.workspace.resolved.get? (Workspace.key (directory env path) specifier) with
    | some found =>
      have hfound := hs.resolved hf specifier hm he found hg
      subst hfound
      rw [resolve_remembered he hg]
      exact ⟨rfl, hs, rfl, rfl⟩
    | none =>
      obtain ⟨h1, h2⟩ := resolve_new he hg
      exact ⟨h1, hs.remember hu hf hm he h2, rfl, rfl⟩

variable {file f : ParsedFile}

/-- The session takes these files for the files of the project, and knows nothing wrong about what
they bind and render. -/
structure Holds (env : Environment) (file : ParsedFile) (s : Session) : Prop where
  library : s.library env = shelf env file
  symbols : ∀ ⦃path f⦄, shelf env file path = .ok f → ∀ symbols,
    s.symbols.get? path = some symbols → symbols = Symbols.ofOutline f.outline

theorem Holds.of_quiet (h : s.Holds env file) (hq : Quiet env s t) : t.Holds env file where
  library := hq.library.trans h.library
  symbols := by
    rw [hq.symbols]
    exact h.symbols

/-- Working out the symbols of a file changes nothing else. -/
theorem Holds.symbolsOf (h : s.Holds env file) (hf : shelf env file f.path = .ok f) :
    (symbolsOf f s).1 = Symbols.ofOutline f.outline ∧ (symbolsOf f s).2.Holds env file ∧
      (symbolsOf f s).2 = { s with symbols := (symbolsOf f s).2.symbols } := by
  unfold Session.symbolsOf
  simp only [SessionM.bind_apply, SessionM.get_apply]
  cases hg : s.symbols.get? f.path with
  | some symbols => exact ⟨h.symbols hf symbols hg, h, rfl⟩
  | none =>
    refine ⟨rfl, ⟨h.library, fun path k hk symbols hget => ?_⟩, rfl⟩
    change (s.symbols.insert f.path (Symbols.ofOutline f.outline)).get? path = _ at hget
    by_cases hpath : path = f.path
    · subst hpath
      rw [Table.get?_insert_self] at hget
      cases hget
      rw [hf] at hk
      cases hk
      rfl
    · rw [Table.get?_insert_ne _ hpath] at hget
      exact h.symbols hk symbols hget

end Session

end JsxPresence
