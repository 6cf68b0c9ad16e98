import JsxPresence.Proofs.Reference

namespace JsxPresence

namespace Session

variable {env : Environment} {lib : Bytes → Except Bytes ParsedFile}
  {means : ParsedFile → List Bytes → Option ComponentId} {α β : Type}

theorem Gives.pure (a : α) : Gives env lib means (Pure.pure a) a :=
  fun _ hs => ⟨rfl, hs, rfl, rfl⟩

theorem Gives.bind {x : SessionM α} {f : α → SessionM β} {a : α} {b : β}
    (hx : Gives env lib means x a) (hf : Gives env lib means (f a) b) :
    Gives env lib means (x >>= f) b := by
  intro s hs
  obtain ⟨h1, h2, h3, h4⟩ := hx s hs
  obtain ⟨k1, k2, k3, k4⟩ := hf (x s).2 h2
  rw [SessionM.bind_apply, h1]
  exact ⟨k1, k2, k3.trans h3, k4.trans h4⟩

theorem note_gives (level : Log.Level) (module message : Bytes) :
    Gives env lib means (note level module message) () :=
  .of_quiet fun s _ => ⟨rfl, note_quiet env level module message s⟩

/-- The file of the project that a specifier in a file leads to. -/
def fileOf? (env : Environment) (specifier path : Bytes) : Option Bytes :=
  (targetOf env specifier path).toOption

theorem fileOf?_eq_some {specifier path found : Bytes} :
    fileOf? env specifier path = some found ↔ targetOf env specifier path = .ok found := by
  unfold fileOf?
  cases targetOf env specifier path <;> simp [Except.toOption]

end Session

namespace Reference

open Session

variable {env : Environment} {lib : Bytes → Except Bytes ParsedFile}
  {means : ParsedFile → List Bytes → Option ComponentId}

/-- A name that is wanted from a file. -/
structure Wanted where
  file : Bytes
  name : Bytes
deriving DecidableEq

/-- What a lookup remembers of the names it has asked for. -/
def Wanted.key (w : Wanted) : Bytes := w.file ++ byte '#' :: w.name

/-- Keys of files without a `#` in their paths are not confused. -/
theorem Wanted.key_inj {v w : Wanted} (hv : byte '#' ∉ v.file) (hw : byte '#' ∉ w.file)
    (h : v.key = w.key) : v = w := by
  obtain ⟨hfile, hname⟩ := Bytes.sep_append_inj hv hw h
  cases v
  cases w
  simp_all

theorem explicitExport?_ne_allFrom (o : Outline) (name specifier : Bytes) :
    explicitExport? o name ≠ some (.allFrom specifier) := by
  intro h
  obtain ⟨e, he, hkind⟩ := Option.map_eq_some_iff.1 h
  have hfound := List.find?_some he
  rw [hkind] at hfound
  cases hfound

theorem isCut_gives (depth : Depth) (file : Bytes) :
    Gives env lib means (isCut env depth file) (decide (env.options.maxDepth < depth)) := by
  unfold isCut
  by_cases h : depth ≤ env.options.maxDepth
  · have hlt : decide (env.options.maxDepth < depth) = false := by simpa using h
    rw [if_pos h, hlt]
    exact .pure false
  · have hlt : decide (env.options.maxDepth < depth) = true := by simpa using h
    rw [if_neg h, hlt]
    exact (note_gives _ _ _).bind ((diagnose_gives _ _ _).bind (.pure true))

/-- What a specifier in a file means, with nothing remembered. -/
def meant (env : Environment) (specifier path : Bytes) : Option Symbol :=
  match targetOf env specifier path with
  | .ok found => some (.module found)
  | .error .external => some (.ofModule specifier)
  | .error (.notFound _) => none

theorem meant_of_fileOf? {specifier path found : Bytes}
    (h : fileOf? env specifier path = some found) :
    meant env specifier path = some (.module found) := by
  rw [fileOf?_eq_some] at h
  simp [meant, h]

theorem fileOf?_of_meant {specifier path found : Bytes}
    (h : meant env specifier path = some (.module found)) :
    fileOf? env specifier path = some found := by
  rw [fileOf?_eq_some]
  unfold meant at h
  split at h
  · cases h
    assumption
  · cases h
  · cases h

theorem meant_of_isExternal {specifier path : Bytes}
    (h : Specifier.isExternal env.options specifier = true) :
    meant env specifier path = some (.ofModule specifier) := by
  simp [meant, targetOf, target, h]

/-- A specifier of the project means a file or nothing. -/
theorem meant_of_not_isExternal {specifier path : Bytes}
    (h : Specifier.isExternal env.options specifier = false) :
    meant env specifier path = (fileOf? env specifier path).map .module := by
  unfold meant fileOf? targetOf target
  rw [h, if_neg (by decide)]
  cases Specifier.find? env specifier (directory env path) <;> rfl

theorem ofSpecifier_gives (hu : Unambiguous env lib) {path : Bytes} {file : ParsedFile}
    (hf : lib path = .ok file) {specifier : Bytes} (hm : specifier ∈ file.outline.specifiers) :
    Gives env lib means (ofSpecifier env specifier path) (meant env specifier path) := by
  unfold ofSpecifier
  refine (resolve_gives hu hf hm).bind ?_
  unfold meant
  cases targetOf env specifier path with
  | ok found => exact .pure _
  | error failure =>
    cases failure with
    | external => exact .pure _
    | notFound directory => exact (diagnose_gives _ _ _).bind (.pure none)

/-- What a file that was read gives for a name that is wanted from it, with so much fuel left. -/
def exportOf (env : Environment) (fuel : Nat) (depth : Depth) (file : ParsedFile) (name : Bytes)
    (visited : List Bytes) : SessionM (Option Symbol × List Bytes) :=
  nextExport env (bindingWithin env fuel) (followExport env fuel) depth file name visited

section lookup

variable {fuel : Nat} {depth : Depth} {w : Wanted} {visited : List Bytes}

theorem followExport_of_cut (h : env.options.maxDepth < depth) :
    Gives env lib means (followExport env fuel depth w.file w.name visited) (none, visited) := by
  cases fuel with
  | zero =>
    unfold followExport
    exact .pure _
  | succ fuel =>
    unfold followExport
    refine (isCut_gives depth w.file).bind ?_
    rw [if_pos (decide_eq_true h)]
    exact .pure _

/-- A name that was asked for before is not looked up again. -/
theorem followExport_of_seen (h : w.key ∈ visited) :
    Gives env lib means (followExport env fuel depth w.file w.name visited) (none, visited) := by
  by_cases hcut : env.options.maxDepth < depth
  · exact followExport_of_cut hcut
  cases fuel with
  | zero =>
    unfold followExport
    exact .pure _
  | succ fuel =>
    unfold followExport
    refine (isCut_gives depth w.file).bind ?_
    rw [if_neg (by simpa using hcut), if_pos (by simpa [Wanted.key] using h)]
    exact (note_gives _ _ _).bind (.pure _)

theorem followExport_of_unread (hcut : depth ≤ env.options.maxDepth) (hnew : w.key ∉ visited)
    {message : Bytes} (hf : lib w.file = .error message) :
    Gives env lib means (followExport env (fuel + 1) depth w.file w.name visited)
      (none, w.key :: visited) := by
  unfold followExport
  refine (isCut_gives depth w.file).bind ?_
  rw [if_neg (by simpa using hcut), if_neg (by simpa [Wanted.key] using hnew)]
  refine (load_gives w.file).bind ?_
  rw [hf]
  exact (diagnose_gives _ _ _).bind (.pure _)

/-- Otherwise the answer is what the file gives for the name. -/
theorem followExport_of_read (hcut : depth ≤ env.options.maxDepth) (hnew : w.key ∉ visited)
    {file : ParsedFile} (hf : lib w.file = .ok file) {x : Option Symbol × List Bytes}
    (hx : Gives env lib means (exportOf env fuel depth file w.name (w.key :: visited)) x) :
    Gives env lib means (followExport env (fuel + 1) depth w.file w.name visited) x := by
  unfold followExport
  refine (isCut_gives depth w.file).bind ?_
  rw [if_neg (by simpa using hcut), if_neg (by simpa [Wanted.key] using hnew)]
  refine (load_gives w.file).bind ?_
  rw [hf]
  exact hx

end lookup

end Reference

end JsxPresence
