import JsxPresence.Proofs.Lockstep

namespace JsxPresence

namespace Session

variable {env : Environment} {lib : Bytes → Except Bytes ParsedFile}
  {means : ParsedFile → List Bytes → Option ComponentId} {α : Type} {verdicts : Table Bool}
  {active : List Bytes}

/-- Two coherent sessions, the first of which has these answers and questions of the presence
search. -/
structure Together (env : Environment) (lib : Bytes → Except Bytes ParsedFile)
    (means : ParsedFile → List Bytes → Option ComponentId) (verdicts : Table Bool)
    (active : List Bytes) (s t : Session) : Prop where
  left : s.Coherent env lib means
  right : t.Coherent env lib means
  verdicts : s.verdicts = verdicts
  active : s.active = active

theorem Gives.lockstep {x : SessionM α} {a : α} (hx : Gives env lib means x a) :
    Lockstep (.strict (Together env lib means verdicts active)) (fun b c => b = a ∧ c = a) x x := by
  refine .strict fun s t h => ?_
  obtain ⟨h1, h2, h3, h4⟩ := hx s h.left
  obtain ⟨k1, k2, -, -⟩ := hx t h.right
  exact ⟨⟨h1, k1⟩, h2, k2, h3.trans h.verdicts, h4.trans h.active⟩

theorem Gives.lockstep_eq {x : SessionM α} {a : α} (hx : Gives env lib means x a) :
    Lockstep (.strict (Together env lib means verdicts active)) Eq x x :=
  hx.lockstep.mono fun _ _ h => h.1.trans h.2.symm

/-- A computation that coherent sessions go through alike gives one answer. -/
theorem gives_of_lockstep {x : SessionM α} {base : Session} (hb : base.Coherent env lib means)
    (hx : ∀ verdicts active, Lockstep (.strict (Together env lib means verdicts active)) Eq x x) :
    Gives env lib means x (x base).1 := by
  intro s hs
  obtain ⟨h1, h2⟩ := (hx s.verdicts s.active).of_strict (s := s) (t := base) ⟨hs, hb, rfl, rfl⟩
  exact ⟨h1, h2.left, h2.verdicts, h2.active⟩

/-- A file of the library, looked at from two sessions. -/
def Shelved (lib : Bytes → Except Bytes ParsedFile) (f g : ParsedFile) : Prop :=
  f = g ∧ lib f.path = .ok f

theorem together_lookups (hp : Proper lib) (hu : Unambiguous env lib) :
    Lookups env env (.strict (Together env lib means verdicts active)) .all (Shelved lib) where
  options := rfl
  normalize _ := rfl
  isFile _ := rfl
  alike := by
    rintro f g ⟨rfl, -⟩
    exact .refl f
  opens _ _ _ := trivial
  members _ _ _ _ _ := trivial
  namesake _ _ _ _ _ _ _ := trivial
  note level module message level' module' message' := .strict fun s t h =>
    ⟨rfl, h.left.of_quiet (note_quiet env _ _ _ s), h.right.of_quiet (note_quiet env _ _ _ t),
      h.verdicts, h.active⟩
  diagnose kind file message := (diagnose_gives kind file message).lockstep_eq
  load path _ := by
    refine (load_gives path).lockstep.mono ?_
    rintro _ _ ⟨rfl, rfl⟩
    cases hlib : lib path with
    | error message => exact .error message
    | ok file => exact .ok ⟨rfl, by rw [(hp hlib).1, hlib]⟩ (hp hlib).1
  symbolsOf := by
    rintro f g ⟨rfl, hf⟩
    exact (symbolsOf_gives hf).lockstep
  resolve := by
    rintro f g ⟨rfl, hf⟩ specifier hm
    exact (resolve_gives hu hf hm).lockstep_eq.mono fun _ _ h => ⟨h, fun _ _ => trivial⟩

end Session

namespace Reference

open Session

variable {env : Environment} {lib : Bytes → Except Bytes ParsedFile}
  {means : ParsedFile → List Bytes → Option ComponentId}

/-- The meanings are those that paths have from coherent sessions. -/
def Meaning (env : Environment) (lib : Bytes → Except Bytes ParsedFile)
    (means : ParsedFile → List Bytes → Option ComponentId) : Prop :=
  ∀ file, lib file.path = .ok file → ∀ path, Name.Spelled path → ∃ symbol,
    Gives env lib means (ofPath env 0 file path) symbol ∧
      means file path = symbol.bind Symbol.componentId?

/-- A usage means what its path means, also if the answer was kept. -/
theorem usage_gives (hm : Meaning env lib means) {file : ParsedFile}
    (hf : lib file.path = .ok file) {path : List Bytes} (hpath : Name.Spelled path) :
    Gives env lib means (usage env file path) (means file path) := by
  intro s hs
  have hne : path.isEmpty = false := by simpa using hpath.ne_nil
  unfold usage
  simp only [hne, Bool.false_eq_true, if_false, SessionM.bind_apply, SessionM.get_apply]
  cases hg : s.usages.get? (file.path ++ byte '\n' :: Name.join path) with
  | some id => exact ⟨hs.usages hf path hpath id hg, hs, rfl, rfl⟩
  | none =>
    obtain ⟨symbol, hgives, hmeans⟩ := hm file hf path hpath
    obtain ⟨h1, h2, h3, h4⟩ := hgives s hs
    simp only [SessionM.bind_apply, h1, ← hmeans]
    refine ⟨rfl, ⟨h2.library, h2.resolved, h2.symbols, fun p f hlib q hq id hget => ?_⟩, h3, h4⟩
    change ((ofPath env 0 file path s).2.usages.insert (file.path ++ byte '\n' :: Name.join path)
      (means file path)).get? (p ++ byte '\n' :: Name.join q) = some id at hget
    by_cases hk : p ++ byte '\n' :: Name.join q = file.path ++ byte '\n' :: Name.join path
    · rw [hk, Table.get?_insert_self] at hget
      cases hget
      obtain ⟨rfl, hjoin⟩ := Bytes.append_sep_inj hq.newline_not_mem hpath.newline_not_mem hk
      have hqp : q = path := by rw [← hq.split_join, hjoin, hpath.split_join]
      rw [hf] at hlib
      cases hlib
      rw [hqp]
    · rw [Table.get?_insert_ne _ hk] at hget
      exact h2.usages hlib q hq id hget

/-- What a path means in a file, looked up from a session. -/
def meaning (env : Environment) (base : Session) (file : ParsedFile) (path : List Bytes) :
    Option ComponentId :=
  (ofPath env 0 file path base).1.bind Symbol.componentId?

end Reference

namespace Session

open Reference

/-- A session that a project can be looked up from: what it takes for files are files read at their
paths, whose specifiers cannot be confused, and it remembers nothing that is not so. -/
structure Stable (env : Environment) (base : Session) : Prop where
  proper : Proper (base.library env)
  unambiguous : Unambiguous env (base.library env)
  coherent : base.Coherent env (base.library env) (meaning env base)

variable {env : Environment} {base : Session}

/-- The session remembers nothing that is not so of the project as seen from another session. -/
def Follows (env : Environment) (base s : Session) : Prop :=
  s.Coherent env (base.library env) (meaning env base)

/-- From every session of the project the computation gives the answer it gives from the base. -/
def Settled {α : Type} (env : Environment) (base : Session) (x : SessionM α) : Prop :=
  Gives env (base.library env) (meaning env base) x (x base).1

theorem Stable.settled {α : Type} (h : Stable env base) {x : SessionM α}
    (hx : ∀ verdicts active, Lockstep
      (.strict (Together env (base.library env) (meaning env base) verdicts active)) Eq x x) :
    Settled env base x :=
  gives_of_lockstep h.coherent hx

theorem load_base (env : Environment) (base : Session) (path : Bytes) :
    (load env path base).1 = base.library env path := (load_quiet env path base).1

/-- The file that is loaded from a path is the library's file at its own path. -/
theorem Stable.library_path (h : Stable env base) {path : Bytes} {file : ParsedFile}
    (hf : (load env path base).1 = .ok file) : base.library env file.path = .ok file := by
  rw [load_base] at hf
  rw [(h.proper hf).1, hf]

theorem Stable.meaning (h : Stable env base) :
    Meaning env (base.library env) (Reference.meaning env base) :=
  fun _ hf _ _ => ⟨_, h.settled fun _ _ =>
    (ofPath_lockstep (together_lookups h.proper h.unambiguous) ⟨rfl, hf⟩ 0
      fun _ _ => trivial).eq, rfl⟩

theorem Stable.usage (h : Stable env base) {file : ParsedFile}
    (hf : base.library env file.path = .ok file) {path : List Bytes} (hpath : Name.Spelled path) :
    Settled env base (usage env file path) :=
  h.settled fun _ _ => (usage_gives h.meaning hf hpath).lockstep_eq

theorem Stable.load (h : Stable env base) (path : Bytes) : Settled env base (load env path) :=
  h.settled fun _ _ => (load_gives path).lockstep_eq

end Session

end JsxPresence
