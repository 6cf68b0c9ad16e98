import JsxPresence.Proofs.Analysis.Lockstep
import JsxPresence.Proofs.Reach

namespace JsxPresence

namespace Session

variable {env env' : Environment} {file f g : ParsedFile} {right : Bytes → Option Bytes → Prop}
  {s s' t t' : Session} {path : Bytes}

/-- The session with another journal, another memory of specifiers and another count of visits. -/
def beside (s : Session) (w : Workspace) (n : Nat) : Session :=
  { s with workspace := w, visits := n }

/-- The second memory of specifiers holds what the first one holds, and right answers besides. -/
structure Covers (right : Bytes → Option Bytes → Prop) (a b : Table (Option Bytes)) : Prop where
  remembered : ∀ key found, a.get? key = some found → b.get? key = some found
  extra : ∀ key found, b.get? key = some found → a.get? key = some found ∨ right key found

/-- The second session is the first one, up to its journal, its count of visits and what it
remembers of specifiers besides. -/
structure Mirror (env env' : Environment) (file : ParsedFile)
    (right : Bytes → Option Bytes → Prop) (s t : Session) : Prop where
  tracked : s.Tracked env file
  unchanged : ∀ p ∈ s.readFiles, env'.files.read? p = env.files.read? p
  same : ∃ w n, t = s.beside w n
  covers : Covers right s.workspace.resolved t.workspace.resolved

/-- The session has read a file that is another one in the second environment. -/
structure Strayed (env env' : Environment) (file : ParsedFile) (s : Session) : Prop where
  tracked : s.Tracked env file
  changed : ∃ p ∈ s.readFiles, env'.files.read? p ≠ env.files.read? p

def mirror (env env' : Environment) (file : ParsedFile) (right : Bytes → Option Bytes → Prop) :
    Pairing :=
  ⟨Mirror env env' file right, Strayed env env' file⟩

theorem Mirror.step (h : Mirror env env' file right s t) (ht : s'.Tracked env file)
    (hr : s'.readFiles = s.readFiles) (hs : ∃ w n, t' = s'.beside w n)
    (hw : s'.workspace.resolved = s.workspace.resolved)
    (hw' : t'.workspace.resolved = t.workspace.resolved) : Mirror env env' file right s' t' where
  tracked := ht
  unchanged := by
    rw [hr]
    exact h.unchanged
  same := hs
  covers := by
    rw [hw, hw']
    exact h.covers

theorem Strayed.step (h : Strayed env env' file s) (ht : s'.Tracked env file)
    (hr : s'.readFiles = s.readFiles) : Strayed env env' file s' :=
  ⟨ht, by rw [hr]; exact h.changed⟩

/-- A file of the project that may be come to, in both sessions. -/
structure Mirrored (env : Environment) (file f g : ParsedFile) : Prop where
  same : f = g
  shelved : shelf env file f.path = .ok f
  reached : Reached env file f.path

theorem loaded_shelf (hread : file.Read) (hp : Reached env file path) :
    Loaded (Mirrored env file) path (shelf env file path) (shelf env file path) := by
  cases hs : shelf env file path with
  | error message => exact .error message
  | ok f =>
    have hf : f.path = path := (shelf_proper hread hs).1
    exact .ok ⟨rfl, by rw [hf, hs], by rwa [hf]⟩ hf

/-- Storing a file does not depend on the journal and what is remembered of specifiers. -/
theorem store_beside (path text : Bytes) (s : Session) (w : Workspace) (n : Nat) :
    ∃ w', store path text (s.beside w n) =
        ((store path text s).1, (store path text s).2.beside w' n) ∧
      w'.resolved = w.resolved := by
  unfold store
  cases Outline.parse ⟨path, text⟩ with
  | error errors => exact ⟨_, rfl, rfl⟩
  | ok outline => exact ⟨_, rfl, rfl⟩

/-- Nor does reading one, as long as what is there to read is the same. -/
theorem load_beside (w : Workspace) (n : Nat) (hr : s.files.get? path = none →
    s.failures.get? path = none → env'.files.read? path = env.files.read? path) :
    ∃ w', load env' path (s.beside w n) = ((load env path s).1, (load env path s).2.beside w' n) ∧
      w'.resolved = w.resolved := by
  rcases loading env path s with hf | ⟨hf, hm⟩ | ⟨hf, hm, hn⟩ | ⟨hf, hm, ht⟩
  · rw [load_known hf, load_known (s := s.beside w n) hf]
    exact ⟨w, rfl, rfl⟩
  · rw [load_failed hf hm, load_failed (s := s.beside w n) hf hm]
    exact ⟨w, rfl, rfl⟩
  · rw [load_missing hf hm hn, load_missing (s := s.beside w n) hf hm (by rw [hr hf hm, hn])]
    exact ⟨_, rfl, rfl⟩
  · rw [load_read hf hm ht, load_read (s := s.beside w n) hf hm (by rw [hr hf hm, ht])]
    exact store_beside path _ { s with readFiles := Bytes.insertSorted path s.readFiles } w n

/-- Reading adds to what was read the file that is read, if it is new and there is anything to
read. -/
theorem load_readFiles (env : Environment) (path : Bytes) (s : Session) :
    (∀ p ∈ s.readFiles, p ∈ (load env path s).2.readFiles) ∧
    (∀ p ∈ (load env path s).2.readFiles, p ∈ s.readFiles ∨
      (p = path ∧ s.files.get? path = none ∧ s.failures.get? path = none)) ∧
    (s.files.get? path = none → s.failures.get? path = none →
      (env.files.read? path).isSome = true → path ∈ (load env path s).2.readFiles) := by
  rcases loading env path s with hf | ⟨hf, hm⟩ | ⟨hf, hm, hn⟩ | ⟨hf, hm, ht⟩
  · rw [load_known hf]
    exact ⟨fun _ hp => hp, fun _ hp => .inl hp, fun hn => by rw [hf] at hn; cases hn⟩
  · rw [load_failed hf hm]
    exact ⟨fun _ hp => hp, fun _ hp => .inl hp, fun _ hn => by rw [hm] at hn; cases hn⟩
  · rw [load_missing hf hm hn]
    exact ⟨fun _ hp => hp, fun _ hp => .inl hp, fun _ _ hs => by rw [hn] at hs; cases hs⟩
  · rw [load_read hf hm ht, store_readFiles]
    refine ⟨fun _ hp => Bytes.mem_insertSorted.2 (.inr hp), fun p hp => ?_,
      fun _ _ _ => Bytes.mem_insertSorted.2 (.inl rfl)⟩
    rcases Bytes.mem_insertSorted.1 hp with rfl | hp
    · exact .inr ⟨rfl, hf, hm⟩
    · exact .inl hp

theorem load_mirror (h : env.SameTree env') (hread : file.Read) (hp : Reached env file path) :
    Lockstep (mirror env env' file right) (Loaded (Mirrored env file) path) (load env path)
      (load env' path) := by
  have value {s : Session} (ht : s.Tracked env file) :
      (load env path s).1 = shelf env file path := by
    rw [(load_quiet env path s).1, ht.holds.library]
  have hloaded := @loaded_shelf env file path hread hp
  refine ⟨fun s t hi => ?_, fun s hl => ?_⟩
  · have ht := hi.tracked.load hp
    obtain ⟨hmono, hadds, hnew⟩ := load_readFiles env path s
    by_cases hr : s.files.get? path = none → s.failures.get? path = none →
        env'.files.read? path = env.files.read? path
    · obtain ⟨w, n, rfl⟩ := hi.same
      obtain ⟨w', hload, hw⟩ := @load_beside env env' s path w n hr
      have hq := (load_quiet env path s).2
      rw [hload]
      refine .inl ⟨by rw [value hi.tracked]; exact hloaded, ht, fun p hmem => ?_, ⟨w', n, rfl⟩, ?_⟩
      · rcases hadds p hmem with hmem | ⟨rfl, hf, hm⟩
        · exact hi.unchanged p hmem
        · exact hr hf hm
      · rw [hq.resolved, show (beside _ w' n).workspace.resolved = w.resolved from hw]
        exact hi.covers
    · simp only [Classical.not_imp] at hr
      obtain ⟨hf, hm, hne⟩ := hr
      refine .inr ⟨⟨ht, path, hnew hf hm ?_, hne⟩, _, by rw [value hi.tracked]; exact hloaded⟩
      have hsome := h.files.read?_isSome path
      cases hread : env.files.read? path with
      | some text => rfl
      | none =>
        rw [hread] at hsome hne
        exact absurd (Option.isNone_iff_eq_none.1 (by simpa using hsome)) hne
  · obtain ⟨p, hmem, hne⟩ := hl.changed
    refine ⟨⟨hl.tracked.load hp, p, (load_readFiles env path s).1 p hmem, hne⟩,
      shelf env file path, ?_⟩
    rw [value hl.tracked]
    exact hloaded

/-- Two answers to a specifier that are found alike. -/
theorem target_congr (h : env.SameTree env') (specifier path : Bytes) (found : Option Bytes) :
    target env' specifier path found = target env specifier path found := by
  simp only [target, directory, Specifier.normalize_congr h, h.options]

/-- Whatever the memory of the second session holds besides, for the specifiers of files that may be
come to it is what they lead to. -/
def Answers (env : Environment) (file : ParsedFile) (right : Bytes → Option Bytes → Prop) : Prop :=
  ∀ ⦃p f⦄, Reached env file p → shelf env file p = .ok f → ∀ specifier ∈ f.outline.specifiers,
    Specifier.isExternal env.options specifier = false → ∀ found,
    right (Workspace.key (directory env p) specifier) found →
    found = Specifier.find? env specifier (directory env p)

theorem Covers.insert {a b : Table (Option Bytes)} (h : Covers right a b) (key : Bytes)
    (found : Option Bytes) : Covers right (a.insert key found) (b.insert key found) where
  remembered k v hget := by
    by_cases hk : k = key
    · rw [hk, Table.get?_insert_self] at hget ⊢
      exact hget
    · rw [Table.get?_insert_ne _ hk] at hget ⊢
      exact h.remembered k v hget
  extra k v hget := by
    by_cases hk : k = key
    · rw [hk, Table.get?_insert_self] at hget ⊢
      exact .inl hget
    · rw [Table.get?_insert_ne _ hk] at hget ⊢
      exact h.extra k v hget

theorem Covers.insert_left {a b : Table (Option Bytes)} (h : Covers right a b) {key : Bytes}
    {found : Option Bytes} (hb : b.get? key = some found) :
    Covers right (a.insert key found) b where
  remembered k v hget := by
    by_cases hk : k = key
    · rw [hk, Table.get?_insert_self] at hget
      rw [hk, hb, hget]
    · rw [Table.get?_insert_ne _ hk] at hget
      exact h.remembered k v hget
  extra k v hget := by
    by_cases hk : k = key
    · rw [hk, hb] at hget
      rw [hk, Table.get?_insert_self]
      exact .inl hget
    · rw [Table.get?_insert_ne _ hk]
      exact h.extra k v hget

/-- A specifier leads to the same with both memories, and leaves the second one covering the
first. -/
theorem resolve_covers (h : env.SameTree env') {specifier : Bytes}
    (hright : Specifier.isExternal env.options specifier = false → ∀ found,
      right (Workspace.key (directory env path) specifier) found →
      found = Specifier.find? env specifier (directory env path))
    {w w' : Workspace} (hc : Covers right w.resolved w'.resolved) :
    (w'.resolve env' specifier path).1 = (w.resolve env specifier path).1 ∧
      Covers right (w.resolve env specifier path).2.resolved
        (w'.resolve env' specifier path).2.resolved := by
  have hd : directory env' path = directory env path := by
    simp only [directory, Specifier.normalize_congr h]
  cases he : Specifier.isExternal env.options specifier with
  | true =>
    obtain ⟨h1, h2⟩ := resolve_external he path w
    obtain ⟨k1, k2⟩ := resolve_external (by rw [h.options]; exact he) path w'
    rw [h1, h2, k1, k2]
    exact ⟨rfl, hc⟩
  | false =>
    have he' : Specifier.isExternal env'.options specifier = false := by rw [h.options]; exact he
    cases hg : w.resolved.get? (Workspace.key (directory env path) specifier) with
    | some found =>
      rw [resolve_remembered he hg,
        resolve_remembered he' (by rw [hd]; exact hc.remembered _ _ hg), target_congr h]
      exact ⟨rfl, hc⟩
    | none =>
      obtain ⟨h1, h2⟩ := resolve_new he hg
      rw [h1, h2]
      cases hg' : w'.resolved.get? (Workspace.key (directory env path) specifier) with
      | none =>
        obtain ⟨k1, k2⟩ := resolve_new he' (by rw [hd]; exact hg')
        rw [k1, k2, targetOf, target_congr h, hd, Specifier.find?_congr h]
        exact ⟨rfl, hc.insert _ _⟩
      | some found =>
        have hfound : found = Specifier.find? env specifier (directory env path) := by
          rcases hc.extra _ _ hg' with hx | hx
          · rw [hg] at hx
            cases hx
          · exact hright he found hx
        rw [resolve_remembered he' (by rw [hd]; exact hg'), target_congr h, hfound]
        exact ⟨rfl, hc.insert_left (by rw [hg', hfound])⟩

/-- A session that remembers where a specifier of a file leads keeps track. -/
theorem tracked_resolve (ht : s.Tracked env file) (hp : Reached env file path)
    (hf : shelf env file path = .ok f) {specifier : Bytes} (hm : specifier ∈ f.outline.specifiers) :
    (resolve env specifier path s).2.Tracked env file ∧
      (∀ q, (resolve env specifier path s).1 = .ok q → Reached env file q) := by
  have happ : resolve env specifier path s = ((s.workspace.resolve env specifier path).1,
    { s with workspace := (s.workspace.resolve env specifier path).2 }) := rfl
  have step {w : Workspace} (hw : ∀ key found, w.resolved.get? key = some found →
      Traced env file key found) : Tracked env file { s with workspace := w } :=
    ⟨⟨ht.holds.library, ht.holds.symbols⟩, ht.own, hw, ht.usages, ht.sorted, ht.reached⟩
  have lead {found : Option Bytes} {key : Bytes} (hfound : Traced env file key found) (q : Bytes)
      (he : Specifier.isExternal env.options specifier = false)
      (hq : target env specifier path found = .ok q) : Reached env file q := by
    cases found with
    | none => simp [target, he] at hq
    | some q' =>
      simp only [target, he, Bool.false_eq_true, if_false] at hq
      cases hq
      exact hfound.reached
  have traced : Traced env file (Workspace.key (directory env path) specifier)
      (Specifier.find? env specifier (directory env path)) :=
    ⟨path, f, specifier, hp, hf, hm, rfl, rfl⟩
  rw [happ]
  cases he : Specifier.isExternal env.options specifier with
  | true =>
    obtain ⟨h1, h2⟩ := resolve_external he path s.workspace
    refine ⟨step (by rw [h2]; exact ht.resolved), fun q hq => ?_⟩
    rw [h1] at hq
    cases hq
  | false =>
    cases hg : s.workspace.resolved.get? (Workspace.key (directory env path) specifier) with
    | some found =>
      rw [resolve_remembered he hg]
      exact ⟨step ht.resolved, fun q hq => lead (ht.resolved _ _ hg) q he hq⟩
    | none =>
      obtain ⟨h1, h2⟩ := resolve_new he hg
      refine ⟨step fun key found hget => ?_, fun q hq => lead traced q he (by rwa [h1] at hq)⟩
      rw [h2] at hget
      by_cases hk : key = Workspace.key (directory env path) specifier
      · rw [hk, Table.get?_insert_self] at hget
        cases hget
        rw [hk]
        exact traced
      · rw [Table.get?_insert_ne _ hk] at hget
        exact ht.resolved key found hget

theorem resolve_mirror (h : env.SameTree env') (hright : Answers env file right)
    (hp : Reached env file path) (hf : shelf env file path = .ok f) {specifier : Bytes}
    (hm : specifier ∈ f.outline.specifiers) :
    Lockstep (mirror env env' file right) (Same fun found => ∀ q, found = .ok q → Reached env file q)
      (resolve env specifier path) (resolve env' specifier path) := by
  refine ⟨fun s t hi => ?_, fun s hl => ?_⟩
  · obtain ⟨htracked, hopens⟩ := tracked_resolve hi.tracked hp hf hm
    obtain ⟨w, n, rfl⟩ := hi.same
    obtain ⟨h1, h2⟩ := resolve_covers h (hright hp hf specifier hm) hi.covers
    exact .inl ⟨⟨h1.symm, hopens⟩, htracked, hi.unchanged, ⟨_, n, rfl⟩, h2⟩
  · obtain ⟨htracked, hopens⟩ := tracked_resolve hl.tracked hp hf hm
    exact ⟨⟨htracked, hl.changed⟩, _, rfl, hopens⟩

/-- A change of the session that is the same in both, and touches neither the files that were read
nor what is remembered of them. -/
theorem modify_mirror {change change' : Session → Session}
    (ht : ∀ s, s.Tracked env file → (change s).Tracked env file)
    (hr : ∀ s, (change s).readFiles = s.readFiles)
    (hs : ∀ s w n, ∃ w' n', change' (s.beside w n) = (change s).beside w' n' ∧
      w'.resolved = w.resolved)
    (hw : ∀ s, (change s).workspace.resolved = s.workspace.resolved) :
    Lockstep (mirror env env' file right) Eq (modify change) (modify change') := by
  refine .modify (fun s t hi => ?_) fun s hl => ⟨ht s hl.tracked, by rw [hr]; exact hl.changed⟩
  obtain ⟨w, n, rfl⟩ := hi.same
  obtain ⟨w', n', hs, hw'⟩ := hs s w n
  rw [hs]
  refine ⟨ht s hi.tracked, by rw [hr]; exact hi.unchanged, ⟨w', n', rfl⟩, ?_⟩
  rw [hw s, show (beside _ w' n').workspace.resolved = w.resolved from hw']
  exact hi.covers

theorem symbolsOf_beside (f : ParsedFile) (s : Session) (w : Workspace) (n : Nat) :
    symbolsOf f (s.beside w n) = ((symbolsOf f s).1, (symbolsOf f s).2.beside w n) := by
  unfold symbolsOf
  simp only [SessionM.bind_apply, SessionM.get_apply]
  have hsame : (s.beside w n).symbols = s.symbols := rfl
  rw [hsame]
  cases s.symbols.get? f.path <;> rfl

theorem symbolsOf_mirror (hf : shelf env file f.path = .ok f) :
    Lockstep (mirror env env' file right) (fun a b => a = Symbols.ofOutline f.outline ∧
      b = Symbols.ofOutline f.outline) (symbolsOf f) (symbolsOf f) := by
  have tracked {s : Session} (ht : s.Tracked env file) : (symbolsOf f s).2.Tracked env file := by
    obtain ⟨-, hh, hs⟩ := ht.holds.symbolsOf hf
    refine ⟨hh, ?_, ?_, ?_, ?_, ?_⟩ <;> rw [hs]
    exacts [ht.own, ht.resolved, ht.usages, ht.sorted, ht.reached]
  refine ⟨fun s t hi => ?_, fun s hl => ?_⟩
  · obtain ⟨h1, -, h3⟩ := hi.tracked.holds.symbolsOf hf
    obtain ⟨w, n, rfl⟩ := hi.same
    rw [symbolsOf_beside]
    refine .inl ⟨⟨h1, h1⟩, hi.step (tracked hi.tracked) ?_ ⟨w, n, rfl⟩ ?_ rfl⟩ <;> rw [h3]
  · obtain ⟨h1, -, h3⟩ := hl.tracked.holds.symbolsOf hf
    exact ⟨hl.step (tracked hl.tracked) (by rw [h3]), _, h1, rfl⟩

theorem mirror_lookups (h : env.SameTree env') (hread : file.Read) (hright : Answers env file right) :
    Lookups env env' (mirror env env' file right) (reach env file) (Mirrored env file) where
  options := h.options
  normalize path := by rw [Specifier.normalize_congr h]
  isFile := h.files.isFile
  alike f _ hp := hp.same ▸ .refl f
  opens _ _ hp := hp.reached
  members f _ hp m hm := ⟨f.path, f, hp.reached, hp.shelved, hm⟩
  namesake _ _ hfile hmember _ hc hf := by
    obtain ⟨o, g, ho, hg, hm⟩ := hmember
    exact .namesake hfile ho hg hm hc hf
  note _ _ _ _ _ _ := modify_mirror (fun s ht => ht.of_quiet (note_quiet env _ _ _ s) rfl rfl)
    (fun _ => rfl) (fun _ _ _ => ⟨_, _, rfl, rfl⟩) fun _ => rfl
  diagnose _ _ _ := modify_mirror (fun s ht => ht.of_quiet (diagnose_quiet env _ _ _ s) rfl rfl)
    (fun _ => rfl) (fun _ _ _ => ⟨_, _, rfl, rfl⟩) fun _ => rfl
  load _ hp := load_mirror h hread hp
  symbolsOf f g hp := by
    obtain rfl := hp.same
    exact symbolsOf_mirror hp.shelved
  resolve f g hp specifier hm := by
    obtain rfl := hp.same
    exact resolve_mirror h hright hp.reached hp.shelved hm

theorem mirror_keepsUsages :
    Reference.KeepsUsages (mirror env env' file right) (reach env file) where
  same s t hi := by
    obtain ⟨w, n, rfl⟩ := hi.same
    rfl
  admits s t hi := hi.tracked.usages
  admits_lost s hl := hl.tracked.usages
  keep key id hid := by
    refine modify_mirror (fun s ht => ?_) (fun _ => rfl) (fun _ _ _ => ⟨_, _, rfl, rfl⟩) fun _ => rfl
    refine ⟨⟨ht.holds.library, ht.holds.symbols⟩, ht.own, ht.resolved, fun k i hget => ?_,
      ht.sorted, ht.reached⟩
    by_cases hk : k = key
    · rw [hk, Table.get?_insert_self] at hget
      cases hget
      exact hid
    · rw [Table.get?_insert_ne _ hk] at hget
      exact ht.usages k i hget

theorem mirror_searches (h : env.SameTree env') (hread : file.Read)
    (hright : Answers env file right) :
    Searches env env' (mirror env env' file right) (reach env file) (Mirrored env file) where
  toLookups := mirror_lookups h hread hright
  read f _ hp := (shelf_proper hread hp.shelved).2
  usage _ _ hp _ _ hpath :=
    Reference.usage_lockstep (mirror_lookups h hread hright) mirror_keepsUsages hp hpath
  verdicts s t hi := by
    obtain ⟨w, n, rfl⟩ := hi.same
    rfl
  active s t hi := by
    obtain ⟨w, n, rfl⟩ := hi.same
    rfl
  keep _ := modify_mirror (fun _ ht => ht.searching _ _ _) (fun _ => rfl)
    (fun _ _ _ => ⟨_, _, rfl, rfl⟩) fun _ => rfl
  enter _ := modify_mirror (fun _ ht => ht.searching _ _ _) (fun _ => rfl)
    (fun _ _ _ => ⟨_, _, rfl, rfl⟩) fun _ => rfl
  count := modify_mirror (fun _ ht => ht.searching _ _ _) (fun _ => rfl)
    (fun _ _ _ => ⟨_, _, rfl, rfl⟩) fun _ => rfl

end Session

end JsxPresence
