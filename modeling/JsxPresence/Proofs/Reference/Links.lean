import JsxPresence.Proofs.Reference.Trail

namespace JsxPresence

namespace Reference

open Session

/-- The lookups that a lookup can start. -/
structure Lookup where
  binding : Depth → ParsedFile → Bytes → SessionM (Option Symbol)
  follow : Depth → Follow
  member : Depth → Symbol → Bytes → SessionM (Option Symbol)

namespace Lookup

section round

variable (env : Environment) (l : Lookup)

/-- What a file exports under a name, with nothing asked for before. -/
def exported (depth : Depth) (file name : Bytes) : SessionM (Option Symbol) :=
  Reference.exported l.follow depth file name

/-- The lookups one link further: what they start is left to the given ones. -/
def round : Lookup where
  binding := nextBinding env l.follow
  follow := nextFollow env l.binding l.follow
  member := nextMember env l.binding l.follow l.member

/-- So many links of lookups, with the given ones behind them. -/
def links : Nat → Lookup
  | 0 => l
  | n + 1 => (links n).round env

end round

/-- The lookups with so much fuel. -/
def within (env : Environment) (fuel : Nat) : Lookup where
  binding := bindingWithin env fuel
  follow := followExport env fuel
  member := memberWithin env fuel

theorem within_succ (env : Environment) (n : Nat) :
    within env (n + 1) = (within env n).round env := by
  have hb : bindingWithin env (n + 1) = nextBinding env (followExport env n) := by
    funext depth file name
    rw [bindingWithin]
  have hf : followExport env (n + 1) = nextFollow env (bindingWithin env n) (followExport env n) := by
    funext depth path name visited
    rw [followExport]
  have hm : memberWithin env (n + 1) =
      nextMember env (bindingWithin env n) (followExport env n) (memberWithin env n) := by
    funext depth base member
    rw [memberWithin]
  unfold within round
  rw [hb, hf, hm]

/-- A path, its first name and then the members. -/
def ofPath (l : Lookup) (depth : Depth) (file : ParsedFile) :
    List Bytes → SessionM (Option Symbol)
  | [] => return none
  | first :: rest => do
    match ← l.binding depth file first with
    | none => return none
    | some symbol => members l.member (depth + 1) symbol rest

/-- The component that a path means, if it was not asked for before. -/
def newUsage (l : Lookup) (file : ParsedFile) (path : List Bytes) :
    SessionM (Option ComponentId) := do
  let symbol ← l.ofPath 0 file path
  let id := symbol.bind Symbol.componentId?
  note .trace (utf8 "presence") (file.path ++ utf8 ": <" ++ Name.join path ++ utf8 "> -> " ++
    (id.map ComponentId.text).getD (utf8 "<unresolved>"))
  modify fun s => { s with usages := s.usages.insert (usageKey file path) id }
  return id

/-- The component that a path means. -/
def usage (l : Lookup) (file : ParsedFile) (path : List Bytes) : SessionM (Option ComponentId) :=
  fun s =>
    if path.isEmpty then (none, s)
    else (s.usages.get? (usageKey file path)).elim (l.newUsage file path s) fun id => (id, s)

theorem ofPath_within (env : Environment) (depth : Depth) (file : ParsedFile)
    (path : List Bytes) :
    Reference.ofPath env depth file path = (within env linkBound).ofPath depth file path := by
  cases path <;> rfl

/-- The meaning of a path is kept or looked up. -/
theorem usage_congr {l l' : Lookup} {file : ParsedFile} {path : List Bytes} {s : Session}
    (h : l.ofPath 0 file path s = l'.ofPath 0 file path s) :
    l.usage file path s = l'.usage file path s := by
  have hnew : l.newUsage file path s = l'.newUsage file path s := by
    unfold newUsage
    rw [SessionM.bind_apply, h]
    rfl
  unfold usage
  rw [hnew]

theorem usage_within (env : Environment) (file : ParsedFile) (path : List Bytes) (s : Session) :
    Reference.usage env file path s = (within env linkBound).usage file path s := by
  unfold usage
  cases he : path.isEmpty with
  | true =>
    rw [List.isEmpty_iff.1 he]
    rfl
  | false =>
    cases hkept : s.usages.get? (usageKey file path) with
    | some id =>
      rw [usage_of_kept he hkept]
      rfl
    | none =>
      rw [usage_of_new he hkept]
      unfold Reference.newUsage
      rw [ofPath_within]
      rfl

section deeper

variable {env : Environment} {l l' : Lookup} {depth : Depth}

/-- Beyond the limit nothing else is done. -/
theorem isCut_bind {α : Type} (h : ¬depth ≤ env.options.maxDepth) (file : Bytes)
    (x y z : SessionM α) :
    (isCut env depth file >>= fun cut => if cut = true then x else y) =
      isCut env depth file >>= fun cut => if cut = true then x else z := by
  unfold isCut
  rw [if_neg h]
  rfl

/-- A name starts lookups one deeper only, and none beyond the limit. -/
theorem round_binding_congr
    (h : depth ≤ env.options.maxDepth → l.follow (depth + 1) = l'.follow (depth + 1)) :
    (l.round env).binding depth = (l'.round env).binding depth := by
  funext file name
  by_cases hcut : depth ≤ env.options.maxDepth
  · simp only [round, nextBinding, Reference.exported, h hcut]
  · exact isCut_bind hcut _ _ _ _

/-- So does an export. -/
theorem round_follow_congr
    (hb : depth ≤ env.options.maxDepth → l.binding (depth + 1) = l'.binding (depth + 1))
    (hf : depth ≤ env.options.maxDepth → l.follow (depth + 1) = l'.follow (depth + 1)) :
    (l.round env).follow depth = (l'.round env).follow depth := by
  funext path name visited
  by_cases hcut : depth ≤ env.options.maxDepth
  · simp only [round, nextFollow, nextExport, hb hcut, hf hcut]
  · exact isCut_bind hcut _ _ _ _

/-- So many links from a depth on reach beyond the limit. -/
def Reaches (env : Environment) (n : Nat) (depth : Depth) : Prop :=
  0 < n ∧ env.options.maxDepth.toNat + 2 ≤ n + depth.toNat

theorem toNat_add_one (h : depth.toNat + 1 < UInt32.size) :
    (depth + 1).toNat = depth.toNat + 1 := by
  have hlast : (0xFFFFFFFF : Depth).toNat + 1 = UInt32.size := rfl
  have hlt : depth.toNat < (0xFFFFFFFF : Depth).toNat := by omega
  exact Depth.toNat_add_one hlt

theorem Reaches.next {n : Nat} (h : Reaches env (n + 1) depth)
    (hlimit : env.options.maxDepth.toNat + 1 < UInt32.size)
    (hd : depth ≤ env.options.maxDepth) : Reaches env n (depth + 1) := by
  have hle := UInt32.le_iff_toNat_le.1 hd
  have hnext : (depth + 1).toNat = depth.toNat + 1 := toNat_add_one (by omega)
  obtain ⟨-, hn⟩ := h
  exact ⟨by omega, by omega⟩

theorem reaches_of_le {n : Nat} (h : env.options.maxDepth.toNat + 2 ≤ n) (depth : Depth) :
    Reaches env n depth := ⟨by omega, by omega⟩

/-- Names and exports do not depend on what stands behind enough links. -/
theorem links_congr (l l' : Lookup) (hlimit : env.options.maxDepth.toNat + 1 < UInt32.size)
    {n m : Nat} (hn : Reaches env n depth) (hm : Reaches env m depth) :
    (l.links env n).binding depth = (l'.links env m).binding depth ∧
      (l.links env n).follow depth = (l'.links env m).follow depth := by
  induction n generalizing m depth with
  | zero => exact absurd hn.1 (Nat.lt_irrefl 0)
  | succ n ih =>
    obtain ⟨m, rfl⟩ : ∃ k, m = k + 1 := ⟨m - 1, by have := hm.1; omega⟩
    have hnext (hd : depth ≤ env.options.maxDepth) :=
      ih (hn.next hlimit hd) (hm.next hlimit hd)
    exact ⟨round_binding_congr fun hd => (hnext hd).2,
      round_follow_congr (fun hd => (hnext hd).1) fun hd => (hnext hd).2⟩

theorem links_within (env : Environment) (n : Nat) :
    (within env 0).links env n = within env n := by
  induction n with
  | zero => rfl
  | succ n ih => rw [links, ih, within_succ]

/-- A name that was found was not looked up beyond the limit. -/
theorem le_of_binding {n : Nat} {file : ParsedFile} {name : Bytes} {symbol : Symbol} {s : Session}
    (h : (bindingWithin env n depth file name s).1 = some symbol) :
    depth ≤ env.options.maxDepth := by
  by_contra hcut
  cases n with
  | zero =>
    rw [bindingWithin] at h
    cases h
  | succ n =>
    rw [bindingWithin, nextBinding, isCut_bind hcut _ _ _ (pure none)] at h
    unfold isCut at h
    rw [if_neg hcut] at h
    cases h

end deeper

end Lookup

end Reference

end JsxPresence
