import JsxPresence.Proofs.Outline.Balance
import JsxPresence.Proofs.Reference.Links

namespace JsxPresence

namespace Session

variable {env : Environment} {lib : Bytes → Except Bytes ParsedFile} {α : Type}

/-- One session and itself, with these files. -/
def alone (env : Environment) (lib : Bytes → Except Bytes ParsedFile) : Pairing :=
  .strict fun s t => s = t ∧ s.library env = lib

theorem Lockstep.of_keeps {x : SessionM α} (h : ∀ s, (x s).2.library env = s.library env) :
    Lockstep (alone env lib) Eq x x := by
  refine .strict ?_
  rintro s _ ⟨rfl, hs⟩
  exact ⟨rfl, rfl, (h s).trans hs⟩

theorem Lockstep.run_eq {x y : SessionM α} (h : Lockstep (alone env lib) Eq x y) {s : Session}
    (hs : s.library env = lib) : x s = y s := by
  obtain ⟨hfst, hsnd, -⟩ := h.of_strict ⟨rfl, hs⟩
  exact Prod.ext hfst hsnd

theorem load_alone (path : Bytes) :
    Lockstep (alone env lib) (Same (· = lib path)) (load env path) (load env path) := by
  refine .strict ?_
  rintro s _ ⟨rfl, hs⟩
  obtain ⟨hfile, hquiet⟩ := load_quiet env path s
  exact ⟨⟨rfl, by rw [hfile, hs]⟩, rfl, hquiet.library.trans hs⟩

theorem note_alone (level : Log.Level) (module message : Bytes) :
    Lockstep (alone env lib) Eq (note level module message) (note level module message) :=
  .of_keeps fun s => (note_quiet env level module message s).library

theorem diagnose_alone (kind : DiagnosticKind) (file message : Bytes) :
    Lockstep (alone env lib) Eq (diagnose kind file message) (diagnose kind file message) :=
  .of_keeps fun s => (diagnose_quiet env kind file message s).library

theorem symbolsOf_alone (file : ParsedFile) :
    Lockstep (alone env lib) Eq (symbolsOf file) (symbolsOf file) := by
  refine .of_keeps fun s => ?_
  unfold symbolsOf
  simp only [SessionM.bind_apply, SessionM.get_apply]
  cases s.symbols.get? file.path <;> rfl

end Session

namespace Reference

open Session

variable {env : Environment} {lib : Bytes → Except Bytes ParsedFile} {l : Lookup} {depth : Depth}

theorem isCut_alone (file : Bytes) :
    Lockstep (alone env lib) Eq (isCut env depth file) (isCut env depth file) := by
  unfold isCut
  refine .ite (fun _ => .refl _) fun _ => ?_
  exact (note_alone _ _ _).bind_eq fun _ => (diagnose_alone _ _ _).bind_eq fun _ => .refl _

theorem ofSpecifier_alone (specifier file : Bytes) :
    Lockstep (alone env lib) Eq (ofSpecifier env specifier file)
      (ofSpecifier env specifier file) := by
  unfold ofSpecifier
  have hresolve : Lockstep (alone env lib) Eq (resolve env specifier file)
      (resolve env specifier file) := .of_keeps fun _ => rfl
  refine hresolve.bind_eq fun found => ?_
  split
  · exact .refl _
  · exact .refl _
  · exact (diagnose_alone _ _ _).bind_eq fun _ => .refl _

theorem firstStar_alone {follow : Follow}
    (h : ∀ path name visited,
      Lockstep (alone env lib) Eq (follow path name visited) (follow path name visited))
    (file name : Bytes) (specifiers visited : List Bytes) :
    Lockstep (alone env lib) Eq (firstStar env follow file name specifiers visited)
      (firstStar env follow file name specifiers visited) := by
  induction specifiers generalizing visited with
  | nil => exact .refl _
  | cons specifier rest ih =>
    refine (ofSpecifier_alone specifier file).bind_eq fun symbol => ?_
    split
    · refine (h _ name visited).bind_eq fun x => ?_
      split
      · exact .refl _
      · exact ih _
    · exact ih _

namespace Lookup

/-- Looking up names and exports changes no files. -/
structure Keeps (env : Environment) (lib : Bytes → Except Bytes ParsedFile) (l : Lookup) :
    Prop where
  binding : ∀ depth file name, Lockstep (alone env lib) Eq (l.binding depth file name)
    (l.binding depth file name)
  follow : ∀ depth path name visited, Lockstep (alone env lib) Eq
    (l.follow depth path name visited) (l.follow depth path name visited)

section keeps

variable (h : l.Keeps env lib)
include h

theorem Keeps.exported (depth : Depth) (file name : Bytes) :
    Lockstep (alone env lib) Eq (l.exported depth file name) (l.exported depth file name) :=
  (h.follow depth file name []).bind_eq fun _ => .refl _

theorem Keeps.nextExport (depth : Depth) (file : ParsedFile) (name : Bytes)
    (visited : List Bytes) :
    Lockstep (alone env lib) Eq (nextExport env l.binding l.follow depth file name visited)
      (nextExport env l.binding l.follow depth file name visited) := by
  unfold Reference.nextExport
  split
  · exact .ite (fun _ => .refl _) fun _ => (h.binding _ _ _).bind_eq fun _ => .refl _
  · refine (ofSpecifier_alone _ _).bind_eq fun symbol => ?_
    split
    · exact .refl _
    · exact h.follow _ _ _ _
    · exact .refl _
  · exact (ofSpecifier_alone _ _).bind_eq fun _ => .refl _
  · exact .ite (fun _ => .refl _) fun _ => firstStar_alone (h.follow _) _ _ _ _

theorem Keeps.round : (l.round env).Keeps env lib where
  binding depth file name := by
    refine (isCut_alone file.path).bind_eq fun cut => .ite (fun _ => .refl _) fun _ => ?_
    refine (symbolsOf_alone file).bind_eq fun symbols => ?_
    split
    · refine (ofSpecifier_alone _ _).bind_eq fun symbol => ?_
      split
      · exact .refl _
      · exact .ite (fun _ => .refl _) fun _ => h.exported _ _ _
      · exact .refl _
    · exact .ite (fun _ => .refl _) fun _ => .refl _
  follow depth path name visited := by
    refine (isCut_alone path).bind_eq fun cut => .ite (fun _ => .refl _) fun _ => ?_
    refine .ite (fun _ => (note_alone _ _ _).bind_eq fun _ => .refl _) fun _ => ?_
    refine (load_alone path).eq.bind_eq fun file => ?_
    split
    · exact (diagnose_alone _ _ _).bind_eq fun _ => .refl _
    · exact h.nextExport _ _ _ _

theorem Keeps.byFileName (depth : Depth) (file member : Bytes) :
    Lockstep (alone env lib) Eq (byFileName env l.follow depth file member)
      (byFileName env l.follow depth file member) := by
  refine .ite (fun _ => .refl _) fun _ => ?_
  dsimp only
  split
  · exact .refl _
  · refine (note_alone _ _ _).bind_eq fun _ => (diagnose_alone _ _ _).bind_eq fun _ => ?_
    refine (h.exported _ _ _).bind_eq fun symbol => ?_
    split
    · exact .refl _
    · refine (h.exported _ _ _).bind_eq fun symbol => ?_
      split <;> exact .refl _

end keeps

theorem keeps_within (env : Environment) (lib : Bytes → Except Bytes ParsedFile) (n : Nat) :
    (within env n).Keeps env lib := by
  induction n with
  | zero =>
    refine ⟨fun depth file name => ?_, fun depth path name visited => ?_⟩
    · unfold within bindingWithin
      exact .refl _
    · unfold within followExport
      exact .refl _
  | succ n ih =>
    rw [within_succ]
    exact ih.round

/-- A name that was found was looked up within the limit. -/
theorem bindingWithin_alone (n : Nat) (depth : Depth) (file : ParsedFile) (name : Bytes) :
    Lockstep (alone env lib)
      (Same fun found => ∀ symbol, found = some symbol → depth ≤ env.options.maxDepth)
      (bindingWithin env n depth file name) (bindingWithin env n depth file name) := by
  refine .strict fun s t h => ?_
  obtain ⟨heq, hrelated⟩ := ((keeps_within env lib n).binding depth file name).of_strict h
  exact ⟨⟨heq, fun _ hfound => le_of_binding hfound⟩, hrelated⟩

end Lookup

/-- Members one after the other are taken alike if each one is, at its own depth. -/
theorem members_alone {step step' : Depth → Symbol → Bytes → SessionM (Option Symbol)}
    {path : List Bytes} (h : ∀ i < path.length, ∀ symbol member,
      Lockstep (alone env lib) Eq (step (depth + .ofNat i) symbol member)
        (step' (depth + .ofNat i) symbol member)) (symbol : Symbol) :
    Lockstep (alone env lib) Eq (members step depth symbol path)
      (members step' depth symbol path) := by
  induction path generalizing depth symbol with
  | nil => exact .refl _
  | cons member rest ih =>
    have hfirst := h 0 (Nat.zero_lt_succ _) symbol member
    rw [show UInt32.ofNat 0 = 0 from rfl, UInt32.add_zero] at hfirst
    refine hfirst.bind_eq fun found => ?_
    split
    · exact .refl _
    · refine ih (fun i hi => ?_) _
      have hnext := h (i + 1) (Nat.succ_lt_succ hi)
      rwa [UInt32.ofNat_add, UInt32.add_comm (.ofNat i), ← UInt32.add_assoc] at hnext

end Reference

/-- The paths that members of object literals stand for. -/
def Outline.valuePaths (o : Outline) : List (List Bytes) :=
  o.declarations.flatMap fun d => (d.properties.getD []).map (·.path)

/-- No member of an object literal in these files stands for a path with more members behind its
first name. -/
def Session.PathsWithin (longest : Nat) (lib : Bytes → Except Bytes ParsedFile) : Prop :=
  ∀ ⦃path file⦄, lib path = .ok file →
    ∀ value ∈ file.outline.valuePaths, value.tail.length ≤ longest

namespace Reference

open Session

variable {env : Environment} {lib : Bytes → Except Bytes ParsedFile} {l : Lookup} {depth : Depth}
  {longest : Nat}

theorem property?_valuePaths {o : Outline} {name member : Bytes} {p : Property}
    (h : property? o name member = some p) : p.path ∈ o.valuePaths := by
  obtain ⟨d, hd, h⟩ := Option.bind_eq_some_iff.1 h
  obtain ⟨properties, hp, h⟩ := Option.bind_eq_some_iff.1 h
  refine List.mem_flatMap.2 ⟨d, List.mem_of_find?_eq_some hd, ?_⟩
  rw [hp]
  exact List.mem_map_of_mem (List.mem_of_find?_eq_some h)

namespace Lookup

/-- A member starts names and exports one deeper; if the limit lets a name be found, it goes on with
members from the depth behind that. -/
theorem round_member_alone (hpaths : PathsWithin longest lib) {m : Nat}
    (hb : l.binding (depth + 1) = bindingWithin env m (depth + 1))
    (hf : l.follow (depth + 1) = followExport env m (depth + 1))
    (hm : depth + 1 ≤ env.options.maxDepth → ∀ i < longest, ∀ symbol member,
      Lockstep (alone env lib) Eq (l.member (depth + 2 + .ofNat i) symbol member)
        (memberWithin env m (depth + 2 + .ofNat i) symbol member)) (base : Symbol)
    (member : Bytes) :
    Lockstep (alone env lib) Eq ((l.round env).member depth base member)
      (((within env m).round env).member depth base member) := by
  have hkeeps := keeps_within env lib m
  have hf : l.follow (depth + 1) = (within env m).follow (depth + 1) := hf
  have hexported : Reference.exported l.follow (depth + 1) =
      Reference.exported (within env m).follow (depth + 1) := by
    unfold Reference.exported
    rw [hf]
  have hnamesake : byFileName env l.follow (depth + 1) =
      byFileName env (within env m).follow (depth + 1) := by
    unfold byFileName Reference.exported
    rw [hf]
  cases base with
  | external specifier name => exact .refl _
  | module file =>
    unfold round nextMember
    dsimp only
    rw [hexported, hnamesake]
    refine (hkeeps.exported _ _ _).bind_eq fun symbol => ?_
    split
    · exact .refl _
    · exact hkeeps.byFileName _ _ _
  | declared path name =>
    unfold round nextMember
    dsimp only
    rw [hb, hnamesake]
    refine (load_alone path).bind_same fun file hfile => ?_
    split
    · exact .refl _
    · split
      · exact hkeeps.byFileName _ _ _
      · exact .refl _
      · rename_i first rest span hproperty
        have hlength := hpaths hfile.symm _ (property?_valuePaths hproperty)
        refine (bindingWithin_alone m _ _ first).bind_same fun found hle => ?_
        split
        · exact .refl _
        · exact members_alone (fun i hi => hm (hle _ rfl) i (hi.trans_le hlength)) _

theorem toNat_add_add {limit i : Nat} (hd : (depth + 1).toNat ≤ limit) (hi : i < longest)
    (hlimit : limit + longest + 2 < UInt32.size) :
    (depth + 2 + .ofNat i + 1).toNat = (depth + 1).toNat + 2 + i := by
  have htwo : depth + 2 = depth + 1 + 1 := (UInt32.add_assoc depth 1 1).symm
  have hsize : UInt32.size = 4294967296 := rfl
  have hnat : (UInt32.ofNat i).toNat = i := UInt32.toNat_ofNat_of_lt (by omega)
  rw [htwo]
  simp only [UInt32.toNat_add, UInt32.toNat_ofNat, hnat] at hd ⊢
  omega

/-- Members do not depend on what stands behind enough links. -/
theorem links_member (hpaths : PathsWithin longest lib)
    (hlimit : env.options.maxDepth.toNat + longest + 2 < UInt32.size) {n m : Nat}
    (hn : Reaches env n (depth + 1)) (hm : Reaches env m (depth + 1)) (base : Symbol)
    (member : Bytes) :
    Lockstep (alone env lib) Eq ((l.links env (n + 1)).member depth base member)
      (memberWithin env (m + 1) depth base member) := by
  induction n generalizing m depth base member with
  | zero => exact absurd hn.1 (Nat.lt_irrefl 0)
  | succ n ih =>
    have hcongr := links_congr l (within env 0) (by omega) hn hm
    rw [links_within] at hcongr
    have hround : memberWithin env (m + 1) = ((within env m).round env).member :=
      congrArg Lookup.member (within_succ env m)
    rw [hround]
    refine round_member_alone hpaths hcongr.1 hcongr.2 (fun hd i hi symbol member => ?_) base member
    have hle := UInt32.le_iff_toNat_le.1 hd
    obtain ⟨m, rfl⟩ : ∃ k, m = k + 1 := ⟨m - 1, by have := hm.1; omega⟩
    have hdepth := toNat_add_add hle hi hlimit
    have hn := hn.2
    have hm := hm.2
    exact ih ⟨by omega, by omega⟩ ⟨by omega, by omega⟩ symbol member

/-- From a session the lookups give all that the project's lookups give. -/
structure Complete (env : Environment) (s : Session) (l : Lookup) : Prop where
  binding : ∀ depth file name,
    l.binding depth file name s = Reference.binding env depth file name s
  exported : ∀ depth file name, l.exported depth file name s = ofExport env depth file name s
  member : ∀ depth base member,
    l.member depth base member s = Reference.member env depth base member s
  usage : ∀ file path, l.usage file path s = Reference.usage env file path s

theorem limit_lt_linkBound (limit : Depth) : limit.toNat + 3 < linkBound := by
  have hlimit := limit.toNat_lt
  unfold linkBound
  omega

theorem links_complete {s : Session} (hpaths : PathsWithin longest (s.library env))
    (hlimit : env.options.maxDepth.toNat + longest + 2 < UInt32.size) {n : Nat}
    (hn : env.options.maxDepth.toNat + 3 ≤ n) : (l.links env n).Complete env s := by
  obtain ⟨n, rfl⟩ : ∃ k, n = k + 1 := ⟨n - 1, by omega⟩
  have hbound := limit_lt_linkBound env.options.maxDepth
  have hcongr (depth : Depth) :
      (l.links env (n + 1)).binding depth = Reference.binding env depth ∧
        (l.links env (n + 1)).follow depth = followExport env linkBound depth := by
    have hn : Reaches env (n + 1) depth := reaches_of_le (by omega) depth
    have hbound : Reaches env linkBound depth := reaches_of_le (by omega) depth
    have h := links_congr l (within env 0) (by omega) hn hbound
    rwa [links_within] at h
  have hmember (depth : Depth) (base : Symbol) (member : Bytes) :
      Lockstep (alone env (s.library env)) Eq ((l.links env (n + 1)).member depth base member)
        (Reference.member env depth base member) :=
    links_member (m := linkBound - 1) hpaths hlimit (reaches_of_le (by omega) _)
      (reaches_of_le (by omega) _) base member
  have hpath (file : ParsedFile) (path : List Bytes) :
      Lockstep (alone env (s.library env)) Eq ((l.links env (n + 1)).ofPath 0 file path)
        ((within env linkBound).ofPath 0 file path) := by
    cases path with
    | nil => exact .refl _
    | cons first rest =>
      unfold ofPath
      rw [(hcongr 0).1]
      refine ((keeps_within env _ linkBound).binding 0 file first).bind_eq fun found => ?_
      split
      · exact .refl _
      · exact members_alone (fun i _ => hmember (0 + 1 + .ofNat i)) _
  exact {
    binding := fun depth file name => by rw [(hcongr depth).1]
    exported := fun depth file name => by
      unfold exported Reference.exported
      rw [(hcongr depth).2]
      rfl
    member := fun depth base member => (hmember depth base member).run_eq rfl
    usage := fun file path => by
      rw [usage_within]
      exact usage_congr ((hpath file path).run_eq rfl) }

/-- Looking up comes to an end, also where imports, exports and object literals go round: below the
limit every name and every export starts lookups at the next depth only, and beyond it none. So
chains have at most three links more than the limit has depths: the lookups that stand behind so
many are never asked, and all answers are those of the project. -/
theorem lookups_end (env : Environment) (s : Session) (longest : Nat)
    (hlimit : env.options.maxDepth.toNat + longest + 2 < UInt32.size)
    (hpaths : PathsWithin longest (s.library env)) :
    (∀ depth ≤ env.options.maxDepth, (depth + 1).toNat = depth.toNat + 1) ∧
    (∀ (l l' : Lookup) (depth : Depth),
      (depth ≤ env.options.maxDepth → l.binding (depth + 1) = l'.binding (depth + 1) ∧
        l.follow (depth + 1) = l'.follow (depth + 1)) →
      (l.round env).binding depth = (l'.round env).binding depth ∧
        (l.round env).follow depth = (l'.round env).follow depth) ∧
    ∀ (l : Lookup) (n : Nat), env.options.maxDepth.toNat + 3 ≤ n →
      (l.links env n).Complete env s := by
  refine ⟨fun depth hd => ?_, fun l l' depth h => ?_, fun l n hn => ?_⟩
  · have hle := UInt32.le_iff_toNat_le.1 hd
    exact toNat_add_one (by omega)
  · exact ⟨round_binding_congr fun hd => (h hd).2,
      round_follow_congr (fun hd => (h hd).1) fun hd => (h hd).2⟩
  · exact links_complete hpaths hlimit hn

/-- A project in which an export goes round through two files, and an object refers to itself. -/
def circular : Environment where
  options := {}
  files := ((FileSystem.bare (utf8 "/proj")).install (utf8 "/proj/a.tsx")
      (utf8 "import \x7bX\x7d from './b'; export \x7bX\x7d; const A = \x7bB: A.B\x7d;")).install
    (utf8 "/proj/b.tsx") (utf8 "export \x7bX\x7d from './a';")

/-- No member of an object literal in the text stands for a path with more members. -/
def hasPathsWithin (longest : Nat) (text : Bytes) : Bool :=
  [true, false].all fun elements => (Outline.read elements text).toOption.all fun x =>
    x.1.valuePaths.all fun value => decide (value.tail.length ≤ longest)

theorem pathsWithin_disk {env : Environment} {longest : Nat}
    (h : env.files.texts.all (hasPathsWithin longest) = true) :
    PathsWithin longest (disk env) := by
  intro path file hf value hvalue
  obtain ⟨text, htext, -, -, hp⟩ := disk_eq_ok hf
  have hread := Outline.read_of_parse hp
  generalize (Source.dialect ⟨path, text⟩).allowsElements = elements at hread
  have hall := List.all_eq_true.1 h text (FileSystem.read?_mem_texts htext)
  have hpaths := List.all_eq_true.1 hall elements (by cases elements <;> simp)
  rw [hread] at hpaths
  simpa using List.all_eq_true.1 hpaths value hvalue

theorem lookups_end_circular :
    circular.options.maxDepth.toNat + 1 + 2 < UInt32.size ∧
    PathsWithin 1 ((fresh (.ofLevel .off)).library circular) ∧
    ∀ (l : Lookup) (file : ParsedFile) (path : List Bytes),
      (l.links circular 35).usage file path (fresh (.ofLevel .off)) =
        Reference.usage circular file path (fresh (.ofLevel .off)) := by
  have hlimit : circular.options.maxDepth.toNat + 1 + 2 < UInt32.size := by decide
  have hpaths : PathsWithin 1 ((fresh (.ofLevel .off)).library circular) :=
    pathsWithin_disk (by decide +kernel)
  obtain ⟨-, -, hcomplete⟩ := lookups_end circular (fresh (.ofLevel .off)) 1 hlimit hpaths
  exact ⟨hlimit, hpaths, fun l => (hcomplete l 35 (by decide)).usage⟩

end Lookup

end Reference

end JsxPresence
