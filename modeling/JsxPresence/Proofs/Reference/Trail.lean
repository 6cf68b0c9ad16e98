import JsxPresence.Proofs.Presence.Reachability
import JsxPresence.Proofs.Reference.Export

namespace JsxPresence

theorem Session.exists_disk (env : Environment) (path : Bytes)
    (h : (disk env path).isOk = true) : ∃ file, disk env path = .ok file ∧ file.path = path := by
  cases hf : disk env path with
  | error message =>
    rw [hf] at h
    cases h
  | ok file => exact ⟨file, rfl, (disk_proper env hf).1⟩

namespace Reference

open Session

/-- The name that an import asks another file of the project for. -/
def importFrom? (env : Environment) (path : Bytes) (found : Binding) : Option Wanted :=
  if found.kind = .wholeModule then none
  else (fileOf? env found.specifier path).map (⟨·, found.imported⟩)

/-- What is next for a name that is wanted from a file: the file declares it, or another name is
wanted, so many links deeper. -/
inductive Hop where
  | declared (name : Bytes)
  | on (next : Wanted) (links : Nat)
deriving DecidableEq

/-- The hop that a file makes for a name. Of the `export *` only the first one counts here. -/
def hopFrom? (env : Environment) (file : ParsedFile) (name : Bytes) : Option Hop :=
  match explicitExport? file.outline name with
  | some (.fromHere localName _) =>
    if localName.isEmpty then some (.declared (utf8 "default"))
    else
      match (Symbols.ofOutline file.outline).import? localName with
      | none => some (.declared localName)
      | some found => (importFrom? env file.path found).map (.on · 2)
  | some (.fromFile imported _ specifier) =>
    (fileOf? env specifier file.path).map fun target => .on ⟨target, imported⟩ 1
  | some (.moduleFrom _ _) | some (.allFrom _) => none
  | none =>
    if name = utf8 "default" then none
    else do
      let specifier ← (starSpecifiers file.outline).head?
      let target ← fileOf? env specifier file.path
      return .on ⟨target, name⟩ 1

/-- The hop from a name that is wanted, if its file can be read. -/
def hop? (env : Environment) (lib : Bytes → Except Bytes ParsedFile) (w : Wanted) : Option Hop :=
  (lib w.file).toOption.bind fun file => hopFrom? env file w.name

/-- Hops from a name that is wanted to the file and name of a declaration, with all that is wanted
on the way and the number of links. -/
inductive Trail (env : Environment) (lib : Bytes → Except Bytes ParsedFile) (file name : Bytes) :
    Wanted → List Wanted → Nat → Prop
  | stop {w : Wanted} : w.file = file → hop? env lib w = some (.declared name) →
    Trail env lib file name w [w] 0
  | hop {w next : Wanted} {links cost : Nat} {ws : List Wanted} :
    hop? env lib w = some (.on next links) → Trail env lib file name next ws cost →
    Trail env lib file name w (w :: ws) (links + cost)

/-- What the import of a name asks for, if the file that imports it can be read. -/
def asked? (env : Environment) (lib : Bytes → Except Bytes ParsedFile)
    (importer localName : Bytes) : Option Wanted := do
  let file ← (lib importer).toOption
  let found ← (Symbols.ofOutline file.outline).import? localName
  importFrom? env file.path found

/-- An import leads to a declaration: a trail starts at what it asks for, never asks a file twice
for one name and has no more links than the depth limit allows. -/
def Leads (env : Environment) (lib : Bytes → Except Bytes ParsedFile)
    (importer localName file name : Bytes) : Prop :=
  ∃ w ws cost, asked? env lib importer localName = some w ∧ Trail env lib file name w ws cost ∧
    ws.Nodup ∧ (∀ v ∈ ws, byte '#' ∉ v.file) ∧ 1 + cost ≤ env.options.maxDepth.toNat

variable {env : Environment} {lib : Bytes → Except Bytes ParsedFile}
  {means : ParsedFile → List Bytes → Option ComponentId}

theorem importFrom?_eq_some {path : Bytes} {found : Binding} {w : Wanted}
    (h : importFrom? env path found = some w) :
    found.kind ≠ .wholeModule ∧ fileOf? env found.specifier path = some w.file ∧
      found.imported = w.name := by
  unfold importFrom? at h
  split at h
  · cases h
  · rename_i hkind
    obtain ⟨target, htarget, rfl⟩ := Option.map_eq_some_iff.1 h
    exact ⟨hkind, htarget, rfl⟩

theorem hop?_eq_some {w : Wanted} {hop : Hop} (h : hop? env lib w = some hop) :
    ∃ file, lib w.file = .ok file ∧ hopFrom? env file w.name = some hop := by
  unfold hop? at h
  cases hf : lib w.file with
  | error message =>
    rw [hf] at h
    cases h
  | ok file =>
    rw [hf] at h
    exact ⟨file, rfl, h⟩

theorem asked?_eq_some {importer : ParsedFile} (hf : lib importer.path = .ok importer)
    {localName : Bytes} {w : Wanted} (h : asked? env lib importer.path localName = some w) :
    ∃ found, (Symbols.ofOutline importer.outline).import? localName = some found ∧
      importFrom? env importer.path found = some w := by
  unfold asked? at h
  rw [hf] at h
  exact Option.bind_eq_some_iff.1 h

/-- What can be behind a hop to another name. -/
theorem hopFrom?_on {file : ParsedFile} {name : Bytes} {next : Wanted} {links : Nat}
    (h : hopFrom? env file name = some (.on next links)) :
    (∃ exported specifier, links = 1 ∧
      explicitExport? file.outline name = some (.fromFile next.name exported specifier) ∧
      fileOf? env specifier file.path = some next.file) ∨
    (∃ localName exported found, links = 2 ∧
      explicitExport? file.outline name = some (.fromHere localName exported) ∧
      localName.isEmpty = false ∧
      (Symbols.ofOutline file.outline).import? localName = some found ∧
      importFrom? env file.path found = some next) ∨
    (∃ specifier rest, links = 1 ∧ next.name = name ∧
      explicitExport? file.outline name = none ∧ name ≠ utf8 "default" ∧
      starSpecifiers file.outline = specifier :: rest ∧
      fileOf? env specifier file.path = some next.file) := by
  unfold hopFrom? at h
  split at h
  · rename_i localName exported hexplicit
    split at h
    · cases h
    rename_i hname
    split at h
    · cases h
    · rename_i found himport
      obtain ⟨w, hw, hon⟩ := Option.map_eq_some_iff.1 h
      cases hon
      exact .inr (.inl ⟨localName, exported, found, rfl, hexplicit, by simpa using hname, himport,
        hw⟩)
  · rename_i imported exported specifier hexplicit
    obtain ⟨target, htarget, hon⟩ := Option.map_eq_some_iff.1 h
    cases hon
    exact .inl ⟨exported, specifier, rfl, hexplicit, htarget⟩
  · cases h
  · cases h
  · rename_i hexplicit
    split at h
    · cases h
    rename_i hname
    obtain ⟨specifier, hstar, h⟩ := Option.bind_eq_some_iff.1 h
    obtain ⟨target, htarget, hon⟩ := Option.bind_eq_some_iff.1 h
    cases hon
    obtain ⟨rest, hrest⟩ := List.head?_eq_some_iff.1 hstar
    exact .inr (.inr ⟨specifier, rest, rfl, rfl, hexplicit, hname, hrest, htarget⟩)

/-- What can be behind the end of a trail. -/
theorem hopFrom?_declared {file : ParsedFile} {name declared : Bytes}
    (h : hopFrom? env file name = some (.declared declared)) :
    ∃ localName exported,
      explicitExport? file.outline name = some (.fromHere localName exported) ∧
      ((localName.isEmpty = true ∧ declared = utf8 "default") ∨
        (localName.isEmpty = false ∧ declared = localName ∧
          (Symbols.ofOutline file.outline).import? localName = none)) := by
  unfold hopFrom? at h
  split at h
  · rename_i localName exported hexplicit
    refine ⟨localName, exported, hexplicit, ?_⟩
    split at h
    · rename_i hname
      cases h
      exact .inl ⟨hname, rfl⟩
    · rename_i hname
      split at h
      · rename_i himport
        cases h
        exact .inr ⟨by simpa using hname, rfl, himport⟩
      · obtain ⟨w, -, hon⟩ := Option.map_eq_some_iff.1 h
        cases hon
  · obtain ⟨target, -, hon⟩ := Option.map_eq_some_iff.1 h
    cases hon
  · cases h
  · cases h
  · split at h
    · cases h
    · obtain ⟨specifier, -, h⟩ := Option.bind_eq_some_iff.1 h
      obtain ⟨target, -, hon⟩ := Option.bind_eq_some_iff.1 h
      cases hon

section binding

variable {fuel : Nat} {depth : Depth} {file : ParsedFile} {name : Bytes}

/-- A name that is not imported means at most a declaration of its own file. -/
theorem bindingWithin_of_not_imported (hf : lib file.path = .ok file)
    (h : (Symbols.ofOutline file.outline).import? name = none) :
    ∃ symbol, Gives env lib means (bindingWithin env fuel depth file name) symbol ∧
      symbol.getD (.declared file.path name) = .declared file.path name := by
  cases fuel with
  | zero =>
    unfold bindingWithin
    exact ⟨none, .pure none, rfl⟩
  | succ fuel =>
    unfold bindingWithin
    cases hcut : decide (env.options.maxDepth < depth) with
    | true =>
      refine ⟨none, (isCut_gives depth file.path).bind ?_, rfl⟩
      rw [hcut, if_pos rfl]
      exact .pure none
    | false =>
      refine ⟨if (file.outline.declaration? name).isSome then some (.declared file.path name)
        else none, (isCut_gives depth file.path).bind ?_, ?_⟩
      · rw [hcut, if_neg (by decide)]
        refine (symbolsOf_gives hf).bind ?_
        rw [h]
        dsimp only
        split <;> exact .pure _
      · split <;> rfl

/-- An imported name means what the other file exports under the name that is asked for. -/
theorem bindingWithin_of_import (hu : Unambiguous env lib) (hf : lib file.path = .ok file)
    (hcut : depth ≤ env.options.maxDepth) {found : Binding}
    (h : (Symbols.ofOutline file.outline).import? name = some found) {w : Wanted}
    (hw : importFrom? env file.path found = some w) {x : Option Symbol × List Bytes}
    (hx : Gives env lib means (followExport env fuel (depth + 1) w.file w.name []) x) :
    Gives env lib means (bindingWithin env (fuel + 1) depth file name) x.1 := by
  obtain ⟨hkind, htarget, himported⟩ := importFrom?_eq_some hw
  unfold bindingWithin
  refine (isCut_gives depth file.path).bind ?_
  rw [if_neg (by simpa using hcut)]
  refine (symbolsOf_gives hf).bind ?_
  rw [h]
  refine (ofSpecifier_gives hu hf (import?_specifier h)).bind ?_
  rw [meant_of_fileOf? htarget, himported]
  dsimp only
  rw [if_neg hkind]
  exact hx.bind (.pure _)

end binding

theorem Depth.toNat_add_one {depth limit : Depth} (h : depth.toNat < limit.toNat) :
    (depth + 1).toNat = depth.toNat + 1 := by
  have hlimit := limit.toNat_lt
  have hone : (1 : Depth).toNat = 1 := rfl
  rw [UInt32.toNat_add, hone]
  exact Nat.mod_eq_of_lt (by omega)

section hops

variable {fuel : Nat} {depth : Depth} {file : ParsedFile} {name : Bytes}
  {visited visited' : List Bytes}

/-- A declared name is given, whether or not the depth limit lets its file be searched for it. -/
theorem exportOf_of_declared (hf : lib file.path = .ok file) {declared : Bytes}
    (h : hopFrom? env file name = some (.declared declared)) :
    Gives env lib means (exportOf env fuel depth file name visited)
      (some (.declared file.path declared), visited) := by
  obtain ⟨localName, exported, hexplicit, hends⟩ := hopFrom?_declared h
  unfold exportOf nextExport
  rw [hexplicit]
  dsimp only
  obtain ⟨hname, rfl⟩ | ⟨hname, rfl, himport⟩ := hends
  · rw [if_pos hname]
    exact .pure _
  · obtain ⟨symbol, hsymbol, hdeclared⟩ : ∃ symbol,
        Gives env lib means (bindingWithin env fuel (depth + 1) file declared) symbol ∧
          symbol.getD (.declared file.path declared) = .declared file.path declared :=
      bindingWithin_of_not_imported hf himport
    rw [if_neg (by simp [hname])]
    refine hsymbol.bind ?_
    rw [hdeclared]
    exact .pure _

/-- A re-export and the first `export *` go on with what was asked for before. -/
theorem exportOf_of_on_one (hu : Unambiguous env lib) (hf : lib file.path = .ok file)
    {next : Wanted} (h : hopFrom? env file name = some (.on next 1)) {symbol : Symbol}
    (hx : Gives env lib means (followExport env fuel (depth + 1) next.file next.name visited)
      (some symbol, visited')) :
    Gives env lib means (exportOf env fuel depth file name visited) (some symbol, visited') := by
  obtain ⟨exported, specifier, -, hexplicit, htarget⟩ | ⟨_, _, _, hlinks, -⟩ |
    ⟨specifier, rest, -, rfl, hexplicit, hname, hstar, htarget⟩ := hopFrom?_on h
  · have hmem := explicitExport?_specifier hexplicit rfl
    unfold exportOf nextExport
    rw [hexplicit]
    refine (ofSpecifier_gives hu hf hmem).bind ?_
    rw [meant_of_fileOf? htarget]
    exact hx
  · cases hlinks
  · have hmem := starSpecifiers_subset file.outline specifier (by simp [hstar])
    unfold exportOf nextExport
    rw [hexplicit]
    dsimp only
    rw [if_neg hname, hstar]
    unfold firstStar
    refine (ofSpecifier_gives hu hf hmem).bind ?_
    rw [meant_of_fileOf? htarget]
    exact hx.bind (.pure _)

/-- An export of an imported name starts anew. -/
theorem exportOf_of_on_two (hu : Unambiguous env lib) (hf : lib file.path = .ok file)
    (hcut : depth + 1 ≤ env.options.maxDepth) {next : Wanted}
    (h : hopFrom? env file name = some (.on next 2)) {symbol : Symbol}
    (hx : Gives env lib means (followExport env fuel (depth + 1 + 1) next.file next.name [])
      (some symbol, visited')) :
    Gives env lib means (exportOf env (fuel + 1) depth file name visited)
      (some symbol, visited) := by
  obtain ⟨_, _, hlinks, -⟩ | ⟨localName, exported, found, -, hexplicit, hname, himport, hw⟩ |
    ⟨_, _, hlinks, -⟩ := hopFrom?_on h
  · cases hlinks
  · unfold exportOf nextExport
    rw [hexplicit]
    dsimp only
    rw [if_neg (by simp [hname])]
    exact (bindingWithin_of_import hu hf hcut himport hw hx).bind (.pure _)
  · cases hlinks

end hops

/-- Following a trail gives its declaration: by induction on the trail, with the keys of what is
still wanted not among those asked for. -/
theorem followExport_of_trail (hp : Proper lib) (hu : Unambiguous env lib) {file name : Bytes}
    {w : Wanted} {ws : List Wanted} {cost : Nat} (h : Trail env lib file name w ws cost)
    {fuel : Nat} {depth : Depth} {visited : List Bytes} (hfuel : cost < fuel)
    (hdepth : depth.toNat + cost ≤ env.options.maxDepth.toNat) (hnodup : ws.Nodup)
    (hplain : ∀ v ∈ ws, byte '#' ∉ v.file) (hnew : ∀ v ∈ ws, v.key ∉ visited) :
    ∃ visited', Gives env lib means (followExport env fuel depth w.file w.name visited)
      (some (.declared file name), visited') := by
  induction h generalizing fuel depth visited with
  | @stop w hw hhop =>
    obtain ⟨f, hf, hhop⟩ := hop?_eq_some hhop
    obtain ⟨fuel, rfl⟩ : ∃ k, fuel = k + 1 := ⟨fuel - 1, by omega⟩
    have hpath := (hp hf).1
    have hcut : depth ≤ env.options.maxDepth := UInt32.le_iff_toNat_le.2 (by omega)
    have hgives : Gives env lib means
        (exportOf env fuel depth f w.name (w.key :: visited)) (some (.declared f.path name), _) :=
      exportOf_of_declared (by rw [hpath, hf]) hhop
    rw [hpath, hw] at hgives
    exact ⟨_, followExport_of_read hcut (hnew w List.mem_cons_self) hf hgives⟩
  | @hop w next links cost ws hhop htrail ih =>
    obtain ⟨f, hf, hhop⟩ := hop?_eq_some hhop
    have hpath := (hp hf).1
    have hf' : lib f.path = .ok f := by rw [hpath, hf]
    have hcut : depth ≤ env.options.maxDepth := UInt32.le_iff_toNat_le.2 (by omega)
    have hw := hnew w List.mem_cons_self
    obtain ⟨hnotin, hnodup⟩ := List.nodup_cons.1 hnodup
    have hplain' : ∀ v ∈ ws, byte '#' ∉ v.file := fun v hv => hplain v (List.mem_cons_of_mem _ hv)
    have hlinks : links = 1 ∨ links = 2 := by
      obtain ⟨_, _, h, -⟩ | ⟨_, _, _, h, -⟩ | ⟨_, _, h, -⟩ := hopFrom?_on hhop
      · exact .inl h
      · exact .inr h
      · exact .inl h
    obtain rfl | rfl := hlinks
    · obtain ⟨fuel, rfl⟩ : ∃ k, fuel = k + 1 := ⟨fuel - 1, by omega⟩
      have hlt : depth.toNat < env.options.maxDepth.toNat := by omega
      have hnext := Depth.toNat_add_one hlt
      have hnew' : ∀ v ∈ ws, v.key ∉ w.key :: visited := by
        intro v hv hmem
        rcases List.mem_cons.1 hmem with hkey | hmem
        · have hvw := Wanted.key_inj (hplain' v hv) (hplain w List.mem_cons_self) hkey
          exact hnotin (hvw ▸ hv)
        · exact hnew v (List.mem_cons_of_mem _ hv) hmem
      obtain ⟨visited', hgives⟩ : ∃ visited', Gives env lib means
          (followExport env fuel (depth + 1) next.file next.name (w.key :: visited))
          (some (.declared file name), visited') :=
        ih (by omega) (by omega) hnodup hplain' hnew'
      exact ⟨visited', followExport_of_read hcut hw hf
        (exportOf_of_on_one hu hf' hhop hgives)⟩
    · obtain ⟨fuel, rfl⟩ : ∃ k, fuel = k + 1 + 1 := ⟨fuel - 2, by omega⟩
      have hlt : depth.toNat < env.options.maxDepth.toNat := by omega
      have hnext := Depth.toNat_add_one hlt
      have hlt' : (depth + 1).toNat < env.options.maxDepth.toNat := by omega
      have hnext' := Depth.toNat_add_one hlt'
      have hcut' : depth + 1 ≤ env.options.maxDepth := UInt32.le_iff_toNat_le.2 (by omega)
      obtain ⟨visited', hgives⟩ : ∃ visited', Gives env lib means
          (followExport env fuel (depth + 1 + 1) next.file next.name [])
          (some (.declared file name), visited') :=
        ih (by omega) (by omega) hnodup hplain' fun _ _ hmem => by cases hmem
      exact ⟨_, followExport_of_read hcut hw hf
        (exportOf_of_on_two hu hf' hcut' hhop hgives)⟩

theorem ofPath_of_leads (hp : Proper lib) (hu : Unambiguous env lib) {importer : ParsedFile}
    (hf : lib importer.path = .ok importer) {localName file name : Bytes}
    (h : Leads env lib importer.path localName file name) :
    Gives env lib means (ofPath env 0 importer [localName]) (some (.declared file name)) := by
  obtain ⟨w, ws, cost, hasked, htrail, hnodup, hplain, hcost⟩ := h
  obtain ⟨found, himport, hw⟩ := asked?_eq_some hf hasked
  have hlimit := env.options.maxDepth.toNat_lt
  have hfuel : cost < linkBound - 1 := by
    unfold linkBound
    omega
  obtain ⟨visited, hgives⟩ : ∃ visited, Gives env lib means
      (followExport env (linkBound - 1) (0 + 1) w.file w.name [])
      (some (.declared file name), visited) :=
    followExport_of_trail hp hu htrail hfuel (by simpa using hcost) hnodup hplain
      fun _ _ hmem => by cases hmem
  have hbinding : Gives env lib means (binding env 0 importer localName)
      (some (.declared file name)) :=
    bindingWithin_of_import hu hf (UInt32.le_iff_toNat_le.2 (by simp)) himport hw hgives
  exact hbinding.bind (.pure _)

/-- A name of a file can be asked for: the session knows nothing wrong about the project, and what
it keeps under the name's key, if anything, is about the name. -/
structure Answerable (env : Environment) (base : Session) (file : ParsedFile) (name : Bytes)
    (s : Session) : Prop where
  read : base.library env file.path = .ok file
  follows : Follows env base s
  own : Name.Spelled [name] ∨ s.usages.get? (usageKey file [name]) = none

theorem usage_fst_of_leads {base s : Session} (h : Stable env base) {importer : ParsedFile}
    {localName file name : Bytes} (ha : Answerable env base importer localName s)
    (hl : Leads env (base.library env) importer.path localName file name) :
    (usage env importer [localName] s).1 = some ⟨file, name, false⟩ := by
  have hpath : Gives env (base.library env) (meaning env base)
      (ofPath env 0 importer [localName]) (some (.declared file name)) :=
    ofPath_of_leads h.proper h.unambiguous ha.read hl
  rcases ha.own with hspelled | hnew
  · rw [(usage_gives h.meaning ha.read hspelled s ha.follows).1]
    unfold meaning
    rw [(hpath base h.coherent).1]
    rfl
  · rw [usage_of_new rfl hnew]
    change (ofPath env 0 importer [localName] s).1.bind Symbol.componentId? = _
    rw [(hpath s ha.follows).1]
    rfl

/-- The identity of a component does not depend on the way it is imported: an import that leads to a
declaration means it, and so does every other one that leads there, whenever they are asked for. -/
theorem usage_of_leads {base : Session} (h : Stable env base) {f : ParsedFile} {x : Bytes}
    {s : Session} (hf : Answerable env base f x s) {file name : Bytes}
    (hx : Leads env (base.library env) f.path x file name) :
    (usage env f [x] s).1 = some ⟨file, name, false⟩ ∧
      ∀ g y t, Answerable env base g y t → Leads env (base.library env) g.path y file name →
        (usage env g [y] t).1 = (usage env f [x] s).1 := by
  refine ⟨usage_fst_of_leads h hf hx, fun g y t hg hy => ?_⟩
  rw [usage_fst_of_leads h hf hx, usage_fst_of_leads h hg hy]

/-- A project in which a declaration is imported through a re-export, an import that is exported
again and an `export *`. -/
def detour : Environment where
  options := {}
  files := (((((FileSystem.bare (utf8 "/proj")).install (utf8 "/proj/a.tsx")
      (utf8 "import \x7bX\x7d from './b'; <X/>")).install (utf8 "/proj/b.tsx")
      (utf8 "export \x7bP as X\x7d from './c';")).install (utf8 "/proj/c.tsx")
      (utf8 "import \x7bQ as R\x7d from './d'; export \x7bR as P\x7d;")).install
    (utf8 "/proj/d.tsx") (utf8 "export * from './e';")).install (utf8 "/proj/e.tsx")
      (utf8 "const T = 1; export \x7bT as Q\x7d;")

theorem usage_of_leads_detour :
    Stable detour (fresh (.ofLevel .off)) ∧
    ∃ f, Answerable detour (fresh (.ofLevel .off)) f (utf8 "X") (fresh (.ofLevel .off)) ∧
      Leads detour (disk detour) f.path (utf8 "X") (utf8 "/proj/e.tsx") (utf8 "T") ∧
      (usage detour f [utf8 "X"] (fresh (.ofLevel .off))).1 =
        some ⟨utf8 "/proj/e.tsx", utf8 "T", false⟩ := by
  have hu : Unambiguous detour (disk detour) :=
    unambiguous_of_newline_free fun _ _ hf =>
      newline_not_mem_of_plainSpecifiers (by decide +kernel) hf
  have hstable := fresh_stable (.ofLevel .off) hu
  obtain ⟨f, hf, hpath⟩ := exists_disk detour (utf8 "/proj/a.tsx") (by decide +kernel)
  have hask : Answerable detour (fresh (.ofLevel .off)) f (utf8 "X") (fresh (.ofLevel .off)) :=
    ⟨by rw [hpath]; exact hf, hstable.coherent, .inr rfl⟩
  have htrail : Trail detour (disk detour) (utf8 "/proj/e.tsx") (utf8 "T")
      ⟨utf8 "/proj/b.tsx", utf8 "X"⟩
      [⟨utf8 "/proj/b.tsx", utf8 "X"⟩, ⟨utf8 "/proj/c.tsx", utf8 "P"⟩,
        ⟨utf8 "/proj/d.tsx", utf8 "Q"⟩, ⟨utf8 "/proj/e.tsx", utf8 "Q"⟩] (1 + (2 + (1 + 0))) :=
    .hop (by decide +kernel) (.hop (by decide +kernel) (.hop (by decide +kernel)
      (.stop rfl (by decide +kernel))))
  have hleads : Leads detour (disk detour) f.path (utf8 "X") (utf8 "/proj/e.tsx") (utf8 "T") := by
    rw [hpath]
    exact ⟨_, _, _, by decide +kernel, htrail, by decide, by decide, by decide⟩
  exact ⟨hstable, f, hask, hleads, (usage_of_leads hstable hask hleads).1⟩

/-- A project in which a re-export is remembered under the key of another specifier. -/
def crossed : Environment where
  options := {}
  files := ((((FileSystem.bare (utf8 "/proj")).install (utf8 "/proj\n./q\\/f.tsx")
      (utf8 "import \x7bT\x7d from './t';<T/>")).install (utf8 "/proj\n./q\\/t.tsx")
      (utf8 "export \x7bT\x7d from '../../proj/a';")).install (utf8 "/proj/a.tsx")
      (utf8 "export \x7bT\x7d from './q\\\n./t';")).install (utf8 "/proj/q\\\n./t.tsx")
    (utf8 "export const T = 1;")

/-- There an import leads to a declaration and means nothing. -/
theorem usage_crossed :
    ∃ f, disk crossed f.path = .ok f ∧ Leads crossed (disk crossed) f.path (utf8 "T")
        (utf8 "/proj/q\\\n./t.tsx") (utf8 "T") ∧
      (usage crossed f [utf8 "T"] (fresh (.ofLevel .off))).1 = none := by
  obtain ⟨f, hf, hpath⟩ := exists_disk crossed (utf8 "/proj\n./q\\/f.tsx")
    (by decide +kernel)
  have htrail : Trail crossed (disk crossed) (utf8 "/proj/q\\\n./t.tsx") (utf8 "T")
      ⟨utf8 "/proj\n./q\\/t.tsx", utf8 "T"⟩ [⟨utf8 "/proj\n./q\\/t.tsx", utf8 "T"⟩,
        ⟨utf8 "/proj/a.tsx", utf8 "T"⟩, ⟨utf8 "/proj/q\\\n./t.tsx", utf8 "T"⟩] (1 + (1 + 0)) :=
    .hop (by decide +kernel) (.hop (by decide +kernel) (.stop rfl (by decide +kernel)))
  have hnone : ((disk crossed (utf8 "/proj\n./q\\/f.tsx")).toOption.bind fun f =>
      (usage crossed f [utf8 "T"] (fresh (.ofLevel .off))).1) = none := by decide +kernel
  refine ⟨f, by rw [hpath, hf], ?_, by rw [hf] at hnone; exact hnone⟩
  rw [hpath]
  exact ⟨_, _, _, by decide +kernel, htrail, by decide, by decide, by decide⟩

end Reference

end JsxPresence
