import Mathlib.Data.List.Perm.Subperm
import JsxPresence.Proofs.Reference.Trail

namespace JsxPresence

namespace Reference

open Session

/-- The names of other files that a file passes a name on to. -/
def passedOnFrom (env : Environment) (file : ParsedFile) (name : Bytes) : List Wanted :=
  match explicitExport? file.outline name with
  | some (.fromHere _ _) | some (.moduleFrom _ _) => []
  | some (.fromFile imported _ specifier) =>
    ((fileOf? env specifier file.path).map (⟨·, imported⟩)).toList
  | _ =>
    if name = utf8 "default" then []
    else (starSpecifiers file.outline).filterMap fun specifier =>
      (fileOf? env specifier file.path).map (⟨·, name⟩)

/-- The file itself gives the name: it is its own, a whole module or package, or comes from a
package. -/
def isGivenFrom (env : Environment) (file : ParsedFile) (name : Bytes) : Bool :=
  match explicitExport? file.outline name with
  | some (.fromHere _ _) => true
  | some (.fromFile _ _ specifier) => Specifier.isExternal env.options specifier
  | some (.moduleFrom _ specifier) => (meant env specifier file.path).isSome
  | _ => false

section lookup

variable (env : Environment) (lib : Bytes → Except Bytes ParsedFile)

/-- What is wanted next, if the file can be read. -/
def passedOn (w : Wanted) : List Wanted :=
  match lib w.file with
  | .ok file => passedOnFrom env file w.name
  | .error _ => []

def isGiven (w : Wanted) : Bool :=
  match lib w.file with
  | .ok file => isGivenFrom env file w.name
  | .error _ => false

/-- A name is passed on, from one wanted name to the next, until a file gives it. -/
inductive Chain : Wanted → List Wanted → Prop
  | given {w : Wanted} : isGiven env lib w = true → Chain w []
  | pass {w next : Wanted} {rest : List Wanted} : next ∈ passedOn env lib w → Chain next rest →
    Chain w (next :: rest)

/-- The ways from a name that is wanted on which nothing is wanted twice, the last name first. -/
inductive Route (root : Wanted) : List Wanted → Prop
  | start : Route root [root]
  | on {w next : Wanted} {before : List Wanted} : Route root (w :: before) →
    next ∈ passedOn env lib w → next ∉ w :: before → Route root (next :: w :: before)

/-- A way leads to the name. -/
def Met (root w : Wanted) : Prop := ∃ before, Route env lib root (w :: before)

/-- No two names that can be met are remembered alike. -/
def KeysApart (root : Wanted) : Prop :=
  ∀ v w, Met env lib root v → Met env lib root w → v.key = w.key → v = w

/-- A lookup that starts at a depth gets no further in so many steps: it has come to the limit, or
there are no links left. -/
def LastStep (start : Depth) (steps : Nat) : Prop :=
  start.toNat + steps = env.options.maxDepth.toNat ∨ steps + 1 = linkBound

/-- A way that leads to one name in the last step of a lookup hides the next name from it, if it has
not come by there. -/
def Hides (root : Wanted) (start : Depth) (w next : Wanted) : Prop :=
  ∃ before, Route env lib root (w :: before) ∧ next ∉ w :: before ∧
    LastStep env start before.length

/-- What was met between two moments of a lookup is not given where it was wanted, and what it is
passed on to has been asked for too, unless it was hidden. -/
def Sought (root : Wanted) (start : Depth) (visited visited' : List Bytes) : Prop :=
  ∀ w, Met env lib root w → w.key ∈ visited' → w.key ∉ visited → isGiven env lib w = false ∧
    ∀ next ∈ passedOn env lib w, ¬Hides env lib root start w next → next.key ∈ visited'

/-- A lookup gives something, or it has searched for all of these names unless it was `cut`. -/
def Explores (means : ParsedFile → List Bytes → Option ComponentId) (root : Wanted) (start : Depth)
    (cut : Prop) (x : SessionM (Option Symbol × List Bytes)) (ws : List Wanted)
    (visited : List Bytes) : Prop :=
  ∃ found visited', Gives env lib means x (found, visited') ∧ visited ⊆ visited' ∧
    (found = none → Sought env lib root start visited visited' ∧
      ∀ w ∈ ws, cut ∨ w.key ∈ visited')

end lookup

variable {env : Environment} {lib : Bytes → Except Bytes ParsedFile}
  {means : ParsedFile → List Bytes → Option ComponentId} {root : Wanted} {start : Depth}
  {visited visited' visited'' : List Bytes} {cut : Prop}

section ways

variable {w next : Wanted} {before ws : List Wanted}

theorem passedOn_of_ok {file : ParsedFile} (h : lib w.file = .ok file) :
    passedOn env lib w = passedOnFrom env file w.name := by
  simp [passedOn, h]

theorem isGiven_of_ok {file : ParsedFile} (h : lib w.file = .ok file) :
    isGiven env lib w = isGivenFrom env file w.name := by
  simp [isGiven, h]

theorem Route.root_mem (h : Route env lib root ws) : root ∈ ws := by
  induction h with
  | start => exact List.mem_cons_self
  | on _ _ _ ih => exact List.mem_cons_of_mem _ ih

/-- No way comes back to where it starts. -/
theorem Route.eq_nil_of_root (h : Route env lib root (root :: before)) : before = [] := by
  cases h with
  | start => rfl
  | on hway _ hnew => exact absurd hway.root_mem hnew

theorem Route.nodup (h : Route env lib root ws) : ws.Nodup := by
  induction h with
  | start => simp
  | on _ _ hnew ih => exact List.nodup_cons.2 ⟨hnew, ih⟩

theorem Route.met (h : Route env lib root ws) : ∀ w ∈ ws, Met env lib root w := by
  induction h with
  | start =>
    intro w hw
    rw [List.mem_singleton.1 hw]
    exact ⟨[], .start⟩
  | on hway hnext hnew ih =>
    intro w hw
    rcases List.mem_cons.1 hw with rfl | hw
    · exact ⟨_, hway.on hnext hnew⟩
    · exact ih w hw

theorem met_root : Met env lib root root := ⟨[], .start⟩

theorem Met.on (h : Met env lib root w) (hnext : next ∈ passedOn env lib w) :
    Met env lib root next := by
  obtain ⟨before, hway⟩ := h
  by_cases hmem : next ∈ w :: before
  · exact hway.met next hmem
  · exact ⟨_, hway.on hnext hmem⟩

/-- Names that are passed on only to each other are all that can be met. -/
theorem Route.subset_of_closed {closed : List Wanted} (hroot : root ∈ closed)
    (hclosed : ∀ w ∈ closed, passedOn env lib w ⊆ closed) (h : Route env lib root ws) :
    ws ⊆ closed := by
  induction h with
  | start => simpa using hroot
  | on _ hnext _ ih =>
    exact List.cons_subset.2 ⟨hclosed _ (ih List.mem_cons_self) hnext, ih⟩

theorem Route.length_le_of_closed {closed : List Wanted} (hroot : root ∈ closed)
    (hclosed : ∀ w ∈ closed, passedOn env lib w ⊆ closed) (h : Route env lib root ws) :
    ws.length ≤ closed.length :=
  (h.nodup.subperm (h.subset_of_closed hroot hclosed)).length_le

end ways

section sought

theorem Sought.refl : Sought env lib root start visited visited :=
  fun _ _ hmem hnot => absurd hmem hnot

theorem Sought.trans (h : Sought env lib root start visited visited')
    (k : Sought env lib root start visited' visited'') (hsub : visited' ⊆ visited'') :
    Sought env lib root start visited visited'' := by
  intro w hw hmem hnot
  by_cases hmid : w.key ∈ visited'
  · obtain ⟨hgiven, hnext⟩ := h w hw hmid hnot
    exact ⟨hgiven, fun next hn hhidden => hsub (hnext next hn hhidden)⟩
  · exact k w hw hmem hmid

/-- A name that is not given where it is wanted has been searched for together with those it is
passed on to. -/
theorem Sought.enter (hd : KeysApart env lib root) {w : Wanted} (hw : Met env lib root w)
    (hgiven : isGiven env lib w = false)
    (h : Sought env lib root start (w.key :: visited) visited')
    (hnext : ∀ next ∈ passedOn env lib w,
      ¬Hides env lib root start w next → next.key ∈ visited') :
    Sought env lib root start visited visited' := by
  intro v hv hmem hnot
  by_cases hkey : v.key = w.key
  · rw [hd v w hv hw hkey]
    exact ⟨hgiven, hnext⟩
  · refine h v hv hmem fun hin => ?_
    rcases List.mem_cons.1 hin with heq | hin
    · exact hkey heq
    · exact hnot hin

end sought

section explores

variable {file : ParsedFile} {name : Bytes} {fuel : Nat} {depth : Depth}

theorem explores_of_none {x : SessionM (Option Symbol × List Bytes)} {ws : List Wanted}
    (h : Gives env lib means x (none, visited))
    (hws : ∀ w ∈ ws, cut ∨ w.key ∈ visited) :
    Explores env lib means root start cut x ws visited :=
  ⟨none, visited, h, List.Subset.refl _, fun _ => ⟨.refl, hws⟩⟩

/-- The `export *` of a file are gone through until one of them gives the name. -/
theorem firstStar_explores (hu : Unambiguous env lib) (hf : lib file.path = .ok file)
    {follow : Follow} {specifiers : List Bytes}
    (hm : ∀ s ∈ specifiers, s ∈ file.outline.specifiers)
    (hfollow : ∀ next ∈ specifiers.filterMap
        (fun s => (fileOf? env s file.path).map (Wanted.mk · name)), ∀ visited',
      visited ⊆ visited' →
      Explores env lib means root start cut (follow next.file next.name visited') [next]
        visited') :
    Explores env lib means root start cut
      (firstStar env follow file.path name specifiers visited)
      (specifiers.filterMap fun s => (fileOf? env s file.path).map (Wanted.mk · name)) visited := by
  induction specifiers generalizing visited with
  | nil => exact explores_of_none (.pure _) fun _ hw => by cases hw
  | cons specifier rest ih =>
    have hspec : Gives env lib means (ofSpecifier env specifier file.path) _ :=
      ofSpecifier_gives hu hf (hm specifier List.mem_cons_self)
    have hm' : ∀ s ∈ rest, s ∈ file.outline.specifiers := fun s hs =>
      hm s (List.mem_cons_of_mem _ hs)
    unfold firstStar
    cases htarget : fileOf? env specifier file.path with
    | none =>
      simp only [List.filterMap_cons, htarget, Option.map_none] at hfollow ⊢
      obtain ⟨found, visited', hgives, hsub, hnone⟩ := ih hm' hfollow
      refine ⟨found, visited', hspec.bind ?_, hsub, hnone⟩
      cases hmeant : meant env specifier file.path with
      | none => exact hgives
      | some symbol =>
        cases symbol with
        | module target =>
          rw [fileOf?_of_meant hmeant] at htarget
          cases htarget
        | declared _ _ => exact hgives
        | external _ _ => exact hgives
    | some target =>
      simp only [List.filterMap_cons, htarget, Option.map_some] at hfollow ⊢
      rw [meant_of_fileOf? htarget] at hspec
      obtain ⟨found, visited', hgives, hsub, hnone⟩ :=
        hfollow ⟨target, name⟩ List.mem_cons_self visited (List.Subset.refl _)
      cases found with
      | some symbol =>
        exact ⟨some symbol, visited', hspec.bind (hgives.bind (.pure _)), hsub,
          fun hn => by cases hn⟩
      | none =>
        obtain ⟨hsought, hkey⟩ := hnone rfl
        obtain ⟨found, visited'', hgives', hsub', hnone'⟩ := ih hm'
          fun next hnext w (hw : visited' ⊆ w) =>
            hfollow next (List.mem_cons_of_mem _ hnext) w (List.Subset.trans hsub hw)
        refine ⟨found, visited'', hspec.bind (hgives.bind hgives'),
          List.Subset.trans hsub hsub', ?_⟩
        intro hn
        obtain ⟨hsought', hkeys⟩ := hnone' hn
        refine ⟨hsought.trans hsought' hsub', fun w hw => ?_⟩
        rcases List.mem_cons.1 hw with rfl | hw
        · exact (hkey _ List.mem_cons_self).imp_right fun hin => hsub' hin
        · exact hkeys w hw

/-- What a file gives is found at once. -/
theorem exportOf_of_given {base : Session} (h : Stable env base)
    (hf : base.library env file.path = .ok file) (hgiven : isGivenFrom env file name = true) :
    ∃ symbol, Gives env (base.library env) (meaning env base)
      (exportOf env fuel depth file name visited) (some symbol, visited) := by
  unfold isGivenFrom at hgiven
  unfold exportOf nextExport
  cases hexplicit : explicitExport? file.outline name with
  | none =>
    rw [hexplicit] at hgiven
    cases hgiven
  | some kind =>
    rw [hexplicit] at hgiven
    cases kind with
    | fromHere localName exported =>
      dsimp only
      split
      · exact ⟨_, .pure _⟩
      · have hbinding : Settled env base (bindingWithin env fuel (depth + 1) file localName) :=
          h.settled fun _ _ => ((chain_lockstep (together_lookups h.proper h.unambiguous) fuel).1
            _ file file _ ⟨rfl, hf⟩).eq
        exact ⟨_, hbinding.bind (.pure _)⟩
    | fromFile imported exported specifier =>
      have hspec : Gives env (base.library env) (meaning env base)
          (ofSpecifier env specifier file.path) _ :=
        ofSpecifier_gives h.unambiguous hf (explicitExport?_specifier hexplicit rfl)
      rw [meant_of_isExternal hgiven] at hspec
      exact ⟨.external specifier imported, hspec.bind (.pure _)⟩
    | moduleFrom exported specifier =>
      obtain ⟨symbol, hsymbol⟩ := Option.isSome_iff_exists.1 hgiven
      have hspec : Gives env (base.library env) (meaning env base)
          (ofSpecifier env specifier file.path) _ :=
        ofSpecifier_gives h.unambiguous hf (explicitExport?_specifier hexplicit rfl)
      rw [hsymbol] at hspec
      exact ⟨symbol, hspec.bind (.pure _)⟩
    | allFrom specifier => cases hgiven

/-- What a file does not give is looked for where the file passes it on to. -/
theorem exportOf_explores (hu : Unambiguous env lib) (hf : lib file.path = .ok file)
    (hgiven : isGivenFrom env file name = false)
    (hfollow : ∀ next ∈ passedOnFrom env file name, ∀ visited', visited ⊆ visited' →
      Explores env lib means root start cut
        (followExport env fuel (depth + 1) next.file next.name visited') [next] visited') :
    Explores env lib means root start cut (exportOf env fuel depth file name visited)
      (passedOnFrom env file name) visited := by
  unfold isGivenFrom at hgiven
  unfold passedOnFrom at hfollow ⊢
  unfold exportOf nextExport
  cases hexplicit : explicitExport? file.outline name with
  | none =>
    rw [hexplicit] at hfollow
    dsimp only at hfollow ⊢
    split at hfollow
    · rename_i hname
      rw [if_pos hname, if_pos hname]
      exact explores_of_none (.pure _) fun _ hw => by cases hw
    · rename_i hname
      rw [if_neg hname, if_neg hname]
      exact firstStar_explores hu hf (starSpecifiers_subset _) hfollow
  | some kind =>
    rw [hexplicit] at hgiven hfollow
    cases kind with
    | fromHere localName exported => cases hgiven
    | fromFile imported exported specifier =>
      dsimp only at hgiven hfollow ⊢
      have hspec : Gives env lib means (ofSpecifier env specifier file.path) _ :=
        ofSpecifier_gives hu hf (explicitExport?_specifier hexplicit rfl)
      rw [meant_of_not_isExternal hgiven] at hspec
      cases hfile : fileOf? env specifier file.path with
      | none =>
        rw [hfile] at hspec
        exact explores_of_none (hspec.bind (.pure _)) fun _ hw => by cases hw
      | some target =>
        rw [hfile] at hspec hfollow
        obtain ⟨found, visited', hgives, hrest⟩ :=
          hfollow ⟨target, imported⟩ List.mem_cons_self visited (List.Subset.refl _)
        exact ⟨found, visited', hspec.bind hgives, hrest⟩
    | moduleFrom exported specifier =>
      have hspec : Gives env lib means (ofSpecifier env specifier file.path) _ :=
        ofSpecifier_gives hu hf (explicitExport?_specifier hexplicit rfl)
      have hmeant : meant env specifier file.path = none := by simpa using hgiven
      rw [hmeant] at hspec
      exact explores_of_none (hspec.bind (.pure _)) fun _ hw => by cases hw
    | allFrom specifier =>
      exact absurd hexplicit (explicitExport?_ne_allFrom _ _ _)

end explores

/-- The depth of a lookup that has gone a way of so many steps, if any depth is beyond the limit. -/
def Along (env : Environment) (start depth : Depth) (steps : Nat) : Prop :=
  env.options.maxDepth.toNat + 1 < UInt32.size → depth.toNat = start.toNat + steps

theorem Along.next {depth : Depth} {steps : Nat} (h : Along env start depth steps)
    (hle : depth ≤ env.options.maxDepth) : Along env start (depth + 1) (steps + 1) := by
  intro hlimit
  have hle := UInt32.le_iff_toNat_le.1 hle
  have hone : (1 : Depth).toNat = 1 := rfl
  have hdepth := h hlimit
  unfold UInt32.size at hlimit
  rw [UInt32.toNat_add, hone]
  omega

/-- If the depth is within the limit and the next one is not, no more steps can be gone. -/
theorem Along.lastStep {depth : Depth} {steps : Nat} (h : Along env start depth steps)
    (hle : depth ≤ env.options.maxDepth) (hcut : env.options.maxDepth < depth + 1) :
    LastStep env start steps := by
  have hle := UInt32.le_iff_toNat_le.1 hle
  have hcut := UInt32.lt_iff_toNat_lt.1 hcut
  have hone : (1 : Depth).toNat = 1 := rfl
  have hsize := (depth + 1).toNat_lt
  have hmod := Nat.mod_le (depth.toNat + 1) (2 ^ 32)
  rw [UInt32.toNat_add, hone] at hcut hsize
  have hdepth := h (by unfold UInt32.size; omega)
  exact .inl (by omega)

/-- A name wanted from a file that cannot be read is explored: it is passed on to nobody. -/
theorem followExport_explores_unread (hd : KeysApart env lib root) {fuel : Nat} {depth : Depth}
    {w : Wanted} {message : Bytes} (hw : Met env lib root w)
    (hle : depth ≤ env.options.maxDepth) (hseen : w.key ∉ visited)
    (hf : lib w.file = .error message) :
    Explores env lib means root start cut
      (followExport env (fuel + 1) depth w.file w.name visited) [w] visited := by
  refine ⟨none, w.key :: visited, followExport_of_unread hle hseen hf, List.subset_cons_self _ _,
    fun _ => ⟨?_, ?_⟩⟩
  · refine Sought.enter hd hw (by simp [isGiven, hf]) .refl fun next hn => ?_
    simp [passedOn, hf] at hn
  · intro v hv
    rw [List.mem_singleton.1 hv]
    exact .inr List.mem_cons_self

/-- A name that a file does not give is explored with all that the file passes it on to. If that is
cut, the way that has led to the name hides what it has not come by. -/
theorem followExport_explores_read (hd : KeysApart env lib root) {fuel : Nat} {depth : Depth}
    {w : Wanted} {before : List Wanted} {file : ParsedFile}
    (hway : Route env lib root (w :: before)) (hbefore : ∀ v ∈ before, v.key ∈ visited)
    (hle : depth ≤ env.options.maxDepth) (hseen : w.key ∉ visited) (hf : lib w.file = .ok file)
    (hgiven : isGivenFrom env file w.name = false) {cut' : Prop}
    (hcut' : cut' → LastStep env start before.length)
    (h : Explores env lib means root start cut'
      (exportOf env fuel depth file w.name (w.key :: visited)) (passedOnFrom env file w.name)
      (w.key :: visited)) :
    Explores env lib means root start cut
      (followExport env (fuel + 1) depth w.file w.name visited) [w] visited := by
  obtain ⟨found, visited', hgives, hsub, hnone⟩ := h
  refine ⟨found, visited', followExport_of_read hle hseen hf hgives,
    List.Subset.trans (List.subset_cons_self _ _) hsub, ?_⟩
  intro hn
  obtain ⟨hsought, hnext⟩ := hnone hn
  refine ⟨.enter hd ⟨before, hway⟩ (by rw [isGiven_of_ok hf, hgiven]) hsought ?_, ?_⟩
  · intro next hmem hhidden
    rw [passedOn_of_ok hf] at hmem
    rcases hnext next hmem with hcut | hin
    · by_contra hnew
      have hstack : ∀ v ∈ w :: before, v.key ∈ w.key :: visited :=
        List.forall_mem_cons.2
          ⟨List.mem_cons_self, fun v hv => List.mem_cons_of_mem _ (hbefore v hv)⟩
      exact hhidden ⟨before, hway, fun hin => hnew (hsub (hstack next hin)), hcut' hcut⟩
    · exact hin
  · intro v hv
    rw [List.mem_singleton.1 hv]
    exact .inr (hsub List.mem_cons_self)

/-- A lookup explores what it is asked for: by induction on the fuel, along the way that has led to
the name, whose names have all been asked for. -/
theorem followExport_explores {base : Session} (h : Stable env base)
    (hd : KeysApart env (base.library env) root) {fuel : Nat} {depth : Depth} {w : Wanted}
    {before : List Wanted}
    (hway : w.key ∉ visited → Route env (base.library env) root (w :: before))
    (hbefore : ∀ v ∈ before, v.key ∈ visited) (hdepth : Along env start depth before.length)
    (hfuel : fuel + before.length = linkBound) :
    Explores env (base.library env) (meaning env base) root start
      (env.options.maxDepth < depth ∨ fuel = 0)
      (followExport env fuel depth w.file w.name visited) [w] visited := by
  induction fuel generalizing depth w before visited with
  | zero =>
    have hgives : Gives env (base.library env) (meaning env base)
        (followExport env 0 depth w.file w.name visited) (none, visited) := by
      unfold followExport
      exact .pure _
    exact explores_of_none hgives fun _ _ => .inl (.inr rfl)
  | succ fuel ih =>
    by_cases hseen : w.key ∈ visited
    · refine explores_of_none (followExport_of_seen hseen) fun v hv => ?_
      rw [List.mem_singleton.1 hv]
      exact .inr hseen
    have hway := hway hseen
    by_cases hcut : env.options.maxDepth < depth
    · exact explores_of_none (followExport_of_cut hcut) fun _ _ => .inl (.inl hcut)
    have hle : depth ≤ env.options.maxDepth := UInt32.not_lt.1 hcut
    cases hf : base.library env w.file with
    | error message => exact followExport_explores_unread hd ⟨before, hway⟩ hle hseen hf
    | ok file =>
      have hf' : base.library env file.path = .ok file := by rw [(h.proper hf).1, hf]
      cases hgiven : isGivenFrom env file w.name with
      | true =>
        obtain ⟨symbol, hgives⟩ : ∃ symbol, Gives env (base.library env) (meaning env base)
            (exportOf env fuel depth file w.name (w.key :: visited))
            (some symbol, w.key :: visited) := exportOf_of_given h hf' hgiven
        exact ⟨some symbol, w.key :: visited, followExport_of_read hle hseen hf hgives,
          List.subset_cons_self _ _, fun hn => by cases hn⟩
      | false =>
        have hlast : env.options.maxDepth < depth + 1 ∨ fuel = 0 →
            LastStep env start before.length := by
          rintro (hnext | rfl)
          · exact hdepth.lastStep hle hnext
          · exact .inr (by omega)
        refine followExport_explores_read hd hway hbefore hle hseen hf hgiven hlast ?_
        refine exportOf_explores h.unambiguous hf' hgiven fun next hnext visited' hvisited => ?_
        have hstack : ∀ v ∈ w :: before, v.key ∈ visited' := by
          intro v hv
          rcases List.mem_cons.1 hv with rfl | hv
          · exact hvisited List.mem_cons_self
          · exact hvisited (List.mem_cons_of_mem _ (hbefore v hv))
        refine ih (fun hnew => ?_) hstack (hdepth.next hle) ?_
        · refine hway.on (by rwa [passedOn_of_ok hf]) fun hmem => hnew (hstack next hmem)
        · simp only [List.length_cons]
          omega

/-- After a lookup that found nothing, a chain of names none of which is hidden has been asked for
to its end, and no file has given it. -/
theorem not_chain_of_sought {w : Wanted} {rest : List Wanted} (hchain : Chain env lib w rest)
    (hs : Sought env lib root start [] visited) (hmet : Met env lib root w)
    (hw : w.key ∈ visited)
    (hopen : (w :: rest).IsChain fun w next => ¬Hides env lib root start w next) : False := by
  induction hchain with
  | given hgiven =>
    have hnot := (hs _ hmet hw List.not_mem_nil).1
    rw [hgiven] at hnot
    cases hnot
  | pass hnext _ ih =>
    obtain ⟨hhidden, hrest⟩ := List.isChain_cons_cons.1 hopen
    exact ih (hmet.on hnext) ((hs _ hmet hw List.not_mem_nil).2 _ hnext hhidden) hrest

/-- An export that is given within the depth limit is found, unless one name on the way hides the
next: some other way to it takes all the steps that the limit leaves. -/
theorem ofExport_of_chain {base s : Session} (h : Stable env base) (hs : Follows env base s)
    {first : Wanted} (hd : KeysApart env (base.library env) first) {rest : List Wanted}
    (hchain : Chain env (base.library env) first rest) {depth : Depth}
    (hdepth : depth.toNat + rest.length ≤ env.options.maxDepth.toNat)
    (hdetour : (first :: rest).IsChain fun w next =>
      ¬Hides env (base.library env) first depth w next) :
    ∃ symbol, (ofExport env depth first.file first.name s).1 = some symbol := by
  have hexplores : Explores env (base.library env) (meaning env base) first depth
      (env.options.maxDepth < depth ∨ linkBound = 0)
      (followExport env linkBound depth first.file first.name []) [first] [] :=
    followExport_explores h hd (fun _ => .start) (fun _ hv => by cases hv) (fun _ => rfl) rfl
  obtain ⟨found, visited, hgives, -, hnone⟩ := hexplores
  have hfst : (ofExport env depth first.file first.name s).1 = found :=
    congrArg Prod.fst (hgives s hs).1
  cases found with
  | some symbol => exact ⟨symbol, hfst⟩
  | none =>
    obtain ⟨hsought, hfirst⟩ := hnone rfl
    have hmem : first.key ∈ visited := by
      refine (hfirst first List.mem_cons_self).resolve_left ?_
      rintro (hcut | hfuel)
      · have hcut := UInt32.lt_iff_toNat_lt.1 hcut
        omega
      · exact absurd hfuel (by decide)
    exact (not_chain_of_sought hchain hsought met_root hmem hdetour).elim

/-- A project in which two files pass all names on to one that re-exports a name. -/
def barrels (limit : Depth) : Environment where
  options := { maxDepth := limit }
  files := ((((FileSystem.bare (utf8 "/proj")).install (utf8 "/proj/m.ts")
      (utf8 "export * from './a'; export * from './x';")).install (utf8 "/proj/a.ts")
      (utf8 "export * from './x';")).install (utf8 "/proj/x.ts")
      (utf8 "export \x7bN\x7d from './y';")).install (utf8 "/proj/y.ts")
    (utf8 "export const N = 1;")

/-- All that can be wanted there. -/
def barrelNames : List Wanted :=
  [⟨utf8 "/proj/m.ts", utf8 "N"⟩, ⟨utf8 "/proj/a.ts", utf8 "N"⟩, ⟨utf8 "/proj/x.ts", utf8 "N"⟩,
    ⟨utf8 "/proj/y.ts", utf8 "N"⟩]

theorem ofExport_of_chain_barrels :
    Stable (barrels 3) (fresh (.ofLevel .off)) ∧
    KeysApart (barrels 3) (disk (barrels 3)) ⟨utf8 "/proj/m.ts", utf8 "N"⟩ ∧
    ∃ symbol, (ofExport (barrels 3) 0 (utf8 "/proj/m.ts") (utf8 "N") (fresh (.ofLevel .off))).1 =
      some symbol := by
  have hu : Unambiguous (barrels 3) (disk (barrels 3)) :=
    unambiguous_of_newline_free fun _ _ hf =>
      newline_not_mem_of_plainSpecifiers (by decide +kernel) hf
  have hstable := fresh_stable (.ofLevel .off) hu
  have hclosed : ∀ w ∈ barrelNames, passedOn (barrels 3) (disk (barrels 3)) w ⊆ barrelNames := by
    decide +kernel
  have hmet : ∀ w, Met (barrels 3) (disk (barrels 3)) ⟨utf8 "/proj/m.ts", utf8 "N"⟩ w →
      w ∈ barrelNames :=
    fun w ⟨_, hway⟩ => hway.subset_of_closed (by decide) hclosed List.mem_cons_self
  have hkeys : ∀ v ∈ barrelNames, ∀ w ∈ barrelNames, v.key = w.key → v = w := by decide
  have hd : KeysApart (barrels 3) (disk (barrels 3)) ⟨utf8 "/proj/m.ts", utf8 "N"⟩ :=
    fun v w hv hw => hkeys v (hmet v hv) w (hmet w hw)
  have hchain : Chain (barrels 3) (disk (barrels 3)) ⟨utf8 "/proj/m.ts", utf8 "N"⟩
      [⟨utf8 "/proj/x.ts", utf8 "N"⟩, ⟨utf8 "/proj/y.ts", utf8 "N"⟩] :=
    .pass (by decide +kernel) (.pass (by decide +kernel) (.given (by decide +kernel)))
  have hsteps {w next : Wanted} (hnext : next ∈ passedOn (barrels 3) (disk (barrels 3)) w) :
      ¬Hides (barrels 3) (disk (barrels 3)) ⟨utf8 "/proj/m.ts", utf8 "N"⟩ 0 w next := by
    rintro ⟨before, hway, hnew, hlast⟩
    have hlength := (hway.on hnext hnew).length_le_of_closed (by decide) hclosed
    have hnames : barrelNames.length = 4 := rfl
    have hlimit : (barrels 3).options.maxDepth.toNat = 3 := rfl
    unfold LastStep linkBound at hlast
    rw [hlimit, UInt32.toNat_zero] at hlast
    simp only [List.length_cons] at hlength
    omega
  exact ⟨hstable, hd, ofExport_of_chain hstable hstable.coherent hd hchain (by decide)
    (.cons_cons (hsteps (by decide +kernel)) (.cons_cons (hsteps (by decide +kernel)) (.singleton _)))⟩

/-- With a smaller limit the file that re-exports the name is first met too deep, and the name is
not found although it is two steps away. -/
theorem ofExport_barrels :
    Chain (barrels 2) (disk (barrels 2)) ⟨utf8 "/proj/m.ts", utf8 "N"⟩
      [⟨utf8 "/proj/x.ts", utf8 "N"⟩, ⟨utf8 "/proj/y.ts", utf8 "N"⟩] ∧
    (0 : Depth).toNat + 2 ≤ (barrels 2).options.maxDepth.toNat ∧
    (ofExport (barrels 2) 0 (utf8 "/proj/m.ts") (utf8 "N") (fresh (.ofLevel .off))).1 = none :=
  ⟨.pass (by decide +kernel) (.pass (by decide +kernel) (.given (by decide +kernel))), by decide,
    by decide +kernel⟩

end Reference

end JsxPresence
