import JsxPresence.Presence
import JsxPresence.Proofs.Reference

namespace JsxPresence

theorem Usage.spelled {file : ParsedFile} (hf : file.Read) {u : Usage}
    (h : u ∈ (Symbols.ofOutline file.outline).usages) : Name.Spelled u.path := by
  obtain ⟨e, he, hu⟩ := List.mem_filterMap.1 h
  obtain ⟨path, hp, rfl⟩ := Option.map_eq_some_iff.1 hu
  have hplain := hf.sound.elements_plain e he
  unfold path? at hp
  split at hp
  · rename_i name hname
    rw [hname] at hplain
    obtain ⟨-, hp⟩ | ⟨-, hp⟩ := ite_eq_some hp
    · cases hp
      refine Name.spelled_of_plain (by simp) fun segment hs => ?_
      rw [List.mem_singleton.1 hs]
      exact hplain
    · cases hp
  · rename_i segments hname
    rw [hname] at hplain
    obtain ⟨-, hp⟩ | ⟨-, hp⟩ := ite_eq_some hp
    · cases hp
      exact Name.spelled_of_plain hplain.1 hplain.2
    · cases hp
  · cases hp
  · cases hp

namespace Session

/-- Usages, too, mean the same in related sessions. -/
structure Meanings (env env' : Environment) (I : Pairing) (scope : Scope)
    (P : ParsedFile → ParsedFile → Prop) : Prop extends Lookups env env' I scope P where
  read : ∀ ⦃f g⦄, P f g → f.Read
  usage : ∀ ⦃f g⦄, P f g → ∀ path, Name.Spelled path → (∀ m ∈ path, scope.members m) →
    Lockstep I (Same scope.AdmitsId) (Reference.usage env f path) (Reference.usage env' g path)

/-- The state of the presence search is the same in related sessions. -/
structure Searches (env env' : Environment) (I : Pairing) (scope : Scope)
    (P : ParsedFile → ParsedFile → Prop) : Prop extends Meanings env env' I scope P where
  verdicts : ∀ ⦃s t⦄, I.related s t → t.verdicts = s.verdicts
  active : ∀ ⦃s t⦄, I.related s t → t.active = s.active
  keep : ∀ change : Table Bool → Table Bool,
    Lockstep I Eq (modify fun s : Session => { s with verdicts := change s.verdicts })
      (modify fun s : Session => { s with verdicts := change s.verdicts })
  enter : ∀ change : List Bytes → List Bytes,
    Lockstep I Eq (modify fun s : Session => { s with active := change s.active })
      (modify fun s : Session => { s with active := change s.active })
  count : Lockstep I Eq (modify fun s : Session => { s with visits := s.visits + 1 })
    (modify fun s : Session => { s with visits := s.visits + 1 })

theorem together_meanings {env : Environment} {base : Session} (h : Stable env base)
    (verdicts : Table Bool) (active : List Bytes) :
    Meanings env env
      (.strict (Together env (base.library env) (Reference.meaning env base) verdicts active)) .all
      (Shelved (base.library env)) where
  toLookups := together_lookups h.proper h.unambiguous
  read := fun f _ hp => (h.proper hp.2).2
  usage := by
    rintro f g ⟨rfl, hf⟩ path hpath -
    refine (Reference.usage_gives h.meaning hf hpath).lockstep_eq.mono fun _ _ hab => ⟨hab, ?_⟩
    exact fun _ _ _ => trivial

end Session

namespace Presence

open Session Reference

variable {env env' : Environment} {I : Pairing} {scope : Scope}
  {P : ParsedFile → ParsedFile → Prop} {f g : ParsedFile} {target : Target}

/-- A usage whose path can be told from its name and asks for nothing out of scope. -/
def Askable (scope : Scope) (u : Usage) : Prop :=
  Name.Spelled u.path ∧ ∀ m ∈ u.path, scope.members m

theorem askable (h : Meanings env env' I scope P) (hp : P f g) :
    ∀ u ∈ (Symbols.ofOutline f.outline).usages, Askable scope u :=
  fun _ hu => ⟨Usage.spelled (h.read hp) hu, fun m hm => h.members hp m
    (ParsedFile.memberNames_of_usage env.options hu m hm)⟩

theorem matchesUsage_lockstep (h : Meanings env env' I scope P) (hp : P f g) (target : Target)
    {u v : Usage} (hpath : v.path = u.path) (hu : Askable scope u) :
    Lockstep I Eq (matchesUsage env f target u) (matchesUsage env' g target v) := by
  have hcanonical : v.canonical = u.canonical := congrArg Name.canonical hpath
  have hends : endsInTarget v target.name = endsInTarget u target.name := by
    simp only [endsInTarget, Usage.isMember, Usage.fullName, hpath]
  unfold matchesUsage
  rw [hcanonical, hends, hpath]
  refine .ite (fun _ => .refl _) fun _ => .ite (fun _ => ?_) fun _ => ?_
  on_goal 1 =>
    refine (binding_lockstep h.toLookups hp 0 _).bind_same fun symbol _ => ?_
    split
  all_goals
    refine (Lockstep.refl _).bind_eq fun _ => .ite (fun _ => .refl _) fun _ => ?_
    cases target.id with
    | none => exact .refl _
    | some id => exact (h.usage hp u.path hu.1 hu.2).bind_same fun _ _ => .refl _

theorem matchesAny_lockstep (h : Meanings env env' I scope P) (hp : P f g) (target : Target)
    {us vs : List Usage} (hpaths : vs.map (·.path) = us.map (·.path))
    (hus : ∀ u ∈ us, Askable scope u) :
    Lockstep I Eq (matchesAny env f target us) (matchesAny env' g target vs) := by
  induction us generalizing vs with
  | nil =>
    rw [List.map_eq_nil_iff.1 hpaths]
    exact .refl _
  | cons u us ih =>
    obtain ⟨v, vs, rfl, hv, hvs⟩ := List.map_eq_cons_iff.1 hpaths
    refine (matchesUsage_lockstep h hp target hv (hus u List.mem_cons_self)).bind_eq fun found => ?_
    exact .ite (fun _ => .refl _) fun _ => ih hvs fun w hw => hus w (List.mem_cons_of_mem _ hw)

theorem isDirect_lockstep (h : Meanings env env' I scope P) (hp : P f g) (target : Target) :
    Lockstep I Eq (isDirect env f target) (isDirect env' g target) := by
  refine (h.symbolsOf hp).bind ?_
  rintro _ _ ⟨rfl, rfl⟩
  exact matchesAny_lockstep h hp target (h.alike hp).usages (askable h hp)

section search

section Search

variable {s : Session} {steps : Nat} {path : Bytes}

/-- A search that comes back to where it is already going on is cut. -/
theorem search_of_active (h : s.active.contains (target.key path) = true) :
    search env target (steps + 1) path s = (do
      note .debug (utf8 "presence")
        (utf8 "cycle cut at " ++ path ++ utf8 " for " ++ target.name)
      diagnose .cycleCut path (utf8 "import cycle while searching for " ++ target.name)
      return ⟨false, true⟩ : SessionM Outcome) s := by
  rw [search, SessionM.bind_apply]
  exact congrFun (if_pos h) s

/-- An answer that is kept is given again. -/
theorem search_of_kept (h : ¬s.active.contains (target.key path) = true) {found : Bool}
    (hv : s.verdicts.get? (target.key path) = some found) :
    search env target (steps + 1) path s = (⟨found, false⟩, s) := by
  rw [search, SessionM.bind_apply]
  refine (congrFun (if_neg h) s).trans ?_
  rw [SessionM.get_apply, hv]
  rfl

/-- A file without an answer is visited. -/
theorem search_of_new (h : ¬s.active.contains (target.key path) = true)
    (hv : s.verdicts.get? (target.key path) = none) :
    search env target (steps + 1) path s =
      visit env (search env target steps) path target (target.key path) s := by
  rw [search, SessionM.bind_apply]
  refine (congrFun (if_neg h) s).trans ?_
  rw [SessionM.get_apply, hv]

end Search

variable (h : Searches env env' I scope P)
include h

/-- The search goes on alike below every file that may be opened. -/
def Descends (I : Pairing) (scope : Scope) (search search' : Bytes → SessionM Outcome) : Prop :=
  ∀ path, scope.opens path → Lockstep I Eq (search path) (search' path)

theorem searchUsages_lockstep (hp : P f g) {search search' : Bytes → SessionM Outcome}
    (hsearch : Descends I scope search search') (seen : List Bytes) (cut : Bool)
    {us vs : List Usage} (hpaths : vs.map (·.path) = us.map (·.path))
    (hus : ∀ u ∈ us, Askable scope u) :
    Lockstep I Eq (searchUsages env search f seen cut us)
      (searchUsages env' search' g seen cut vs) := by
  induction us generalizing vs seen cut with
  | nil =>
    rw [List.map_eq_nil_iff.1 hpaths]
    exact .refl _
  | cons u us ih =>
    obtain ⟨v, vs, rfl, hv, hvs⟩ := List.map_eq_cons_iff.1 hpaths
    have hname : v.fullName = u.fullName := congrArg Name.join hv
    have ih (seen : List Bytes) (cut : Bool) : Lockstep I Eq (searchUsages env search f seen cut us)
        (searchUsages env' search' g seen cut vs) :=
      ih seen cut hvs fun w hw => hus w (List.mem_cons_of_mem _ hw)
    unfold searchUsages
    rw [hname, hv, (h.alike hp).path]
    refine .ite (fun _ => ih _ _) fun _ => ?_
    have hu := hus u List.mem_cons_self
    refine (h.usage hp u.path hu.1 hu.2).bind_same fun id hid => ?_
    split
    · exact ih _ _
    · rename_i id
      refine .ite (fun _ => ih _ _) fun hinner => ?_
      have hopens : scope.opens id.file := hid id rfl (by simp_all)
      refine (h.note _ _ _ _ _ _).bind_eq fun _ => (hsearch _ hopens).bind_eq fun below => ?_
      exact .ite (fun _ => .refl _) fun _ => ih _ _

theorem searchFile_lockstep (hp : P f g) {search search' : Bytes → SessionM Outcome}
    (hsearch : Descends I scope search search') (target : Target) (key : Bytes) :
    Lockstep I Eq (searchFile env search f target key) (searchFile env' search' g target key) := by
  have finish (outcome : Outcome) : Lockstep I Eq (do
      modify fun s : Session => { s with active := s.active.erase key }
      if outcome.found || !outcome.cut then
        modify fun s : Session => { s with verdicts := s.verdicts.insert key outcome.found }
      return outcome : SessionM Outcome) (do
      modify fun s : Session => { s with active := s.active.erase key }
      if outcome.found || !outcome.cut then
        modify fun s : Session => { s with verdicts := s.verdicts.insert key outcome.found }
      return outcome : SessionM Outcome) := by
    refine (h.enter (·.erase key)).bind_eq fun _ => .ite (fun _ => ?_) fun _ => .refl _
    exact (h.keep (·.insert key outcome.found)).bind_eq fun _ => .refl _
  unfold searchFile
  refine (h.symbolsOf hp).bind ?_
  rintro _ _ ⟨rfl, rfl⟩
  refine (h.note _ _ _ _ _ _).bind_eq fun _ =>
    (h.enter (key :: ·)).bind_eq fun _ => ?_
  refine (isDirect_lockstep h.toMeanings hp target).bind_eq fun direct =>
    .ite (fun _ => ?_) fun _ => ?_
  · exact (Lockstep.refl _).bind_eq fun outcome => finish outcome
  · refine (searchUsages_lockstep h hp hsearch [] false (h.alike hp).usages
      (askable h.toMeanings hp)).bind_eq fun outcome => finish outcome

theorem visit_lockstep {search search' : Bytes → SessionM Outcome}
    (hsearch : Descends I scope search search') {path : Bytes} (hpath : scope.opens path)
    (target : Target) (key : Bytes) :
    Lockstep I Eq (visit env search path target key) (visit env' search' path target key) := by
  unfold visit
  refine h.count.bind_eq fun _ => (h.load path hpath).bind fun a b hab => ?_
  cases hab with
  | error message =>
    refine (h.note _ _ _ _ _ _).bind_eq fun _ => (h.diagnose _ _ _).bind_eq fun _ => ?_
    exact (h.keep (·.insert key false)).bind_eq fun _ => .refl _
  | ok hp _ => exact searchFile_lockstep h hp hsearch target key

theorem search_lockstep (target : Target) (steps : Nat) :
    Descends I scope (search env target steps) (search env' target steps) := by
  induction steps with
  | zero =>
    intro path _
    unfold search
    rw [h.options]
    exact (h.note _ _ _ _ _ _).bind_eq fun _ => (h.diagnose _ _ _).bind_eq fun _ => .refl _
  | succ steps ih =>
    intro path hpath
    have cut : Lockstep I Eq (do
        note .debug (utf8 "presence")
          (utf8 "cycle cut at " ++ path ++ utf8 " for " ++ target.name)
        diagnose .cycleCut path (utf8 "import cycle while searching for " ++ target.name)
        return ⟨false, true⟩ : SessionM Outcome) (do
        note .debug (utf8 "presence")
          (utf8 "cycle cut at " ++ path ++ utf8 " for " ++ target.name)
        diagnose .cycleCut path (utf8 "import cycle while searching for " ++ target.name)
        return ⟨false, true⟩ : SessionM Outcome) :=
      (h.note _ _ _ _ _ _).bind_eq fun _ => (h.diagnose _ _ _).bind_eq fun _ => .refl _
    have new := visit_lockstep h ih hpath target (target.key path)
    refine ⟨fun s t hi => ?_, fun s hl => ?_⟩
    · by_cases hbusy : s.active.contains (target.key path) = true
      · rw [search_of_active hbusy, search_of_active (by rwa [h.active hi])]
        exact cut.step s t hi
      · cases hget : s.verdicts.get? (target.key path) with
        | some found =>
          rw [search_of_kept hbusy hget,
            search_of_kept (by rwa [h.active hi]) (by rwa [h.verdicts hi])]
          exact .inl ⟨rfl, hi⟩
        | none =>
          rw [search_of_new hbusy hget,
            search_of_new (by rwa [h.active hi]) (by rwa [h.verdicts hi])]
          exact new.step s t hi
    · by_cases hbusy : s.active.contains (target.key path) = true
      · rw [search_of_active hbusy]
        exact cut.stay s hl
      · cases hget : s.verdicts.get? (target.key path) with
        | some found =>
          rw [search_of_kept hbusy hget]
          exact ⟨hl, _, rfl⟩
        | none =>
          rw [search_of_new hbusy hget]
          exact new.stay s hl

theorem hasComponent_lockstep {path : Bytes} (hpath : scope.opens (env.normalize path))
    (target : Target) :
    Lockstep I Eq (hasComponent env path target) (hasComponent env' path target) := by
  unfold hasComponent
  rw [h.options, h.normalize]
  refine (search_lockstep h target _ _ hpath).bind_eq fun _ => ?_
  exact (h.note _ _ _ _ _ _).bind_eq fun _ => .refl _

end search

end Presence

end JsxPresence
