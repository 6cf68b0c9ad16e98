import JsxPresence.Proofs.Analysis.Failure
import JsxPresence.Proofs.Presence.Questions

namespace JsxPresence.Analysis

open Session Presence

/-- The file that defines what a usage renders, if it is another file of the project. -/
def definition? (env : Environment) (base : Session) (file : ParsedFile) (u : Usage) :
    Option ParsedFile :=
  match (Reference.usage env file u.path base).1 with
  | none => none
  | some id =>
    if id.external || id.file = file.path then none else (load env id.file base).1.toOption

/-- What a marker of a file asks for. -/
def question (env : Environment) (base : Session) (definition : ParsedFile) (m : Marker) : Target :=
  ⟨m.target, (Reference.usage env definition (Name.split m.target) base).1⟩

/-- The answer to a marker's question below a file, if nothing else has been asked. -/
def isTrue (env : Environment) (base : Session) (file definition : ParsedFile) (m : Marker) :
    Bool :=
  (Presence.hasComponent env file.path (question env base definition m) base).1

/-- The answers for a usage with its place: one for each marker of the file that defines it. -/
def answers (env : Environment) (base : Session) (file : ParsedFile) (u : Usage × Nat) :
    List Plan.Injection :=
  match definition? env base file u.1 with
  | none => []
  | some definition => (Marker.all env.options definition).map fun m =>
      ⟨u.2, env.options.propName m.target, isTrue env base file definition m⟩

/-- The answers for all usages of a file. -/
def allAnswers (env : Environment) (base : Session) (file : ParsedFile) : List Plan.Injection :=
  (Symbols.ofOutline file.outline).usages.zipIdx.flatMap (answers env base file)

/-- The targets that the markers behind the usages of a file ask for. -/
def questions (env : Environment) (base : Session) (file : ParsedFile) : List Target :=
  (Symbols.ofOutline file.outline).usages.flatMap fun u =>
    match definition? env base file u with
    | none => []
    | some definition => (Marker.all env.options definition).map (question env base definition)

/-- The session is between two of these questions. -/
abbrev Waiting (env : Environment) (base : Session) (file : ParsedFile) (s : Session) : Prop :=
  Asking env base file.path (· ∈ questions env base file) s

variable {env : Environment} {base : Session} {file : ParsedFile}

theorem mem_questions {u : Usage} (hu : u ∈ (Symbols.ofOutline file.outline).usages)
    (hd : definition? env base file u = some definition) {m : Marker}
    (hm : m ∈ Marker.all env.options definition) :
    question env base definition m ∈ questions env base file := by
  refine List.mem_flatMap.2 ⟨u, hu, ?_⟩
  rw [hd]
  exact List.mem_map_of_mem hm

/-- What the analysis keeps is so. -/
structure Knows (env : Environment) (base : Session) (file : ParsedFile) (p : Progress) : Prop where
  markers : ∀ asker definition, base.library env asker = .ok definition → ∀ markers,
    p.markers.get? asker = some markers → markers = Marker.all env.options definition
  verdicts : ∀ asker definition, base.library env asker = .ok definition →
    ∀ m ∈ Marker.all env.options definition, ∀ verdict,
    p.verdicts.get? (verdictKey asker m.target) = some verdict →
    verdict = isTrue env base file definition m

/-- The key of an answer tells the asking file and the target. -/
theorem verdictKey_inj {a b : Bytes} {d e : ParsedFile} (hd : d.Read) (he : e.Read)
    {options : Options} {m n : Marker} (hm : m ∈ Marker.all options d)
    (hn : n ∈ Marker.all options e) (h : verdictKey a m.target = verdictKey b n.target) :
    a = b ∧ m.target = n.target :=
  Bytes.append_sep_inj (Marker.newline_not_mem_target hd hm)
    (Marker.newline_not_mem_target he hn) h

/-- The answer to a marker depends on its target only. -/
theorem isTrue_congr {m n : Marker} (h : m.target = n.target) :
    isTrue env base file definition m = isTrue env base file definition n := by
  unfold isTrue question
  rw [h]

/-- From what is known and the session before, the analysis has come to `x` by adding these
answers. -/
structure Adds (env : Environment) (base : Session) (file : ParsedFile) (p : Progress)
    (added : List Plan.Injection) (x : Progress × Session) : Prop where
  injections : x.1.injections = p.injections ++ added
  hasComponent : x.1.hasComponent = (p.hasComponent || added.any (·.present))
  knows : Knows env base file x.1
  waiting : Waiting env base file x.2

theorem Adds.trans {p : Progress} {l k : List Plan.Injection} {x y : Progress × Session}
    (h : Adds env base file p l x) (h' : Adds env base file x.1 k y) :
    Adds env base file p (l ++ k) y where
  injections := by rw [h'.injections, h.injections, List.append_assoc]
  hasComponent := by rw [h'.hasComponent, h.hasComponent, List.any_append, Bool.or_assoc]
  knows := h'.knows
  waiting := h'.waiting

theorem adds_nil {p : Progress} {s : Session} (hp : Knows env base file p)
    (hs : Waiting env base file s) :
    Adds env base file p [] (p, s) where
  injections := by simp
  hasComponent := by simp
  knows := hp
  waiting := hs

/-- A loop adds what its steps add. -/
theorem adds_foldlM {α : Type} {step : Progress → α → SessionM Progress}
    {added : α → List Plan.Injection} {l : List α}
    (h : ∀ a ∈ l, ∀ p s, Knows env base file p →
      Waiting env base file s →
      Adds env base file p (added a) (step p a s))
    {p : Progress} {s : Session} (hp : Knows env base file p)
    (hs : Waiting env base file s) :
    Adds env base file p (l.flatMap added) (l.foldlM step p s) := by
  induction l generalizing p s with
  | nil => exact adds_nil hp hs
  | cons a l ih =>
    have hfirst := h a List.mem_cons_self p s hp hs
    have hrest := ih (fun b hb => h b (List.mem_cons_of_mem _ hb)) hfirst.knows hfirst.waiting
    rw [List.foldlM_cons, SessionM.bind_apply, List.flatMap_cons]
    exact hfirst.trans hrest

/-- The markers of a file are its own, whether they were kept or not. -/
theorem markersOf_spec {asker : Bytes} (hd : base.library env asker = .ok definition)
    {p : Progress} {s : Session} (hp : Knows env base file p)
    (hs : Waiting env base file s) :
    (markersOf env definition asker p s).1.1 = Marker.all env.options definition ∧
    Adds env base file p []
      ((markersOf env definition asker p s).1.2, (markersOf env definition asker p s).2) := by
  unfold markersOf
  cases hget : p.markers.get? asker with
  | some markers => exact ⟨hp.markers asker definition hd markers hget, adds_nil hp hs⟩
  | none =>
    have hq := find_quiet env env.options definition s
    refine ⟨rfl, (List.append_nil _).symm, (Bool.or_false _).symm,
      ⟨fun other e he markers hm => ?_, hp.verdicts⟩, hs.of_quiet hq⟩
    change (p.markers.insert asker (Marker.all env.options definition)).get? other = _ at hm
    by_cases ho : other = asker
    · subst ho
      rw [Table.get?_insert_self] at hm
      cases hm
      rw [hd] at he
      cases he
      rfl
    · rw [Table.get?_insert_ne _ ho] at hm
      exact hp.markers other e he markers hm

section steps

variable (h : Stable env base) (hb : Waiting env base file base)
  (hdistinct : Distinct env base file.path (· ∈ questions env base file))
include h hb hdistinct

/-- A question is answered as if nothing else had been asked. -/
theorem decideMarker_spec {asker : Bytes} (hd : base.library env asker = .ok definition)
    {m : Marker} (hm : m ∈ Marker.all env.options definition)
    (hq : question env base definition m ∈ questions env base file) {s : Session}
    (hs : Waiting env base file s) :
    (decideMarker env file.path definition asker m.target s).1 =
      isTrue env base file definition m ∧
    Waiting env base file (decideMarker env file.path definition asker m.target s).2 := by
  have hlib : base.library env definition.path = .ok definition := by rw [(h.proper hd).1, hd]
  have hspelled := Name.spelled_split (Marker.newline_not_mem_target (h.proper hd).2 hm)
  obtain ⟨hid, hs1⟩ := hs.of_settled (h.usage hlib hspelled)
  have hfound := hasComponent_eq_first h hdistinct hq hb hs1
  have hs2 := (hasComponent_of_asking h hdistinct hq hs1).2
  unfold decideMarker
  rw [SessionM.bind_apply, hid]
  exact ⟨hfound, hs2.of_quiet (note_quiet env _ _ _ _)⟩

/-- One marker adds its answer, whether it was kept or not. -/
theorem answerMarker_adds {asker : Bytes} (hd : base.library env asker = .ok definition)
    {m : Marker} (hm : m ∈ Marker.all env.options definition)
    (hq : question env base definition m ∈ questions env base file) (place : Nat) {p : Progress}
    {s : Session} (hp : Knows env base file p)
    (hs : Waiting env base file s) :
    Adds env base file p
      [⟨place, env.options.propName m.target, isTrue env base file definition m⟩]
      (answerMarker env file.path definition asker place p m s) := by
  have finish {s : Session} (hs : Waiting env base file s) :
      Adds env base file p
        [⟨place, env.options.propName m.target, isTrue env base file definition m⟩]
        ({ p with
          verdicts := p.verdicts.insert (verdictKey asker m.target)
            (isTrue env base file definition m)
          injections := p.injections ++
            [⟨place, env.options.propName m.target, isTrue env base file definition m⟩]
          hasComponent := p.hasComponent || isTrue env base file definition m }, s) := by
    refine ⟨rfl, by simp, ⟨hp.markers, fun other e he n hn verdict hget => ?_⟩, hs⟩
    by_cases hk : verdictKey other n.target = verdictKey asker m.target
    · obtain ⟨rfl, ht⟩ := verdictKey_inj (h.proper he).2 (h.proper hd).2 hn hm hk
      rw [hk, Table.get?_insert_self] at hget
      cases hget
      rw [hd] at he
      cases he
      exact isTrue_congr ht.symm
    · rw [Table.get?_insert_ne _ hk] at hget
      exact hp.verdicts other e he n hn verdict hget
  unfold answerMarker
  cases hget : p.verdicts.get? (verdictKey asker m.target) with
  | some verdict =>
    have hv := hp.verdicts asker definition hd m hm verdict hget
    subst hv
    exact finish hs
  | none =>
    obtain ⟨hv, hs'⟩ := decideMarker_spec h hb hdistinct hd hm hq hs
    dsimp only
    rw [SessionM.bind_apply, hv]
    exact finish hs'

/-- One usage adds the answers to the markers behind it. -/
theorem answerUsage_adds (hf : base.library env file.path = .ok file) {u : Usage × Nat}
    (hu : u.1 ∈ (Symbols.ofOutline file.outline).usages) {p : Progress} {s : Session}
    (hp : Knows env base file p)
    (hs : Waiting env base file s) :
    Adds env base file p (answers env base file u) (answerUsage env file p u s) := by
  obtain ⟨hid, hs1⟩ := hs.of_settled (h.usage hf (Usage.spelled (h.proper hf).2 hu))
  unfold answerUsage answers
  rw [SessionM.bind_apply, hid]
  cases hid : (Reference.usage env file u.1.path base).1 with
  | none =>
    have hnone : definition? env base file u.1 = none := by simp [definition?, hid]
    rw [hnone]
    exact adds_nil hp hs1
  | some id =>
    dsimp only
    by_cases hown : (id.external || decide (id.file = file.path)) = true
    · have hnone : definition? env base file u.1 = none := by simp [definition?, hid, hown]
      rw [if_pos hown, hnone]
      exact adds_nil hp hs1
    · rw [if_neg hown, SessionM.bind_apply]
      obtain ⟨hload, hs2⟩ := hs1.of_settled (h.load id.file)
      rw [hload]
      have hdef : definition? env base file u.1 = (load env id.file base).1.toOption := by
        simp [definition?, hid, hown]
      rw [hdef]
      cases hd : (load env id.file base).1 with
      | error message => exact adds_nil hp hs2
      | ok definition =>
        rw [load_base] at hd
        obtain ⟨hmarkers, hadds⟩ := markersOf_spec hd hp hs2
        have hall : ∀ m ∈ Marker.all env.options definition, ∀ p s, Knows env base file p →
            Waiting env base file s →
            Adds env base file p
              [⟨u.2, env.options.propName m.target, isTrue env base file definition m⟩]
              (answerMarker env file.path definition id.file u.2 p m s) := by
          intro m hm p s hp hs
          have hsome : definition? env base file u.1 = some definition := by
            rw [hdef, load_base, hd]
            rfl
          exact answerMarker_adds h hb hdistinct hd hm (mem_questions hu hsome hm) u.2 hp hs
        dsimp only [Except.toOption]
        rw [SessionM.bind_apply, hmarkers, List.map_eq_flatMap]
        exact hadds.trans (adds_foldlM hall hadds.knows hadds.waiting)

/-- The analysis of a file comes to the answers for all its usages, each as if nothing else had been
asked. -/
theorem progress_adds (hf : base.library env file.path = .ok file) :
    (progress env file base).injections = allAnswers env base file ∧
    (progress env file base).hasComponent = (allAnswers env base file).any (·.present) := by
  obtain ⟨-, hs1, hv1, ha1⟩ := symbolsOf_gives hf base h.coherent
  have hs2 := (hb.of_eq hs1 hv1 ha1).of_quiet (find_quiet env env.options file _)
  have hs3 := hs2.of_quiet (diagnoseMarkers_quiet env env.options file _)
  have hstart : Knows env base file .start :=
    ⟨fun _ _ _ _ hg => (by cases hg), fun _ _ _ _ _ _ hg => (by cases hg)⟩
  have hstep : ∀ u ∈ (Symbols.ofOutline file.outline).usages.zipIdx, ∀ p s, Knows env base file p →
      Waiting env base file s →
      Adds env base file p (answers env base file u) (answerUsage env file p u s) :=
    fun u hu p s hp hs => answerUsage_adds h hb hdistinct hf (List.fst_mem_of_mem_zipIdx hu) hp hs
  have hadds := adds_foldlM hstep hstart hs3
  exact ⟨hadds.injections, hadds.hasComponent⟩

end steps

end JsxPresence.Analysis
