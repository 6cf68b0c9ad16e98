import JsxPresence.Analysis
import JsxPresence.Proofs.Presence.Lockstep

namespace JsxPresence.Analysis

open Session

/-- The target of a marker stands on one line and asks for nothing out of scope. -/
def Answerable (scope : Scope) (m : Marker) : Prop :=
  byte '\n' ∉ m.target ∧ ∀ n ∈ Name.split m.target, scope.members n

/-- The kept markers can be answered. -/
def Progress.Plain (scope : Scope) (p : Progress) : Prop :=
  ∀ asker markers, p.markers.get? asker = some markers → ∀ m ∈ markers, Answerable scope m

theorem Progress.plain_start (scope : Scope) : Progress.start.Plain scope :=
  fun _ _ hg => by cases hg

variable {env env' : Environment} {I : Pairing} {scope : Scope}
  {P : ParsedFile → ParsedFile → Prop} {f g : ParsedFile} (h : Searches env env' I scope P)
include h

theorem find_lockstep (options : Options) (file : ParsedFile) :
    Lockstep I (Same (· = Marker.all options file)) (Marker.find options file)
      (Marker.find options file) := by
  refine (Lockstep.forM fun finding _ => ?_).bind_eq fun _ => .same rfl
  cases finding <;> exact h.note _ _ _ _ _ _

theorem decideMarker_lockstep {path : Bytes} (hpath : scope.opens (env.normalize path))
    (asker : Bytes) {definition : ParsedFile} (hp : P definition definition) {m : Marker}
    (hm : Answerable scope m) :
    Lockstep I Eq (decideMarker env path definition asker m.target)
      (decideMarker env' path definition asker m.target) := by
  unfold decideMarker
  refine (h.usage hp _ (Name.spelled_split hm.1) hm.2).bind_same fun id _ => ?_
  refine (Presence.hasComponent_lockstep h hpath _).bind_eq fun found => ?_
  exact (h.note _ _ _ _ _ _).bind_eq fun _ => .refl _

theorem answerMarker_lockstep {path : Bytes} (hpath : scope.opens (env.normalize path))
    (asker : Bytes) {definition : ParsedFile} (hp : P definition definition) (place : Nat)
    {p : Progress} (hplain : p.Plain scope) {m : Marker} (hm : Answerable scope m) :
    Lockstep I (Same (Progress.Plain scope)) (answerMarker env path definition asker place p m)
      (answerMarker env' path definition asker place p m) := by
  unfold answerMarker
  rw [h.options]
  dsimp only
  split
  · exact (Lockstep.refl _).bind_eq fun _ => .same hplain
  · exact (decideMarker_lockstep h hpath asker hp hm).bind_eq fun _ => .same hplain

theorem answerMarkers_lockstep {path : Bytes} (hpath : scope.opens (env.normalize path))
    (asker : Bytes) {definition : ParsedFile} (hp : P definition definition) (place : Nat)
    {p : Progress} (hplain : p.Plain scope) {markers : List Marker}
    (hm : ∀ m ∈ markers, Answerable scope m) :
    Lockstep I (Same (Progress.Plain scope))
      (markers.foldlM (answerMarker env path definition asker place) p)
      (markers.foldlM (answerMarker env' path definition asker place) p) := by
  induction markers generalizing p with
  | nil => exact .same hplain
  | cons m rest ih =>
    rw [List.foldlM_cons, List.foldlM_cons]
    refine (answerMarker_lockstep h hpath asker hp place hplain
      (hm m List.mem_cons_self)).bind_same fun p hplain => ?_
    exact ih hplain fun n hn => hm n (List.mem_cons_of_mem _ hn)

theorem markersOf_lockstep (asker : Bytes) {definition : ParsedFile} (hp : P definition definition)
    {p : Progress} (hplain : p.Plain scope) :
    Lockstep I (Same fun x => x.2.Plain scope ∧ ∀ m ∈ x.1, Answerable scope m)
      (markersOf env definition asker p) (markersOf env' definition asker p) := by
  have hall : ∀ m ∈ Marker.all env.options definition, Answerable scope m := fun m hm =>
    ⟨Marker.newline_not_mem_target (h.read hp) hm,
      fun n hn => h.members hp n (ParsedFile.memberNames_of_marker hm n hn)⟩
  unfold markersOf
  rw [h.options]
  split
  · rename_i markers hget
    exact .same ⟨hplain, hplain asker markers hget⟩
  · refine (find_lockstep h env.options definition).bind_same fun found hfound => ?_
    subst hfound
    refine .same ⟨fun other markers hget => ?_, hall⟩
    by_cases ho : other = asker
    · rw [ho, Table.get?_insert_self] at hget
      cases hget
      exact hall
    · rw [Table.get?_insert_ne _ ho] at hget
      exact hplain other markers hget

/-- A usage gets the same answers, provided that the files that may define it are the same. -/
theorem answerUsage_lockstep (hp : P f g) (hown : scope.opens (env.normalize f.path))
    (hother : ∀ ⦃d e⦄, P d e → d.path ≠ f.path → d = e) {u v : Usage} (hpath : v.path = u.path)
    (hu : Presence.Askable scope u) (place : Nat) {p : Progress} (hplain : p.Plain scope) :
    Lockstep I (Same (Progress.Plain scope)) (answerUsage env f p (u, place))
      (answerUsage env' g p (v, place)) := by
  unfold answerUsage
  dsimp only
  rw [hpath, (h.alike hp).path]
  refine (h.usage hp u.path hu.1 hu.2).bind_same fun id hid => ?_
  split
  · exact .same hplain
  · rename_i id
    by_cases hinner : (id.external || decide (id.file = f.path)) = true
    · rw [if_pos hinner, if_pos hinner]
      exact .same hplain
    · rw [if_neg hinner, if_neg hinner]
      have hopens : scope.opens id.file := hid id rfl (by simp_all)
      refine (h.load id.file hopens).bind fun a b hab => ?_
      cases hab with
      | error message => exact .same hplain
      | @ok d e hd hfile =>
        have hne : d.path ≠ f.path := by
          rw [hfile]
          intro hsame
          simp [hsame] at hinner
        obtain rfl := hother hd hne
        refine (markersOf_lockstep h id.file hd hplain).bind_same fun x hx => ?_
        exact answerMarkers_lockstep h hown id.file hd place hx.1 hx.2

theorem answerUsages_lockstep (hp : P f g) (hown : scope.opens (env.normalize f.path))
    (hother : ∀ ⦃d e⦄, P d e → d.path ≠ f.path → d = e) {us vs : List Usage}
    (hpaths : vs.map (·.path) = us.map (·.path)) (hus : ∀ u ∈ us, Presence.Askable scope u)
    (place : Nat) {p : Progress} (hplain : p.Plain scope) :
    Lockstep I (Same (Progress.Plain scope)) ((us.zipIdx place).foldlM (answerUsage env f) p)
      ((vs.zipIdx place).foldlM (answerUsage env' g) p) := by
  induction us generalizing vs place p with
  | nil =>
    rw [List.map_eq_nil_iff.1 hpaths]
    exact .same hplain
  | cons u us ih =>
    obtain ⟨v, vs, rfl, hv, hvs⟩ := List.map_eq_cons_iff.1 hpaths
    rw [List.zipIdx_cons, List.zipIdx_cons, List.foldlM_cons, List.foldlM_cons]
    refine (answerUsage_lockstep h hp hown hother hv (hus u List.mem_cons_self) place
      hplain).bind_same fun p hplain => ?_
    exact ih hvs (fun w hw => hus w (List.mem_cons_of_mem _ hw)) (place + 1) hplain

theorem diagnoseMarkers_lockstep (options : Options) (file : ParsedFile) :
    Lockstep I Eq (Marker.diagnose options file) (Marker.diagnose options file) := by
  refine .forM fun finding _ => ?_
  cases finding with
  | marker m => exact .refl _
  | malformed text call => exact h.diagnose _ _ _

theorem report_lockstep (options : Options) (file : Bytes) (m : Marker) :
    Lockstep I Eq (Plan.report options file m) (Plan.report options file m) := by
  unfold Plan.report
  refine .ite (fun _ => .refl _) fun _ => ?_
  split
  · exact (h.note _ _ _ _ _ _).bind_eq fun _ => h.diagnose _ _ _
  · refine .ite (fun _ => ?_) fun _ => .refl _
    exact (h.note _ _ _ _ _ _).bind_eq fun _ => h.diagnose _ _ _

theorem make_lockstep (options : Options) (file : ParsedFile) (symbols : Symbols)
    (markers : List Marker) (injections : List Plan.Injection) :
    Lockstep I Eq (Plan.make options file symbols markers injections)
      (Plan.make options file symbols markers injections) := by
  unfold Plan.make
  refine (Lockstep.forM fun m _ => report_lockstep h options file.path m).bind_eq fun _ => ?_
  refine (Lockstep.forM fun x _ => h.note _ _ _ _ _ _).bind_eq fun _ => ?_
  exact (h.note _ _ _ _ _ _).bind_eq fun _ => .refl _

/-- A file is analyzed alike, provided that related sessions have read the same files and have the
same diagnostics. -/
theorem ofFile_lockstep {file : ParsedFile} (hp : P file file)
    (hown : scope.opens (env.normalize file.path))
    (hother : ∀ ⦃d e⦄, P d e → d.path ≠ file.path → d = e)
    (hread : ∀ s t, I.related s t → t.readFiles = s.readFiles ∧ t.diagnostics = s.diagnostics) :
    Lockstep I Eq (ofFile env file) (ofFile env' file) := by
  unfold ofFile
  rw [h.options]
  refine (h.symbolsOf hp).bind ?_
  rintro _ _ ⟨rfl, rfl⟩
  refine (find_lockstep h env.options file).bind_same fun markers _ => ?_
  refine (diagnoseMarkers_lockstep h env.options file).bind_eq fun _ => ?_
  refine (answerUsages_lockstep h hp hown hother rfl (Presence.askable h.toMeanings hp) 0
    (Progress.plain_start _)).bind_same fun p _ => ?_
  refine (make_lockstep h env.options file _ markers p.injections).bind_eq fun edits => ?_
  split
  · exact (h.note _ _ _ _ _ _).bind_eq fun _ => .refl _
  · refine .get_bind (fun s t hi => ?_) fun s _ => ?_
    · obtain ⟨hfiles, hdiagnostics⟩ := hread s t hi
      rw [hfiles, hdiagnostics]
      exact (h.note _ _ _ _ _ _).bind_eq fun _ => .refl _
    · exact (h.note _ _ _ _ _ _).bind_eq fun _ => .refl _

end JsxPresence.Analysis
