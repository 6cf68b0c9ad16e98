import JsxPresence.Proofs.Analysis.Injection

namespace JsxPresence

namespace Options

/-- What becomes of a byte of a target in the name of its prop. -/
def mangled (b : UInt8) : UInt8 := if isAlnum b then b else byte '_'

theorem mangled_eq_iff {a b : UInt8} :
    mangled a = mangled b ↔ a = b ∨ (isAlnum a = false ∧ isAlnum b = false) := by
  have hsep : isAlnum (byte '_') = false := by decide
  unfold mangled
  cases ha : isAlnum a <;> cases hb : isAlnum b <;> grind

/-- Two targets have one prop exactly if they differ only in bytes that are no letters or digits. -/
theorem propName_eq_iff (o : Options) {s t : Bytes} :
    o.propName s = o.propName t ↔
      List.Forall₂ (fun a b => a = b ∨ (isAlnum a = false ∧ isAlnum b = false)) s t := by
  have hmap : o.propName s = o.propName t ↔ s.map mangled = t.map mangled := by
    unfold propName
    rw [List.append_right_inj, List.cons_inj_right]
    rfl
  rw [hmap]
  clear hmap
  induction s generalizing t with
  | nil => cases t <;> simp
  | cons a s ih =>
    cases t with
    | nil => simp
    | cons b t => simp [mangled_eq_iff, ih]

/-- Paths of letters and digits have props of their own. -/
theorem propName_inj (o : Options) {s t : Bytes} (hs : ∀ b ∈ s, isAlnum b = true ∨ b = byte '.')
    (ht : ∀ b ∈ t, isAlnum b = true ∨ b = byte '.') (h : o.propName s = o.propName t) : s = t := by
  rw [propName_eq_iff] at h
  induction h with
  | nil => rfl
  | @cons a b s t hab _ ih =>
    have heq : a = b := by
      rcases hab with hab | ⟨ha, hb⟩
      · exact hab
      · have ha' := (hs a List.mem_cons_self).resolve_left (by simp [ha])
        have hb' := (ht b List.mem_cons_self).resolve_left (by simp [hb])
        rw [ha', hb']
    rw [heq, ih (fun c hc => hs c (List.mem_cons_of_mem _ hc))
      fun c hc => ht c (List.mem_cons_of_mem _ hc)]

end Options

namespace Analysis

open Session Presence

/-- No two markers of the file that read the prop ask for different targets. -/
def Unmerged (options : Options) (definition : ParsedFile) (prop : Bytes) : Prop :=
  ∀ m ∈ Marker.all options definition, ∀ n ∈ Marker.all options definition,
    options.propName m.target = prop → options.propName n.target = prop → m.target = n.target

theorem unmerged_of_plain {options : Options} {definition : ParsedFile}
    (h : ∀ m ∈ Marker.all options definition, ∀ b ∈ m.target, isAlnum b = true ∨ b = byte '.')
    (prop : Bytes) : Unmerged options definition prop :=
  fun m hm n hn hmp hnp => options.propName_inj (h m hm) (h n hn) (hmp.trans hnp.symm)

variable {env : Environment} {file : ParsedFile} {base : Session}

/-- What is due to one of the markers is due to all that read the prop. -/
theorem Due.isTrue_of_unmerged {place : Nat} {u : Usage} {prop : Bytes}
    (h : Due env base file (place, u, prop)) :
    ∃ definition, definition? env base file u = some definition ∧
      (Unmerged env.options definition prop → ∀ m ∈ Marker.all env.options definition,
        env.options.propName m.target = prop → isTrue env base file definition m = true) := by
  obtain ⟨-, -, definition, hd, n, hn, htrue, hprop⟩ := h
  refine ⟨definition, hd, fun hunmerged m hm hmp => ?_⟩
  rw [isTrue_congr (hunmerged m hm n hn hmp hprop), htrue]

/-- Besides the edits for its own markers an analysis adds attributes with the value true. If no two
targets are merged in the prop of such an attribute, every question of the file that defines the
usage that reads the prop has the answer yes. -/
theorem true_attribute_answers_all (env : Environment) (hfalse : env.options.injectFalse = false)
    {path text : Bytes} {text? : Option Bytes} (hg : givenText? env path text? = some text)
    {file : ParsedFile} (hp : parsed? env path text = some file) (journal : Log.Journal)
    (hu : Unmistakable env (opened env path text (.start journal)) file) {a : Analysis}
    (ha : (analyze env path text? (.start journal)).1 = .ok a) :
    ∃ added : List (Nat × Usage × Bytes),
      a.edits.Perm (Plan.markerEdits env.options file.source (Marker.all env.options file) ++
        added.map Plan.trueAttribute) ∧
      ∀ place u prop, (place, u, prop) ∈ added →
        (Symbols.ofOutline file.outline).usages[place]? = some u ∧
        ∃ definition,
          definition? env (opened env path text (.start journal)) file u = some definition ∧
          (Unmerged env.options definition prop → ∀ m ∈ Marker.all env.options definition,
            env.options.propName m.target = prop →
              isTrue env (opened env path text (.start journal)) file definition m = true) := by
  have hlib : (opened env path text (.start journal)).library env file.path = .ok file := by
    rw [library_opened hp, shelf_self]
  have hstable := opened_stable hp journal hu.specifiers
  have hstart : Waiting env (opened env path text (.start journal)) file
      (opened env path text (.start journal)) :=
    asking_of_empty hstable (by rw [opened_eq hp]; rfl) (by rw [opened_eq hp]; rfl)
  have hinjections := (progress_adds hstable hstart hu.targets hlib).1
  refine ⟨Plan.slots env.options (Symbols.ofOutline file.outline) []
    (allAnswers env (opened env path text (.start journal)) file), ?_, ?_⟩
  · rw [(analysis_of_ok hg hp ha).1, planned, hinjections, Plan.edits_eq,
      Plan.attributeEdits_eq hfalse]
    exact List.mergeSort_perm _ _
  · intro place u prop hslot
    obtain ⟨-, husage, hlacks, hanswer⟩ := (Plan.mem_slots hfalse).1 hslot
    exact ⟨husage, (due_iff.2 ⟨husage, hlacks, hanswer⟩).isTrue_of_unmerged⟩

/-- A text that renders what the component in it asks for, twice. -/
def twiceAskedText : Bytes := utf8 "import \x7bBox\x7d from './b'; <><Box/><Lid.Top/></>;"

def twiceAskingProject : Environment where
  options := {}
  files := (FileSystem.bare (utf8 "/proj")).install (utf8 "/proj/b.tsx")
    (utf8 "export const Box = component$((p) => isComponentPresent(Lid.Top) || " ++
      utf8 "isComponentPresent(Lid.Top));")

theorem true_attribute_answers_all_twiceAskedText :
    ∃ file a, parsed? twiceAskingProject (utf8 "a.tsx") twiceAskedText = some file ∧
      Unmistakable twiceAskingProject
        (opened twiceAskingProject (utf8 "a.tsx") twiceAskedText (.start (.ofLevel .off))) file ∧
      (analyze twiceAskingProject (utf8 "a.tsx") (some twiceAskedText)
        (.start (.ofLevel .off))).1 = .ok a ∧
      ∃ definition prop, Unmerged {} definition prop ∧ (Marker.all {} definition).length = 2 ∧
        ∀ m ∈ Marker.all {} definition, Options.propName {} m.target = prop →
          isTrue twiceAskingProject
            (opened twiceAskingProject (utf8 "a.tsx") twiceAskedText (.start (.ofLevel .off)))
            file definition m = true := by
  have h : (parsed? twiceAskingProject (utf8 "a.tsx") twiceAskedText).any (fun file =>
      (Marker.all {} file).isEmpty &&
      (questions twiceAskingProject
        (opened twiceAskingProject (utf8 "a.tsx") twiceAskedText (.start (.ofLevel .off)))
          file).all (· = ⟨utf8 "Lid.Top", none⟩) &&
      planned twiceAskingProject file
        (opened twiceAskingProject (utf8 "a.tsx") twiceAskedText (.start (.ofLevel .off))) ≠ [] &&
      (Symbols.ofOutline file.outline).usages.all fun u =>
        (definition? twiceAskingProject
          (opened twiceAskingProject (utf8 "a.tsx") twiceAskedText (.start (.ofLevel .off)))
            file u).all fun definition => (Marker.all {} definition).length = 2 &&
              (Marker.all {} definition).all (·.target = utf8 "Lid.Top")) = true := by
    decide +kernel
  obtain ⟨file, hp, hfacts⟩ := (Option.any_eq_true _ _).1 h
  simp only [Bool.and_eq_true, decide_eq_true_eq, List.isEmpty_iff, List.all_eq_true] at hfacts
  obtain ⟨⟨⟨hm, hquestions⟩, hplanned⟩, hdefinitions⟩ := hfacts
  have hshort : twiceAskedText.Short := by
    unfold Bytes.Short
    decide +kernel
  have hu : Unmistakable twiceAskingProject
      (opened twiceAskingProject (utf8 "a.tsx") twiceAskedText (.start (.ofLevel .off))) file := by
    refine ⟨opened_unambiguous hp _ (by decide +kernel), fun a b ha hb _ _ _ _ _ => ?_⟩
    rw [hquestions a ha, hquestions b hb]
  obtain ⟨a, ha⟩ := @exists_analysis twiceAskingProject file (utf8 "a.tsx") twiceAskedText
    (some twiceAskedText) rfl hp hshort hm (.start (.ofLevel .off))
  refine ⟨file, a, hp, hu, ha, ?_⟩
  obtain ⟨added, hperm, hadded⟩ :=
    true_attribute_answers_all twiceAskingProject rfl rfl hp (.ofLevel .off) hu ha
  have hsome : added ≠ [] := by
    rintro rfl
    have hmarkers : Marker.all twiceAskingProject.options file = [] := hm
    rw [hmarkers, Plan.markerEdits_nil, (analysis_of_ok rfl hp ha).1] at hperm
    exact hplanned (List.perm_nil.1 hperm)
  obtain ⟨⟨place, u, prop⟩, hslot⟩ := List.exists_mem_of_ne_nil added hsome
  obtain ⟨husage, definition, hd, htrue⟩ := hadded place u prop hslot
  have hfacts := hdefinitions u (List.mem_of_getElem? husage)
  rw [hd] at hfacts
  simp only [Option.all_some, Bool.and_eq_true, decide_eq_true_eq, List.all_eq_true] at hfacts
  obtain ⟨hlength, htargets⟩ := hfacts
  have hunmerged : Unmerged {} definition prop := by
    refine unmerged_of_plain (fun m hm => ?_) prop
    rw [htargets m hm]
    decide +kernel
  exact ⟨definition, prop, hunmerged, hlength, htrue hunmerged⟩

/-- A text that renders one of two things that the component in it asks for. -/
def mergedText : Bytes := utf8 "import \x7bPp\x7d from './d'; <><Pp/><A.B/></>"

def mergedProject : Environment where
  options := {}
  files := (FileSystem.bare (utf8 "/proj")).install (utf8 "/proj/d.tsx")
    (utf8 "export const Pp = component$((p) => isComponentPresent(A.B) || isComponentPresent(A_B))")

/-- There the answer yes for `A.B` is read as the answer for `A_B` too, which is no. -/
theorem merged_answers :
    ∃ file a, parsed? mergedProject (utf8 "a.tsx") mergedText = some file ∧
      (analyze mergedProject (utf8 "a.tsx") (some mergedText) (.start (.ofLevel .off))).1 =
        .ok a ∧
      ∃ place u prop definition, (Symbols.ofOutline file.outline).usages[place]? = some u ∧
        Plan.trueAttribute (place, u, prop) ∈ a.edits ∧
        definition? mergedProject
          (opened mergedProject (utf8 "a.tsx") mergedText (.start (.ofLevel .off))) file u =
            some definition ∧
        ∃ m ∈ Marker.all {} definition, Options.propName {} m.target = prop ∧
          isTrue mergedProject
            (opened mergedProject (utf8 "a.tsx") mergedText (.start (.ofLevel .off)))
            file definition m = false := by
  have h : (parsed? mergedProject (utf8 "a.tsx") mergedText).any (fun file =>
      (Marker.all {} file).isEmpty &&
      ((Symbols.ofOutline file.outline).usages[0]?).any fun u =>
        (planned mergedProject file
          (opened mergedProject (utf8 "a.tsx") mergedText (.start (.ofLevel .off)))).contains
            (Plan.trueAttribute (0, u, utf8 "__qwik_analyzer_has_A_B")) &&
        (definition? mergedProject
          (opened mergedProject (utf8 "a.tsx") mergedText (.start (.ofLevel .off))) file u).any
            fun definition => (Marker.all {} definition).any fun m =>
              Options.propName {} m.target = utf8 "__qwik_analyzer_has_A_B" &&
                !isTrue mergedProject
                  (opened mergedProject (utf8 "a.tsx") mergedText (.start (.ofLevel .off)))
                  file definition m) = true := by
    decide +kernel
  obtain ⟨file, hp, hfacts⟩ := (Option.any_eq_true _ _).1 h
  rw [Bool.and_eq_true, List.isEmpty_iff] at hfacts
  obtain ⟨hm, hfacts⟩ := hfacts
  obtain ⟨u, hu, hfacts⟩ := (Option.any_eq_true _ _).1 hfacts
  rw [Bool.and_eq_true, List.contains_iff_mem] at hfacts
  obtain ⟨hedit, hfacts⟩ := hfacts
  obtain ⟨definition, hd, hfacts⟩ := (Option.any_eq_true _ _).1 hfacts
  obtain ⟨m, hmarker, hfacts⟩ := List.any_eq_true.1 hfacts
  rw [Bool.and_eq_true, decide_eq_true_eq, Bool.not_eq_true'] at hfacts
  have hshort : mergedText.Short := by
    unfold Bytes.Short
    decide +kernel
  obtain ⟨a, ha⟩ := @exists_analysis mergedProject file (utf8 "a.tsx") mergedText
    (some mergedText) rfl hp hshort hm (.start (.ofLevel .off))
  rw [← (analysis_of_ok rfl hp ha).1] at hedit
  exact ⟨file, a, hp, ha, 0, u, _, definition, hu, hedit, hd, m, hmarker, hfacts⟩

end Analysis

end JsxPresence
