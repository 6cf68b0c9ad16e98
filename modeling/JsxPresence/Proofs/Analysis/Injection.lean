import JsxPresence.Proofs.Analysis.Answers

namespace JsxPresence

namespace Plan

/-- The places, elements and props of the accepted injections. -/
def slots (options : Options) (symbols : Symbols) (made : List (Nat × Bytes))
    (injections : List Injection) : List (Nat × Usage × Bytes) :=
  (accepted options symbols made injections).map fun x => (x.2.usage, x.1, x.2.prop)

variable {options : Options} {symbols : Symbols}

theorem present_of_accepted (hfalse : options.injectFalse = false) {made : List (Nat × Bytes)}
    {injections : List Injection} {x : Usage × Injection}
    (h : x ∈ accepted options symbols made injections) : x.2.present = true := by
  induction injections generalizing made with
  | nil => cases h
  | cons i rest ih =>
    unfold accepted at h
    split at h
    · exact ih h
    · split_ifs at h with hskip
      · exact ih h
      · rcases List.mem_cons.1 h with rfl | h
        · simp only [hfalse, Bool.or_eq_true, not_or] at hskip
          simpa using hskip.1.1
        · exact ih h

/-- An injection is accepted if it is a yes for an element that lacks the attribute, and has not been
made yet. -/
theorem mem_slots (hfalse : options.injectFalse = false) {made : List (Nat × Bytes)}
    {injections : List Injection} {place : Nat} {u : Usage} {prop : Bytes} :
    (place, u, prop) ∈ slots options symbols made injections ↔
      (place, prop) ∉ made ∧ symbols.usages[place]? = some u ∧ u.hasAttribute prop = false ∧
        ⟨place, prop, true⟩ ∈ injections := by
  induction injections generalizing made with
  | nil => simp [slots, accepted]
  | cons i rest ih =>
    have skip (hno : (place, prop) ∉ made → symbols.usages[place]? = some u →
        u.hasAttribute prop = false → ⟨place, prop, true⟩ ≠ i) :
        ((place, u, prop) ∈ slots options symbols made rest ↔
          (place, prop) ∉ made ∧ symbols.usages[place]? = some u ∧ u.hasAttribute prop = false ∧
            ⟨place, prop, true⟩ ∈ i :: rest) := by
      rw [ih]
      refine and_congr_right fun hm => and_congr_right fun hu => and_congr_right fun ha => ?_
      simp [hno hm hu ha]
    unfold slots at skip ih ⊢
    unfold accepted
    split
    · rename_i hnone
      refine skip fun _ hu _ he => ?_
      rw [← he] at hnone
      rw [hnone] at hu
      cases hu
    · rename_i usage hsome
      split_ifs with hskip
      · refine skip fun hm hu ha he => ?_
        rw [← he] at hskip hsome
        rw [hsome] at hu
        cases hu
        simp [ha, hm] at hskip
      · simp only [hfalse, Bool.not_false, Bool.and_true, Bool.or_eq_true, not_or,
          Bool.not_eq_true, Bool.not_eq_false'] at hskip
        obtain ⟨⟨hpresent, hattr⟩, hmade⟩ := hskip
        have hmade : (i.usage, i.prop) ∉ made := by simpa using hmade
        simp only [List.map_cons, List.mem_cons, ih, Prod.mk.injEq]
        constructor
        · rintro (⟨rfl, rfl, rfl⟩ | ⟨hm, hu, ha, hi⟩)
          · exact ⟨hmade, hsome, hattr, .inl (by rw [← hpresent])⟩
          · exact ⟨fun h => hm (.inr h), hu, ha, .inr hi⟩
        · rintro ⟨hm, hu, ha, hi⟩
          by_cases hs : place = i.usage ∧ prop = i.prop
          · obtain ⟨rfl, rfl⟩ := hs
            rw [hsome] at hu
            cases hu
            exact .inl ⟨rfl, rfl, rfl⟩
          · rcases hi with hi | hi
            · rw [← hi] at hs
              exact absurd ⟨rfl, rfl⟩ hs
            · refine .inr ⟨?_, hu, ha, hi⟩
              rintro (h | h)
              · exact hs h
              · exact hm h

theorem nodup_slots (hfalse : options.injectFalse = false) (made : List (Nat × Bytes))
    (injections : List Injection) : (slots options symbols made injections).Nodup := by
  induction injections generalizing made with
  | nil => exact List.nodup_nil
  | cons i rest ih =>
    unfold slots accepted
    split
    · exact ih made
    · split_ifs
      · exact ih made
      · refine List.nodup_cons.2 ⟨fun h => ?_, ih _⟩
        exact ((mem_slots hfalse).1 h).1 List.mem_cons_self

/-- The edit that adds an attribute with the value true. -/
def trueAttribute (slot : Nat × Usage × Bytes) : Edit :=
  .insertion slot.2.1.insertAt (utf8 " " ++ slot.2.2 ++ utf8 "=\x7btrue\x7d")

theorem attributeEdits_eq (hfalse : options.injectFalse = false) (injections : List Injection) :
    attributeEdits options symbols injections =
      (slots options symbols [] injections).map trueAttribute := by
  unfold attributeEdits slots
  rw [List.map_map]
  refine List.map_congr_left fun x hx => ?_
  have hp := present_of_accepted hfalse hx
  have htext : utf8 "=" ++ openBrace :: (utf8 "true" ++ [closeBrace]) = utf8 "=\x7btrue\x7d" := by
    decide
  simp only [injectionEdit, attributeText, trueAttribute, hp, Function.comp_apply, if_true,
    List.append_assoc, List.cons_append, htext]

end Plan

namespace Analysis

open Session Presence

variable {env : Environment} {file : ParsedFile} {path text : Bytes}

theorem opened_stable (h : parsed? env path text = some file) (journal : Log.Journal)
    (hu : Unambiguous env ((opened env path text (.start journal)).library env)) :
    Stable env (opened env path text (.start journal)) where
  proper := by
    rw [library_opened h]
    exact shelf_proper (read_of_parsed? h).1
  unambiguous := hu
  coherent :=
    { library := rfl
      resolved := fun _ _ _ _ _ _ _ hg => by
        rw [opened_eq h] at hg
        cases hg
      symbols := fun _ _ _ _ hg => by
        rw [opened_eq h] at hg
        cases hg
      usages := fun _ _ _ _ _ _ hg => by
        rw [opened_eq h] at hg
        cases hg }

/-- Nothing that is remembered while a file is analyzed can be confused: neither where specifiers
lead, nor what was found about the targets that are asked for. -/
structure Unmistakable (env : Environment) (base : Session) (file : ParsedFile) : Prop where
  specifiers : Unambiguous env (base.library env)
  targets : Distinct env base file.path (· ∈ questions env base file)

/-- An attribute is due: the file that defines the usage has a marker whose answer is yes, and the
usage lacks the attribute. -/
def Due (env : Environment) (base : Session) (file : ParsedFile) (slot : Nat × Usage × Bytes) :
    Prop :=
  (Symbols.ofOutline file.outline).usages[slot.1]? = some slot.2.1 ∧
  slot.2.1.hasAttribute slot.2.2 = false ∧
  ∃ definition, definition? env base file slot.2.1 = some definition ∧
    ∃ m ∈ Marker.all env.options definition, isTrue env base file definition m = true ∧
      env.options.propName m.target = slot.2.2

theorem mem_allAnswers {base : Session} {i : Plan.Injection} :
    i ∈ allAnswers env base file ↔
      ∃ u, (Symbols.ofOutline file.outline).usages[i.usage]? = some u ∧
        ∃ definition, definition? env base file u = some definition ∧
          ∃ m ∈ Marker.all env.options definition, isTrue env base file definition m = i.present ∧
            env.options.propName m.target = i.prop := by
  unfold allAnswers
  rw [List.mem_flatMap]
  constructor
  · rintro ⟨⟨u, place⟩, hu, hi⟩
    unfold answers at hi
    cases hd : definition? env base file u with
    | none =>
      rw [hd] at hi
      cases hi
    | some definition =>
      rw [hd] at hi
      obtain ⟨m, hm, rfl⟩ := List.mem_map.1 hi
      exact ⟨u, List.mk_mem_zipIdx_iff_getElem?.1 hu, definition, hd, m, hm, rfl, rfl⟩
  · rintro ⟨u, hu, definition, hd, m, hm, hpresent, hprop⟩
    refine ⟨(u, i.usage), List.mk_mem_zipIdx_iff_getElem?.2 hu, ?_⟩
    unfold answers
    rw [hd]
    refine List.mem_map.2 ⟨m, hm, ?_⟩
    rw [hpresent, hprop]

theorem due_iff {base : Session} {place : Nat} {u : Usage} {prop : Bytes} :
    Due env base file (place, u, prop) ↔
      (Symbols.ofOutline file.outline).usages[place]? = some u ∧ u.hasAttribute prop = false ∧
        ⟨place, prop, true⟩ ∈ allAnswers env base file := by
  unfold Due
  refine and_congr_right fun hu => and_congr_right fun _ => ?_
  rw [mem_allAnswers]
  constructor
  · exact fun h => ⟨u, hu, h⟩
  · rintro ⟨v, hv, h⟩
    rw [hu] at hv
    cases hv
    exact h

/-- A successful analysis has the edits it comes to. -/
theorem analysis_of_ok {a : Analysis} {text? : Option Bytes}
    (hg : givenText? env path text? = some text) (hp : parsed? env path text = some file)
    {w : Workspace} (ha : (analyze env path text? w).1 = .ok a) :
    a.edits = planned env file (opened env path text w) ∧
      a.hasComponent = (progress env file (opened env path text w)).hasComponent := by
  have hknows := opened_knowsSymbols hp w
  rw [analyze_fst, run_of_parsed hg hp] at ha
  cases hc : Edit.check file.source.length (planned env file (opened env path text w)) with
  | some error =>
    rw [ofFile_of_check_eq_some hknows hc] at ha
    cases ha
  | none =>
    obtain ⟨b, hb, hedits, hcomponent, -⟩ := ofFile_of_check_eq_none hknows hc
    rw [hb] at ha
    cases ha
    exact ⟨hedits, hcomponent⟩

/-- Apart from the edits for its own markers, an analysis adds exactly the attributes that are due,
each once and all with the value true; and it reports a component exactly if some marker behind its
usages has the answer yes. -/
theorem adds_due_attributes (env : Environment) (hfalse : env.options.injectFalse = false)
    {path text : Bytes} {text? : Option Bytes} (hg : givenText? env path text? = some text)
    {file : ParsedFile} (hp : parsed? env path text = some file) (journal : Log.Journal)
    (hu : Unmistakable env (opened env path text (.start journal)) file) {a : Analysis}
    (ha : (analyze env path text? (.start journal)).1 = .ok a) :
    (∃ due : List (Nat × Usage × Bytes), due.Nodup ∧
      (∀ slot, slot ∈ due ↔ Due env (opened env path text (.start journal)) file slot) ∧
      a.edits.Perm (Plan.markerEdits env.options file.source (Marker.all env.options file) ++
        due.map Plan.trueAttribute)) ∧
    (a.hasComponent = true ↔ ∃ u ∈ (Symbols.ofOutline file.outline).usages, ∃ definition,
      definition? env (opened env path text (.start journal)) file u = some definition ∧
        ∃ m ∈ Marker.all env.options definition,
          isTrue env (opened env path text (.start journal)) file definition m = true) := by
  obtain ⟨hedits, hcomponent⟩ := analysis_of_ok hg hp ha
  have hstable := opened_stable hp journal hu.specifiers
  have hlib : (opened env path text (.start journal)).library env file.path = .ok file := by
    rw [library_opened hp, shelf_self]
  have hstart : Waiting env (opened env path text (.start journal)) file
      (opened env path text (.start journal)) :=
    asking_of_empty hstable (by rw [opened_eq hp]; rfl) (by rw [opened_eq hp]; rfl)
  obtain ⟨hinjections, hany⟩ := progress_adds hstable hstart hu.targets hlib
  generalize opened env path text (.start journal) = base at *
  constructor
  · refine ⟨Plan.slots env.options (Symbols.ofOutline file.outline) [] (allAnswers env base file),
      Plan.nodup_slots hfalse _ _, ?_, ?_⟩
    · rintro ⟨place, u, prop⟩
      rw [Plan.mem_slots hfalse, due_iff]
      simp
    · rw [hedits, planned, hinjections, Plan.edits_eq, Plan.attributeEdits_eq hfalse]
      exact List.mergeSort_perm _ _
  · rw [hcomponent, hany, List.any_eq_true]
    constructor
    · rintro ⟨i, hi, hpresent⟩
      obtain ⟨u, hu, definition, hd, m, hm, htrue, -⟩ := mem_allAnswers.1 hi
      exact ⟨u, List.mem_of_getElem? hu, definition, hd, m, hm, htrue.trans hpresent⟩
    · rintro ⟨u, hu, definition, hd, m, hm, htrue⟩
      obtain ⟨place, hplace⟩ := List.mem_iff_getElem?.1 hu
      exact ⟨⟨place, env.options.propName m.target, true⟩,
        mem_allAnswers.2 ⟨u, hplace, definition, hd, m, hm, htrue, rfl⟩, rfl⟩

/-- A file without markers is analyzed. -/
theorem exists_analysis {text? : Option Bytes} (hg : givenText? env path text? = some text)
    (hp : parsed? env path text = some file) (hs : text.Short)
    (hm : Marker.all env.options file = []) (w : Workspace) :
    ∃ a, (analyze env path text? w).1 = .ok a := by
  obtain ⟨hread, -, htext⟩ := read_of_parsed? hp
  have hnone : ¬Plan.Torn env.options file := by
    unfold Plan.Torn
    rw [hm, Plan.markerEdits_nil]
    simp
  obtain ⟨a, ha, -⟩ :=
    (@ofFile_iff env file _ (opened_knowsSymbols hp w) hread (htext ▸ hs)).2 hnone
  exact ⟨a, by rw [analyze_fst, run_of_parsed hg hp, ha]; rfl⟩

/-- If no specifier of the project or of the text has a line break, none are confused. -/
theorem opened_unambiguous (h : parsed? env path text = some file) (w : Workspace)
    (hall : (text :: env.files.texts).all Outline.hasPlainSpecifiers = true) :
    Unambiguous env ((opened env path text w).library env) := by
  rw [List.all_cons, Bool.and_eq_true] at hall
  obtain ⟨htext, hdisk⟩ := hall
  refine unambiguous_of_newline_free fun q f hf => ?_
  rw [library_opened h, shelf] at hf
  by_cases hq : q = file.path
  · rw [if_pos hq] at hf
    cases hf
    obtain ⟨hread, -, hcontent⟩ := read_of_parsed? h
    rw [← hcontent] at htext
    exact Outline.newline_not_mem_specifiers htext hread
  · rw [if_neg hq] at hf
    exact newline_not_mem_of_plainSpecifiers hdisk hf

/-- A text that renders what the component in it asks for. -/
def askedText : Bytes := utf8 "import \x7bBox\x7d from './b'; <><Box/><Lid/></>;"

def askingProject : Environment where
  options := {}
  files := (FileSystem.bare (utf8 "/proj")).install (utf8 "/proj/b.tsx")
    (utf8 "export const Box = component$((p) => isComponentPresent(Lid));")

theorem adds_due_attributes_askedText :
    ∃ file a, parsed? askingProject (utf8 "a.tsx") askedText = some file ∧
      Unmistakable askingProject
        (opened askingProject (utf8 "a.tsx") askedText (.start (.ofLevel .off))) file ∧
      (analyze askingProject (utf8 "a.tsx") (some askedText) (.start (.ofLevel .off))).1 = .ok a ∧
      a.hasComponent = true := by
  have h : (parsed? askingProject (utf8 "a.tsx") askedText).any (fun file =>
      (Marker.all {} file).isEmpty &&
      (questions askingProject
        (opened askingProject (utf8 "a.tsx") askedText (.start (.ofLevel .off))) file).length = 1 &&
      (allAnswers askingProject
        (opened askingProject (utf8 "a.tsx") askedText (.start (.ofLevel .off))) file).any
          (·.present)) = true := by
    decide +kernel
  obtain ⟨file, hp, hfacts⟩ := (Option.any_eq_true _ _).1 h
  simp only [Bool.and_eq_true, decide_eq_true_eq, List.isEmpty_iff] at hfacts
  obtain ⟨⟨hm, hone⟩, hany⟩ := hfacts
  have hshort : askedText.Short := by
    unfold Bytes.Short
    decide +kernel
  obtain ⟨q, hq⟩ := List.length_eq_one_iff.1 hone
  have hu : Unmistakable askingProject
      (opened askingProject (utf8 "a.tsx") askedText (.start (.ofLevel .off))) file := by
    refine ⟨opened_unambiguous hp _ (by decide +kernel), fun a b ha hb _ _ _ _ _ => ?_⟩
    rw [hq] at ha hb
    rw [List.mem_singleton.1 ha, List.mem_singleton.1 hb]
  obtain ⟨a, ha⟩ := @exists_analysis askingProject file (utf8 "a.tsx") askedText (some askedText)
    rfl hp hshort hm (.start (.ofLevel .off))
  refine ⟨file, a, hp, hu, ha, ?_⟩
  obtain ⟨i, hi, hpresent⟩ := List.any_eq_true.1 hany
  obtain ⟨u, hu', definition, hd, m, hm, htrue, -⟩ := mem_allAnswers.1 hi
  have hadds := adds_due_attributes askingProject rfl rfl hp (.ofLevel .off) hu ha
  exact hadds.2.2 ⟨u, List.mem_of_getElem? hu', definition, hd, m, hm, htrue.trans hpresent⟩

/-- A text whose components ask for `c` from `a#b` and for `b#c` from `a`. It renders the first. -/
def mistakenText : Bytes :=
  utf8 "import \x7bc as W\x7d from 'a#b'; import \x7bPp\x7d from './d'; " ++
  utf8 "import \x7bQq\x7d from './e'; <><Pp/><Qq/><W/></>"

def mistakenProject : Environment where
  options := {}
  files := ((FileSystem.bare (utf8 "/proj")).install (utf8 "/proj/d.tsx")
    (utf8 "import \x7bc as Z\x7d from 'a#b'; " ++
      utf8 "export const Pp = component$((p) => isComponentPresent(Z))")).install
    (utf8 "/proj/e.tsx") (utf8 "import \x7b'b#c' as Z\x7d from 'a'; " ++
      utf8 "export const Qq = component$((p) => isComponentPresent(Z))")

/-- The attribute that the second component gets. -/
def mistakenEdit : Edit := .insertion 86 (utf8 " __qwik_analyzer_has_Z=\x7btrue\x7d")

/-- Both targets are kept under one key, and so the second component gets an attribute that is not
due. -/
theorem undue_attribute :
    ∃ file a, parsed? mistakenProject (utf8 "a.tsx") mistakenText = some file ∧
      (analyze mistakenProject (utf8 "a.tsx") (some mistakenText) (.start (.ofLevel .off))).1 =
        .ok a ∧
      mistakenEdit ∈ a.edits ∧
      mistakenEdit ∉ Plan.markerEdits {} file.source (Marker.all {} file) ∧
      ∀ slot, Due mistakenProject
        (opened mistakenProject (utf8 "a.tsx") mistakenText (.start (.ofLevel .off))) file slot →
          mistakenEdit ≠ Plan.trueAttribute slot := by
  have h : (parsed? mistakenProject (utf8 "a.tsx") mistakenText).any (fun file =>
      (Marker.all {} file).isEmpty &&
      (Plan.attributeEdits {} (Symbols.ofOutline file.outline) (progress mistakenProject file
        (opened mistakenProject (utf8 "a.tsx") mistakenText (.start (.ofLevel .off)))).injections
          ).contains mistakenEdit &&
      (allAnswers mistakenProject
        (opened mistakenProject (utf8 "a.tsx") mistakenText (.start (.ofLevel .off))) file).all
          fun i => !i.present || ((Symbols.ofOutline file.outline).usages[i.usage]?).any
            (·.insertAt ≠ 86)) = true := by
    decide +kernel
  obtain ⟨file, hp, hfacts⟩ := (Option.any_eq_true _ _).1 h
  simp only [Bool.and_eq_true, List.isEmpty_iff, List.contains_iff_mem] at hfacts
  obtain ⟨⟨hm, hedit⟩, hall⟩ := hfacts
  have hshort : mistakenText.Short := by
    unfold Bytes.Short
    decide +kernel
  obtain ⟨a, ha⟩ := @exists_analysis mistakenProject file (utf8 "a.tsx") mistakenText
    (some mistakenText) rfl hp hshort hm (.start (.ofLevel .off))
  refine ⟨file, a, hp, ha, ?_, ?_, ?_⟩
  · rw [(analysis_of_ok rfl hp ha).1, planned, Plan.edits_eq]
    exact List.mem_mergeSort.2 (List.mem_append_right _ hedit)
  · rw [hm, Plan.markerEdits_nil]
    exact List.not_mem_nil
  · rintro ⟨place, u, prop⟩ hdue he
    obtain ⟨hu, -, hi⟩ := due_iff.1 hdue
    have hne := List.all_eq_true.1 hall _ hi
    simp only [hu] at hne
    have hstart := congrArg Edit.start he
    simp [mistakenEdit, Plan.trueAttribute, Edit.insertion] at hstart hne
    exact hne hstart.symm

end Analysis

end JsxPresence
