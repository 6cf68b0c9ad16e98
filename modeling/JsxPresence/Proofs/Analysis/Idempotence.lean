import JsxPresence.Proofs.Analysis.Injection

namespace JsxPresence

/-- What is read of a call of the marker function, apart from where it stands. -/
structure CallReading where
  arguments : Nat
  /-- The component that the first argument names. -/
  target : Option Bytes
  /-- Whether the function around the call can be given props, if a component is defined there. -/
  owner : Option Bool

/-- What is read of a file of the things that can need an edit, apart from where they stand. -/
structure Reading where
  imports : List Binding
  /-- The names and attributes of the usages. -/
  usages : List (List Bytes × List Bytes)
  /-- The calls of the marker function. -/
  calls : List CallReading

namespace ParsedFile

def readCall (options : Options) (file : ParsedFile) (c : Call) : CallReading where
  arguments := c.arguments.length
  target := c.arguments.head?.bind fun a => Marker.target? a (file.source.text a.span)
  owner := (Owner.around? file.outline options.componentFunction c.span).map
    (·.params.first ≠ .other)

def reading (options : Options) (file : ParsedFile) : Reading where
  imports := (Symbols.ofOutline file.outline).imports
  usages := (Symbols.ofOutline file.outline).usages.map fun u => (u.path, u.attributes)
  calls := (file.outline.calls.filter (·.isTo options.markerFunction)).map (file.readCall options)

end ParsedFile

/-- The call lacks its answer and can be given it. -/
def CallReading.isOpen (c : CallReading) : Bool :=
  c.arguments < 2 && c.target.isSome && c.owner = some true

namespace Reading

/-- If markers must come from a module, they are imported from there. -/
def isImported (options : Options) (r : Reading) : Bool :=
  match options.moduleSpecifier with
  | none => true
  | some specifier => r.imports.any fun b =>
      b.specifier = specifier && b.localName = options.markerFunction

/-- Nothing is left to edit: no marker call is open, and every usage has the props to which the
answer is yes. -/
structure Settled (options : Options) (answers : List Plan.Injection) (r : Reading) : Prop where
  calls : r.isImported options = true → ∀ c ∈ r.calls, c.isOpen = false
  usages : ∀ i ∈ answers, i.present = true → ∀ u, r.usages[i.usage]? = some u → i.prop ∈ u.2

end Reading

namespace Marker

variable {options : Options} {file : ParsedFile} {m : Marker}

theorem isImported_reading (options : Options) (file : ParsedFile) :
    isImported options file.outline = (file.reading options).isImported options := by
  unfold isImported Reading.isImported
  cases options.moduleSpecifier with
  | none => rfl
  | some specifier =>
    rw [Bool.eq_iff_iff]
    simp only [ParsedFile.reading, Symbols.ofOutline, Symbols.bindings, List.any_flatMap,
      List.any_map, List.any_eq_true, Bool.and_eq_true, decide_eq_true_eq, Function.comp_apply]
    tauto

/-- A marker that is given its answer is an open call. -/
theorem isOpen_of_augmentation {r : Plan.Augmentation} (h : r ∈ Plan.augmentations options file) :
    isImported options file.outline = true ∧
      ∃ c ∈ (file.reading options).calls, c.isOpen = true := by
  obtain ⟨m, hm, hr⟩ := List.mem_filterMap.1 h
  obtain ⟨hi, c, hc, hof⟩ := exists_call_of_mem_all hm
  obtain ⟨-, haug, howner, hother⟩ := Plan.of_ofMarker? hr
  refine ⟨hi, _, List.mem_map_of_mem (List.mem_filter.2 ⟨hc, hof.called⟩), ?_⟩
  obtain ⟨first, rest, hargs, -, htarget⟩ := hof.arguments
  have hrest : rest = [] := by
    have hcount := hof.count
    rw [hargs, List.length_cons] at hcount
    have hone : m.argumentCount < 2 := by simpa [isAugmented] using haug
    exact List.length_eq_zero_iff.1 (by omega)
  have howner : Owner.around? file.outline options.componentFunction c.span = some r.owner := by
    rw [← hof.owner, howner]
  simp [CallReading.isOpen, ParsedFile.readCall, hargs, hrest, htarget, howner, hother]

/-- An open call is given its answer. -/
theorem augmentation_of_isOpen (hi : isImported options file.outline = true) {c : CallReading}
    (hc : c ∈ (file.reading options).calls) (hopen : c.isOpen = true) :
    Plan.augmentations options file ≠ [] := by
  obtain ⟨call, hmem, rfl⟩ := List.mem_map.1 hc
  obtain ⟨hcall, hto⟩ := List.mem_filter.1 hmem
  simp only [CallReading.isOpen, ParsedFile.readCall, Bool.and_eq_true, decide_eq_true_eq,
    Option.isSome_iff_exists, Option.bind_eq_some_iff, Option.map_eq_some_iff] at hopen
  obtain ⟨⟨hcount, target, first, hfirst, htarget⟩, owner, howner, hother⟩ := hopen
  have hfew : ¬2 ≤ call.arguments.length := Nat.not_le.2 (of_decide_eq_true hcount)
  obtain ⟨rest, hargs⟩ := List.head?_eq_some_iff.1 hfirst
  let m : Marker := ⟨target, call.span, first.span, file.source.text first.span,
    call.arguments.length, some owner⟩
  have hm : (ofCall? options file call).bind Finding.marker? = some m := by
    simp [ofCall?, hargs, hto, htarget, howner, Finding.marker?, m]
  have hall : m ∈ all options file := by
    rw [all, scan_of_isImported hi, List.filterMap_filterMap]
    exact List.mem_filterMap.2 ⟨call, hcall, hm⟩
  obtain ⟨r, hr⟩ := @Plan.exists_ofMarker? options m owner (decide_eq_false hfew) rfl hother
  exact List.ne_nil_of_mem (List.mem_filterMap.2 ⟨m, hall, hr⟩)

end Marker

namespace Plan

variable {options : Options} {file : ParsedFile} {injections : List Injection}

theorem callEdits_eq_nil_iff {given : List Nat} {l : List Augmentation} :
    callEdits options given l = [] ↔ l = [] := by
  cases l with
  | nil => simp [callEdits]
  | cons r rest =>
    unfold callEdits
    split_ifs <;> simp

/-- A file needs edits for its markers exactly if one of its marker calls is open. -/
theorem markerEdits_eq_nil_iff :
    markerEdits options file.source (Marker.all options file) = [] ↔
      ((file.reading options).isImported options = true →
        ∀ c ∈ (file.reading options).calls, c.isOpen = false) := by
  have hnil : markerEdits options file.source (Marker.all options file) = [] ↔
      augmentations options file = [] := by
    rw [markerEdits_eq, List.append_eq_nil_iff, callEdits_eq_nil_iff, and_iff_left_iff_imp]
    intro h
    simp [h, patternStarts]
  rw [hnil, ← Marker.isImported_reading]
  constructor
  · intro h hi c hc
    by_contra hopen
    exact Marker.augmentation_of_isOpen hi hc (by simpa using hopen) h
  · intro h
    refine List.eq_nil_iff_forall_not_mem.2 fun r hr => ?_
    obtain ⟨hi, c, hc, hopen⟩ := Marker.isOpen_of_augmentation hr
    rw [h hi c hc] at hopen
    cases hopen

/-- A file needs attributes exactly if one of its usages lacks a prop to which the answer is yes. -/
theorem attributeEdits_eq_nil_iff (hfalse : options.injectFalse = false) :
    attributeEdits options (Symbols.ofOutline file.outline) injections = [] ↔
      ∀ i ∈ injections, i.present = true →
        ∀ u, (file.reading options).usages[i.usage]? = some u → i.prop ∈ u.2 := by
  rw [attributeEdits_eq hfalse, List.map_eq_nil_iff, List.eq_nil_iff_forall_not_mem]
  simp only [ParsedFile.reading, List.getElem?_map, Option.map_eq_some_iff]
  constructor
  · rintro h ⟨place, prop, present⟩ hi (rfl : present = true) _ ⟨u, hu, rfl⟩
    by_contra hlacks
    exact h (place, u, prop) ((mem_slots hfalse).2
      ⟨List.not_mem_nil, hu, by simpa [Usage.hasAttribute] using hlacks, hi⟩)
  · rintro h ⟨place, u, prop⟩ hslot
    obtain ⟨-, hu, hlacks, hi⟩ := (mem_slots hfalse).1 hslot
    have hhas := h _ hi rfl _ ⟨u, hu, rfl⟩
    simp [Usage.hasAttribute, hhas] at hlacks

/-- A file needs no edits exactly if it is settled. -/
theorem edits_eq_nil_iff (hfalse : options.injectFalse = false) :
    edits options file.source (Symbols.ofOutline file.outline) (Marker.all options file) injections =
      [] ↔ (file.reading options).Settled options injections := by
  have hsort (l : List Edit) : Edit.sort l = [] ↔ l = [] := by
    rw [Edit.sort, ← List.length_eq_zero_iff, List.length_mergeSort, List.length_eq_zero_iff]
  rw [edits_eq, hsort, List.append_eq_nil_iff, markerEdits_eq_nil_iff,
    attributeEdits_eq_nil_iff hfalse]
  exact ⟨fun h => ⟨h.1, h.2⟩, fun h => ⟨h.calls, h.usages⟩⟩

end Plan

namespace Analysis

open Session

variable {env : Environment} {file : ParsedFile}

/-- The text is a program that is settled by the answers that its analysis comes to. -/
def ReadsSettled (env : Environment) (path text : Bytes) (w : Workspace) : Prop :=
  ∃ file, parsed? env path text = some file ∧ (file.reading env.options).Settled env.options
    (progress env file (opened env path text w)).injections

/-- Analyzing a text succeeds and finds nothing to edit exactly if it is settled. -/
theorem analyze_edits_eq_nil_iff (hfalse : env.options.injectFalse = false) (path text : Bytes)
    (w : Workspace) :
    (∃ a, (analyze env path (some text) w).1 = .ok a ∧ a.edits = []) ↔
      ReadsSettled env path text w := by
  cases hp : parsed? env path text with
  | none =>
    obtain ⟨message, he⟩ := @run_of_unparsed env path text (some text) rfl hp w
    simp [analyze_fst, he, Except.map, ReadsSettled, hp]
  | some file =>
    have hiff : planned env file (opened env path text w) = [] ↔ ReadsSettled env path text w := by
      rw [planned, Plan.edits_eq_nil_iff hfalse]
      simp [ReadsSettled, hp]
    rw [← hiff]
    constructor
    · rintro ⟨a, ha, hedits⟩
      rw [← (analysis_of_ok rfl hp ha).1, hedits]
    · intro hnone
      have hcheck : Edit.check file.source.length (planned env file (opened env path text w)) =
          none := by
        rw [hnone, Edit.check_eq_none_iff]
        simp
      obtain ⟨a, ha, hedits, -⟩ := ofFile_of_check_eq_none (opened_knowsSymbols hp w) hcheck
      refine ⟨a, ?_, by rw [hedits, hnone]⟩
      rw [analyze_fst, run_of_parsed rfl hp, ha]
      rfl

/-- The edits of a file without patterns, in the order in which they are found. -/
def found (env : Environment) (file : ParsedFile) (s : Session) : List Edit :=
  Plan.callEdits env.options [] (Plan.augmentations env.options file) ++
    Plan.attributeEdits env.options (Symbols.ofOutline file.outline) (progress env file s).injections

/-- The edits are found in the order in which they are made, and they can be made. -/
def InOrder (env : Environment) (file : ParsedFile) (s : Session) : Prop :=
  (∀ r ∈ Plan.augmentations env.options file, r.owner.params.first ≠ .objectPattern) ∧
  (found env file s).Pairwise (fun a b => a.start ≤ b.start ∧ a.comesFirst b = true ∧
    a.overlaps b = false) ∧
  ∀ e ∈ found env file s, e.fits file.source.length = true

instance (file : ParsedFile) (s : Session) : Decidable (InOrder env file s) :=
  inferInstanceAs (Decidable (_ ∧ _ ∧ _))

theorem planned_of_inOrder {s : Session} (h : InOrder env file s) :
    planned env file s = found env file s := by
  have hpatterns : Plan.patternStarts (Plan.augmentations env.options file) = [] := by
    refine List.eq_nil_iff_forall_not_mem.2 fun start hstart => ?_
    obtain ⟨r, hr, hp, -⟩ := Plan.mem_patternStarts.1 hstart
    exact h.1 r hr hp
  have hsorted := h.2.1.imp fun hab => decide_eq_true hab.1
  rw [planned, Plan.edits_eq, Plan.markerEdits_eq, hpatterns, List.filterMap_nil, List.append_nil]
  exact List.mergeSort_of_pairwise hsorted

/-- Edits that are found in order are made as they are found. -/
theorem analyzed_of_inOrder {path text : Bytes} {text? : Option Bytes}
    (hg : givenText? env path text? = some text) (hp : parsed? env path text = some file)
    (w : Workspace) (h : InOrder env file (opened env path text w)) :
    (∃ a, (analyze env path text? w).1 = .ok a ∧
      a.edits = found env file (opened env path text w)) ∧
    (transform env path text? w).1 =
      .ok (Edit.splice text 0 (found env file (opened env path text w))) := by
  obtain ⟨-, -, rfl⟩ := read_of_parsed? hp
  have hplanned := planned_of_inOrder h
  have hcheck : Edit.check file.source.length (found env file
      (opened env path file.source.content w)) = none :=
    (Edit.check_eq_none_iff _ _).2 ⟨h.2.2, h.2.1.imp fun hab => hab.2.2⟩
  obtain ⟨a, ha, hedits, -⟩ := ofFile_of_check_eq_none (opened_knowsSymbols hp w)
    (by rw [hplanned]; exact hcheck)
  rw [hplanned] at hedits
  rw [analyze_fst, transform_fst, run_of_parsed hg hp, ha]
  refine ⟨⟨a, rfl, hedits⟩, ?_⟩
  have happly : Edit.apply file.source.content a.edits = .ok (Edit.splice file.source.content 0
      (found env file (opened env path file.source.content w))) := by
    rw [hedits, Edit.apply]
    erw [hcheck]
    rw [List.mergeSort_of_pairwise (h.2.1.imp fun hab => hab.2.1)]
  simp only [Except.map, Except.bind, applied, happly, Except.mapError]

/-- A text whose inner function has parameters that cannot be extended. Looking ahead over them
takes the added attribute of `X` for plain tokens, and they are not found to end. -/
def driftingText : Bytes :=
  utf8 "import \x7bX\x7d from './d'; import \x7bY\x7d from './y';\n" ++
  utf8 "component$((props) => component$(([a, b = <X />]) => isComponentPresent(Z) || <Y/>));\n"

/-- The text with its edits made. -/
def driftedText : Bytes :=
  utf8 "import \x7bX\x7d from './d'; import \x7bY\x7d from './y';\n" ++
  utf8 "component$((props) => component$(([a, b = <X  __qwik_analyzer_has_Y=\x7btrue\x7d/>]) => " ++
  utf8 "isComponentPresent(Z) || <Y/>));\n"

def driftingProject : Environment where
  options := {}
  files := ((FileSystem.bare (utf8 "/proj")).install (utf8 "/proj/d.tsx")
    (utf8 "import \x7bY\x7d from './y'; " ++
      utf8 "export const X = component$((p) => isComponentPresent(Y));")).install
    (utf8 "/proj/y.tsx") (utf8 "export const Y = 1;")

/-- There the analysis of the edited text finds more to edit. -/
theorem edits_after_transform :
    (transform driftingProject (utf8 "a.tsx") (some driftingText) (.start (.ofLevel .off))).1 =
      .ok driftedText ∧
    ∃ a, (analyze driftingProject (utf8 "a.tsx") (some driftedText) (.start (.ofLevel .off))).1 =
      .ok a ∧ a.edits ≠ [] := by
  have h : (parsed? driftingProject (utf8 "a.tsx") driftingText).any (fun file =>
      decide (InOrder driftingProject file
        (opened driftingProject (utf8 "a.tsx") driftingText (.start (.ofLevel .off)))) &&
      Edit.splice driftingText 0 (found driftingProject file
        (opened driftingProject (utf8 "a.tsx") driftingText (.start (.ofLevel .off)))) =
          driftedText) = true := by
    decide +kernel
  have h' : (parsed? driftingProject (utf8 "a.tsx") driftedText).any (fun file =>
      decide (InOrder driftingProject file
        (opened driftingProject (utf8 "a.tsx") driftedText (.start (.ofLevel .off)))) &&
      !(found driftingProject file
        (opened driftingProject (utf8 "a.tsx") driftedText (.start (.ofLevel .off)))).isEmpty) =
          true := by
    decide +kernel
  obtain ⟨file, hp, hfacts⟩ := (Option.any_eq_true _ _).1 h
  obtain ⟨file', hp', hfacts'⟩ := (Option.any_eq_true _ _).1 h'
  simp only [Bool.and_eq_true, decide_eq_true_eq, Bool.not_eq_true', List.isEmpty_eq_false_iff]
    at hfacts hfacts'
  obtain ⟨-, ht⟩ := @analyzed_of_inOrder driftingProject file _ _ (some driftingText) rfl hp _
    hfacts.1
  obtain ⟨⟨a, ha, hedits⟩, -⟩ := @analyzed_of_inOrder driftingProject file' _ _ (some driftedText)
    rfl hp' _ hfacts'.1
  rw [hfacts.2] at ht
  exact ⟨ht, a, ha, by rw [hedits]; exact hfacts'.2⟩

end Analysis

end JsxPresence
