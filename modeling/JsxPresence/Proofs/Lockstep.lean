import JsxPresence.Reference
import JsxPresence.Proofs.Session

namespace JsxPresence

/-- A declaration apart from where it stands and how it is made. -/
def Declaration.names (d : Declaration) : Bytes × Option (List (Bytes × List Bytes)) :=
  (d.name, d.properties.map (·.map fun p => (p.key, p.path)))

/-- Two files that bind, export and render the same names. -/
structure ParsedFile.Alike (f g : ParsedFile) : Prop where
  path : g.path = f.path
  imports : (Symbols.ofOutline g.outline).imports = (Symbols.ofOutline f.outline).imports
  exports : g.outline.exports.map (·.kind) = f.outline.exports.map (·.kind)
  declarations : g.outline.declarations.map Declaration.names =
    f.outline.declarations.map Declaration.names
  usages : (Symbols.ofOutline g.outline).usages.map (·.path) =
    (Symbols.ofOutline f.outline).usages.map (·.path)

theorem ParsedFile.Alike.refl (f : ParsedFile) : f.Alike f := ⟨rfl, rfl, rfl, rfl, rfl⟩

/-- The names that a file may take for members: those in its object literals, in its tags and in its
marker calls. -/
def ParsedFile.memberNames (options : Options) (f : ParsedFile) : List Bytes :=
  (f.outline.declarations.flatMap fun d => (d.properties.getD []).flatMap (·.path)) ++
    ((Symbols.ofOutline f.outline).usages.flatMap (·.path) ++
      (Marker.all options f).flatMap fun m => Name.split m.target)

theorem ParsedFile.memberNames_of_usage (options : Options) {f : ParsedFile} {u : Usage}
    (hu : u ∈ (Symbols.ofOutline f.outline).usages) : ∀ m ∈ u.path, m ∈ f.memberNames options :=
  fun _ hm => List.mem_append_right _
    (List.mem_append_left _ (List.mem_flatMap.2 ⟨u, hu, hm⟩))

theorem ParsedFile.memberNames_of_marker {options : Options} {f : ParsedFile} {marker : Marker}
    (hm : marker ∈ Marker.all options f) :
    ∀ m ∈ Name.split marker.target, m ∈ f.memberNames options :=
  fun _ hn => List.mem_append_right _
    (List.mem_append_right _ (List.mem_flatMap.2 ⟨marker, hm, hn⟩))

namespace Session

/-- How two sessions are compared: which ones are related, and when the first one is lost. -/
structure Pairing where
  related : Session → Session → Prop
  lost : Session → Prop

/-- Sessions that stay related for good. -/
def Pairing.strict (related : Session → Session → Prop) : Pairing := ⟨related, fun _ => False⟩

variable {α β γ δ : Type} {I : Pairing} {R : α → β → Prop} {S : γ → δ → Prop}

/-- The first session is lost, and has an answer that some answer would be related to. -/
def Pairing.Lost (I : Pairing) (R : α → β → Prop) (x : α × Session) : Prop :=
  I.lost x.2 ∧ ∃ b, R x.1 b

/-- From related sessions the computations give related answers and leave related sessions, or the
first session is lost on the way. A lost session stays lost. -/
structure Lockstep (I : Pairing) (R : α → β → Prop) (x : SessionM α) (y : SessionM β) : Prop where
  step : ∀ s t, I.related s t →
    (R (x s).1 (y t).1 ∧ I.related (x s).2 (y t).2) ∨ I.Lost R (x s)
  stay : ∀ s, I.lost s → I.Lost R (x s)

/-- The same answer twice, with a property. -/
def Same (Q : α → Prop) (a b : α) : Prop := a = b ∧ Q a

namespace Lockstep

theorem strict {related : Session → Session → Prop} {x : SessionM α} {y : SessionM β}
    (h : ∀ s t, related s t → R (x s).1 (y t).1 ∧ related (x s).2 (y t).2) :
    Lockstep (.strict related) R x y :=
  ⟨fun s t hi => .inl (h s t hi), fun _ h => h.elim⟩

theorem of_strict {related : Session → Session → Prop} {x : SessionM α} {y : SessionM β}
    (h : Lockstep (.strict related) R x y) {s t : Session} (hi : related s t) :
    R (x s).1 (y t).1 ∧ related (x s).2 (y t).2 :=
  (h.step s t hi).resolve_right fun hl => hl.1

theorem mono {R' : α → β → Prop} {x : SessionM α} {y : SessionM β} (h : Lockstep I R x y)
    (hr : ∀ a b, R a b → R' a b) : Lockstep I R' x y where
  step s t hi := by
    rcases h.step s t hi with ⟨ha, hi⟩ | ⟨hl, b, hb⟩
    · exact .inl ⟨hr _ _ ha, hi⟩
    · exact .inr ⟨hl, b, hr _ _ hb⟩
  stay s hl := by
    obtain ⟨hl, b, hb⟩ := h.stay s hl
    exact ⟨hl, b, hr _ _ hb⟩

theorem eq {Q : α → Prop} {x y : SessionM α} (h : Lockstep I (Same Q) x y) : Lockstep I Eq x y :=
  h.mono fun _ _ hab => hab.1

theorem pure {a : α} {b : β} (h : R a b) : Lockstep I R (Pure.pure a) (Pure.pure b) :=
  ⟨fun _ _ hi => .inl ⟨h, hi⟩, fun _ hl => ⟨hl, b, h⟩⟩

theorem refl (a : α) : Lockstep I Eq (Pure.pure a) (Pure.pure a) := .pure rfl

theorem same {Q : α → Prop} {a : α} (h : Q a) :
    Lockstep I (Same Q) (Pure.pure a) (Pure.pure a) := .pure ⟨rfl, h⟩

theorem bind {x : SessionM α} {y : SessionM β} {f : α → SessionM γ} {g : β → SessionM δ}
    (hx : Lockstep I R x y) (hf : ∀ a b, R a b → Lockstep I S (f a) (g b)) :
    Lockstep I S (x >>= f) (y >>= g) := by
  refine ⟨fun s t hi => ?_, fun s hl => ?_⟩
  · rcases hx.step s t hi with ⟨hr, hi⟩ | ⟨hl, b, hr⟩
    · exact (hf _ _ hr).step _ _ hi
    · exact .inr ((hf _ b hr).stay _ hl)
  · obtain ⟨hl, b, hr⟩ := hx.stay s hl
    exact (hf _ b hr).stay _ hl

/-- The usual case, in which the first answers are the same. -/
theorem bind_eq {x y : SessionM α} {f : α → SessionM γ} {g : α → SessionM δ}
    (hx : Lockstep I Eq x y) (hf : ∀ a, Lockstep I S (f a) (g a)) :
    Lockstep I S (x >>= f) (y >>= g) := by
  refine hx.bind fun a b hab => ?_
  subst hab
  exact hf a

theorem bind_same {Q : α → Prop} {x y : SessionM α} {f : α → SessionM γ} {g : α → SessionM δ}
    (hx : Lockstep I (Same Q) x y) (hf : ∀ a, Q a → Lockstep I S (f a) (g a)) :
    Lockstep I S (x >>= f) (y >>= g) := by
  refine hx.bind ?_
  rintro a _ ⟨rfl, ha⟩
  exact hf a ha

theorem ite {p : Prop} [Decidable p] {x x' : SessionM α} {y y' : SessionM β}
    (hx : p → Lockstep I R x y) (hy : ¬p → Lockstep I R x' y') :
    Lockstep I R (if p then x else x') (if p then y else y') := by
  by_cases h : p
  · rw [if_pos h, if_pos h]
    exact hx h
  · rw [if_neg h, if_neg h]
    exact hy h

theorem modify {f g : Session → Session} (h : ∀ s t, I.related s t → I.related (f s) (g t))
    (hl : ∀ s, I.lost s → I.lost (f s)) :
    Lockstep I Eq (modify f : SessionM Unit) (modify g : SessionM Unit) :=
  ⟨fun s t hi => .inl ⟨rfl, h s t hi⟩, fun s hs => ⟨hl s hs, (), rfl⟩⟩

/-- What goes on with the session at hand. -/
theorem get_bind {f : Session → SessionM α} {g : Session → SessionM β}
    (h : ∀ s t, I.related s t → Lockstep I R (f s) (g t))
    (hl : ∀ s, I.lost s → Lockstep I R (f s) (g s)) :
    Lockstep I R (get >>= f) (get >>= g) :=
  ⟨fun s t hi => (h s t hi).step s t hi, fun s hs => (hl s hs).stay s hs⟩

theorem forM {f g : α → SessionM Unit} {l : List α}
    (h : ∀ a ∈ l, Lockstep I Eq (f a) (g a)) : Lockstep I Eq (l.forM f) (l.forM g) := by
  induction l with
  | nil => exact .refl _
  | cons a l ih =>
    exact (h a List.mem_cons_self).bind_eq fun _ => ih fun b hb => h b (List.mem_cons_of_mem _ hb)

end Lockstep

/-- What two readings of a path come to: the same failure, or files that are related. -/
inductive Loaded (P : ParsedFile → ParsedFile → Prop) (path : Bytes) :
    Except Bytes ParsedFile → Except Bytes ParsedFile → Prop
  | error (message : Bytes) : Loaded P path (.error message) (.error message)
  | ok {f g : ParsedFile} : P f g → f.path = path → Loaded P path (.ok f) (.ok g)

/-- What a computation may come across: the paths that it may open, and the names that it may take
for members. -/
structure Scope where
  opens : Bytes → Prop
  members : Bytes → Prop

/-- Anything may be opened. -/
def Scope.all : Scope := ⟨fun _ => True, fun _ => True⟩

namespace Scope

variable (scope : Scope)

/-- The file of a symbol may be opened. -/
def Admits : Symbol → Prop
  | .module file | .declared file _ => scope.opens file
  | .external _ _ => True

/-- A symbol that was found is admitted. -/
def AdmitsAny (found : Option Symbol) : Prop := ∀ symbol, found = some symbol → scope.Admits symbol

theorem admitsAny_none : scope.AdmitsAny none := by
  rintro symbol ⟨⟩

variable {scope}

theorem Admits.some {symbol : Symbol} (h : scope.Admits symbol) :
    scope.AdmitsAny (some symbol) := by
  rintro _ ⟨⟩
  exact h

/-- The file of a component of the project may be opened. -/
def AdmitsId (scope : Scope) (id : Option ComponentId) : Prop :=
  ∀ i, id = Option.some i → i.external = false → scope.opens i.file

theorem AdmitsAny.id {found : Option Symbol} (h : scope.AdmitsAny found) :
    scope.AdmitsId (found.bind Symbol.componentId?) := by
  intro i hi he
  obtain ⟨symbol, rfl, hs⟩ := Option.bind_eq_some_iff.1 hi
  have hsymbol := h symbol rfl
  cases symbol <;> cases hs
  · exact hsymbol
  · cases he

end Scope

/-- Looking things up gives related answers in related sessions of two environments, and leads to
nothing out of scope. -/
structure Lookups (env env' : Environment) (I : Pairing) (scope : Scope)
    (P : ParsedFile → ParsedFile → Prop) : Prop where
  options : env'.options = env.options
  normalize : ∀ path, env'.normalize path = env.normalize path
  isFile : ∀ path, env'.files.isFile path = env.files.isFile path
  alike : ∀ ⦃f g⦄, P f g → f.Alike g
  opens : ∀ ⦃f g⦄, P f g → scope.opens f.path
  members : ∀ ⦃f g⦄, P f g → ∀ m ∈ f.memberNames env.options, scope.members m
  namesake : ∀ ⦃file member⦄, scope.opens file → scope.members member →
    ∀ c ∈ Reference.namesakes env file member, env.files.isFile c = true →
      scope.opens (env.normalize c)
  note : ∀ level module message level' module' message',
    Lockstep I Eq (note level module message) (note level' module' message')
  diagnose : ∀ kind file message,
    Lockstep I Eq (diagnose kind file message) (diagnose kind file message)
  load : ∀ path, scope.opens path → Lockstep I (Loaded P path) (load env path) (load env' path)
  symbolsOf : ∀ ⦃f g⦄, P f g → Lockstep I (fun a b => a = Symbols.ofOutline f.outline ∧
    b = Symbols.ofOutline g.outline) (symbolsOf f) (symbolsOf g)
  resolve : ∀ ⦃f g⦄, P f g → ∀ specifier ∈ f.outline.specifiers,
    Lockstep I (Same fun found => ∀ file, found = .ok file → scope.opens file)
      (resolve env specifier f.path) (resolve env' specifier g.path)

end Session

namespace Reference

open Session

variable {env env' : Environment} {I : Pairing} {scope : Scope}
  {P : ParsedFile → ParsedFile → Prop} {f g : ParsedFile}

theorem import?_specifier {o : Outline} {name : Bytes} {found : Binding}
    (h : (Symbols.ofOutline o).import? name = some found) : found.specifier ∈ o.specifiers := by
  obtain ⟨i, hi, hb⟩ := List.mem_flatMap.1 (List.mem_of_find?_eq_some h)
  obtain ⟨item, -, rfl⟩ := List.mem_map.1 hb
  exact List.mem_append_left _ (List.mem_map_of_mem hi)

theorem explicitExport?_specifier {o : Outline} {name specifier : Bytes} {kind : ExportKind}
    (h : explicitExport? o name = some kind) (hs : kind.specifier? = some specifier) :
    specifier ∈ o.specifiers := by
  obtain ⟨e, he, rfl⟩ := Option.map_eq_some_iff.1 h
  exact List.mem_append_right _ (List.mem_filterMap.2 ⟨e, List.mem_of_find?_eq_some he, hs⟩)

theorem starSpecifiers_subset (o : Outline) : ∀ s ∈ starSpecifiers o, s ∈ o.specifiers := by
  intro s hs
  obtain ⟨e, he, hk⟩ := List.mem_filterMap.1 hs
  refine List.mem_append_right _ (List.mem_filterMap.2 ⟨e, he, ?_⟩)
  cases hkind : e.kind <;> rw [hkind] at hk <;> cases hk
  rfl

theorem import?_alike (h : f.Alike g) (name : Bytes) :
    (Symbols.ofOutline g.outline).import? name = (Symbols.ofOutline f.outline).import? name := by
  unfold Symbols.import?
  rw [h.imports]

theorem explicitExport?_alike (h : f.Alike g) (name : Bytes) :
    explicitExport? g.outline name = explicitExport? f.outline name := by
  have hmap (o : Outline) : explicitExport? o name =
      explicitExport? (.ofExports ((o.exports.map (·.kind)).map (⟨·, false, ⟨0, 0⟩⟩))) name := by
    simp only [explicitExport?, Outline.ofExports, List.map_map, List.find?_map, Option.map_map]
    rfl
  rw [hmap, hmap f.outline, h.exports]

theorem starSpecifiers_alike (h : f.Alike g) :
    starSpecifiers g.outline = starSpecifiers f.outline := by
  have hmap (o : Outline) : starSpecifiers o =
      starSpecifiers (.ofExports ((o.exports.map (·.kind)).map (⟨·, false, ⟨0, 0⟩⟩))) := by
    simp only [starSpecifiers, Outline.ofExports, List.map_map, List.filterMap_map]
    rfl
  rw [hmap, hmap f.outline, h.exports]

theorem declaration?_alike (h : f.Alike g) (name : Bytes) :
    (g.outline.declaration? name).map Declaration.names =
      (f.outline.declaration? name).map Declaration.names := by
  have hmap (o : Outline) : (o.declaration? name).map Declaration.names =
      (o.declarations.map Declaration.names).find? (·.1 = name) := by
    rw [List.find?_map]
    rfl
  rw [hmap, hmap, h.declarations]

theorem property?_alike (h : f.Alike g) (name member : Bytes) :
    (property? g.outline name member).map (·.path) =
      (property? f.outline name member).map (·.path) := by
  have hmap (o : Outline) : (property? o name member).map (·.path) =
      (((o.declaration? name).map Declaration.names).bind (·.2)).bind fun properties =>
        (properties.find? (·.1 = member)).map (·.2) := by
    unfold property?
    cases o.declaration? name with
    | none => rfl
    | some d =>
      simp only [Option.bind_eq_bind, Option.bind_some, Option.map_some, Declaration.names]
      cases d.properties with
      | none => rfl
      | some properties =>
        simp only [Option.bind_some, Option.map_some, List.find?_map, Option.map_map]
        rfl
  rw [hmap, hmap, declaration?_alike h]

theorem property?_memberNames (options : Options) {name member : Bytes} {p : Property}
    (h : property? f.outline name member = some p) : ∀ m ∈ p.path, m ∈ f.memberNames options := by
  obtain ⟨d, hd, h⟩ := Option.bind_eq_some_iff.1 h
  obtain ⟨properties, hp, h⟩ := Option.bind_eq_some_iff.1 h
  intro m hm
  refine List.mem_append_left _ (List.mem_flatMap.2 ⟨d, List.mem_of_find?_eq_some hd, ?_⟩)
  rw [hp]
  exact List.mem_flatMap.2 ⟨p, List.mem_of_find?_eq_some h, hm⟩

section lookups

variable (h : Lookups env env' I scope P)
include h

theorem isCut_lockstep (depth : Depth) (file : Bytes) :
    Lockstep I Eq (isCut env depth file) (isCut env' depth file) := by
  unfold isCut
  rw [h.options]
  refine .ite (fun _ => .refl _) fun _ => ?_
  exact (h.note _ _ _ _ _ _).bind_eq fun _ => (h.diagnose _ _ _).bind_eq fun _ => .refl _

theorem ofSpecifier_lockstep (hp : P f g) {specifier : Bytes}
    (hm : specifier ∈ f.outline.specifiers) :
    Lockstep I (Same scope.AdmitsAny) (ofSpecifier env specifier f.path)
      (ofSpecifier env' specifier g.path) := by
  unfold ofSpecifier
  rw [(h.alike hp).path]
  have hr := h.resolve hp specifier hm
  rw [(h.alike hp).path] at hr
  refine hr.bind_same fun found hfound => ?_
  split
  · exact .same (Scope.Admits.some (hfound _ rfl))
  · exact .same (Scope.Admits.some trivial)
  · exact (h.diagnose _ _ _).bind_eq fun _ => .same scope.admitsAny_none

theorem firstStar_lockstep (hp : P f g) {follow follow' : Follow}
    (hfollow : ∀ target name visited, scope.opens target →
      Lockstep I (Same (scope.AdmitsAny ·.1)) (follow target name visited)
        (follow' target name visited))
    (name : Bytes) {specifiers : List Bytes} (hm : ∀ s ∈ specifiers, s ∈ f.outline.specifiers)
    (visited : List Bytes) :
    Lockstep I (Same (scope.AdmitsAny ·.1)) (firstStar env follow f.path name specifiers visited)
      (firstStar env' follow' g.path name specifiers visited) := by
  induction specifiers generalizing visited with
  | nil => exact .same scope.admitsAny_none
  | cons specifier rest ih =>
    have ih := ih fun s hs => hm s (List.mem_cons_of_mem _ hs)
    have hspec := ofSpecifier_lockstep h hp (hm specifier List.mem_cons_self)
    refine hspec.bind_same fun symbol hsymbol => ?_
    split
    · refine (hfollow _ name visited (hsymbol _ rfl)).bind_same fun x hx => ?_
      split
      · exact .same hx
      · exact ih _
    · exact ih _

section next

variable {binding binding' : Depth → ParsedFile → Bytes → SessionM (Option Symbol)}
  {follow follow' : Depth → Follow}
  (hbinding : ∀ depth f g name, P f g →
    Lockstep I (Same scope.AdmitsAny) (binding depth f name) (binding' depth g name))
  (hfollow : ∀ depth path name visited, scope.opens path →
    Lockstep I (Same (scope.AdmitsAny ·.1)) (follow depth path name visited)
      (follow' depth path name visited))

include hfollow

omit h in
theorem exported_lockstep (depth : Depth) {file : Bytes} (hfile : scope.opens file)
    (name : Bytes) :
    Lockstep I (Same scope.AdmitsAny) (exported follow depth file name)
      (exported follow' depth file name) :=
  (hfollow depth file name [] hfile).bind_same fun _ hx => .same hx

/-- One link for a name in scope, from the lookups that it starts. -/
theorem nextBinding_lockstep (depth : Depth) (hp : P f g) (name : Bytes) :
    Lockstep I (Same scope.AdmitsAny) (nextBinding env follow depth f name)
      (nextBinding env' follow' depth g name) := by
  have ha := h.alike hp
  unfold nextBinding
  have hcut := isCut_lockstep h depth f.path
  rw [ha.path]
  refine hcut.bind_eq fun cut => .ite (fun _ => .same scope.admitsAny_none) fun _ => ?_
  refine (h.symbolsOf hp).bind ?_
  rintro _ _ ⟨rfl, rfl⟩
  rw [import?_alike ha]
  split
  · rename_i found hfound
    have hspec := ofSpecifier_lockstep h hp (import?_specifier hfound)
    rw [ha.path] at hspec
    refine hspec.bind_same fun symbol hsymbol => ?_
    split
    · exact .same (Scope.Admits.some trivial)
    · refine .ite (fun _ => .same hsymbol) fun _ => ?_
      exact exported_lockstep hfollow _ (hsymbol _ rfl) _
    · exact .same hsymbol
  · have hdeclared : (g.outline.declaration? name).isSome =
        (f.outline.declaration? name).isSome := by
      have := congrArg Option.isSome (declaration?_alike ha name)
      simpa using this
    rw [hdeclared]
    refine .ite (fun _ => .same ?_) fun _ => .same scope.admitsAny_none
    exact Scope.Admits.some (h.opens hp)

include hbinding

/-- One link for an exported name of a file that was read. -/
theorem nextExport_lockstep (depth : Depth) (hp : P f g) (name : Bytes) (visited : List Bytes) :
    Lockstep I (Same (scope.AdmitsAny ·.1)) (nextExport env binding follow depth f name visited)
      (nextExport env' binding' follow' depth g name visited) := by
  have ha := h.alike hp
  have hown (name : Bytes) : scope.Admits (.declared f.path name) := h.opens hp
  unfold nextExport
  rw [explicitExport?_alike ha]
  split
  · rw [ha.path]
    refine .ite (fun _ => .same (hown _).some) fun _ => ?_
    refine (hbinding _ f g _ hp).bind_same fun symbol hsymbol => .same ?_
    cases symbol with
    | none => exact (hown _).some
    | some symbol => exact hsymbol
  · rename_i hexp
    have hspec := ofSpecifier_lockstep h hp (explicitExport?_specifier hexp rfl)
    refine hspec.bind_same fun symbol hsymbol => ?_
    split
    · exact .same (Scope.Admits.some trivial)
    · exact hfollow _ _ _ _ (hsymbol _ rfl)
    · exact .same hsymbol
  · rename_i hexp
    have hspec := ofSpecifier_lockstep h hp (explicitExport?_specifier hexp rfl)
    exact hspec.bind_same fun _ hsymbol => .same hsymbol
  · refine .ite (fun _ => .same scope.admitsAny_none) fun _ => ?_
    rw [starSpecifiers_alike ha]
    exact firstStar_lockstep h hp (hfollow _) name (starSpecifiers_subset _) _

/-- One link for an exported name, from the lookups that it starts. -/
theorem nextFollow_lockstep (depth : Depth) {path : Bytes} (hpath : scope.opens path)
    (name : Bytes) (visited : List Bytes) :
    Lockstep I (Same (scope.AdmitsAny ·.1))
      (nextFollow env binding follow depth path name visited)
      (nextFollow env' binding' follow' depth path name visited) := by
  unfold nextFollow
  refine (isCut_lockstep h depth path).bind_eq fun cut =>
    .ite (fun _ => .same scope.admitsAny_none) fun _ => ?_
  refine .ite (fun _ => ?_) fun _ => ?_
  · exact (h.note _ _ _ _ _ _).bind_eq fun _ => .same scope.admitsAny_none
  refine (h.load path hpath).bind fun a b hab => ?_
  cases hab with
  | error message => exact (h.diagnose _ _ _).bind_eq fun _ => .same scope.admitsAny_none
  | @ok f g hp _ => exact nextExport_lockstep h hbinding hfollow depth hp name _

end next

/-- Chains of any length, link by link. -/
theorem chain_lockstep (fuel : Nat) :
    (∀ depth f g name, P f g → Lockstep I (Same scope.AdmitsAny)
      (bindingWithin env fuel depth f name) (bindingWithin env' fuel depth g name)) ∧
    ∀ depth path name visited, scope.opens path → Lockstep I (Same (scope.AdmitsAny ·.1))
      (followExport env fuel depth path name visited)
      (followExport env' fuel depth path name visited) := by
  induction fuel with
  | zero =>
    refine ⟨fun depth f g name _ => ?_, fun depth path name visited _ => ?_⟩
    · unfold bindingWithin
      exact .same scope.admitsAny_none
    · unfold followExport
      exact .same scope.admitsAny_none
  | succ fuel ih =>
    obtain ⟨hbinding, hfollow⟩ := ih
    refine ⟨fun depth f g name hp => ?_, fun depth path name visited hpath => ?_⟩
    · unfold bindingWithin
      exact nextBinding_lockstep h hfollow depth hp name
    · unfold followExport
      exact nextFollow_lockstep h hbinding hfollow depth hpath name visited

theorem byFileName_lockstep {follow follow' : Depth → Follow}
    (hfollow : ∀ depth path name visited, scope.opens path →
      Lockstep I (Same (scope.AdmitsAny ·.1)) (follow depth path name visited)
        (follow' depth path name visited)) (depth : Depth) {file member : Bytes}
    (hfile : scope.opens file) (hmember : scope.members member) :
    Lockstep I (Same scope.AdmitsAny) (byFileName env follow depth file member)
      (byFileName env' follow' depth file member) := by
  have hnormal : env'.normalize = env.normalize := funext h.normalize
  have hnames : namesakes env' file member = namesakes env file member := by
    unfold namesakes
    rw [h.options]
  unfold byFileName
  simp only [h.options, h.isFile, hnormal, hnames]
  refine .ite (fun _ => .same scope.admitsAny_none) fun _ => ?_
  split
  · exact .same scope.admitsAny_none
  · rename_i found hfound
    obtain ⟨c, hc, rfl⟩ := Option.map_eq_some_iff.1 hfound
    have hisFile := List.find?_some hc
    rw [Bool.and_eq_true] at hisFile
    have hopens := h.namesake hfile hmember c (List.mem_of_find?_eq_some hc) hisFile.1
    refine (h.note _ _ _ _ _ _).bind_eq fun _ => (h.diagnose _ _ _).bind_eq fun _ => ?_
    refine (exported_lockstep hfollow depth hopens _).bind_same fun symbol hsymbol => ?_
    split
    · exact .same hsymbol
    · refine (exported_lockstep hfollow depth hopens _).bind_same fun symbol hsymbol => ?_
      split
      · exact .same hsymbol
      · exact .same (Scope.Admits.some hopens)

omit h in
theorem members_lockstep {step step' : Depth → Symbol → Bytes → SessionM (Option Symbol)}
    (hstep : ∀ depth symbol member, scope.Admits symbol → scope.members member →
      Lockstep I (Same scope.AdmitsAny) (step depth symbol member) (step' depth symbol member))
    (depth : Depth) {symbol : Symbol} (hs : scope.Admits symbol) {path : List Bytes}
    (hpath : ∀ m ∈ path, scope.members m) :
    Lockstep I (Same scope.AdmitsAny) (members step depth symbol path)
      (members step' depth symbol path) := by
  induction path generalizing depth symbol with
  | nil => exact .same hs.some
  | cons member rest ih =>
    have hmember := hpath member List.mem_cons_self
    refine (hstep depth symbol member hs hmember).bind_same fun next hnext => ?_
    split
    · exact .same hnext
    · exact ih _ (hnext _ rfl) fun m hm => hpath m (List.mem_cons_of_mem _ hm)

theorem memberWithin_lockstep (fuel : Nat) (depth : Depth) {base : Symbol}
    (hbase : scope.Admits base) {member : Bytes} (hmember : scope.members member) :
    Lockstep I (Same scope.AdmitsAny) (memberWithin env fuel depth base member)
      (memberWithin env' fuel depth base member) := by
  induction fuel generalizing depth base member with
  | zero =>
    unfold memberWithin
    exact .same scope.admitsAny_none
  | succ fuel ih =>
    obtain ⟨hbinding, hfollow⟩ := chain_lockstep h fuel
    unfold memberWithin
    cases base with
    | external specifier name =>
      unfold nextMember
      exact .same (Scope.Admits.some trivial)
    | module file =>
      unfold nextMember
      refine (exported_lockstep hfollow _ hbase member).bind_same fun symbol hsymbol => ?_
      split
      · exact .same hsymbol
      · exact byFileName_lockstep h hfollow _ hbase hmember
    | declared path name =>
      unfold nextMember
      refine (h.load path hbase).bind fun a b hab => ?_
      cases hab with
      | error message => exact .same scope.admitsAny_none
      | @ok f g hp _ =>
        have hprop := property?_alike (h.alike hp) name member
        dsimp only
        cases hf : property? f.outline name member with
        | none =>
          rw [hf, Option.map_none, Option.map_eq_none_iff] at hprop
          rw [hprop]
          exact byFileName_lockstep h hfollow _ hbase hmember
        | some p =>
          have hnames := property?_memberNames env.options hf
          rw [hf, Option.map_some] at hprop
          obtain ⟨q, hq, hpath⟩ := Option.map_eq_some_iff.1 hprop
          rw [hq]
          obtain ⟨key, path, span⟩ := p
          obtain ⟨key', path', span'⟩ := q
          subst hpath
          cases path' with
          | nil => exact .same (Scope.Admits.some hbase)
          | cons first rest =>
            refine (hbinding _ f g _ hp).bind_same fun symbol hsymbol => ?_
            split
            · exact .same hsymbol
            · refine members_lockstep (fun d _ _ hb hm => ih d hb hm) _ (hsymbol _ rfl) ?_
              exact fun m hm => h.members hp m (hnames m (List.mem_cons_of_mem _ hm))

theorem binding_lockstep (hp : P f g) (depth : Depth) (name : Bytes) :
    Lockstep I (Same scope.AdmitsAny) (binding env depth f name) (binding env' depth g name) :=
  (chain_lockstep h linkBound).1 depth f g name hp

theorem ofPath_lockstep (hp : P f g) (depth : Depth) {path : List Bytes}
    (hpath : ∀ m ∈ path, scope.members m) :
    Lockstep I (Same scope.AdmitsAny) (ofPath env depth f path) (ofPath env' depth g path) := by
  unfold ofPath
  split
  · exact .same scope.admitsAny_none
  · refine (binding_lockstep h hp depth _).bind_same fun symbol hsymbol => ?_
    split
    · exact .same hsymbol
    · refine members_lockstep (fun d _ _ hb hm => memberWithin_lockstep h linkBound d hb hm) _
        (hsymbol _ rfl) fun m hm => hpath m (List.mem_cons_of_mem _ hm)

end lookups

/-- The key under which the meaning of a path in a file is kept. -/
def usageKey (file : ParsedFile) (path : List Bytes) : Bytes :=
  file.path ++ byte '\n' :: Name.join path

theorem usage_of_nil (env : Environment) (file : ParsedFile) : usage env file [] = pure none := rfl

/-- A meaning that is kept is given again. -/
theorem usage_of_kept {path : List Bytes} (hp : path.isEmpty = false) {s : Session}
    {id : Option ComponentId} (h : s.usages.get? (usageKey f path) = some id) :
    usage env f path s = (id, s) := by
  unfold usageKey at h
  simp only [usage, hp, Bool.false_eq_true, if_false, SessionM.bind_apply, SessionM.get_apply, h]
  rfl

/-- Looks up the meaning of a path and keeps it. -/
def newUsage (env : Environment) (file : ParsedFile) (path : List Bytes) :
    SessionM (Option ComponentId) := do
  let symbol ← ofPath env 0 file path
  let id := symbol.bind Symbol.componentId?
  note .trace (utf8 "presence") (file.path ++ utf8 ": <" ++ Name.join path ++ utf8 "> -> " ++
    (id.map ComponentId.text).getD (utf8 "<unresolved>"))
  modify fun s => { s with usages := s.usages.insert (usageKey file path) id }
  return id

theorem usage_of_new {path : List Bytes} (hp : path.isEmpty = false) {s : Session}
    (h : s.usages.get? (usageKey f path) = none) :
    usage env f path s = newUsage env f path s := by
  unfold usageKey at h
  simp only [usage, hp, Bool.false_eq_true, if_false, SessionM.bind_apply, SessionM.get_apply, h]
  rfl

/-- Related sessions keep the same meanings, and none that is out of scope. -/
structure KeepsUsages (I : Pairing) (scope : Scope) : Prop where
  same : ∀ ⦃s t⦄, I.related s t → t.usages = s.usages
  admits : ∀ ⦃s t⦄, I.related s t → ∀ key id, s.usages.get? key = some id → scope.AdmitsId id
  admits_lost : ∀ ⦃s⦄, I.lost s → ∀ key id, s.usages.get? key = some id → scope.AdmitsId id
  keep : ∀ key id, scope.AdmitsId id →
    Lockstep I Eq (modify fun s : Session => { s with usages := s.usages.insert key id })
      (modify fun s : Session => { s with usages := s.usages.insert key id })

theorem usage_lockstep (h : Lookups env env' I scope P) (hk : KeepsUsages I scope) (hp : P f g)
    {path : List Bytes} (hpath : ∀ m ∈ path, scope.members m) :
    Lockstep I (Same scope.AdmitsId) (usage env f path) (usage env' g path) := by
  cases he : path.isEmpty with
  | true =>
    rw [List.isEmpty_iff.1 he, usage_of_nil, usage_of_nil]
    exact .same fun _ hi => by cases hi
  | false =>
    have hkey : usageKey g path = usageKey f path := by
      unfold usageKey
      rw [(h.alike hp).path]
    have new : Lockstep I (Same scope.AdmitsId) (newUsage env f path) (newUsage env' g path) := by
      unfold newUsage
      rw [hkey]
      refine (ofPath_lockstep h hp 0 hpath).bind_same fun symbol hsymbol => ?_
      refine (h.note _ _ _ _ _ _).bind_eq fun _ => (hk.keep _ _ hsymbol.id).bind_eq fun _ => ?_
      exact .same hsymbol.id
    refine ⟨fun s t hi => ?_, fun s hl => ?_⟩
    · cases hget : s.usages.get? (usageKey f path) with
      | some id =>
        rw [usage_of_kept he hget, usage_of_kept he (by rw [hkey, hk.same hi, hget])]
        exact .inl ⟨⟨rfl, hk.admits hi _ _ hget⟩, hi⟩
      | none =>
        rw [usage_of_new he hget, usage_of_new he (by rw [hkey, hk.same hi, hget])]
        exact new.step s t hi
    · cases hget : s.usages.get? (usageKey f path) with
      | some id =>
        rw [usage_of_kept he hget]
        exact ⟨hl, id, rfl, hk.admits_lost hl _ _ hget⟩
      | none =>
        rw [usage_of_new he hget]
        exact new.stay s hl

end Reference

end JsxPresence
