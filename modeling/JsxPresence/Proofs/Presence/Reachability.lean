import JsxPresence.Proofs.Presence.Search

namespace JsxPresence

/-- What reading a path can give: the empty text of a directory, or the content of a file. -/
def FileSystem.texts (fs : FileSystem) : List Bytes :=
  [] :: fs.nodes.filterMap fun
    | (_, .file content) => some content
    | (_, .directory) => none

theorem FileSystem.read?_mem_texts {fs : FileSystem} {path text : Bytes}
    (h : fs.read? path = some text) : text ∈ fs.texts := by
  obtain ⟨node, hfind, hnode⟩ := Option.map_eq_some_iff.1 h
  cases node with
  | directory =>
    cases hnode
    exact List.mem_cons_self
  | file content =>
    cases hnode
    obtain ⟨-, -, hfind⟩ := Option.bind_eq_some_iff.1 hfind
    obtain ⟨place, -, hat⟩ := Option.bind_eq_some_iff.1 hfind
    unfold nodeAt at hat
    rcases ite_eq_some hat with ⟨-, hat⟩ | ⟨-, hat⟩
    · cases hat
    · refine List.mem_cons_of_mem _ (List.mem_filterMap.2 ⟨(place, .file content), ?_, rfl⟩)
      obtain ⟨before, after, hnodes, -⟩ := List.lookup_eq_some_iff.1 hat
      rw [hnodes]
      exact List.mem_append_right _ List.mem_cons_self

/-- No specifier in the text has a line break, in whatever dialect it is read. -/
def Outline.hasPlainSpecifiers (text : Bytes) : Bool :=
  [true, false].all fun elements =>
    match read elements text with
    | .error _ => true
    | .ok (outline, _) => outline.specifiers.all fun s => !s.contains (byte '\n')

theorem Outline.newline_not_mem_specifiers {s : Source} {o : Outline}
    (h : hasPlainSpecifiers s.content = true) (hp : parse s = .ok o) :
    ∀ specifier ∈ o.specifiers, byte '\n' ∉ specifier := by
  intro specifier hm
  unfold parse at hp
  split at hp
  · cases hp
  · rename_i outline hr
    cases hp
    have hall := List.all_eq_true.1 h s.dialect.allowsElements
      (by cases s.dialect.allowsElements <;> simp)
    rw [hr] at hall
    simpa using List.all_eq_true.1 hall specifier hm
  · cases hp

namespace Session

theorem newline_not_mem_of_plainSpecifiers {env : Environment}
    (h : env.files.texts.all Outline.hasPlainSpecifiers = true) {path : Bytes} {file : ParsedFile}
    (hf : disk env path = .ok file) :
    ∀ specifier ∈ file.outline.specifiers, byte '\n' ∉ specifier := by
  obtain ⟨text, hread, -, -, hp⟩ := disk_eq_ok hf
  have hplain : Outline.hasPlainSpecifiers text = true :=
    List.all_eq_true.1 h text (FileSystem.read?_mem_texts hread)
  exact Outline.newline_not_mem_specifiers (s := ⟨path, text⟩) hplain hp

/-- A session in which nothing has been read or asked yet. -/
def fresh (journal : Log.Journal) : Session := start (.start journal)

theorem fresh_stable {env : Environment} (journal : Log.Journal)
    (h : Unambiguous env (disk env)) : Stable env (fresh journal) where
  proper := disk_proper env
  unambiguous := h
  coherent :=
    { library := rfl
      resolved := fun _ _ _ _ _ _ _ hg => by cases hg
      symbols := fun _ _ _ _ hg => by cases hg
      usages := fun _ _ _ _ _ _ hg => by cases hg }

end Session

namespace Presence

open Session Reference

variable {env : Environment} {base : Session} {target : Target}

instance (file : ParsedFile) (u : Usage) (g : Bytes) : Decidable (LeadsTo env base file u g) :=
  decidable_of_iff ((usage env file u.path base).1.any (fun id => !id.external &&
      !Path.same id.file file.path && id.file = g) = true) <| by
    simp only [Option.any_eq_true, Bool.and_eq_true, Bool.not_eq_true', decide_eq_true_eq, LeadsTo,
      and_assoc]

instance (f g : Bytes) : Decidable (Successor env base f g) :=
  match h : (load env f base).1 with
  | .error _ => isFalse fun ⟨_, hf, _⟩ => by
      rw [h] at hf
      cases hf
  | .ok file => decidable_of_iff
      (∃ u ∈ (Symbols.ofOutline file.outline).usages, LeadsTo env base file u g)
      ⟨fun hu => ⟨file, h, hu⟩, fun ⟨_, hf, hu⟩ => by
        rw [h] at hf
        cases hf
        exact hu⟩

instance (f : Bytes) : Decidable (Hit env base target f) :=
  match h : (load env f base).1 with
  | .error _ => isFalse fun ⟨_, hf, _⟩ => by
      rw [h] at hf
      cases hf
  | .ok file => decidable_of_iff ((isDirect env file target base).1 = true)
      ⟨fun hd => ⟨file, h, hd⟩, fun ⟨_, hf, hd⟩ => by
        rw [h] at hf
        cases hf
        exact hd⟩

/-- A way of so many steps from one file to another. -/
inductive Way (env : Environment) (base : Session) : Nat → Bytes → Bytes → Prop
  | here (f : Bytes) : Way env base 0 f f
  | step {k : Nat} {f g h : Bytes} : Successor env base f g → Way env base k g h →
    Way env base (k + 1) f h

theorem near_iff_way (k : Nat) (f : Bytes) :
    Near env base target k f ↔ ∃ j ≤ k, ∃ g, Way env base j f g ∧ Hit env base target g := by
  induction k generalizing f with
  | zero =>
    constructor
    · exact fun h => ⟨0, le_refl _, f, .here f, h⟩
    · rintro ⟨j, hj, g, hway, hhit⟩
      cases hway with
      | here => exact hhit
      | step => omega
  | succ k ih =>
    constructor
    · rintro (h | ⟨g, hg, hn⟩)
      · exact ⟨0, Nat.zero_le _, f, .here f, h⟩
      · obtain ⟨j, hj, g', hway, hhit⟩ := (ih g).1 hn
        exact ⟨j + 1, by omega, g', .step hg hway, hhit⟩
    · rintro ⟨j, hj, g, hway, hhit⟩
      cases hway with
      | here => exact .inl hhit
      | step hs hway => exact .inr ⟨_, hs, (ih _).2 ⟨_, by omega, g, hway, hhit⟩⟩

/-- A question asked with no other being asked: what an answer `true` tells, that a hit within the
depth is not missed, and what is left behind. -/
theorem hasComponent_warranted (h : Stable env base) {w : Warrant env base target}
    {region : Bytes → Prop} (hclosed : Closed env base region) {s : Session} {path : Bytes}
    (hr : region (env.normalize path)) (hs : Follows env base s) (hw : Warranted w region s)
    (ha : s.active = []) :
    ((hasComponent env path target s).1 = true →
      w.found (env.options.maxDepth.toNat + 1) (env.normalize path) ∧
      (hasComponent env path target s).2.verdicts.get? (target.key (env.normalize path)) =
        some true) ∧
    (Near env base target env.options.maxDepth.toNat (env.normalize path) →
      (hasComponent env path target s).1 = true) ∧
    Leaves env base target region s (hasComponent env path target s).2 ∧
    (((hasComponent env path target s).1 = true → w.Lasting) →
      Warranted w region (hasComponent env path target s).2) := by
  have hx := search_spec h hclosed (env.options.maxDepth.toNat + 1) (env.normalize path) s hr hs hw
  have happ : hasComponent env path target s =
      ((search env target (env.options.maxDepth.toNat + 1) (env.normalize path) s).1.found,
        (note .debug (utf8 "presence") (path ++ utf8 ": " ++ target.name ++
          (if (search env target (env.options.maxDepth.toNat + 1) (env.normalize path) s).1.found
            then utf8 " found" else utf8 " not found"))
          (search env target (env.options.maxDepth.toNat + 1) (env.normalize path) s).2).2) := rfl
  rw [happ]
  generalize search env target (env.options.maxDepth.toNat + 1) (env.normalize path) s = x at hx
  refine ⟨hx.found, fun hnear => ?_,
    ⟨hx.follows.of_quiet (note_quiet env _ _ _ _), hx.active, hx.elsewhere⟩, hx.warranted⟩
  by_contra hfound
  have hfound : x.1.found = false := by simpa using hfound
  refine hx.missed hfound _ (Nat.lt_succ_self _) (fun a _ hm => ?_) hnear
  rw [ha] at hm
  cases hm

/-- A question asked in a session that follows the project, with no other being asked, is answered
as the distance to the nearest hit says. -/
theorem hasComponent_spec (h : Stable env base) {region : Bytes → Prop}
    (hclosed : Closed env base region) {s : Session} {path : Bytes}
    (hr : region (env.normalize path)) (hs : Follows env base s)
    (ht : Tidy env base target region s) (ha : s.active = []) :
    ((hasComponent env path target s).1 = true ↔
      Near env base target env.options.maxDepth.toNat (env.normalize path)) ∧
    Leaves env base target region s (hasComponent env path target s).2 ∧
    ((hasComponent env path target s).1 = true →
      (hasComponent env path target s).2.verdicts.get? (target.key (env.normalize path)) =
        some true) ∧
    ((hasComponent env path target s).1 = false →
      Tidy env base target region (hasComponent env path target s).2) := by
  obtain ⟨hyes, hnear, hl, hw⟩ :=
    hasComponent_warranted h hclosed hr hs (warranted_exact_iff.2 ht) ha
  refine ⟨⟨fun hfound => (hyes hfound).1.2, hnear⟩, hl, fun hfound => (hyes hfound).2, ?_⟩
  intro hfound
  exact warranted_exact_iff.1 (hw fun hx => absurd (hfound ▸ hx) (by decide))

/-- The presence search is bounded reachability: the first question of a fresh session is answered
yes exactly if a way of at most `maxDepth` steps leads to a hit. -/
theorem hasComponent_iff_way (env : Environment) (journal : Log.Journal)
    (hu : Unambiguous env (disk env)) (path : Bytes) (target : Target) :
    (hasComponent env path target (fresh journal)).1 = true ↔
      ∃ k ≤ env.options.maxDepth.toNat, ∃ g,
        Way env (fresh journal) k (env.normalize path) g ∧ Hit env (fresh journal) target g := by
  have hstable := fresh_stable journal hu
  rw [← near_iff_way]
  have hclosed : Closed env (fresh journal) fun _ => True := fun _ _ _ _ => trivial
  have htidy : Tidy env (fresh journal) target (fun _ => True) (fresh journal) :=
    fun _ _ _ hg => by cases hg
  exact (hasComponent_spec hstable hclosed trivial hstable.coherent htidy rfl).1

/-- A project of two files, the second of which renders the target. -/
def twoFiles : Environment where
  options := {}
  files := ((FileSystem.bare (utf8 "/proj")).install (utf8 "/proj/a.tsx")
    (utf8 "import \x7bB\x7d from './b'; export const A = <B/>;")).install (utf8 "/proj/b.tsx")
    (utf8 "export const B = <Target/>;")

theorem hasComponent_iff_way_twoFiles :
    Unambiguous twoFiles (disk twoFiles) ∧
    ((hasComponent twoFiles (utf8 "a.tsx") ⟨utf8 "Target", none⟩ (fresh (.ofLevel .off))).1 = true ↔
      ∃ k ≤ twoFiles.options.maxDepth.toNat, ∃ g,
        Way twoFiles (fresh (.ofLevel .off)) k (twoFiles.normalize (utf8 "a.tsx")) g ∧
          Hit twoFiles (fresh (.ofLevel .off)) ⟨utf8 "Target", none⟩ g) :=
  have hu : Unambiguous twoFiles (disk twoFiles) :=
    unambiguous_of_newline_free fun _ _ hf =>
      newline_not_mem_of_plainSpecifiers (by decide +kernel) hf
  ⟨hu, hasComponent_iff_way twoFiles _ hu _ _⟩

/-- A project in which `./t` in one directory is remembered under the key of a specifier with a line
break in another. -/
def confused : Environment where
  options := {}
  files := ((((FileSystem.bare (utf8 "/proj")).install (utf8 "/proj\n./q\\/b.tsx")
      (utf8 "import \x7bT\x7d from './t';import \x7bAa\x7d from '../../proj/a';<T/>;<Aa/>")).install
    (utf8 "/proj\n./q\\/t.tsx") (utf8 "export const T = 1;")).install (utf8 "/proj/a.tsx")
      (utf8 "import \x7bT\x7d from './q\\\n./t'; export const Aa = <T/>;")).install
    (utf8 "/proj/q\\\n./t.tsx") (utf8 "export const T = <Target/>;")

/-- There the search misses a hit that is two steps away. -/
theorem hasComponent_confused :
    (hasComponent confused (utf8 "/proj\n./q\\/b.tsx") ⟨utf8 "Target", none⟩
      (fresh (.ofLevel .off))).1 = false ∧
    ∃ k ≤ confused.options.maxDepth.toNat, ∃ g,
      Way confused (fresh (.ofLevel .off)) k (confused.normalize (utf8 "/proj\n./q\\/b.tsx")) g ∧
        Hit confused (fresh (.ofLevel .off)) ⟨utf8 "Target", none⟩ g := by
  have h1 : Successor confused (fresh (.ofLevel .off))
      (confused.normalize (utf8 "/proj\n./q\\/b.tsx")) (utf8 "/proj/a.tsx") := by decide +kernel
  have h2 : Successor confused (fresh (.ofLevel .off)) (utf8 "/proj/a.tsx")
      (utf8 "/proj/q\\\n./t.tsx") := by decide +kernel
  have h3 : Hit confused (fresh (.ofLevel .off)) ⟨utf8 "Target", none⟩
      (utf8 "/proj/q\\\n./t.tsx") := by decide +kernel
  refine ⟨by decide +kernel, 2, by decide, utf8 "/proj/q\\\n./t.tsx", ?_, h3⟩
  exact .step h1 (.step h2 (.here _))

end Presence

end JsxPresence
