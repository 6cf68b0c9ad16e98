import JsxPresence.Proofs.Presence.Reachability

namespace JsxPresence

/-- A component whose text tells its parts: neither part has a mark that separates parts of keys,
and a component of the project is not taken for one of a package. -/
structure ComponentId.Plain (id : ComponentId) : Prop where
  file_line : byte '\n' ∉ id.file
  name_line : byte '\n' ∉ id.name
  name_mark : byte '#' ∉ id.name
  isAbsolute : id.external = false → Path.isAbsolute id.file = true

namespace ComponentId.Plain

variable {a b : ComponentId}

theorem newline_not_mem_text (h : a.Plain) : byte '\n' ∉ a.text := by
  have hmark : byte '\n' ∉ utf8 "external:" := by decide
  have hsep : byte '\n' ≠ byte '#' := by decide
  unfold ComponentId.text
  split_ifs <;> simp [h.file_line, h.name_line, hmark, hsep]

theorem text_ne_nil (a : ComponentId) : a.text ≠ [] := by
  simp [ComponentId.text]

/-- Of the parts of the text, the first is the file, marked if it belongs to a package. -/
theorem text_inj (ha : a.Plain) (hb : b.Plain) (h : a.text = b.text) : a = b := by
  obtain ⟨hfile, hname⟩ := Bytes.append_sep_inj ha.name_mark hb.name_mark h
  have hhead : (utf8 "external:").head? = some (byte 'e') := by decide
  have hslash : some Path.slash ≠ some (byte 'e') := by decide
  have hkind {c d : ComponentId} (hc : c.Plain) (hext : c.external = false)
      (hext' : d.external = true)
      (heq : (if c.external then utf8 "external:" else []) ++ c.file =
        (if d.external then utf8 "external:" else []) ++ d.file) : False := by
    have habs : c.file.head? = some Path.slash := of_decide_eq_true (hc.isAbsolute hext)
    rw [hext, hext', if_neg (by decide), if_pos rfl, List.nil_append] at heq
    rw [heq, List.head?_append, hhead] at habs
    exact hslash habs.symm
  cases hea : a.external with
  | false =>
    cases heb : b.external with
    | false =>
      rw [hea, heb] at hfile
      obtain ⟨file, name, external⟩ := a
      obtain ⟨file', name', external'⟩ := b
      simp_all
    | true => exact (hkind ha hea heb hfile).elim
  | true =>
    cases heb : b.external with
    | false => exact (hkind hb heb hea hfile.symm).elim
    | true =>
      rw [hea, heb] at hfile
      obtain ⟨file, name, external⟩ := a
      obtain ⟨file', name', external'⟩ := b
      simp_all

end ComponentId.Plain

namespace Presence

open Session Reference

variable {env : Environment} {base s : Session} {target : Target} {journal : Log.Journal}

/-- A target whose questions have keys of their own. -/
structure Target.Plain (target : Target) : Prop where
  name_line : byte '\n' ∉ target.name
  id : ∀ id ∈ target.id, id.Plain

/-- The key of a question tells the file and the target. -/
theorem Target.Plain.key_inj {a b : Target} (ha : a.Plain) (hb : b.Plain) {f g : Bytes}
    (h : a.key f = b.key g) : f = g ∧ a = b := by
  have hline {c : Target} (hc : c.Plain) : byte '\n' ∉ (c.id.map ComponentId.text).getD [] := by
    cases hid : c.id with
    | none => simp
    | some id => exact (hc.id id hid).newline_not_mem_text
  obtain ⟨hrest, htext⟩ := Bytes.append_sep_inj (hline ha) (hline hb) h
  obtain ⟨hfile, hname⟩ := Bytes.append_sep_inj ha.name_line hb.name_line hrest
  refine ⟨hfile, ?_⟩
  obtain ⟨name, id⟩ := a
  obtain ⟨name', id'⟩ := b
  cases id with
  | none =>
    cases id' with
    | none => exact congrArg (Target.mk · none) hname
    | some id' => exact absurd htext.symm (ComponentId.Plain.text_ne_nil id')
  | some id =>
    cases id' with
    | none => exact absurd htext (ComponentId.Plain.text_ne_nil id)
    | some id' =>
      have hid := (ha.id id rfl).text_inj (hb.id id' rfl) htext
      exact congrArg₂ (fun n i => Target.mk n (some i)) hname hid

/-- An answer `true` is kept and given wherever a hit is some number of steps away. -/
def Warrant.lasting (env : Environment) (base : Session) (target : Target) :
    Warrant env base target where
  kept f := ∃ k, Near env base target k f
  found _ f := ∃ k, Near env base target k f
  of_hit h := ⟨0, h⟩
  of_successor {_ _ g} hg := fun ⟨k, hk⟩ => ⟨k + 1, .inr ⟨g, hg, hk⟩⟩
  of_kept h := h

theorem Warrant.lasting_lasting : (Warrant.lasting env base target).Lasting := fun _ _ h => h

/-- A session between two questions: it follows the project, none is being asked, and all answers
that are kept about plain targets are right. -/
structure Rested (env : Environment) (base s : Session) : Prop where
  follows : Follows env base s
  idle : s.active = []
  warranted : ∀ target : Target, target.Plain →
    Warranted (.lasting env base target) (fun _ => True) s

/-- One question: what its answer is worth, and that the session comes to rest again. -/
theorem Rested.hasComponent (h : Stable env base) (hs : Rested env base s) (ht : target.Plain)
    (path : Bytes) :
    (Near env base target env.options.maxDepth.toNat (env.normalize path) →
      (hasComponent env path target s).1 = true) ∧
    ((hasComponent env path target s).1 = true →
      ∃ k, Near env base target k (env.normalize path)) ∧
    Rested env base (hasComponent env path target s).2 := by
  have hclosed : Closed env base fun _ => True := fun _ _ _ _ => trivial
  obtain ⟨hyes, hnear, hl, hw⟩ :=
    hasComponent_warranted h hclosed trivial hs.follows (hs.warranted target ht) hs.idle
  refine ⟨hnear, fun hfound => (hyes hfound).1, hl.follows, hl.active.trans hs.idle, ?_⟩
  intro other ho
  by_cases hsame : other = target
  · rw [hsame]
    exact hw fun _ => Warrant.lasting_lasting
  · intro f hf found hget
    refine hs.warranted other ho f hf found ?_
    rw [← hget]
    refine (hl.elsewhere _ fun g _ hkey => ?_).symm
    exact hsame (ho.key_inj ht hkey).2

/-- Questions asked one after another: the answer to each, and the session after it. -/
def askAll (env : Environment) : List (Bytes × Target) → Session → List (Bool × Session)
  | [], _ => []
  | (path, target) :: rest, s =>
    Presence.hasComponent env path target s ::
      askAll env rest (Presence.hasComponent env path target s).2

/-- What the answer to a question is worth: a hit within the depth is not lost, a hit is not made
up, and afterwards no question is being asked. -/
structure Between (env : Environment) (base : Session) (question : Bytes × Target)
    (x : Bool × Session) : Prop where
  notLost : ∀ k ≤ env.options.maxDepth.toNat, ∀ g, Way env base k (env.normalize question.1) g →
    Hit env base question.2 g → x.1 = true
  notMadeUp : x.1 = true →
    ∃ k g, Way env base k (env.normalize question.1) g ∧ Hit env base question.2 g
  idle : x.2.active = []

theorem Rested.between (h : Stable env base) (hs : Rested env base s) (ht : target.Plain)
    (path : Bytes) : Between env base (path, target) (Presence.hasComponent env path target s) := by
  obtain ⟨hnear, hfound, hrested⟩ := hs.hasComponent h ht path
  refine ⟨?_, ?_, hrested.idle⟩
  · intro k hk g hway hhit
    exact hnear ((near_iff_way _ _).2 ⟨k, hk, g, hway, hhit⟩)
  · intro hx
    obtain ⟨k, hk⟩ := hfound hx
    obtain ⟨j, -, g, hway, hhit⟩ := (near_iff_way k _).1 hk
    exact ⟨j, g, hway, hhit⟩

theorem Rested.askAll (h : Stable env base) (hs : Rested env base s)
    {questions : List (Bytes × Target)} (hplain : ∀ q ∈ questions, q.2.Plain) :
    List.Forall₂ (Between env base) questions (askAll env questions s) := by
  induction questions generalizing s with
  | nil => exact .nil
  | cons q rest ih =>
    obtain ⟨path, target⟩ := q
    have ht : target.Plain := hplain (path, target) List.mem_cons_self
    have hrested := (hs.hasComponent h ht path).2.2
    exact .cons (hs.between h ht path) (ih hrested fun q hq => hplain q (List.mem_cons_of_mem _ hq))

theorem rested_fresh (h : Stable env (fresh journal)) :
    Rested env (fresh journal) (fresh journal) where
  follows := h.coherent
  idle := rfl
  warranted _ _ _ _ _ hget := by cases hget

/-- Earlier questions can neither lose a hit nor make one up. -/
theorem askAll_between (env : Environment) (journal : Log.Journal)
    (hspecifiers : ∀ path file, disk env path = .ok file →
      ∀ specifier ∈ file.outline.specifiers, byte '\n' ∉ specifier)
    (questions : List (Bytes × Target)) (hplain : ∀ q ∈ questions, q.2.Plain) :
    List.Forall₂ (Between env (fresh journal)) questions
      (askAll env questions (fresh journal)) := by
  have hstable := fresh_stable journal (unambiguous_of_newline_free hspecifiers)
  exact (rested_fresh hstable).askAll hstable hplain

/-- A project of three files in a row, the last of which renders the target, one file deeper than
the search goes. -/
def threeInARow : Environment where
  options := { maxDepth := 1 }
  files := (((FileSystem.bare (utf8 "/proj")).install (utf8 "/proj/a.tsx")
    (utf8 "import \x7bBb\x7d from './b'; export const Aa = <Bb/>;")).install (utf8 "/proj/b.tsx")
    (utf8 "import \x7bCc\x7d from './c'; export const Bb = <Cc/>;")).install (utf8 "/proj/c.tsx")
    (utf8 "export const Cc = <Target/>;")

/-- Questions about the target below the second file and below the first. -/
def twoQuestions : List (Bytes × Target) :=
  [(utf8 "b.tsx", ⟨utf8 "Target", some ⟨utf8 "/proj/t.tsx", utf8 "Target", false⟩⟩),
   (utf8 "a.tsx", ⟨utf8 "Target", some ⟨utf8 "/proj/t.tsx", utf8 "Target", false⟩⟩)]

/-- There the first answer helps to find what lies too deep for the second question on its own. -/
theorem askAll_between_threeInARow :
    (∀ q ∈ twoQuestions, q.2.Plain) ∧
    (askAll threeInARow twoQuestions (fresh (.ofLevel .off))).map (·.1) = [true, true] ∧
    (askAll threeInARow (twoQuestions.drop 1) (fresh (.ofLevel .off))).map (·.1) = [false] ∧
    List.Forall₂ (Between threeInARow (fresh (.ofLevel .off))) twoQuestions
      (askAll threeInARow twoQuestions (fresh (.ofLevel .off))) := by
  have hplain : ∀ q ∈ twoQuestions, q.2.Plain := by
    have hid : (⟨utf8 "/proj/t.tsx", utf8 "Target", false⟩ : ComponentId).Plain :=
      ⟨by decide, by decide, by decide, fun _ => by decide⟩
    have hone : (⟨utf8 "Target", some ⟨utf8 "/proj/t.tsx", utf8 "Target", false⟩⟩ : Target).Plain :=
      ⟨by decide, fun id h => by cases h; exact hid⟩
    intro q hq
    simp only [twoQuestions, List.mem_cons, List.not_mem_nil, or_false] at hq
    rcases hq with rfl | rfl <;> exact hone
  have hspecifiers : ∀ path file, disk threeInARow path = .ok file →
      ∀ specifier ∈ file.outline.specifiers, byte '\n' ∉ specifier := fun _ _ hf =>
    newline_not_mem_of_plainSpecifiers (by decide +kernel) hf
  exact ⟨hplain, by decide +kernel, by decide +kernel,
    askAll_between threeInARow _ hspecifiers twoQuestions hplain⟩

end Presence

end JsxPresence
