import Mathlib.Logic.Function.Iterate
import JsxPresence.Outline.Walk
import JsxPresence.Proofs.Outline.Brackets
import JsxPresence.Proofs.Outline.Tokens

namespace JsxPresence

namespace Reader

variable {text : Bytes} {strays : Bool} {r s t : Reader text} {before after : List Kind}
  {kind : Kind}

/-- The second reader comes from the first by steps, and on the way what brackets are open changes
from `before` to `after`. -/
structure Course (strays : Bool) (r s : Reader text) (before after : List Kind) : Prop where
  settles : ∃ passed, r.tokens = passed ++ s.tokens ∧ s = step^[passed.length] r ∧
    (passed.map Token.kind).foldlM (Kind.settle strays) before = some after
  errors : s.allErrors = r.allErrors

/-- The open brackets are the same behind and before, whatever they are. -/
def Passes (r s : Reader text) : Prop := ∀ strays opened, r.Course strays s opened opened

theorem Course.refl (r : Reader text) (opened : List Kind) : r.Course strays r opened opened :=
  ⟨⟨[], rfl, rfl, rfl⟩, rfl⟩

theorem Course.trans {middle : List Kind} (h : r.Course strays s before middle)
    (k : s.Course strays t middle after) : r.Course strays t before after := by
  obtain ⟨front, htokens, hsteps, hfront⟩ := h.settles
  obtain ⟨back, htokens', hsteps', hback⟩ := k.settles
  refine ⟨⟨front ++ back, ?_, ?_, ?_⟩, k.errors.trans h.errors⟩
  · rw [htokens, htokens', List.append_assoc]
  · rw [List.length_append, Nat.add_comm, Function.iterate_add_apply, ← hsteps]
    exact hsteps'
  · rw [List.map_append, List.foldlM_append, hfront]
    exact hback

theorem step_course (h : Kind.settle strays before r.current.kind = some after) :
    r.Course strays r.step before after := by
  refine ⟨?_, step_allErrors r⟩
  cases he : r.atEnd with
  | true =>
    have hk : r.current.kind = .eof := of_decide_eq_true he
    rw [hk, Kind.settle_loose rfl rfl] at h
    cases h
    rw [step_of_atEnd he]
    exact ⟨[], rfl, rfl, rfl⟩
  | false =>
    refine ⟨[r.current], tokens_of_not_atEnd he, rfl, ?_⟩
    rw [List.map_singleton, List.foldlM_cons, h]
    rfl

theorem Passes.refl (r : Reader text) : r.Passes r := fun _ opened => .refl r opened

theorem Passes.trans (h : r.Passes s) (k : s.Passes t) : r.Passes t :=
  fun strays opened => (h strays opened).trans (k strays opened)

/-- The token at hand is no bracket. -/
def Loose (r : Reader text) : Prop :=
  r.current.kind.isOpener = false ∧ r.current.kind.isCloser = false

theorem loose_of_is (h : r.is kind = true) (hk : kind.isOpener = false ∧ kind.isCloser = false) :
    r.Loose := by
  have hkind : r.current.kind = kind := of_decide_eq_true h
  rw [Loose, hkind]
  exact hk

theorem loose_of_isName (h : r.current.isName = true) : r.Loose := by
  rcases Bool.or_eq_true_iff.1 h with hk | hk
  · exact loose_of_is hk ⟨rfl, rfl⟩
  · exact loose_of_is hk ⟨rfl, rfl⟩

theorem loose_of_isKeyword {word : Bytes} (h : r.isKeyword word = true) : r.Loose :=
  loose_of_is (Bool.and_eq_true_iff.1 h).1 ⟨rfl, rfl⟩

theorem loose_of_isWord {word : Bytes} (h : r.isWord word = true) : r.Loose :=
  loose_of_is (Bool.and_eq_true_iff.1 h).1 ⟨rfl, rfl⟩

theorem step_passes (h : r.Loose) : r.Passes r.step :=
  fun _ _ => step_course (Kind.settle_loose h.1 h.2)

theorem advance_passes (h : r.Loose) : Yields r.advance r.Passes :=
  r.advance_yields.mono fun _ hs => hs ▸ step_passes h

theorem passOver_passes (kind : Kind) (hk : kind.isOpener = false ∧ kind.isCloser = false) :
    Yields (r.passOver kind) r.Passes :=
  .ite (fun h => advance_passes (loose_of_is h hk)) fun _ => .ok (.refl r)

/-- A bracket, what is passed behind it and the bracket that closes it. -/
theorem group_passes (ho : r.current.kind.isOpener = true) (h : r.step.Passes s)
    (hc : s.current.kind = r.current.kind.closer) : r.Passes s.step := by
  intro strays opened
  have hopen : r.Course strays r.step opened (r.current.kind.closer :: opened) :=
    step_course (Kind.settle_opener ho)
  have hclose : s.Course strays s.step (r.current.kind.closer :: opened) opened := by
    apply step_course
    rw [Kind.settle_closer_cons (by rw [hc]; exact Kind.isCloser_closer _)]
    exact ⟨hc.symm, rfl⟩
  exact (hopen.trans (h strays _)).trans hclose

theorem step_closes (hk : r.is kind = true) (ho : kind.isOpener = true) (h : r.step.Passes s)
    (hc : ¬(!s.is kind.closer) = true) : r.Passes s.step := by
  have hkind : r.current.kind = kind := of_decide_eq_true hk
  have hcloser : s.current.kind = r.current.kind.closer := by simpa [is, hkind] using hc
  exact group_passes (by rwa [hkind]) h hcloser

theorem advance_closes (hk : r.is kind = true) (ho : kind.isOpener = true) (h : r.step.Passes s)
    (hc : ¬(!s.is kind.closer) = true) : Yields s.advance r.Passes :=
  s.advance_yields.mono fun _ ht => ht ▸ step_closes hk ho h hc

theorem skipClosers_course (closers : List Kind) (fuel : Nat)
    (hdone : (r.skipClosers closers fuel).done = true) (opened : List Kind) :
    r.Course strays (r.skipClosers closers fuel).reader (closers ++ opened) opened := by
  fun_induction Reader.skipClosers r closers fuel with
  | case1 => cases hdone
  | case2 r closers fuel kind ho ih =>
    exact (step_course (Kind.settle_opener ho)).trans (ih hdone)
  | case3 => cases hdone
  | case4 r fuel kind ho hc =>
    apply step_course
    rw [List.singleton_append, Kind.settle_closer_cons hc]
    exact ⟨rfl, rfl⟩
  | case5 r fuel kind ho hc head outer ih =>
    apply Course.trans _ (ih hdone)
    apply step_course
    rw [List.cons_append, Kind.settle_closer_cons hc]
    exact ⟨rfl, rfl⟩
  | case6 => cases hdone
  | case7 => cases hdone
  | case8 r fuel kind ho hc hend =>
    exact step_passes ⟨by simpa using ho, by simpa using hc⟩ strays opened
  | case9 r fuel kind ho hc hend c outer ih =>
    exact (step_passes ⟨by simpa using ho, by simpa using hc⟩ strays _).trans (ih hdone)

theorem skipGroup_passes {fuel : Nat} (hdone : (r.skipGroup fuel).done = true) :
    r.Passes (r.skipGroup fuel).reader :=
  fun _ opened => skipClosers_course [] fuel hdone opened

theorem skipAngles_passes (depth : Int) (fuel : Nat)
    (hdone : (r.skipAngles depth fuel).done = true) :
    r.Passes (r.skipAngles depth fuel).reader := by
  fun_induction Reader.skipAngles r depth fuel with
  | case1 => cases hdone
  | case2 r depth fuel kind hk ih =>
    exact (step_passes (loose_of_is (decide_eq_true hk) ⟨rfl, rfl⟩)).trans (ih hdone)
  | case3 r fuel kind _ hk => exact step_passes (loose_of_is (decide_eq_true hk) ⟨rfl, rfl⟩)
  | case4 r depth fuel kind _ hk _ ih =>
    exact (step_passes (loose_of_is (decide_eq_true hk) ⟨rfl, rfl⟩)).trans (ih hdone)
  | case5 r depth fuel kind _ _ ho group hgroup ih =>
    exact (skipGroup_passes hgroup).trans (ih hdone)
  | case6 => cases hdone
  | case7 r depth fuel kind _ _ _ hk _ ih =>
    exact (step_passes (loose_of_is (decide_eq_true hk) ⟨rfl, rfl⟩)).trans (ih hdone)
  | case8 => cases hdone
  | case9 => cases hdone
  | case10 r depth fuel kind _ _ ho _ hend ih =>
    have hloose : r.Loose := by
      simp only [Bool.or_eq_true, not_or] at hend
      exact ⟨by simpa using ho, by simpa using hend.2⟩
    exact (step_passes hloose).trans (ih hdone)

theorem passGroup_passes {fuel : Nat} (unbalanced : Reader text → SyntaxError) :
    Yields (r.passGroup fuel unbalanced) r.Passes := by
  refine (checked_yields _).bind fun s hs => ?_
  rw [hs]
  refine .ite (fun hdone => ?_) fun _ => ?_
  · exact .pure (skipGroup_passes hdone)
  · exact .throw _

theorem dottedTail_passes (fuel : Nat) : r.Passes (r.dottedTail fuel).2 := by
  fun_induction Reader.dottedTail r fuel with
  | case1 => exact .refl _
  | case2 r fuel hdot after hname path last hrest ih =>
    rw [hrest] at ih
    have hstep := step_passes (loose_of_is hdot ⟨rfl, rfl⟩)
    exact (hstep.trans (step_passes (loose_of_isName hname))).trans ih
  | case3 r fuel hdot => exact step_passes (loose_of_is hdot ⟨rfl, rfl⟩)
  | case4 => exact .refl _

theorem dottedPath_passes (h : r.is .identifier = true) (fuel : Nat) :
    r.Passes (r.dottedPath fuel).2 :=
  (step_passes (loose_of_is h ⟨rfl, rfl⟩)).trans (dottedTail_passes fuel)

end Reader

namespace Outline

variable {plain : Bool} {a b : Outline}

/-- There are no elements in the outline, if that is asked for. -/
def Free (plain : Bool) (o : Outline) : Prop := plain = true → o.elements = []

theorem free_false (o : Outline) : o.Free false := nofun

theorem Free.left (h : (a ++ b).Free plain) : a.Free plain :=
  fun hp => (List.append_eq_nil_iff.1 (h hp)).1

theorem Free.right (h : (a ++ b).Free plain) : b.Free plain :=
  fun hp => (List.append_eq_nil_iff.1 (h hp)).2

end Outline

/-- The walk leaves the open brackets as they are, if it comes across no element. -/
def Walk.PassesFree {text : Bytes} (plain : Bool) (walk : Walk text) : Prop :=
  ∀ r, Yields (walk r) fun x => x.1.Free plain → r.Passes x.2

/-- What is read for an element has one in it. -/
def ElementWalk.Records {text : Bytes} (element : ElementWalk text) : Prop :=
  ∀ lx start, Yields (element lx start) fun x => x.1.elements ≠ []

namespace Reader

variable {text : Bytes} {r s t : Reader text} {walk : Walk text} {plain : Bool}

theorem walkToken_passes (h : r.Loose) : Yields (walkToken r) fun x => r.Passes x.2 := by
  refine (advance_passes h).bind fun s hs => ?_
  exact .pure hs

theorem walkUntil_passesFree (hw : walk.PassesFree plain) (stop : Kind → Bool) (fuel : Nat) :
    Yields (walkUntil walk stop fuel r) fun x => x.1.Free plain → r.Passes x.2 := by
  induction fuel generalizing r with
  | zero => exact .error _
  | succ fuel ih =>
    refine .ite (fun _ => ?_) fun _ => ?_
    · exact .pure fun _ => .refl r
    · refine (hw r).bind fun x hx => ?_
      refine ih.bind fun y hy => ?_
      exact .pure fun hfree => (hx hfree.left).trans (hy hfree.right)

theorem walkGroup_passesFree (hw : walk.PassesFree plain) (fuel : Nat)
    (ho : r.current.kind.isOpener = true) :
    Yields (walkGroup walk fuel r) fun x => x.1.Free plain → r.Passes x.2 := by
  unfold walkGroup
  refine r.advance_yields.bind fun s hs => ?_
  refine (walkUntil_passesFree hw _ fuel).bind fun x hx => ?_
  refine .ite (fun _ => ?_) fun hc => ?_
  · exact .throw_bind _ _
  · rw [hs] at hx
    refine x.2.advance_yields.bind fun t ht => .pure fun hfree => ?_
    exact ht ▸ step_closes (decide_eq_true rfl) ho (hx hfree) hc

theorem callArguments_passesFree (hw : walk.PassesFree plain) (fuel : Nat) :
    Yields (callArguments walk fuel r) fun x => x.2.1.Free plain → r.Passes x.2.2 := by
  induction fuel generalizing r with
  | zero => exact .error _
  | succ fuel ih =>
    refine .ite (fun _ => ?_) fun _ => ?_
    · exact .pure fun _ => .refl r
    · refine (walkUntil_passesFree hw _ fuel).bind fun x hx => ?_
      refine .ite (fun hcomma => ?_) fun _ => ?_
      · refine (advance_passes (loose_of_is hcomma ⟨rfl, rfl⟩)).bind fun s hs => ?_
        refine ih.bind fun y hy => ?_
        exact .pure fun hfree => ((hx hfree.left).trans hs).trans (hy hfree.right)
      · exact .pure hx

theorem walkCall_passesFree (hw : walk.PassesFree plain) (fuel start : Nat) (callee : Callee)
    (span : Span) (hp : r.is .openParen = true) :
    Yields (walkCall walk fuel start callee span r) fun x => x.1.Free plain → r.Passes x.2 := by
  unfold walkCall
  refine r.advance_yields.bind fun s hs => ?_
  refine (callArguments_passesFree hw fuel).bind fun x hx => ?_
  refine .ite (fun _ => ?_) fun hc => ?_
  · exact .throw_bind _ _
  · rw [hs] at hx
    refine x.2.2.advance_yields.bind fun t ht => ?_
    have hclosed (hfree : x.2.1.Free plain) : r.Passes t :=
      ht ▸ step_closes hp rfl (hx hfree) hc
    exact .ite (fun _ => .pure hclosed) fun _ => .pure fun hfree => hclosed hfree.right

theorem chainTail_passes (last : Span) (fuel : Nat) :
    Yields (chainTail last fuel r) fun x => r.Passes x.2.2 := by
  induction fuel generalizing r last with
  | zero => exact .error _
  | succ fuel ih =>
    refine .ite (fun hdot => ?_) fun _ => ?_
    · simp only [Bool.and_eq_true, Bool.or_eq_true] at hdot
      have hloose : r.Loose := by
        rcases hdot.1 with hdot | hdot
        · exact loose_of_is hdot ⟨rfl, rfl⟩
        · exact loose_of_is hdot ⟨rfl, rfl⟩
      refine (advance_passes (loose_of_isName hdot.2)).bind fun s hs => ?_
      refine (ih _).bind fun x hx => ?_
      exact .pure (((step_passes hloose).trans hs).trans hx)
    · exact .pure (.refl r)

theorem callParen?_passes {fuel : Nat} (h : r.callParen? fuel = some s) :
    r.Passes s ∧ s.is .openParen = true := by
  unfold callParen? at h
  rcases ite_eq_some h with ⟨hp, h⟩ | ⟨-, h⟩
  · cases h
    exact ⟨.refl _, hp⟩
  rcases ite_eq_some h with ⟨-, h⟩ | ⟨-, h⟩
  · rcases ite_eq_some h with ⟨hp, h⟩ | ⟨-, h⟩
    · cases h
      rw [Bool.and_eq_true] at hp
      exact ⟨skipAngles_passes 0 fuel hp.1, hp.2⟩
    · cases h
  · cases h

theorem walkChain_passesFree (hw : walk.PassesFree plain) (fuel : Nat) (h : r.Loose) :
    Yields (walkChain walk fuel r) fun x => x.1.Free plain → r.Passes x.2 := by
  unfold walkChain
  refine (advance_passes h).bind fun s hs => ?_
  refine .ite (fun _ => ?_) fun _ => ?_
  · exact .pure fun _ => hs
  · refine (chainTail_passes _ fuel).bind fun x hx => ?_
    dsimp only
    split
    · exact .pure fun _ => hs.trans hx
    · rename_i t ht
      obtain ⟨htypes, hp⟩ := callParen?_passes ht
      refine (walkCall_passesFree hw fuel _ _ _ hp).mono fun y hy hfree => ?_
      exact ((hs.trans hx).trans htypes).trans (hy hfree)

/-- A unit leaves the open brackets as they are, unless it is an element. -/
theorem walkUnit_passesFree {elements : Bool} {element : ElementWalk text}
    (hw : walk.PassesFree plain) (he : elements = true → plain = true ∧ element.Records)
    (fuel : Nat) : (walkUnit elements walk element fuel).PassesFree plain := by
  intro r
  have hchain (hk : r.current.kind = .identifier ∨ r.current.kind = .keyword) :
      Yields (walkChain walk fuel r) fun x => x.1.Free plain → r.Passes x.2 := by
    apply walkChain_passesFree hw fuel
    rcases hk with hk | hk <;> exact loose_of_is (decide_eq_true hk) ⟨rfl, rfl⟩
  have hgroup (hk : r.current.kind.isOpener = true) := walkGroup_passesFree hw fuel hk
  have htoken (hk : r.Loose) : Yields (walkToken r) fun x => x.1.Free plain → r.Passes x.2 :=
    (walkToken_passes hk).mono fun _ hx _ => hx
  unfold walkUnit
  split
  · rename_i hk
    exact hgroup (by rw [hk]; rfl)
  · rename_i hk
    exact hgroup (by rw [hk]; rfl)
  · rename_i hk
    exact hgroup (by rw [hk]; rfl)
  · exact .error _
  · exact .error _
  · exact .error _
  · rename_i hk
    refine .ite (fun hat => ?_) fun _ => ?_
    · obtain ⟨hplain, hrecords⟩ : plain = true ∧ element.Records := by
        simp only [atElement, Bool.and_eq_true] at hat
        exact he hat.1.1.1
      refine (hrecords _ _).bind fun x hx => ?_
      refine (checked_yields _).bind fun s _ => .pure fun hfree => ?_
      exact absurd (hfree hplain) hx
    · exact htoken (loose_of_is (decide_eq_true hk) ⟨rfl, rfl⟩)
  · rename_i hk
    exact hchain (.inl hk)
  · rename_i hk
    exact .ite (fun _ => hchain (.inr hk))
      fun _ => htoken (loose_of_is (decide_eq_true hk) ⟨rfl, rfl⟩)
  · apply htoken
    constructor <;> cases hk : r.current.kind <;> first | rfl | contradiction

end Reader

end JsxPresence
