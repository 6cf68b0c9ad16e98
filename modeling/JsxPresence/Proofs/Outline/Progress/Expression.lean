import JsxPresence.Proofs.Outline.Alike.Argument
import JsxPresence.Proofs.Outline.Progress.Reader

namespace JsxPresence

theorem optionRel_eq {α : Type} {x y : Option α} (h : Option.Rel Eq x y) : x = y := by
  cases h with
  | some h => rw [h]
  | none => rfl

/-- From readers with fewer than `bound` bytes before them both walks find the same, pass a byte at
least and do not run out of fuel. -/
def Walk.Sure {text : Bytes} (bound : Nat) (walk walk' : Walk text) : Prop :=
  ∀ (n : Nat) (r : Reader text), n < bound → r.Left n →
    JsxPresence.Sure (fun x => x.2.Left (n - 1)) (walk r) (walk' r)

namespace Reader

variable {text : Bytes} {r : Reader text} {n fuel fuel' bound : Nat}

theorem paramsRest_sure (h : r.Left n) (hn : n < min fuel fuel') (angle count : Nat) :
    Option.Rel (fun x y => x = y ∧ x.2.Left n) (r.paramsRest angle count fuel)
      (r.paramsRest angle count fuel') := by
  induction n using Nat.strong_induction_on generalizing r angle count fuel fuel' with
  | _ n ih =>
    obtain ⟨fuel, fuel', rfl, rfl⟩ := exists_succ_of_lt_min hn
    cases he : r.atEnd with
    | true =>
      have hk : r.current.kind = .eof := of_decide_eq_true he
      simp [paramsRest, hk]
    | false =>
      have hpos := h.pos he
      have further {s : Reader text} (hs : s.Left (n - 1)) (angle count : Nat) :
          Option.Rel (fun x y => x = y ∧ x.2.Left n) (s.paramsRest angle count fuel)
            (s.paramsRest angle count fuel') :=
        optionRel_mono (ih (n - 1) (by omega) hs (by omega) angle count)
          fun _ _ hxy => ⟨hxy.1, hxy.2.mono (by omega)⟩
      simp only [paramsRest]
      refine rel_ite Iff.rfl (fun _ => .some ⟨rfl, h⟩) fun _ => ?_
      refine rel_ite Iff.rfl (fun _ => .none) fun _ => ?_
      refine rel_ite Iff.rfl (fun ho => ?_) fun _ => ?_
      · have hgroup := skipGroup_sure h ho (show n ≤ min fuel fuel' by omega)
        rw [← hgroup.eq]
        exact rel_ite Iff.rfl (fun _ => further hgroup.left _ _) fun _ => .none
      refine rel_ite Iff.rfl (fun _ => further h.step _ _) fun _ => ?_
      refine rel_ite Iff.rfl (fun _ => further h.step _ _) fun _ => ?_
      exact rel_ite Iff.rfl (fun _ => further h.step _ _) fun _ => further h.step _ _

theorem params?_sure (h : r.Left n) (hn : n < min fuel fuel') :
    Option.Rel (fun x y => x = y ∧ x.2.Left n) (r.params? fuel) (r.params? fuel') := by
  unfold params?
  apply optionRel_bind (paramsRest_sure h.step_le hn _ _)
  rintro x _ ⟨rfl, hx⟩
  exact .some ⟨rfl, hx.step_le⟩

theorem typeThenArrow_sure (h : r.Left n) (hn : n < min fuel fuel') (angle : Nat) :
    r.typeThenArrow angle fuel = r.typeThenArrow angle fuel' := by
  induction n using Nat.strong_induction_on generalizing r angle fuel fuel' with
  | _ n ih =>
    obtain ⟨fuel, fuel', rfl, rfl⟩ := exists_succ_of_lt_min hn
    cases he : r.atEnd with
    | true =>
      have hk : r.current.kind = .eof := of_decide_eq_true he
      simp [typeThenArrow, hk]
    | false =>
      have hpos := h.pos he
      have further {s : Reader text} (hs : s.Left (n - 1)) (angle : Nat) :
          s.typeThenArrow angle fuel = s.typeThenArrow angle fuel' :=
        ih (n - 1) (by omega) hs (by omega) angle
      simp only [typeThenArrow, further h.step]
      refine rel_ite Iff.rfl (fun _ => rfl) fun _ => rel_ite Iff.rfl (fun _ => rfl) fun _ => ?_
      refine rel_ite Iff.rfl (fun ho => ?_) fun _ => rfl
      have hgroup := skipGroup_sure h ho (show n ≤ min fuel fuel' by omega)
      rw [← hgroup.eq, further hgroup.left]

theorem afterAsync_left (h : r.Left n) : r.afterAsync.Left n := by
  unfold afterAsync
  dsimp only
  split_ifs
  · exact h.step_le
  · exact h

theorem left_optional (h : r.Left n) (kind : Kind) :
    (if r.is kind then r.step else r).Left n := by
  split_ifs
  · exact h.step_le
  · exact h

theorem types_sure (h : r.Left n) (hn : n < min fuel fuel') :
    Skip.Sure n (if r.is .less then r.skipTypeArguments fuel else ⟨true, r⟩)
      (if r.is .less then r.skipTypeArguments fuel' else ⟨true, r⟩) :=
  rel_ite Iff.rfl (fun _ => skipAngles_sure h hn 0) fun _ => ⟨rfl, h⟩

theorem functionParams?_sure (h : r.Left n) (hn : n < min fuel fuel') :
    r.functionParams? fuel = r.functionParams? fuel' := by
  have hname := left_optional (left_optional h.step_le .star) .identifier
  have htypes := types_sure hname hn
  unfold functionParams?
  dsimp only
  rw [← htypes.eq]
  apply optionRel_eq
  apply optionRel_bind (optionRel_guard Iff.rfl)
  intro _ _ _
  apply optionRel_bind (params?_sure htypes.left hn)
  rintro x _ ⟨rfl, -⟩
  exact .some rfl

theorem arrowParams?_sure (h : r.Left n) (hn : n < min fuel fuel') :
    r.arrowParams? fuel = r.arrowParams? fuel' := by
  have htypes := types_sure h hn
  unfold arrowParams?
  dsimp only
  rw [← htypes.eq]
  apply optionRel_eq
  apply optionRel_bind (optionRel_guard Iff.rfl)
  intro _ _ _
  apply optionRel_bind (params?_sure htypes.left hn)
  rintro x _ ⟨rfl, hx⟩
  rw [typeThenArrow_sure hx.step_le hn]
  apply optionRel_bind (optionRel_guard Iff.rfl)
  intro _ _ _
  exact .some rfl

theorem functionLiteral?_sure (h : r.Left n) (hn : n < min fuel fuel') :
    r.functionLiteral? fuel = r.functionLiteral? fuel' := by
  have hasync := afterAsync_left h
  unfold functionLiteral?
  dsimp only
  rw [functionParams?_sure hasync hn, arrowParams?_sure hasync hn]

theorem argumentKind_sure (h : r.Left n) (hn : n < min fuel fuel') :
    r.argumentKind fuel = r.argumentKind fuel' := by
  unfold argumentKind
  rw [functionLiteral?_sure h hn]
  cases r.functionLiteral? fuel' with
  | some literal => rfl
  | none =>
    dsimp only
    split_ifs with hi
    · rw [(dottedPath_sure h hi hn.le).1]
    · rfl
    · rfl

section walk

variable {walk walk' : Walk text}

theorem walkToken_sure (h : r.Left n) :
    Sure (fun x => x.2.Left (n - 1)) (walkToken r) (walkToken r) :=
  h.advance.bind fun _ hs => .pure hs

theorem walkUntil_sure (hw : walk.Sure bound walk') (h : r.Left n) (hb : n < bound)
    (hn : n < min fuel fuel') (stop : Kind → Bool) :
    Sure (fun x => x.2.Left n) (walkUntil walk stop fuel r) (walkUntil walk' stop fuel' r) := by
  induction n using Nat.strong_induction_on generalizing r fuel fuel' with
  | _ n ih =>
    obtain ⟨fuel, fuel', rfl, rfl⟩ := exists_succ_of_lt_min hn
    refine .ite (fun _ => .pure h) fun hgo => ?_
    have hpos := h.pos (by simp_all)
    apply (hw n r hb h).bind
    intro x hx
    apply (ih (n - 1) (by omega) hx (by omega) (by omega)).bind
    intro y hy
    exact .pure (hy.mono (by omega))

theorem walkGroup_sure (hw : walk.Sure bound walk') (h : r.Left n) (he : r.atEnd = false)
    (hb : n ≤ bound) (hn : n ≤ min fuel fuel') :
    Sure (fun x => x.2.Left (n - 1)) (walkGroup walk fuel r) (walkGroup walk' fuel' r) := by
  have hpos := h.pos he
  unfold walkGroup
  apply h.advance.bind
  intro s hs
  apply (walkUntil_sure hw hs (by omega) (by omega) _).bind
  intro x hx
  refine .ite (fun _ => .throw_bind (by simp)) fun _ => ?_
  apply hx.advance_le.bind
  intro t ht
  exact .pure ht

/-- An argument and the comma behind it take a byte at least. -/
theorem callArguments_sure (hw : walk.Sure bound walk') (h : r.Left n) (hb : n < bound)
    (hn : n + 1 < min fuel fuel') :
    Sure (fun x => x.2.2.Left n) (callArguments walk fuel r) (callArguments walk' fuel' r) := by
  induction n using Nat.strong_induction_on generalizing r fuel fuel' with
  | _ n ih =>
    obtain ⟨fuel, fuel', rfl, rfl⟩ := exists_succ_of_lt_min hn
    unfold callArguments
    rw [argumentKind_sure h (show n < min fuel fuel' by omega)]
    refine .ite (fun _ => .pure h) fun _ => ?_
    apply (walkUntil_sure hw h hb (by omega) _).bind
    intro x hx
    refine .ite (fun hcomma => ?_) fun _ => .pure hx
    have hpos := hx.pos (atEnd_eq_false_of_is hcomma (by decide))
    apply hx.advance.bind
    intro s hs
    apply (ih (n - 1) (by omega) hs (by omega) (by omega)).bind
    intro y hy
    exact .pure (hy.mono (by omega))

theorem walkCall_sure (hw : walk.Sure bound walk') (h : r.Left n) (hp : r.is .openParen = true)
    (hb : n < bound) (hn : n < min fuel fuel') (start : Nat) (callee : Callee) (span : Span) :
    Sure (fun x => x.2.Left (n - 1)) (walkCall walk fuel start callee span r)
      (walkCall walk' fuel' start callee span r) := by
  have hpos := h.pos (atEnd_eq_false_of_is hp (by decide))
  unfold walkCall
  apply h.advance.bind
  intro s hs
  apply (callArguments_sure hw hs (by omega) (by omega)).bind
  intro x hx
  refine .ite (fun _ => .throw_bind (by simp)) fun _ => ?_
  apply hx.advance_le.bind
  intro t ht
  exact .ite (fun _ => .pure ht) fun _ => .pure ht

theorem chainTail_sure (h : r.Left n) (hn : n < min fuel fuel') (last : Span) :
    Sure (fun x => x.2.2.Left n) (chainTail last fuel r) (chainTail last fuel' r) := by
  induction n using Nat.strong_induction_on generalizing r fuel fuel' last with
  | _ n ih =>
    obtain ⟨fuel, fuel', rfl, rfl⟩ := exists_succ_of_lt_min hn
    refine .ite (fun hdot => ?_) fun _ => .pure h
    have hpos := h.pos (not_atEnd_of_ne_eof (by
      rintro hk
      simp [is, hk] at hdot))
    apply h.step.advance_le.bind
    intro s hs
    apply (ih (n - 1) (by omega) hs (by omega) _).bind
    intro x hx
    exact .pure (hx.mono (by omega))

theorem callParen?_sure (h : r.Left n) (hn : n < min fuel fuel') :
    Option.Rel (fun s t => s = t ∧ s.Left n ∧ s.is .openParen = true) (r.callParen? fuel)
      (r.callParen? fuel') := by
  have htypes := skipAngles_sure h hn 0
  unfold callParen? skipTypeArguments
  rw [← htypes.eq]
  refine rel_ite Iff.rfl (fun hp => .some ⟨rfl, h, hp⟩) fun _ => ?_
  refine rel_ite Iff.rfl (fun _ => ?_) fun _ => .none
  refine rel_ite Iff.rfl (fun hp => .some ⟨rfl, htypes.left, ?_⟩) fun _ => .none
  exact (Bool.and_eq_true_iff.1 hp).2

theorem walkChain_sure (hw : walk.Sure bound walk') (h : r.Left n) (he : r.atEnd = false)
    (hb : n ≤ bound) (hn : n ≤ min fuel fuel') :
    Sure (fun x => x.2.Left (n - 1)) (walkChain walk fuel r) (walkChain walk' fuel' r) := by
  have hpos := h.pos he
  unfold walkChain
  apply h.advance.bind
  intro s hs
  refine .ite (fun _ => .pure hs) fun _ => ?_
  apply (chainTail_sure hs (by omega) _).bind
  rintro ⟨path, last, t⟩ ht
  have hparen := callParen?_sure ht (show n - 1 < min fuel fuel' by omega)
  dsimp only
  generalize t.callParen? fuel = paren at hparen ⊢
  generalize t.callParen? fuel' = paren' at hparen ⊢
  cases hparen with
  | none => exact .pure ht
  | some hparen =>
    obtain ⟨rfl, hleft, hopen⟩ := hparen
    exact (walkCall_sure hw hleft hopen (by omega) (by omega) _ _ _).mono
      fun _ hx => hx.mono (Nat.sub_le _ 1)

end walk

end Reader

end JsxPresence
