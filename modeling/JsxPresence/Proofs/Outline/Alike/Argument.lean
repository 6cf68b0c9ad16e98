import JsxPresence.Proofs.Outline.Alike.Reader

namespace JsxPresence

theorem optionRel_mono {α β : Type} {R S : α → β → Prop} {x : Option α} {y : Option β}
    (h : Option.Rel R x y) (hi : ∀ u v, R u v → S u v) : Option.Rel S x y := by
  cases h with
  | some hr => exact .some (hi _ _ hr)
  | none => exact .none

theorem optionRel_bind {α β γ δ : Type} {R : α → β → Prop} {S : γ → δ → Prop} {x : Option α}
    {y : Option β} {f : α → Option γ} {g : β → Option δ} (h : Option.Rel R x y)
    (hf : ∀ u v, R u v → Option.Rel S (f u) (g v)) : Option.Rel S (x >>= f) (y >>= g) := by
  cases h with
  | some hr => exact hf _ _ hr
  | none => exact .none

theorem optionRel_guard {p q : Prop} [Decidable p] [Decidable q] (h : p ↔ q) :
    Option.Rel (fun _ _ => True) (guard p : Option Unit) (guard q : Option Unit) :=
  rel_ite h (fun _ => .some trivial) fun _ => .none

namespace Reader

variable {a b : Bytes} {r : Reader a} {s : Reader b} {n m fuel fuel' : Nat}

theorem paramsRest_alike (h : r.Alike n s) (hn : n < fuel) (hn' : n < fuel') (angle count : Nat) :
    Option.Rel (Same id n) (r.paramsRest angle count fuel) (s.paramsRest angle count fuel') := by
  induction n using Nat.strong_induction_on generalizing r s angle count fuel fuel' with
  | _ n ih =>
    obtain ⟨fuel, rfl⟩ := Nat.exists_eq_add_one_of_ne_zero (n := fuel) (by omega)
    obtain ⟨fuel', rfl⟩ := Nat.exists_eq_add_one_of_ne_zero (n := fuel') (by omega)
    cases he : r.atEnd with
    | true =>
      have hk : r.current.kind = .eof := of_decide_eq_true he
      simp [paramsRest, ← h.kind, hk]
    | false =>
      have hpos := h.pos he
      have further {t : Reader a} {u : Reader b} (htu : t.Alike (n - 1) u) (angle count : Nat) :
          Option.Rel (Same id n) (t.paramsRest angle count fuel) (u.paramsRest angle count fuel') :=
        optionRel_mono (ih (n - 1) (by omega) htu (by omega) (by omega) angle count)
          fun _ _ hxy => hxy.mono (by omega)
      simp only [paramsRest, ← h.kind, ← h.step.is]
      apply rel_ite Iff.rfl fun _ => .some ⟨rfl, h⟩
      intro _
      apply rel_ite Iff.rfl fun _ => .none
      intro _
      apply rel_ite Iff.rfl
      · intro ho
        have hgroup := skipGroup_alike h ho (show n ≤ fuel by omega) (show n ≤ fuel' by omega)
        apply rel_ite (by rw [hgroup.done])
        · intro _
          exact further hgroup.reader _ _
        · intro _
          exact .none
      intro _
      apply rel_ite Iff.rfl fun _ => further h.step _ _
      intro _
      apply rel_ite Iff.rfl fun _ => further h.step _ _
      intro _
      exact rel_ite Iff.rfl (fun _ => further h.step _ _) fun _ => further h.step _ _

theorem firstParam_alike (h : r.Alike n s) :
    r.firstParam.1 = s.firstParam.1 ∧ r.firstParam.2.1 = s.firstParam.2.1 := by
  simp only [firstParam, ← h.kind, ← h.lexeme]
  split <;> exact ⟨rfl, rfl⟩

theorem params?_alike (h : r.Alike n s) (hn : n < fuel) (hn' : n < fuel') :
    Option.Rel (Same Params.unplaced n) (r.params? fuel) (s.params? fuel') := by
  have hfirst := firstParam_alike h.step
  have hstep := h.step.mono (Nat.sub_le n 1)
  unfold params?
  dsimp only
  rw [← hfirst.1, ← hfirst.2]
  apply optionRel_bind (paramsRest_alike hstep hn hn' 0 _)
  intro x y hxy
  apply Option.Rel.some
  have hcount : x.1 = y.1 := hxy.value
  exact ⟨by simp [Params.unplaced, hcount], hxy.reader.step.mono (Nat.sub_le n 1)⟩

theorem typeThenArrow_alike (h : r.Alike n s) (hn : n < fuel) (hn' : n < fuel') (angle : Nat) :
    r.typeThenArrow angle fuel = s.typeThenArrow angle fuel' := by
  induction n using Nat.strong_induction_on generalizing r s angle fuel fuel' with
  | _ n ih =>
    obtain ⟨fuel, rfl⟩ := Nat.exists_eq_add_one_of_ne_zero (n := fuel) (by omega)
    obtain ⟨fuel', rfl⟩ := Nat.exists_eq_add_one_of_ne_zero (n := fuel') (by omega)
    cases he : r.atEnd with
    | true =>
      have hk : r.current.kind = .eof := of_decide_eq_true he
      simp [typeThenArrow, ← h.kind, hk]
    | false =>
      have hpos := h.pos he
      have further {t : Reader a} {u : Reader b} (htu : t.Alike (n - 1) u) (angle : Nat) :
          t.typeThenArrow angle fuel = u.typeThenArrow angle fuel' :=
        ih (n - 1) (by omega) htu (by omega) (by omega) angle
      simp only [typeThenArrow, ← h.kind, further h.step]
      apply rel_ite Iff.rfl fun _ => rfl
      intro _
      apply rel_ite Iff.rfl fun _ => rfl
      intro _
      apply rel_ite Iff.rfl
      · intro ho
        have hgroup := skipGroup_alike h ho (show n ≤ fuel by omega) (show n ≤ fuel' by omega)
        rw [hgroup.done, further hgroup.reader]
      · intro _
        rfl

theorem afterAsync_alike (h : r.Alike n s) : r.afterAsync.Alike n s.afterAsync := by
  simp only [afterAsync, ← h.isWord, ← h.peek_isKeyword, ← h.peek_kind]
  exact rel_ite Iff.rfl (fun _ => h.step.mono (Nat.sub_le n 1)) fun _ => h

/-- Passes over a token or stays. -/
theorem optional_alike (h : r.Alike n s) (kind : Kind) :
    (if r.is kind then r.step else r).Alike n (if s.is kind then s.step else s) :=
  rel_ite (by rw [h.is]) (fun _ => h.step.mono (Nat.sub_le n 1)) fun _ => h

theorem types_alike (h : r.Alike n s) (hn : n < fuel) (hn' : n < fuel') :
    Skip.Alike n (if r.is .less then r.skipTypeArguments fuel else ⟨true, r⟩)
      (if s.is .less then s.skipTypeArguments fuel' else ⟨true, s⟩) :=
  rel_ite (by rw [h.is]) (fun _ => skipAngles_alike h hn hn' 0) fun _ => ⟨rfl, h⟩

/-- Parameter lists that are the same without their places. -/
def SameParams (p q : Option Params) : Prop := Option.Rel (fun p q => p.unplaced = q.unplaced) p q

theorem functionParams?_alike (h : r.Alike n s) (hn : n < fuel) (hn' : n < fuel') :
    SameParams (r.functionParams? fuel) (s.functionParams? fuel') := by
  have h1 := h.step.mono (Nat.sub_le n 1)
  have h2 := optional_alike (optional_alike h1 .star) .identifier
  have h3 := types_alike h2 hn hn'
  unfold functionParams?
  dsimp only
  apply optionRel_bind (optionRel_guard (by rw [h3.done, h3.reader.is]))
  intro _ _ _
  apply optionRel_bind (params?_alike h3.reader hn hn')
  intro x y hxy
  exact .some hxy.value

theorem bareParam?_alike (h : r.Alike n s) : SameParams r.bareParam? s.bareParam? := by
  unfold bareParam?
  apply rel_ite (by rw [h.step.is])
  · intro _
    apply Option.Rel.some
    simp [Params.unplaced, h.lexeme]
  · intro _
    exact .none

theorem arrowParams?_alike (h : r.Alike n s) (hn : n < fuel) (hn' : n < fuel') :
    SameParams (r.arrowParams? fuel) (s.arrowParams? fuel') := by
  have h1 := types_alike h hn hn'
  unfold arrowParams?
  dsimp only
  apply optionRel_bind (optionRel_guard (by rw [h1.done, h1.reader.is]))
  intro _ _ _
  apply optionRel_bind (params?_alike h1.reader hn hn')
  intro x y hxy
  have h2 := hxy.reader.step.mono (Nat.sub_le n 1)
  apply optionRel_bind (optionRel_guard (by
    rw [hxy.reader.is, hxy.reader.is, typeThenArrow_alike h2 hn hn']))
  intro _ _ _
  exact .some hxy.value

theorem functionLiteral?_alike (h : r.Alike n s) (hn : n < fuel) (hn' : n < fuel') :
    Option.Rel (fun x y => x.1 = y.1 ∧ x.2.unplaced = y.2.unplaced) (r.functionLiteral? fuel)
      (s.functionLiteral? fuel') := by
  have ha := afterAsync_alike h
  have marked {p q : Option Params} (arrow : Bool) (hpq : SameParams p q) :
      Option.Rel (fun x y => x.1 = y.1 ∧ x.2.unplaced = y.2.unplaced) (p.map (arrow, ·))
        (q.map (arrow, ·)) := by
    cases hpq with
    | some h => exact .some ⟨rfl, h⟩
    | none => exact .none
  unfold functionLiteral?
  apply rel_ite (by rw [ha.isKeyword]) fun _ => marked false (functionParams?_alike ha hn hn')
  intro _
  apply rel_ite (by rw [ha.is]) fun _ => marked true (bareParam?_alike ha)
  intro _
  apply rel_ite (by rw [ha.is, ha.is]) fun _ => marked true (arrowParams?_alike ha hn hn')
  intro _
  exact .none

theorem endsArgument_alike (h : r.Alike n s) : r.endsArgument = s.endsArgument := by
  simp only [endsArgument, h.is]

theorem startsLiteral_alike (h : r.Alike n s) : r.startsLiteral = s.startsLiteral := by
  simp only [startsLiteral, h.kind, h.lexeme]

theorem argumentKind_alike (h : r.Alike n s) (hn : n < fuel) (hn' : n < fuel') :
    (r.argumentKind fuel).unplaced = (s.argumentKind fuel').unplaced := by
  have hliteral := functionLiteral?_alike h hn hn'
  unfold argumentKind
  generalize r.functionLiteral? fuel = x at hliteral ⊢
  generalize s.functionLiteral? fuel' = y at hliteral ⊢
  cases hliteral with
  | some hxy => simp [ArgumentKind.unplaced, hxy.1, hxy.2]
  | none =>
    dsimp only
    rw [← h.is .identifier, ← startsLiteral_alike h, ← endsArgument_alike h.step]
    split_ifs with hi
    · have hpath := dottedPath_alike h hi hn.le hn'.le
      have hend := endsArgument_alike hpath.2
      generalize r.dottedPath fuel = x at hpath hend ⊢
      generalize s.dottedPath fuel' = y at hpath hend ⊢
      obtain ⟨path, last⟩ := x
      obtain ⟨path', last'⟩ := y
      obtain ⟨rfl, -⟩ := hpath
      rcases path with _ | _ | ⟨name, _ | ⟨next, rest⟩⟩
      · rfl
      all_goals
        dsimp only at hend ⊢
        rw [hend]
    · rfl
    · rfl

end Reader

end JsxPresence
