import JsxPresence.Proofs.Outline.Alike.Argument

namespace JsxPresence

/-- In alike readers with fewer than `bound` tokens left both walks find the same, and pass a token
at least. -/
def Walk.Alike {a b : Bytes} (bound : Nat) (walk : Walk a) (walk' : Walk b) : Prop :=
  ∀ (n : Nat) (r : Reader a) (s : Reader b), n < bound → r.Alike n s →
    Agree (Reader.Same Outline.unplaced (n - 1)) (walk r) (walk' s)

namespace Reader

variable {a b : Bytes} {r : Reader a} {s : Reader b} {n m fuel fuel' bound : Nat}
  {walk : Walk a} {walk' : Walk b}

theorem Alike.same {o p : Outline} (h : r.Alike n s) (hop : o.unplaced = p.unplaced) :
    Same Outline.unplaced n (o, r) (p, s) := ⟨hop, h⟩

theorem Same.append {x : Outline × Reader a} {y : Outline × Reader b} {o p : Outline}
    (h : Same Outline.unplaced n x y) (hop : o.unplaced = p.unplaced) :
    Same Outline.unplaced n (o ++ x.1, x.2) (p ++ y.1, y.2) :=
  ⟨by simp only [Outline.unplaced_append, hop, h.value], h.reader⟩

theorem walkToken_alike (h : r.Alike n s) :
    Agree (Same Outline.unplaced (n - 1)) (walkToken r) (walkToken s) := by
  apply h.advance.bind
  intro t u htu
  exact htu.same rfl

theorem walkUntil_alike (hw : walk.Alike bound walk') (h : r.Alike n s) (hb : n < bound)
    (hn : n < fuel) (hn' : n < fuel') (stop : Kind → Bool) :
    Agree (Same Outline.unplaced n) (walkUntil walk stop fuel r)
      (walkUntil walk' stop fuel' s) := by
  induction n using Nat.strong_induction_on generalizing r s fuel fuel' with
  | _ n ih =>
    obtain ⟨fuel, rfl⟩ := Nat.exists_eq_add_one_of_ne_zero (n := fuel) (by omega)
    obtain ⟨fuel', rfl⟩ := Nat.exists_eq_add_one_of_ne_zero (n := fuel') (by omega)
    simp only [walkUntil, ← h.atEnd, ← h.kind]
    apply Agree.ite Iff.rfl fun _ => .pure (h.same rfl)
    intro hgo
    have hpos := h.pos (by simp_all)
    apply (hw n r s hb h).bind
    intro x y hxy
    apply (ih (n - 1) (by omega) hxy.reader (by omega) (by omega) (by omega)).bind
    intro x' y' hxy'
    exact (hxy'.append hxy.value).mono (by omega)

theorem walkGroup_alike (hw : walk.Alike bound walk') (h : r.Alike n s)
    (he : r.atEnd = false) (hb : n ≤ bound) (hn : n ≤ fuel) (hn' : n ≤ fuel') :
    Agree (Same Outline.unplaced (n - 1)) (walkGroup walk fuel r) (walkGroup walk' fuel' s) := by
  have hpos := h.pos he
  simp only [walkGroup, ← h.kind]
  apply h.advance.bind
  intro t u htu
  apply (walkUntil_alike hw htu (by omega) (by omega) (by omega) _).bind
  intro x y hxy
  apply Agree.ite (by rw [hxy.reader.is])
  · intro _
    exact .throw_bind rfl
  · intro _
    apply hxy.reader.advance.bind
    intro t' u' htu'
    exact (htu'.mono (by omega)).same hxy.value

theorem callArguments_alike (hw : walk.Alike bound walk') (h : r.Alike n s) (hb : n < bound)
    (hn : n + 1 < fuel) (hn' : n + 1 < fuel') :
    Agree (fun x y => x.1.map Argument.unplaced = y.1.map Argument.unplaced ∧
        Same Outline.unplaced n x.2 y.2)
      (callArguments walk fuel r) (callArguments walk' fuel' s) := by
  induction n using Nat.strong_induction_on generalizing r s fuel fuel' with
  | _ n ih =>
    obtain ⟨fuel, rfl⟩ := Nat.exists_eq_add_one_of_ne_zero (n := fuel) (by omega)
    obtain ⟨fuel', rfl⟩ := Nat.exists_eq_add_one_of_ne_zero (n := fuel') (by omega)
    have hkind := argumentKind_alike h (show n < fuel by omega) (show n < fuel' by omega)
    simp only [callArguments, ← h.atEnd, ← h.is]
    apply Agree.ite Iff.rfl fun _ => .pure ⟨rfl, h.same rfl⟩
    intro _
    apply (walkUntil_alike hw h hb (by omega) (by omega) _).bind
    intro x y hxy
    apply Agree.ite (by rw [hxy.reader.is])
    · intro hcomma
      have hpos := hxy.reader.pos (not_atEnd_of_ne_eof (by simp [of_decide_eq_true hcomma]))
      apply hxy.reader.advance.bind
      intro t u htu
      apply (ih (n - 1) (by omega) htu (by omega) (by omega) (by omega)).bind
      intro x' y' hxy'
      apply Agree.pure
      exact ⟨by simp [Argument.unplaced, hkind, hxy'.1],
        (hxy'.2.append hxy.value).mono (by omega)⟩
    · intro _
      apply Agree.pure
      exact ⟨by simp [Argument.unplaced, hkind], hxy⟩

theorem walkCall_alike (hw : walk.Alike bound walk') (h : r.Alike n s)
    (hp : r.is .openParen = true) (hb : n < bound) (hn : n < fuel) (hn' : n < fuel')
    (start start' : Nat) (callee : Callee) (span span' : Span) :
    Agree (Same Outline.unplaced (n - 1)) (walkCall walk fuel start callee span r)
      (walkCall walk' fuel' start' callee span' s) := by
  have hpos := h.pos (not_atEnd_of_ne_eof (by simp [of_decide_eq_true hp]))
  unfold walkCall
  apply h.advance.bind
  intro t u htu
  apply (callArguments_alike hw htu (by omega) (by omega) (by omega)).bind
  intro x y hxy
  have hreader := hxy.2.reader
  apply Agree.ite (by rw [hreader.is])
  · intro _
    exact .throw_bind rfl
  · intro _
    apply hreader.advance.bind
    intro t' u' htu'
    have htu' := htu'.mono (Nat.sub_le (n - 1) 1)
    apply Agree.ite (by rw [htu'.is])
    · intro _
      exact htu'.same hxy.2.value
    · intro _
      apply htu'.same
      simp only [Outline.unplaced_append, hxy.2.value]
      simp [Outline.unplaced, Outline.ofCall, Outline.empty, Call.unplaced, hxy.1]

theorem chainTail_alike (h : r.Alike n s) (hn : n < fuel) (hn' : n < fuel') (last last' : Span) :
    Agree (fun x y => x.1 = y.1 ∧ x.2.2.Alike n y.2.2) (chainTail last fuel r)
      (chainTail last' fuel' s) := by
  induction n using Nat.strong_induction_on generalizing r s fuel fuel' last last' with
  | _ n ih =>
    obtain ⟨fuel, rfl⟩ := Nat.exists_eq_add_one_of_ne_zero (n := fuel) (by omega)
    obtain ⟨fuel', rfl⟩ := Nat.exists_eq_add_one_of_ne_zero (n := fuel') (by omega)
    simp only [chainTail, ← h.is, ← h.step.isName, ← h.step.lexeme]
    apply Agree.ite Iff.rfl
    · intro hdot
      have hpos := h.pos (not_atEnd_of_ne_eof (by rintro hk; simp [is, hk] at hdot))
      apply h.step.advance.bind
      intro t u htu
      apply (ih (n - 1) (by omega) (htu.mono (by omega)) (by omega) (by omega) _ _).bind
      intro x y hxy
      apply Agree.pure
      exact ⟨by rw [hxy.1], hxy.2.mono (by omega)⟩
    · intro _
      exact ⟨rfl, h⟩

theorem callParen?_alike (h : r.Alike n s) (hn : n < fuel) (hn' : n < fuel') :
    Option.Rel (fun t u => t.Alike n u ∧ t.is .openParen = true) (r.callParen? fuel)
      (s.callParen? fuel') := by
  have htypes := skipAngles_alike h hn hn' 0
  unfold callParen?
  apply rel_ite (by rw [h.is]) fun hp => .some ⟨h, hp⟩
  intro _
  apply rel_ite (by rw [h.is])
  · intro _
    apply rel_ite (by rw [skipTypeArguments, skipTypeArguments, htypes.done, htypes.reader.is])
    · intro hp
      exact .some ⟨htypes.reader, (Bool.and_eq_true_iff.1 hp).2⟩
    · intro _
      exact .none
  · intro _
    exact .none

/-- What stands before the token at hand, if anything does. -/
theorem Alike.previous_cases (h : r.Alike n s) :
    (r.previous = none ∧ s.previous = none) ∨
      ∃ t u, r.previous = some t ∧ s.previous = some u ∧ t.kind = u.kind ∧ t.lexeme = u.lexeme := by
  have hprevious := h.previous
  cases hr : r.previous with
  | none =>
    rw [hr] at hprevious
    exact .inl ⟨rfl, Option.map_eq_none_iff.1 hprevious.symm⟩
  | some t =>
    rw [hr] at hprevious
    obtain ⟨u, hs, hu⟩ := Option.map_eq_some_iff.1 hprevious.symm
    exact .inr ⟨t, u, rfl, hs, (congrArg Token.kind hu).symm, (congrArg Token.lexeme hu).symm⟩

theorem followsDot_alike (h : r.Alike n s) : r.followsDot = s.followsDot := by
  unfold followsDot
  obtain ⟨hr, hs⟩ | ⟨t, u, hr, hs, hk, -⟩ := h.previous_cases
  · rw [hr, hs]
  · simp only [hr, hs, hk]

theorem isDeclaredName_alike (h : r.Alike n s) : r.isDeclaredName = s.isDeclaredName := by
  unfold isDeclaredName
  obtain ⟨hr, hs⟩ | ⟨t, u, hr, hs, hk, hl⟩ := h.previous_cases
  · rw [hr, hs]
  · simp only [hr, hs, Token.isKeyword, hk, hl]

theorem expressionAllowed_alike (h : r.Alike n s) : r.expressionAllowed = s.expressionAllowed := by
  unfold expressionAllowed expressionAllowedAfter
  obtain ⟨hr, hs⟩ | ⟨t, u, hr, hs, hk, hl⟩ := h.previous_cases
  · rw [hr, hs]
  · simp only [hr, hs, hk, hl]

theorem walkChain_alike (hw : walk.Alike bound walk') (h : r.Alike n s) (he : r.atEnd = false)
    (hb : n ≤ bound) (hn : n ≤ fuel) (hn' : n ≤ fuel') :
    Agree (Same Outline.unplaced (n - 1)) (walkChain walk fuel r) (walkChain walk' fuel' s) := by
  have hpos := h.pos he
  simp only [walkChain, ← h.lexeme, ← followsDot_alike h, ← isDeclaredName_alike h]
  apply h.advance.bind
  intro t u htu
  apply Agree.ite Iff.rfl fun _ => .pure (htu.same rfl)
  intro _
  apply (chainTail_alike htu (by omega) (by omega) _ _).bind
  intro x y hxy
  have hparen := callParen?_alike hxy.2 (show n - 1 < fuel by omega) (show n - 1 < fuel' by omega)
  rw [hxy.1]
  generalize x.2.2.callParen? fuel = paren at hparen ⊢
  generalize y.2.2.callParen? fuel' = paren' at hparen ⊢
  cases hparen with
  | none => exact hxy.2.same rfl
  | some hparen =>
    have hcall := walkCall_alike hw hparen.1 hparen.2 (show n - 1 < bound by omega)
      (show n - 1 < fuel by omega) (show n - 1 < fuel' by omega)
    exact (hcall _ _ _ _ _).mono fun _ _ hxy => hxy.mono (by omega)

/-- Without elements a unit is a token, a group or a chain of names. -/
theorem walkUnit_alike (hw : walk.Alike bound walk') {element : ElementWalk a}
    {element' : ElementWalk b} (h : r.Alike n s) (hb : n ≤ bound) (hn : n ≤ fuel)
    (hn' : n ≤ fuel') :
    Agree (Same Outline.unplaced (n - 1)) (walkUnit false walk element fuel r)
      (walkUnit false walk' element' fuel' s) := by
  have hchain (hk : r.current.kind = .identifier ∨ r.current.kind = .keyword) :=
    walkChain_alike hw h (not_atEnd_of_ne_eof (by rcases hk with hk | hk <;> simp [hk])) hb hn hn'
  have hgroup (hk : r.current.kind.isOpener = true) :=
    walkGroup_alike hw h (not_atEnd_of_ne_eof (by rintro he; simp [he, Kind.isOpener] at hk)) hb
      hn hn'
  have hstarts : r.startsChain = s.startsChain := by simp only [startsChain, h.lexeme]
  simp only [walkUnit, ← h.kind, ← hstarts, atElement, Bool.false_and]
  split
  · rename_i hk
    exact hgroup (by rw [hk]; rfl)
  · rename_i hk
    exact hgroup (by rw [hk]; rfl)
  · rename_i hk
    exact hgroup (by rw [hk]; rfl)
  · rfl
  · rfl
  · rfl
  · exact walkToken_alike h
  · rename_i hk
    exact hchain (.inl hk)
  · rename_i hk
    exact Agree.ite Iff.rfl (fun _ => hchain (.inr hk)) fun _ => walkToken_alike h
  · exact walkToken_alike h

theorem walk_alike (fuel fuel' : Nat) :
    Walk.Alike (min fuel fuel') (Reader.walk false fuel : Walk a)
      (Reader.walk false fuel' : Walk b) := by
  induction fuel generalizing fuel' with
  | zero =>
    intro n r s hn
    omega
  | succ fuel ih =>
    intro n r s hn h
    obtain ⟨fuel', rfl⟩ := Nat.exists_eq_add_one_of_ne_zero (n := fuel') (by omega)
    simp only [Reader.walk]
    exact walkUnit_alike (ih fuel') h (by omega) (by omega) (by omega)

end Reader

end JsxPresence
