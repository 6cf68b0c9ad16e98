import JsxPresence.Outline.Argument
import JsxPresence.Proofs.Outline.Placement

namespace JsxPresence.Reader

variable {text : Bytes} {r : Reader text}

theorem paramsRest_after (h : r.Ready) (angle count fuel : Nat) :
    ∀ x, r.paramsRest angle count fuel = some x → r.After x.2 := by
  fun_induction Reader.paramsRest r angle count fuel
  case case1 | case3 | case5 => simp
  case case2 =>
    rintro x ⟨⟩
    exact h.after
  case case4 r _ _ fuel _ _ _ _ _ _ ih =>
    have hg := skipClosers_after h [] fuel
    exact fun x hx => hg.trans (ih hg.ready x hx)
  all_goals
    rename_i ih
    exact fun x hx => (step_after h).trans (ih (step_after h).ready x hx)

theorem firstParam_le (h : r.Ready) (hs : text.Short) : r.firstParam.2.2 ≤ text.length := by
  unfold firstParam
  split <;> simp only [Nat.zero_le]
  exact (h.placed hs).le_length

/-- Where the parameters start with a pattern, its group is passed over first. -/
theorem firstParam_pattern (h : r.Ready) (hs : text.Short) {angle count fuel : Nat}
    {x : Nat × Reader text} (hrest : r.paramsRest angle count fuel = some x)
    (hfirst : r.firstParam.1 = .objectPattern) :
    ∃ opening closing, r.firstParam.2.2 = opening + 1 ∧ Encloses text opening closing := by
  have hk : r.current.kind = .openBrace := by
    unfold firstParam at hfirst
    split at hfirst
    · cases hfirst
    · cases hfirst
    · assumption
    · cases hfirst
  cases fuel with
  | zero => cases hrest
  | succ fuel =>
    have hdone : (r.skipGroup fuel).done = true := by
      by_contra hdone
      simp [paramsRest, hk, Kind.isOpener, hdone] at hrest
    obtain ⟨closing, hencloses⟩ := encloses_of_skipGroup hs h hk hdone
    have hstop := ((h.placed hs).mark (congrArg Kind.mark? hk)).1
    refine ⟨r.current.span.start, closing, ?_, hencloses⟩
    simp [firstParam, hk, hstop]

theorem params?_placed (h : r.Ready) (fuel : Nat) :
    ∀ x, r.params? fuel = some x → (text.Short → x.1.Placed text) ∧ r.After x.2 := by
  intro x hx
  have hi := step_after h
  unfold params? at hx
  obtain ⟨⟨count, last⟩, hl, hx⟩ := Option.bind_eq_some_iff.1 hx
  cases hx
  have ha := paramsRest_after hi.ready _ _ _ _ hl
  refine ⟨fun hs => ⟨(h.placed hs).le_length, firstParam_le hi.ready hs, ?_⟩,
    hi.trans (ha.trans (step_after ha.ready))⟩
  exact firstParam_pattern hi.ready hs hl

theorem afterAsync_after (h : r.Ready) : r.After r.afterAsync :=
  of_ite (fun _ => step_after h) fun _ => h.after

/-- Passes over a token or stays: a place where something may stand and may not. -/
theorem optional_after (h : r.Ready) {p : Prop} [Decidable p] : r.After (if p then r.step else r) :=
  of_ite (fun _ => step_after h) fun _ => h.after

theorem types_after (h : r.Ready) {p : Prop} [Decidable p] (fuel : Nat) :
    r.After (if p then r.skipTypeArguments fuel else ⟨true, r⟩ : Skip text).reader :=
  of_ite (P := fun s : Skip text => r.After s.reader) (fun _ => skipAngles_after h 0 fuel)
    fun _ => h.after

theorem functionParams?_placed (h : r.Ready) (fuel : Nat) :
    ∀ x, r.functionParams? fuel = some x → ∀ arrow,
      text.Short → (ArgumentKind.function arrow x).Placed text := by
  intro x hx arrow hs
  unfold functionParams? at hx
  dsimp only at hx
  have h1 := step_after h
  have h2 := optional_after h1.ready (p := r.step.is .star = true)
  have h3 := optional_after h2.ready
    (p := (if r.step.is .star then r.step.step else r.step).is .identifier = true)
  generalize (if (if r.step.is .star then r.step.step else r.step).is .identifier
    then (if r.step.is .star then r.step.step else r.step).step
    else (if r.step.is .star then r.step.step else r.step)) = s at hx h3
  have h4 := types_after h3.ready (p := s.is .less = true) fuel
  obtain ⟨_, -, hx⟩ := Option.bind_eq_some_iff.1 hx
  obtain ⟨y, hy, hx⟩ := Option.bind_eq_some_iff.1 hx
  cases hx
  exact (params?_placed h4.ready fuel y hy).1 hs

theorem bareParam?_placed (h : r.Ready) :
    ∀ x, r.bareParam? = some x → ∀ arrow,
      text.Short → (ArgumentKind.function arrow x).Placed text := by
  intro x hx arrow hs
  obtain ⟨-, hx⟩ | ⟨-, hx⟩ := ite_eq_some hx
  · cases hx
    have hp := h.placed hs
    exact ⟨hp.le.trans hp.le_length, Nat.zero_le _, fun hfirst => by cases hfirst⟩
  · cases hx

theorem arrowParams?_placed (h : r.Ready) (fuel : Nat) :
    ∀ x, r.arrowParams? fuel = some x → ∀ arrow,
      text.Short → (ArgumentKind.function arrow x).Placed text := by
  intro x hx arrow hs
  unfold arrowParams? at hx
  dsimp only at hx
  have h1 := types_after h (p := r.is .less = true) fuel
  obtain ⟨_, -, hx⟩ := Option.bind_eq_some_iff.1 hx
  obtain ⟨y, hy, hx⟩ := Option.bind_eq_some_iff.1 hx
  obtain ⟨_, -, hx⟩ := Option.bind_eq_some_iff.1 hx
  cases hx
  exact (params?_placed h1.ready fuel y hy).1 hs

theorem functionLiteral?_placed (h : r.Ready) (fuel : Nat) :
    ∀ x, r.functionLiteral? fuel = some x →
      text.Short → (ArgumentKind.function x.1 x.2).Placed text := by
  intro x hx hs
  have ha := (afterAsync_after h).ready
  unfold functionLiteral? at hx
  dsimp only at hx
  rcases ite_eq_some hx with ⟨-, hx⟩ | ⟨-, hx⟩
  · obtain ⟨p, hp, rfl⟩ := Option.map_eq_some_iff.1 hx
    exact functionParams?_placed ha fuel p hp false hs
  rcases ite_eq_some hx with ⟨-, hx⟩ | ⟨-, hx⟩
  · obtain ⟨p, hp, rfl⟩ := Option.map_eq_some_iff.1 hx
    exact bareParam?_placed ha p hp true hs
  rcases ite_eq_some hx with ⟨-, hx⟩ | ⟨-, hx⟩
  · obtain ⟨p, hp, rfl⟩ := Option.map_eq_some_iff.1 hx
    exact arrowParams?_placed ha fuel p hp true hs
  · cases hx

/-- An argument that counts as a dotted name is one, up to the end of the argument. -/
theorem argumentKind_reference {fuel : Nat} (h : (r.argumentKind fuel).isReference = true) :
    r.is .identifier = true ∧
      ∃ path, (r.dottedPath fuel).1 = some path ∧ (r.dottedPath fuel).2.endsArgument = true := by
  unfold argumentKind at h
  split at h
  · cases h
  · split_ifs at h with hi
    · split at h
      · rename_i name last hd
        split_ifs at h with he
        · exact ⟨hi, [name], by rw [hd], by rw [hd]; exact he⟩
        · cases h
      · rename_i path last _ hd
        split_ifs at h with he
        · exact ⟨hi, path, by rw [hd], by rw [hd]; exact he⟩
        · cases h
      · cases h
    all_goals cases h

theorem argumentKind_plain (h : r.Ready) (fuel : Nat) : (r.argumentKind fuel).Plain := by
  unfold argumentKind
  split
  · trivial
  · split_ifs with hi
    · have hc := dottedPath_clean h hi fuel
      split
      · rename_i name last hd
        refine of_ite (P := ArgumentKind.Plain) (fun _ => ?_) fun _ => trivial
        exact hc [name] (by rw [hd]) name (List.mem_singleton_self _)
      · rename_i path last _ hd
        refine of_ite (P := ArgumentKind.Plain) (fun _ => ?_) fun _ => trivial
        exact hc path (by rw [hd])
      · trivial
    all_goals trivial

theorem argumentKind_placed (h : r.Ready) (hs : text.Short) (fuel : Nat) :
    (r.argumentKind fuel).Placed text := by
  unfold argumentKind
  split
  · rename_i arrow params hf
    exact functionLiteral?_placed h fuel (arrow, params) hf hs
  · split_ifs
    · split
      · exact of_ite (P := ArgumentKind.Placed text) (fun _ => trivial) fun _ => trivial
      · exact of_ite (P := ArgumentKind.Placed text) (fun _ => trivial) fun _ => trivial
      · trivial
    all_goals trivial

end JsxPresence.Reader
