import JsxPresence.Outline.Expression
import JsxPresence.Proofs.Outline.Head

namespace JsxPresence

namespace Reader

variable {text : Bytes} {r s t : Reader text} {a b : Outline}

/-- From the first reader on there was an outline to find, and the second one stands behind it. -/
structure Found (r : Reader text) (x : Outline × Reader text) : Prop extends After r x.2 where
  sound : x.1.Sound text r.current.span.start x.2.lastEnd

theorem After.found (h : r.After s) (hc : a.calls = []) (he : a.elements = []) : r.Found (a, s) :=
  ⟨h, Outline.sound_of_nil hc he⟩

theorem After.found_empty (h : r.After s) : r.Found (.empty, s) := h.found rfl rfl

theorem After.trans_found (h : r.After s) (k : s.Found (a, t)) : r.Found (a, t) :=
  ⟨h.trans k.toAfter, k.sound.mono fun hs => ⟨h.start_le hs, le_refl _⟩⟩

theorem Found.trans_after (h : r.Found (a, s)) (k : s.After t) : r.Found (a, t) :=
  ⟨h.toAfter.trans k, h.sound.mono fun hs => ⟨le_refl _, k.lastEnd_le hs⟩⟩

theorem Found.append (h : r.Found (a, s)) (k : s.Found (b, t)) : r.Found (a ++ b, t) :=
  ⟨h.toAfter.trans k.toAfter, h.sound.append_of_le k.sound fun hs =>
    ⟨h.start_le hs, h.ready.lastEnd_le hs, k.lastEnd_le hs⟩⟩

/-- Outlines without calls and tags may be added anywhere. -/
theorem Found.append_unplaced (h : r.Found (a, s)) (hc : b.calls = []) (he : b.elements = []) :
    r.Found (a ++ b, s) :=
  h.append (h.ready.after.found hc he)

end Reader

open Reader

/-- The walk finds sound outlines; where a dotted name is all there is before the end of an argument,
it finds nothing and stops at that end. -/
structure Walk.Sound {text : Bytes} (walk : Walk text) : Prop where
  found {r : Reader text} : r.Ready → Yields (walk r) r.Found
  reference {r last : Reader text} {path : List Bytes} {n : Nat} : r.is .identifier = true →
    r.isDeclaredName = false → r.dottedPath n = (some path, last) → last.endsArgument = true →
    Yields (walk r) fun x => x.1 = .empty ∧ x.2.endsArgument = true
  passes : walk.PassesFree true

namespace Reader

variable {text : Bytes} {r s : Reader text} {walk : Walk text}

theorem walkToken_found (h : r.Ready) : Yields (walkToken r) r.Found :=
  (advance_after h).bind fun _ hs => .pure hs.found_empty

theorem walkUntil_found (hw : walk.Sound) (stop : Kind → Bool) (fuel : Nat) (h : r.Ready) :
    Yields (walkUntil walk stop fuel r) r.Found := by
  induction fuel generalizing r with
  | zero => exact .error _
  | succ fuel ih =>
    refine .ite (fun _ => .pure h.after.found_empty) fun _ => ?_
    refine (hw.found h).bind fun x hx => ?_
    refine (ih hx.ready).bind fun y hy => ?_
    exact .pure (hx.append hy)

theorem walkUntil_stops (walk : Walk text) (stop : Kind → Bool) (fuel : Nat) :
    Yields (walkUntil walk stop fuel r) fun x =>
      x.2.atEnd = true ∨ stop x.2.current.kind = true := by
  induction fuel generalizing r with
  | zero => exact .error _
  | succ fuel ih =>
    refine .ite (fun h => .pure (Bool.or_eq_true_iff.1 h)) fun _ => ?_
    refine Yields.bind (P := fun _ => True) (fun _ _ => trivial) fun x _ => ?_
    exact ih.bind fun y hy => .pure hy

theorem walkGroup_found (hw : walk.Sound) (fuel : Nat) (h : r.Ready) :
    Yields (walkGroup walk fuel r) r.Found := by
  unfold walkGroup
  refine (advance_after h).bind fun s hs => ?_
  refine (walkUntil_found hw _ fuel hs.ready).bind fun x hx => ?_
  refine .ite (fun _ => .throw_bind _ _) fun _ => ?_
  refine (advance_after hx.ready).bind fun t ht => ?_
  exact .pure (hs.trans_found (hx.trans_after ht))

/-- An argument that is a dotted name holds no calls and no tags. -/
theorem walkUntil_reference (hw : walk.Sound) {n fuel : Nat} (hd : r.isDeclaredName = false)
    (hk : (r.argumentKind n).isReference = true) :
    Yields (walkUntil walk (fun k => k = .comma || k = .closeParen) fuel r) (·.1 = .empty) := by
  obtain ⟨hi, path, hp, he⟩ := argumentKind_reference hk
  cases fuel with
  | zero => exact .error _
  | succ fuel =>
    refine .ite (fun _ => .pure rfl) fun _ => ?_
    refine (hw.reference hi hd (Prod.ext hp rfl) he).bind fun x hx => ?_
    refine Yields.bind (P := (·.1 = .empty)) ?_ fun y hy => .pure (by simp [hx.1, hy])
    cases fuel with
    | zero => exact .error _
    | succ fuel =>
      refine .ite (fun _ => .pure rfl) fun hn => ?_
      have hx' := hx.2
      simp only [endsArgument, is, Bool.or_eq_true] at hn hx'
      exact absurd (Or.inr hx') hn

/-- What the arguments of a call are like: they lie between two offsets, and hold what stands
there, the dotted names nothing. -/
structure ArgumentsHold (text : Bytes) (lo hi : Nat) (arguments : List Argument) (inner : Outline) :
    Prop where
  plain : ∀ a ∈ arguments, a.kind.Plain
  within : text.Short → ∀ a ∈ arguments,
    lo ≤ a.span.start ∧ a.span.stop ≤ hi ∧ a.kind.Placed text
  covers : text.Short → ∀ q ∈ inner.pieces,
    ∃ a ∈ arguments, a.kind.isReference = false ∧ a.span.contains q.span = true
  headed : text.Short → ∀ a ∈ arguments, a.Headed text inner.elements

theorem isDeclaredName_of_over (h : r.Over s) (hk : r.current.kind ≠ .keyword) :
    s.isDeclaredName = false := by
  simp [isDeclaredName, h.previous_eq, Token.isKeyword, hk]

/-- The argument that a walk has just passed. -/
theorem argument_holds (h : r.Ready) {inner : Outline} (hf : r.Found (inner, s)) {n : Nat}
    (he : (r.argumentKind n).isReference = true → inner = .empty)
    (hend : s.atEnd = true ∨ s.endsArgument = true)
    (hpasses : inner.elements = [] → r.Passes s) :
    ArgumentsHold text r.current.span.start s.lastEnd
      [⟨r.argumentKind n, ⟨r.current.span.start, s.lastEnd⟩⟩] inner where
  plain := by simpa using argumentKind_plain h n
  within hs := by simpa using argumentKind_placed h hs n
  covers hs q hq := by
    refine ⟨_, List.mem_singleton_self _, ?_, ?_⟩
    · by_contra hr
      rw [he (by simpa using hr)] at hq
      cases hq
    · have hq' := (hf.sound.held hs).within q hq
      simp [Span.contains, hq'.1, hq'.2.2]
  headed hs a ha := by
    rw [List.mem_singleton.1 ha]
    refine argumentKind_headed h hs hend hpasses fun e he => ?_
    exact (hf.sound.held hs).within _ (Outline.piece_mem_of_element he)

theorem ArgumentsHold.append {lo m n hi : Nat} {xs ys : List Argument} {a b : Outline}
    (hx : ArgumentsHold text lo m xs a) (hy : ArgumentsHold text n hi ys b)
    (hle : text.Short → lo ≤ n ∧ m ≤ hi) : ArgumentsHold text lo hi (xs ++ ys) (a ++ b) where
  plain c hc := (List.mem_append.1 hc).elim (hx.plain c) (hy.plain c)
  within hs c hc := by
    have hle := hle hs
    rcases List.mem_append.1 hc with hc | hc
    · have := hx.within hs c hc
      exact ⟨this.1, by omega, this.2.2⟩
    · have := hy.within hs c hc
      exact ⟨by omega, this.2⟩
  covers hs q hq := by
    rcases Outline.mem_pieces_append.1 hq with hq | hq
    · obtain ⟨c, hc, hk⟩ := hx.covers hs q hq
      exact ⟨c, List.mem_append_left _ hc, hk⟩
    · obtain ⟨c, hc, hk⟩ := hy.covers hs q hq
      exact ⟨c, List.mem_append_right _ hc, hk⟩
  headed hs c hc := by
    rcases List.mem_append.1 hc with hc | hc
    · exact (hx.headed hs c hc).mono (List.subset_append_left _ _)
    · exact (hy.headed hs c hc).mono (List.subset_append_right _ _)

theorem callArguments_found (hw : walk.Sound) (fuel : Nat) (h : r.Ready)
    (hd : r.isDeclaredName = false) :
    Yields (callArguments walk fuel r) fun x =>
      r.Found x.2 ∧ ArgumentsHold text r.current.span.start x.2.2.lastEnd x.1 x.2.1 := by
  induction fuel generalizing r with
  | zero => exact .error _
  | succ fuel ih =>
    refine .ite (fun _ => .pure ⟨h.after.found_empty, by simp, by simp, ?_, by simp⟩) fun _ => ?_
    · intro _ q hq
      cases hq
    have hr (hk : (r.argumentKind fuel).isReference = true) :
        Yields (walkUntil walk (fun k => k = .comma || k = .closeParen) fuel r) (·.1 = .empty) :=
      walkUntil_reference hw hd hk
    refine Yields.bind (P := fun x => r.Found x ∧ ArgumentsHold text r.current.span.start
      x.2.lastEnd [⟨r.argumentKind fuel, ⟨r.current.span.start, x.2.lastEnd⟩⟩] x.1)
      (fun x hx => ?_) fun x hx => ?_
    · have hfound := walkUntil_found hw _ fuel h x hx
      have hend := walkUntil_stops walk _ fuel x hx
      have hpasses := walkUntil_passesFree hw.passes _ fuel x hx
      exact ⟨hfound, argument_holds h hfound (fun hk => hr hk x hx) hend fun hnil =>
        hpasses fun _ => hnil⟩
    obtain ⟨hx, hh⟩ := hx
    refine .ite (fun hc => ?_) fun _ => .pure ⟨hx, hh⟩
    have hc : x.2.current.kind = .comma := of_decide_eq_true hc
    refine (advance_over hx.ready (by simp [hc])).bind fun s hs => ?_
    refine (ih hs.ready (isDeclaredName_of_over hs (by simp [hc]))).bind fun y hy => ?_
    refine .pure ⟨(hx.trans_after hs.toAfter).append hy.1, hh.append hy.2 fun hsh => ?_⟩
    have h1 := hx.start_le hsh
    have h2 := hs.start_le hsh
    have h3 := hs.lastEnd_le hsh
    have h4 := hy.1.lastEnd_le hsh
    exact ⟨h1.trans h2, h3.trans h4⟩

/-- The call behind a parenthesis that stands behind the callee. -/
theorem walkCall_found (hw : walk.Sound) (fuel : Nat) {start : Nat} {callee : Callee}
    {calleeSpan : Span} (h : r.Ready) (hp : r.is .openParen = true)
    (hca : text.Short → callee.Placed text start r.current.span.start calleeSpan) :
    Yields (walkCall walk fuel start callee calleeSpan r) fun x =>
      r.After x.2 ∧ x.1.Sound text start x.2.lastEnd := by
  have hp : r.current.kind = .openParen := of_decide_eq_true hp
  unfold walkCall
  refine (advance_over h (by simp [hp])).bind fun s hs => ?_
  have hd := isDeclaredName_of_over hs (by simp [hp])
  refine (callArguments_found hw fuel hs.ready hd).bind fun x hx => ?_
  obtain ⟨arguments, inner, t⟩ := x
  obtain ⟨hf, ha⟩ := hx
  refine .ite (fun _ => .throw_bind _ _) fun hc => ?_
  have hc : t.current.kind = .closeParen := by simpa [is] using hc
  refine (advance_over hf.ready (by simp [hc])).bind fun u hu => ?_
  have hru : r.After u := hs.toAfter.trans (hf.toAfter.trans hu.toAfter)
  have order (hsh : text.Short) : start < s.current.span.start ∧ t.lastEnd < u.lastEnd ∧
      u.lastEnd ≤ text.length ∧ text.byteAt (u.lastEnd - 1) = byte ')' ∧ start < t.lastEnd := by
    have h0 := hca hsh
    have h1 := h0.le_start.trans_lt (h0.start_lt.trans_le h0.stop_le)
    have h2 := (h.placed hsh).le
    have h3 := hs.ready.lastEnd_le hsh
    have h4 := hf.ready.lastEnd_lt_stop hsh (by simp [hc])
    have h5 := hf.ready.placed hsh
    have h6 := h5.mark (c := byte ')') (by rw [hc]; rfl)
    have h7 := hf.lastEnd_le hsh
    have h8 := h.lastEnd_lt_stop hsh (by simp [hp])
    have h9 := (h.placed hsh).lt (by simp [hp])
    have h10 := hs.lastEnd_eq
    rw [hu.lastEnd_eq]
    refine ⟨by omega, h4, h5.le_length, ?_, by simp only at h7; omega⟩
    rw [h6.1, Nat.add_sub_cancel]
    exact h6.2
  refine .ite (fun _ => .pure ⟨hru, ?_⟩) fun _ => .pure ⟨hru, ?_⟩
  · refine hf.sound.mono fun hsh => ?_
    have := order hsh
    exact ⟨this.1.le, this.2.1.le⟩
  · refine hf.sound.call ha.plain ha.headed fun hsh => ?_
    have ho := order hsh
    refine ⟨⟨(hca hsh).mono ?_, ho.2.2.1, ho.2.2.2.1, fun c hc => ?_⟩, le_refl _, ho.1, ho.2.1, ?_,
      le_refl _, ?_⟩
    · have h1 := (h.placed hsh).le
      have h2 := hs.lastEnd_eq
      have h3 := hf.lastEnd_le hsh
      have h4 := ho.2.1
      simp only at h3 ⊢
      omega
    · have hw := ha.within hsh c hc
      exact ⟨ho.1.trans_le hw.1, hw.2.1.trans_lt ho.2.1, hw.2.2⟩
    · exact ho.2.2.2.2.trans ho.2.1
    · intro q hq
      obtain ⟨c, hc, hk, hin⟩ := ha.covers hsh q hq
      exact ⟨c.span, List.mem_map_of_mem (List.mem_filter.2 ⟨hc, by simp [hk]⟩), hin⟩

/-- A chain goes on behind its first name, and its last name is the first one or stands between. -/
theorem chainTail_after (last : Span) (fuel : Nat) (h : r.Ready) {lo : Nat}
    (hl : text.Short → lo ≤ last.start ∧ last.start < last.stop ∧
      last.stop ≤ r.current.span.start) :
    Yields (chainTail last fuel r) fun x => r.After x.2.2 ∧ (text.Short → lo ≤ x.2.1.start ∧
      x.2.1.start < x.2.1.stop ∧ x.2.1.stop ≤ x.2.2.current.span.start) := by
  induction fuel generalizing r last with
  | zero => exact .error _
  | succ fuel ih =>
    refine .ite (fun hc => ?_) fun _ => .pure ⟨h.after, hl⟩
    have hs := step_after h
    have hname : r.step.current.kind ≠ .eof := by
      intro he
      simp [Token.isName, he] at hc
    refine (advance_over hs.ready hname).bind fun t ht => ?_
    refine (ih _ ht.ready fun hsh => ⟨?_, (hs.ready.placed hsh).lt hname, ?_⟩).bind fun x hx => ?_
    · have h1 := hl hsh
      have h2 := hs.start_le hsh
      omega
    · rw [← ht.lastEnd_eq]
      exact ht.ready.lastEnd_le hsh
    · exact .pure ⟨hs.trans (ht.trans hx.1), hx.2⟩

/-- A chain follows a dotted path in step, as far as the end of an argument. -/
theorem chainTail_of_dottedTail {last : Reader text} {path : List Bytes} {n : Nat}
    (hd : r.dottedTail n = (some path, last)) (he : last.endsArgument = true) (span : Span)
    (fuel : Nat) : Yields (chainTail span fuel r) fun x => x.2.2 = last := by
  induction n generalizing r path span fuel with
  | zero => cases hd
  | succ n ih =>
    cases fuel with
    | zero => exact .error _
    | succ fuel =>
      unfold dottedTail at hd
      by_cases hdot : r.is .dot = true
      · rw [if_pos hdot] at hd
        by_cases hname : r.step.current.isName = true
        · simp only [hname, if_true] at hd
          cases hrest : r.step.step.dottedTail n with
          | mk path' last' =>
            rw [hrest] at hd
            cases path' with
            | none => cases hd
            | some path' =>
              cases hd
              refine .ite (fun _ => ?_) fun hn => absurd hname (by simpa [hdot] using hn)
              refine r.step.advance_yields.bind fun t ht => ?_
              subst ht
              refine (ih hrest _ fuel).bind fun x hx => ?_
              exact .pure hx
        · simp [hname] at hd
      · rw [if_neg hdot] at hd
        cases hd
        refine .ite (fun hc => ?_) fun _ => .pure rfl
        simp only [endsArgument, is, Bool.or_eq_true, Bool.and_eq_true, decide_eq_true_eq] at he hc
        rcases he with he | he <;> simp [he] at hc

theorem callParen?_after (h : r.Ready) {fuel : Nat} (hc : r.callParen? fuel = some s) :
    r.After s ∧ s.is .openParen = true := by
  unfold callParen? at hc
  rcases ite_eq_some hc with ⟨hp, hc⟩ | ⟨-, hc⟩
  · cases hc
    exact ⟨h.after, hp⟩
  rcases ite_eq_some hc with ⟨-, hc⟩ | ⟨-, hc⟩
  · rcases ite_eq_some hc with ⟨hp, hc⟩ | ⟨-, hc⟩
    · cases hc
      exact ⟨skipAngles_after h 0 fuel, (Bool.and_eq_true_iff.1 hp).2⟩
    · cases hc
  · cases hc

theorem callParen?_of_endsArgument (fuel : Nat) (he : r.endsArgument = true) :
    r.callParen? fuel = none := by
  simp only [endsArgument, is, Bool.or_eq_true, decide_eq_true_eq] at he
  rcases he with he | he <;> simp [callParen?, is, he]

theorem walkChain_found (hw : walk.Sound) (fuel : Nat) (h : r.Ready)
    (he : r.current.kind ≠ .eof) : Yields (walkChain walk fuel r) r.Found := by
  unfold walkChain
  refine (advance_over h he).bind fun s hs => ?_
  refine .ite (fun _ => .pure hs.found_empty) fun _ => ?_
  have hstop (hsh : text.Short) : r.current.span.stop ≤ s.current.span.start := by
    rw [← hs.lastEnd_eq]
    exact hs.ready.lastEnd_le hsh
  refine (chainTail_after _ fuel hs.ready fun hsh =>
    ⟨le_refl _, (h.placed hsh).lt he, hstop hsh⟩).bind fun x hx => ?_
  obtain ⟨path, last, t⟩ := x
  obtain ⟨hx, hlast⟩ := hx
  have ht := hs.toAfter.trans hx
  dsimp only
  split
  · exact .pure ht.found_empty
  · rename_i u hu
    obtain ⟨hau, hp⟩ := callParen?_after ht.ready hu
    refine (walkCall_found hw fuel hau.ready hp fun hsh => ?_).mono fun x hx => ?_
    · obtain ⟨h1, h2, h3⟩ := hlast hsh
      have h4 := hx.start_le hsh
      have h5 := hau.start_le hsh
      simp only at h1 h2 h3 h4 h5
      refine ⟨⟨r.current.lexeme, ?_, ?_⟩, h1, h2, h3.trans h5⟩
      · split <;> rfl
      · rw [(h.placed hsh).lexeme]
        refine List.take_prefix_take_left (Nat.sub_le_sub_right ?_ _)
        exact (hstop hsh).trans (h4.trans h5)
    · exact ⟨(ht.trans hau).trans hx.1, hx.2⟩

/-- A chain that is all there is before the end of an argument holds nothing. -/
theorem walkChain_reference {last : Reader text} {path : List Bytes} {n fuel : Nat}
    (hn : r.isDeclaredName = false) (hd : r.dottedPath n = (some path, last))
    (he : last.endsArgument = true) :
    Yields (walkChain walk fuel r) fun x => x.1 = .empty ∧ x.2.endsArgument = true := by
  unfold dottedPath at hd
  cases hrest : r.step.dottedTail n with
  | mk path' last' =>
    rw [hrest] at hd
    cases path' with
    | none => cases hd
    | some path' =>
      cases hd
      unfold walkChain
      refine r.advance_yields.bind fun s hs => ?_
      subst hs
      refine .ite (fun hdecl => absurd hdecl (by simp [hn])) fun _ => ?_
      refine (chainTail_of_dottedTail hrest he _ fuel).bind fun x hx => ?_
      obtain ⟨names, span, t⟩ := x
      simp only at hx
      subst hx
      dsimp only
      rw [callParen?_of_endsArgument fuel he]
      exact .pure ⟨rfl, he⟩

end Reader

end JsxPresence
