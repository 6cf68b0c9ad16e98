import JsxPresence.Proofs.Outline.Argument
import JsxPresence.Proofs.Outline.Course

namespace JsxPresence.Reader

variable {text : Bytes} {r s q p : Reader text} {params : Params} {fuel : Nat}

/-- What stands between the two readers leaves the open brackets as they are and has no comma. -/
structure Leads (r s : Reader text) : Prop where
  passes : r.Passes s
  tokens : ∃ passed, r.tokens = passed ++ s.tokens ∧ ∀ t ∈ passed, t.kind ≠ .comma

theorem Leads.refl (r : Reader text) : r.Leads r := ⟨.refl r, [], rfl, by simp⟩

theorem Leads.trans {t : Reader text} (h : r.Leads s) (k : s.Leads t) : r.Leads t := by
  obtain ⟨front, htokens, hfront⟩ := h.tokens
  obtain ⟨back, htokens', hback⟩ := k.tokens
  refine ⟨h.passes.trans k.passes, front ++ back, ?_, ?_⟩
  · rw [htokens, htokens', List.append_assoc]
  · exact List.forall_mem_append.2 ⟨hfront, hback⟩

theorem step_leads {kind : Kind} (h : r.is kind = true)
    (hk : kind.isOpener = false ∧ kind.isCloser = false) (hc : kind ≠ .comma) :
    r.Leads r.step := by
  have hkind : r.current.kind = kind := of_decide_eq_true h
  refine ⟨step_passes (loose_of_is h hk), ?_⟩
  cases he : r.atEnd with
  | true =>
    rw [step_of_atEnd he]
    exact ⟨[], rfl, by simp⟩
  | false => exact ⟨[r.current], tokens_of_not_atEnd he, by simpa [hkind] using hc⟩

/-- A token that is no bracket and no comma is passed over, or the reader stays. -/
theorem optional_leads {kind : Kind} {c : Bool} (h : c = true → r.is kind = true)
    (hk : kind.isOpener = false ∧ kind.isCloser = false) (hc : kind ≠ .comma) :
    r.Leads (if c then r.step else r) :=
  of_ite (fun hp => step_leads (h hp) hk hc) fun _ => .refl r

/-- The parenthesis at hand opens a list with these parameters. -/
structure OpensList (p : Reader text) (params : Params) : Prop where
  paren : p.current.kind = .openParen
  openParenEnd : params.openParenEnd = p.current.span.stop
  first : params.first = p.step.firstParam.1
  patternBraceEnd : params.patternBraceEnd = p.step.firstParam.2.2

theorem opensList_of_params? (hp : r.is .openParen = true) {x : Params × Reader text}
    (h : r.params? fuel = some x) : r.OpensList x.1 := by
  unfold params? at h
  obtain ⟨⟨count, last⟩, -, h⟩ := Option.bind_eq_some_iff.1 h
  cases h
  exact ⟨of_decide_eq_true hp, rfl, rfl, rfl⟩

/-- A list of parameters is found ahead: first come names, and then the list, or type parameters
that open at `q` and the list at `p` behind them. -/
structure FindsList (r q p : Reader text) (params : Params) : Prop where
  leads : r.Leads q
  types : q = p ∨ q.current.kind = .less
  passes : q.Passes p
  opens : p.OpensList params

theorem Leads.finds (h : r.Leads s) (k : s.FindsList q p params) : r.FindsList q p params :=
  { k with leads := h.trans k.leads }

theorem of_guard_eq_some {b : Bool} {u : Unit} (h : (guard b : Option Unit) = some u) :
    b = true := by
  cases b with
  | true => rfl
  | false => cases h

/-- Behind type parameters that are passed over stands the list of parameters. -/
theorem types_findsList {x : Params × Reader text} {u : Unit} {types : Skip text}
    (htypes : types = if r.is .less then r.skipTypeArguments fuel else ⟨true, r⟩)
    (hg : (guard (types.done && types.reader.is .openParen) : Option Unit) = some u)
    (hx : types.reader.params? fuel = some x) : ∃ q p, r.FindsList q p x.1 := by
  obtain ⟨hdone, hparen⟩ := Bool.and_eq_true_iff.1 (of_guard_eq_some hg)
  have hopens := opensList_of_params? hparen hx
  cases hless : r.is .less with
  | true =>
    rw [hless, if_pos rfl] at htypes
    subst htypes
    exact ⟨r, _, .refl r, .inr (of_decide_eq_true hless), skipAngles_passes 0 fuel hdone, hopens⟩
  | false =>
    rw [hless, if_neg Bool.false_ne_true] at htypes
    subst htypes
    exact ⟨r, r, .refl r, .inl rfl, .refl r, hopens⟩

theorem afterAsync_leads (r : Reader text) : r.Leads r.afterAsync :=
  optional_leads (fun h => (Bool.and_eq_true_iff.1 (Bool.and_eq_true_iff.1 h).1).1) ⟨rfl, rfl⟩
    (by decide)

theorem functionParams?_findsList (hf : r.isKeyword (utf8 "function") = true)
    (h : r.functionParams? fuel = some params) : ∃ q p, r.FindsList q p params := by
  unfold functionParams? at h
  dsimp only at h
  have hfunction : r.Leads r.step :=
    step_leads (Bool.and_eq_true_iff.1 hf).1 ⟨rfl, rfl⟩ (by decide)
  have hstar : r.step.Leads (if r.step.is .star then r.step.step else r.step) :=
    optional_leads id ⟨rfl, rfl⟩ (by decide)
  generalize (if r.step.is .star then r.step.step else r.step) = s at h hstar
  have hname : s.Leads (if s.is .identifier then s.step else s) :=
    optional_leads id ⟨rfl, rfl⟩ (by decide)
  generalize (if s.is .identifier then s.step else s) = t at h hname
  obtain ⟨_, hg, h⟩ := Option.bind_eq_some_iff.1 h
  obtain ⟨y, hy, h⟩ := Option.bind_eq_some_iff.1 h
  cases h
  obtain ⟨q, p, hfinds⟩ := types_findsList rfl hg hy
  exact ⟨q, p, ((hfunction.trans hstar).trans hname).finds hfinds⟩

theorem arrowParams?_findsList (h : r.arrowParams? fuel = some params) :
    ∃ q p, r.FindsList q p params := by
  unfold arrowParams? at h
  dsimp only at h
  obtain ⟨_, hg, h⟩ := Option.bind_eq_some_iff.1 h
  obtain ⟨y, hy, h⟩ := Option.bind_eq_some_iff.1 h
  obtain ⟨_, -, h⟩ := Option.bind_eq_some_iff.1 h
  cases h
  exact types_findsList rfl hg hy

/-- Looking ahead for a function finds its list of parameters, if that has parentheses. -/
theorem functionLiteral?_findsList {x : Bool × Params} (h : r.functionLiteral? fuel = some x)
    (hparens : x.2.hasParens = true) : ∃ q p, r.FindsList q p x.2 := by
  have hasync := afterAsync_leads r
  unfold functionLiteral? at h
  dsimp only at h
  generalize r.afterAsync = s at h hasync
  rcases ite_eq_some h with ⟨hf, h⟩ | ⟨-, h⟩
  · obtain ⟨params, hp, rfl⟩ := Option.map_eq_some_iff.1 h
    obtain ⟨q, p, hfinds⟩ := functionParams?_findsList hf hp
    exact ⟨q, p, hasync.finds hfinds⟩
  rcases ite_eq_some h with ⟨-, h⟩ | ⟨-, h⟩
  · obtain ⟨params, hp, rfl⟩ := Option.map_eq_some_iff.1 h
    rcases ite_eq_some hp with ⟨-, hp⟩ | ⟨-, hp⟩
    · cases hp
      cases hparens
    · cases hp
  rcases ite_eq_some h with ⟨-, h⟩ | ⟨-, h⟩
  · obtain ⟨params, hp, rfl⟩ := Option.map_eq_some_iff.1 h
    obtain ⟨q, p, hfinds⟩ := arrowParams?_findsList hp
    exact ⟨q, p, hasync.finds hfinds⟩
  · cases h

theorem functionLiteral?_of_argumentKind {arrow : Bool}
    (h : r.argumentKind fuel = .function arrow params) :
    r.functionLiteral? fuel = some (arrow, params) := by
  unfold argumentKind at h
  split at h
  · rename_i hf
    cases h
    exact hf
  · split_ifs at h
    · split at h
      · split_ifs at h
      · split_ifs at h
      · cases h

theorem step_iterate_after (h : r.Ready) (n : Nat) : r.After (step^[n] r) := by
  induction n with
  | zero => exact h.after
  | succ n ih =>
    rw [Function.iterate_succ_apply']
    exact ih.trans (step_after ih.ready)

theorem Passes.after (h : r.Passes s) (hr : r.Ready) : r.After s := by
  obtain ⟨passed, -, hsteps, -⟩ := (h false []).settles
  rw [hsteps]
  exact step_iterate_after hr _

/-- The reader behind some more tokens. -/
theorem step_iterate_append {α : Type} (r : Reader text) (front between : List α) (t : α) :
    step^[(front ++ t :: between).length] r =
      step^[between.length] (step^[front.length] r).step := by
  rw [List.length_append, List.length_cons, Nat.add_comm, Function.iterate_add_apply,
    Function.iterate_succ_apply]

/-- A walk that stops at the end of an argument, and a look ahead that stops at something else. The
walk goes on behind that, or it stops before it at a comma, which the look ahead has passed. -/
theorem Passes.meets (hs : r.Passes s) (hp : r.Passes p)
    (hend : s.atEnd = true ∨ s.endsArgument = true) (hne : s.current.kind ≠ p.current.kind) :
    (∃ n, s = step^[n] p.step) ∨ s.current.kind = .comma ∧ (∃ n, p = step^[n] s.step) ∧
      ∀ passed, r.tokens = passed ++ p.tokens → s.current ∈ passed := by
  obtain ⟨front, htokens, hsteps, hfront⟩ := (hs false []).settles
  obtain ⟨back, htokens', hsteps', hback⟩ := (hp false []).settles
  have hne : s.tokens ≠ p.tokens := fun heq => hne (congrArg Token.kind (List.cons.inj heq).1)
  have happ : front ++ s.tokens = back ++ p.tokens := htokens.symm.trans htokens'
  rcases List.append_eq_append_iff.1 happ with
    ⟨between, hbetween, hrest⟩ | ⟨between, hbetween, hrest⟩
  · cases between with
    | nil => exact absurd hrest hne
    | cons t between =>
      obtain ⟨rfl, hbehind⟩ := List.cons.inj hrest
      rw [hbetween, step_iterate_append, ← hsteps] at hsteps'
      refine .inr ⟨?_, ⟨between.length, hsteps'⟩, fun passed hpassed => ?_⟩
      · have hgoes : (s.current.kind :: between.map Token.kind).foldlM (Kind.settle false) [] =
            some [] := by
          rw [hbetween, List.map_append, List.foldlM_append, hfront] at hback
          exact hback
        rw [List.foldlM_cons] at hgoes
        obtain ⟨opened, hopened, -⟩ := Option.bind_eq_some_iff.1 hgoes
        rcases hend with hend | hend
        · rw [upcoming_of_atEnd hend] at hbehind
          exact absurd hbehind.symm (by simp [tokens])
        · rcases Bool.or_eq_true_iff.1 hend with hcomma | hclose
          · exact of_decide_eq_true hcomma
          · rw [of_decide_eq_true hclose] at hopened
            cases hopened
      · obtain rfl : back = passed := List.append_cancel_right (htokens'.symm.trans hpassed)
        simp [hbetween]
  · cases between with
    | nil => exact absurd hrest.symm hne
    | cons t between =>
      rw [hbetween, step_iterate_append, ← hsteps'] at hsteps
      exact .inl ⟨between.length, hsteps⟩

/-- No such walk stops before what names alone lead to. -/
theorem Leads.meets (hs : r.Passes s) (hq : r.Leads q)
    (hend : s.atEnd = true ∨ s.endsArgument = true) (hne : s.current.kind ≠ q.current.kind) :
    ∃ n, s = step^[n] q.step := by
  rcases hs.meets hq.passes hend hne with hbehind | ⟨hcomma, -, hpassed⟩
  · exact hbehind
  · obtain ⟨passed, htokens, hno⟩ := hq.tokens
    exact absurd hcomma (hno _ (hpassed passed htokens))

/-- The brace of a pattern stands right behind the parenthesis. -/
theorem OpensList.brace (h : p.OpensList params) (hfirst : params.first = .objectPattern) :
    p.step.current.kind = .openBrace ∧ params.patternBraceEnd = p.step.current.span.stop := by
  have hfirst : p.step.firstParam.1 = .objectPattern := h.first ▸ hfirst
  rw [h.patternBraceEnd]
  unfold firstParam at hfirst ⊢
  split at hfirst
  · cases hfirst
  · cases hfirst
  · rename_i hk
    simp [hk]
  · cases hfirst

theorem OpensList.patternBraceEnd_eq (h : p.OpensList params)
    (hfirst : params.first ≠ .objectPattern) : params.patternBraceEnd = 0 := by
  have hfirst : p.step.firstParam.1 ≠ .objectPattern := h.first ▸ hfirst
  rw [h.patternBraceEnd]
  unfold firstParam at hfirst ⊢
  split at hfirst
  · rfl
  · rfl
  · exact absurd rfl hfirst
  · rfl

/-- Behind the parenthesis the walk has passed the head of the list. -/
theorem OpensList.headEnd_le (h : p.OpensList params) (hr : p.Ready) (hs : text.Short) {n : Nat}
    (hend : (step^[n] p.step).atEnd = true ∨ (step^[n] p.step).endsArgument = true) :
    params.headEnd ≤ (step^[n] p.step).lastEnd := by
  have hover := step_over hr (by simp [h.paren])
  have hopen : params.openParenEnd ≤ (step^[n] p.step).lastEnd := by
    rw [h.openParenEnd, ← hover.lastEnd_eq]
    exact (step_iterate_after hover.ready n).lastEnd_le hs
  refine max_le hopen ?_
  by_cases hfirst : params.first = .objectPattern
  · obtain ⟨hk, hbrace⟩ := h.brace hfirst
    cases n with
    | zero => simp [atEnd, endsArgument, is, hk] at hend
    | succ n =>
      have hover' := step_over hover.ready (by simp [hk])
      rw [hbrace, ← hover'.lastEnd_eq, Function.iterate_succ_apply]
      exact (step_iterate_after hover'.ready n).lastEnd_le hs
  · rw [h.patternBraceEnd_eq hfirst]
    exact Nat.zero_le _

/-- Where a walk over an argument stops at a comma, what was found ahead of it is cut off. -/
theorem OpensList.cut (h : p.OpensList params) (hr : s.Ready) (hs : text.Short)
    (hcomma : s.current.kind = .comma) {n : Nat} (hp : p = step^[n] s.step) :
    s.lastEnd ≤ s.current.span.start ∧ s.current.span.start < params.openParenEnd ∧
      text.byteAt s.current.span.start = byte ',' := by
  have hover := step_over hr (by simp [hcomma])
  have hafter : s.step.After p := hp ▸ step_iterate_after hover.ready n
  have hstart := hafter.ready.lastEnd_lt_stop hs (by simp [h.paren])
  have hlast := hafter.lastEnd_le hs
  have hlt := (hr.placed hs).lt (by simp [hcomma])
  rw [hover.lastEnd_eq] at hlast
  refine ⟨hr.lastEnd_le hs, ?_, ((hr.placed hs).mark (congrArg Kind.mark? hcomma)).2⟩
  rw [h.openParenEnd]
  omega

/-- What ends an argument is no opening parenthesis and no `<`. -/
theorem kind_ne_of_end (hend : s.atEnd = true ∨ s.endsArgument = true) {kind : Kind}
    (hk : kind ≠ .eof ∧ kind ≠ .comma ∧ kind ≠ .closeParen) : s.current.kind ≠ kind := by
  rintro rfl
  simp [atEnd, endsArgument, is, hk] at hend

/-- A walk without elements passes the head of the list, or stops at a comma between the type
parameters. -/
theorem FindsList.inside (h : r.FindsList q p params) (hr : r.Ready) (hs : text.Short)
    (hpasses : r.Passes s) (hend : s.atEnd = true ∨ s.endsArgument = true) :
    params.headEnd ≤ s.lastEnd ∨ ∃ k n, r.current.span.start ≤ k ∧ k < s.lastEnd ∧
      text.byteAt k = byte '<' ∧ s.lastEnd ≤ n ∧ n < params.openParenEnd ∧
      text.byteAt n = byte ',' := by
  have hq := h.leads.passes.after hr
  have hp := (h.leads.passes.trans h.passes).after hr
  have hparen : s.current.kind ≠ p.current.kind := by
    rw [h.opens.paren]
    exact kind_ne_of_end hend (by decide)
  rcases hpasses.meets (h.leads.passes.trans h.passes) hend hparen with
    ⟨n, hn⟩ | ⟨hcomma, ⟨n, hn⟩, -⟩
  · subst hn
    exact .inl (h.opens.headEnd_le hp.ready hs hend)
  have hsready := (hpasses.after hr).ready
  rcases h.types with rfl | hless
  · obtain ⟨n, hn⟩ := h.leads.meets hpasses hend hparen
    subst hn
    exact .inl (h.opens.headEnd_le hp.ready hs hend)
  · obtain ⟨m, hm⟩ := h.leads.meets hpasses hend (hless ▸ kind_ne_of_end hend (by decide))
    have hover := step_over hq.ready (by simp [hless])
    have hlast : q.current.span.stop ≤ s.lastEnd := by
      rw [← hover.lastEnd_eq, hm]
      exact (step_iterate_after hover.ready m).lastEnd_le hs
    have hlt := (hq.ready.placed hs).lt (by simp [hless])
    refine .inr ⟨q.current.span.start, s.current.span.start, hq.start_le hs, hlt.trans_le hlast,
      ((hq.ready.placed hs).mark (congrArg Kind.mark? hless)).2, ?_⟩
    exact h.opens.cut hsready hs hcomma hn

/-- The parenthesis of a function stands inside the argument that a walk has passed, or the walk
has stopped at a comma before it, or it has come across an element. -/
theorem argumentKind_headed (hr : r.Ready) (hs : text.Short) {inner : Outline} {n : Nat}
    (hend : s.atEnd = true ∨ s.endsArgument = true)
    (hpasses : inner.elements = [] → r.Passes s)
    (hwithin : ∀ e ∈ inner.elements, r.current.span.start ≤ e.span.start ∧
      e.span.start < e.span.stop ∧ e.span.stop ≤ s.lastEnd) :
    Argument.Headed text inner.elements
      ⟨r.argumentKind n, ⟨r.current.span.start, s.lastEnd⟩⟩ := by
  intro arrow params hk hparens
  obtain ⟨q, p, hfinds⟩ :=
    functionLiteral?_findsList (functionLiteral?_of_argumentKind hk) hparens
  have hopens := hfinds.opens
  have hp := (hfinds.leads.passes.trans hfinds.passes).after hr
  obtain ⟨hstop, hbyte⟩ := (hp.ready.placed hs).mark (congrArg Kind.mark? hopens.paren)
  have hover := step_over hp.ready (by simp [hopens.paren])
  refine ⟨?_, ?_, fun hfirst => ?_, ?_⟩
  · have hstart := hp.start_le hs
    rw [hopens.openParenEnd]
    dsimp only
    omega
  · rw [hopens.openParenEnd, hstop, Nat.add_sub_cancel]
    exact hbyte
  · obtain ⟨hbrace, hend⟩ := hopens.brace hfirst
    obtain ⟨hstop', hbyte'⟩ := (hover.ready.placed hs).mark (congrArg Kind.mark? hbrace)
    have hlast := hover.ready.lastEnd_lt_stop hs (by simp [hbrace])
    rw [hopens.openParenEnd, ← hover.lastEnd_eq, hend]
    refine ⟨hlast, ?_⟩
    rw [hstop', Nat.add_sub_cancel]
    exact hbyte'
  · cases helements : inner.elements with
    | nil => exact (hfinds.inside hr hs (hpasses helements) hend).imp_right .inl
    | cons e rest =>
      obtain ⟨hlo, hlt, hhi⟩ := hwithin e (helements ▸ List.mem_cons_self)
      rcases Nat.lt_or_ge e.span.start params.headEnd with hbefore | hbehind
      · exact .inr (.inr ⟨e, List.mem_cons_self, hlo, hbefore, hhi⟩)
      · exact .inl (hbehind.trans (hlt.le.trans hhi))

end JsxPresence.Reader
