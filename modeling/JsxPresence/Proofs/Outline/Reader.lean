import JsxPresence.Outline.Reader
import JsxPresence.Proofs.Token.Place

namespace JsxPresence

/-- Whatever the computation yields satisfies `P`. -/
def Yields {ε α : Type} (x : Except ε α) (P : α → Prop) : Prop := ∀ a, x = .ok a → P a

namespace Yields

variable {ε α β : Type} {P Q : α → Prop}

theorem ok {a : α} (h : P a) : Yields (.ok a : Except ε α) P := by
  rintro b ⟨⟩
  exact h

theorem pure {a : α} (h : P a) : Yields (Pure.pure a : Except ε α) P := ok h

theorem error (e : ε) : Yields (.error e : Except ε α) P := by
  rintro b ⟨⟩

theorem throw (e : ε) : Yields (MonadExcept.throw e : Except ε α) P := error e

theorem mono {x : Except ε α} (h : Yields x P) (hi : ∀ a, P a → Q a) : Yields x Q :=
  fun a ha => hi a (h a ha)

theorem bind {x : Except ε α} {f : α → Except ε β} {R : β → Prop} (hx : Yields x P)
    (hf : ∀ a, P a → Yields (f a) R) : Yields (x >>= f) R := by
  intro b hb
  cases hx' : x with
  | error e =>
    rw [hx'] at hb
    cases hb
  | ok a =>
    rw [hx'] at hb
    exact hf a (hx a hx') b hb

theorem throw_bind (e : ε) (f : β → Except ε α) :
    Yields ((MonadExcept.throw e : Except ε β) >>= f) P := by
  rintro b ⟨⟩

theorem ite {p : Prop} [Decidable p] {x y : Except ε α} (hx : p → Yields x P)
    (hy : ¬p → Yields y P) : Yields (if p then x else y) P :=
  of_ite (P := fun z => Yields z P) hx hy

end Yields

namespace Reader

variable {text : Bytes} {r s t : Reader text}

/-- The token at hand is the one that the lexer read last; it is where it says it is, behind all
that was passed and right before the lexer. -/
structure Ready (r : Reader text) : Prop where
  read : ∃ lx : Lexer text, lx.next = (r.current, r.lexer)
  clean : r.current.Clean
  placed : text.Short → r.current.Placed text
  pos_eq : text.Short → r.lexer.pos = r.current.span.stop
  lastEnd_le : text.Short → r.lastEnd ≤ r.current.span.start

/-- The second reader stands well, at or behind the first. -/
structure After (r s : Reader text) : Prop where
  ready : s.Ready
  lastEnd_le : text.Short → r.lastEnd ≤ s.lastEnd
  start_le : text.Short → r.current.span.start ≤ s.current.span.start

theorem Ready.after (h : r.Ready) : r.After r := ⟨h, fun _ => le_refl _, fun _ => le_refl _⟩

theorem After.trans (h : r.After s) (k : s.After t) : r.After t :=
  ⟨k.ready, fun hs => (h.lastEnd_le hs).trans (k.lastEnd_le hs),
    fun hs => (h.start_le hs).trans (k.start_le hs)⟩

/-- The second reader has just passed the token at hand of the first. -/
structure Over (r s : Reader text) : Prop extends After r s where
  lastEnd_eq : s.lastEnd = r.current.span.stop
  previous_eq : s.previous = some r.current

/-- What stands before the reader comes before what stands at it. -/
theorem Ready.lastEnd_lt_stop (h : r.Ready) (hs : text.Short) (he : r.current.kind ≠ .eof) :
    r.lastEnd < r.current.span.stop :=
  (h.lastEnd_le hs).trans_lt ((h.placed hs).lt he)

/-- A reader that goes on from where a lexer stands. -/
theorem ready_next {lx : Lexer text} {previous : Option Token} {lastEnd : Nat}
    (h : text.Short → lastEnd ≤ lx.pos ∧ lx.pos ≤ text.length) :
    Ready ⟨lx.next.2, lx.next.1, previous, lastEnd⟩ where
  read := ⟨lx, rfl⟩
  clean := lx.next_clean
  placed hs := (Lexer.next_placed hs (h hs).2).1
  pos_eq hs := (Lexer.next_placed hs (h hs).2).2.2
  lastEnd_le hs := (h hs).1.trans (Lexer.next_placed hs (h hs).2).2.1

theorem start_ready (text : Bytes) : (start text).Ready := by
  refine ready_next fun _ => ⟨Nat.zero_le _, ?_⟩
  show Lexer.startOffset text ≤ text.length
  have hm : (if [0xef, 0xbb, 0xbf].isPrefixOf text then 3 else 0) ≤ text.length := by
    refine of_ite (P := (· ≤ text.length)) (fun hp => ?_) fun _ => Nat.zero_le _
    exact (List.isPrefixOf_iff_prefix.1 hp).length_le
  unfold Lexer.startOffset
  dsimp only
  exact of_ite (P := (· ≤ text.length)) (fun _ => Bytes.run_drop_le _ _ hm) fun _ => hm

theorem step_over (h : r.Ready) (he : r.current.kind ≠ .eof) : r.Over r.step := by
  have hn : r.atEnd = false := decide_eq_false he
  have hstep : r.step = ⟨r.lexer.next.2, r.lexer.next.1, some r.current, r.current.span.stop⟩ := by
    simp [step, hn]
  have hle (hs : text.Short) : r.current.span.stop ≤ r.lexer.pos ∧ r.lexer.pos ≤ text.length := by
    have := h.pos_eq hs
    have := (h.placed hs).le_length
    omega
  rw [hstep]
  refine ⟨⟨ready_next hle, fun hs => ?_, fun hs => ?_⟩, rfl, rfl⟩
  · exact (h.lastEnd_lt_stop hs he).le
  · have hn := (Lexer.next_placed hs (hle hs).2).2.1
    have := (h.placed hs).le
    exact this.trans ((hle hs).1.trans hn)

theorem step_after (h : r.Ready) : r.After r.step := by
  by_cases he : r.current.kind = .eof
  · have hn : r.atEnd = true := decide_eq_true he
    simp only [step, hn, if_true]
    exact h.after
  · exact (step_over h he).toAfter

theorem checked_yields (r : Reader text) : Yields r.checked (· = r) := by
  intro s hs
  unfold checked at hs
  split_ifs at hs
  · split at hs <;> cases hs
  · cases hs
    rfl

theorem advance_yields (r : Reader text) : Yields r.advance (· = r.step) := r.step.checked_yields

theorem advance_after (h : r.Ready) : Yields r.advance r.After :=
  r.advance_yields.mono fun _ hs => hs ▸ step_after h

theorem advance_over (h : r.Ready) (he : r.current.kind ≠ .eof) : Yields r.advance r.Over :=
  r.advance_yields.mono fun _ hs => hs ▸ step_over h he

theorem passOver_after (h : r.Ready) (kind : Kind) : Yields (r.passOver kind) r.After :=
  .ite (fun _ => advance_after h) fun _ => .ok h.after

theorem skipClosers_after (h : r.Ready) (closers : List Kind) (fuel : Nat) :
    r.After (r.skipClosers closers fuel).reader := by
  fun_induction Reader.skipClosers r closers fuel
  case case1 | case3 | case6 | case7 => exact h.after
  case case4 | case8 => exact step_after h
  all_goals rename_i ih; exact (step_after h).trans (ih (step_after h).ready)

theorem skipAngles_after (h : r.Ready) (depth : Int) (fuel : Nat) :
    r.After (r.skipAngles depth fuel).reader := by
  fun_induction Reader.skipAngles r depth fuel
  case case1 | case8 | case9 => exact h.after
  case case3 => exact step_after h
  case case5 r _ fuel _ _ _ _ _ _ ih =>
    have hg := skipClosers_after h [] fuel
    exact hg.trans (ih hg.ready)
  case case6 => exact skipClosers_after h [] _
  all_goals rename_i ih; exact (step_after h).trans (ih (step_after h).ready)

theorem passGroup_after (h : r.Ready) (fuel : Nat) (unbalanced : Reader text → SyntaxError) :
    Yields (r.passGroup fuel unbalanced) r.After := by
  have hg := skipClosers_after h [] fuel
  refine (checked_yields _).bind fun s hs => ?_
  rw [hs]
  exact .ite (fun _ => .pure hg) fun _ => .throw _

/-- The names of a dotted path stand on one line each. -/
theorem dottedTail_clean (h : r.Ready) (fuel : Nat) :
    ∀ path, (r.dottedTail fuel).1 = some path → ∀ name ∈ path, byte '\n' ∉ name := by
  fun_induction Reader.dottedTail r fuel with
  | case1 => simp
  | case2 r fuel _ after hname path last hrest ih =>
    have ha := step_after h
    have hp := ih (step_after ha.ready).ready
    rw [hrest] at hp
    intro path' hpath name hmem
    obtain ⟨inner, hinner, rfl⟩ := Option.map_eq_some_iff.1 hpath
    rcases List.mem_cons.1 hmem with rfl | hmem
    · exact ha.ready.clean hname
    · exact hp inner hinner name hmem
  | case3 => simp
  | case4 => simp

theorem dottedPath_clean (h : r.Ready) (hi : r.is .identifier = true) (fuel : Nat) :
    ∀ path, (r.dottedPath fuel).1 = some path → ∀ name ∈ path, byte '\n' ∉ name := by
  intro path hpath name hmem
  obtain ⟨inner, hinner, rfl⟩ := Option.map_eq_some_iff.1 hpath
  rcases List.mem_cons.1 hmem with rfl | hmem
  · exact h.clean (by simp [Token.isName, of_decide_eq_true hi])
  · exact dottedTail_clean (step_after h).ready fuel inner hinner name hmem

theorem dottedTail_after (h : r.Ready) (fuel : Nat) : r.After (r.dottedTail fuel).2 := by
  fun_induction Reader.dottedTail r fuel with
  | case1 => exact h.after
  | case2 r fuel _ after hname path last hrest ih =>
    have ha := step_after h
    have hb := step_after ha.ready
    have hl := ih hb.ready
    rw [hrest] at hl
    exact ha.trans (hb.trans hl)
  | case3 => exact step_after h
  | case4 => exact h.after

theorem dottedPath_after (h : r.Ready) (fuel : Nat) : r.After (r.dottedPath fuel).2 :=
  (step_after h).trans (dottedTail_after (step_after h).ready fuel)

end Reader

end JsxPresence
