import JsxPresence.Proofs.Outline.Reader
import JsxPresence.Proofs.Token.Substitution

namespace JsxPresence

namespace Lexer

variable {text : Bytes} {lx : Lexer text}

/-- The depths behind a brace that opens: it counts in the substitution that it stands in. -/
def Scan.counted : List Nat → List Nat
  | [] => []
  | depth :: outer => (depth + 1) :: outer

theorem Scan.token_openBrace (regexAllowed : Bool) (depths : List Nat) (r : Bytes) :
    token regexAllowed depths openBrace r = plain (counted depths) .openBrace 1 := by
  have hscan : Punctuator.scan? (openBrace :: r) = some (.openBrace, 1) := rfl
  change punctuator depths openBrace r = _
  unfold punctuator
  rw [hscan]
  cases depths <;> rfl

theorem ahead_of_openBrace {r : Bytes} (h : lx.rest = openBrace :: r) : lx.ahead.pos = lx.pos := by
  have hscan : (Trivia.scan (openBrace :: r)).length = 0 := by cases r <;> rfl
  change lx.pos + (Trivia.scan lx.rest).length = lx.pos
  rw [h, hscan, Nat.add_zero]

theorem rest_of_next_openBrace (h : lx.next.1.kind = .openBrace) :
    ∃ r, lx.ahead.rest = openBrace :: r := by
  cases hr : lx.ahead.rest with
  | nil =>
    rw [next_of_rest_nil hr] at h
    cases h
  | cons b r =>
    rw [next_eq_of_rest_cons hr] at h
    obtain ⟨rfl, -⟩ := (Scan.fits_token lx.regexAllowed lx.depths b r).mark (congrArg Kind.mark? h)
    exact ⟨r, rfl⟩

/-- A brace that opens is one token, and an expression may start behind it. -/
theorem next_openBrace {r : Bytes} (h : lx.ahead.rest = openBrace :: r) :
    lx.next.1.kind = .openBrace ∧
      lx.next.1.span = Span.ofOffsets lx.ahead.pos (lx.ahead.pos + 1) ∧
      lx.next.2.pos = lx.ahead.pos + 1 ∧ lx.next.2.regexAllowed = true ∧
      lx.next.2.depths = Scan.counted lx.depths := by
  rw [next_eq_of_rest_cons h, Scan.token_openBrace]
  exact ⟨rfl, rfl, rfl, rfl, rfl⟩

end Lexer

namespace Reader

variable {text : Bytes} {q r : Reader text} {n fuel : Nat}

/-- The second reader stands where the first does, maybe in a substitution that the first does not
know of; then at least so many braces are open in it behind the token at hand. -/
structure Beneath (n : Nat) (q r : Reader text) : Prop where
  kind : r.current.kind = q.current.kind
  span : r.current.span = q.current.span
  lexer : Lexer.Beneath n q.lexer r.lexer

theorem Beneath.step (h : Beneath n q r) (hn : 1 ≤ n) (he : q.current.kind ≠ .eof) :
    ∀ m, m + q.step.current.kind.closed ≤ n + q.step.current.kind.opened →
      Beneath m q.step r.step := by
  have hq : q.atEnd = false := decide_eq_false he
  have hr : r.atEnd = false := decide_eq_false (by rwa [h.kind])
  have hstep {s : Reader text} (hs : s.atEnd = false) :
      s.step = ⟨s.lexer.next.2, s.lexer.next.1, some s.current, s.current.span.stop⟩ := by
    simp [Reader.step, hs]
  obtain ⟨hkind, hspan, hlexer⟩ := h.lexer.next hn
  rw [hstep hq, hstep hr]
  exact fun m hm => ⟨hkind, hspan, hlexer m hm⟩

theorem step_lastEnd (he : r.current.kind ≠ .eof) : r.step.lastEnd = r.current.span.stop := by
  have hr : r.atEnd = false := decide_eq_false he
  simp [step, hr]

/-- The braces that the closers still demand. -/
def demanded (closers : List Kind) : Nat := closers.count .closeBrace

theorem demanded_pos {closers : List Kind} (h : closers.getLast? = some .closeBrace) :
    1 ≤ demanded closers :=
  List.count_pos_iff.2 (List.mem_of_getLast? h)

theorem demanded_closer {kind : Kind} (h : kind.isOpener = true) (closers : List Kind) :
    demanded (kind.closer :: closers) = demanded closers + kind.opened - kind.closed := by
  cases kind <;> simp_all [demanded, Kind.isOpener, Kind.closer, Kind.opened, Kind.closed]

theorem demanded_of_closer {kind : Kind} (h : kind.isCloser = true) (closers : List Kind) :
    demanded closers = demanded (kind :: closers) + kind.opened - kind.closed := by
  cases kind <;> simp_all [demanded, Kind.isCloser, Kind.opened, Kind.closed]

theorem demanded_of_other {kind : Kind} (ho : kind.isOpener = false) (hc : kind.isCloser = false)
    (closers : List Kind) :
    demanded closers = demanded closers + kind.opened - kind.closed := by
  cases kind <;> simp_all [Kind.isOpener, Kind.isCloser, Kind.opened, Kind.closed]

/-- From the closers that are demanded behind the token at hand to those at the next one. -/
theorem Beneath.next {closers : List Kind} (h : Beneath (demanded closers) q r)
    (hlast : closers.getLast? = some .closeBrace) (he : q.current.kind ≠ .eof) :
    Beneath (demanded closers + q.step.current.kind.opened - q.step.current.kind.closed) q.step
      r.step := by
  have hpos := demanded_pos hlast
  have hclosed : q.step.current.kind.closed ≤ 1 := by
    unfold Kind.closed
    split <;> omega
  exact h.step hpos he _ (by omega)

/-- Where a group is skipped inside of a substitution, it is skipped alike outside of it. The last
of the closers is a brace, so that one is open until the end. -/
theorem Beneath.skipClosers {closers : List Kind} (hlast : closers.getLast? = some .closeBrace)
    (h : Beneath (demanded closers + q.current.kind.opened - q.current.kind.closed) q r)
    (hdone : (r.skipClosers closers fuel).done = true) :
    (q.skipClosers closers fuel).done = true ∧
      (q.skipClosers closers fuel).reader.lastEnd =
        (r.skipClosers closers fuel).reader.lastEnd := by
  induction fuel generalizing q r closers with
  | zero => cases hdone
  | succ fuel ih =>
    have hkind := h.kind
    have hspan := h.span
    unfold Reader.skipClosers at hdone ⊢
    dsimp only at hdone ⊢
    rw [hkind] at hdone ⊢
    by_cases ho : q.current.kind.isOpener = true
    · rw [if_pos ho] at hdone
      rw [if_pos ho, if_pos ho]
      rw [← demanded_closer ho closers] at h
      have hlast' : (q.current.kind.closer :: closers).getLast? = some .closeBrace := by
        rw [List.getLast?_cons, hlast]
        rfl
      exact ih hlast' (h.next hlast' fun he => by rw [he] at ho; cases ho) hdone
    rw [if_neg ho] at hdone
    rw [if_neg ho, if_neg ho]
    by_cases hc : q.current.kind.isCloser = true
    · have he : q.current.kind ≠ .eof := fun he => by rw [he] at hc; cases hc
      rw [if_pos hc] at hdone
      rw [if_pos hc, if_pos hc]
      cases closers with
      | nil => cases hlast
      | cons c outer =>
        dsimp only at hdone ⊢
        by_cases hck : c = q.current.kind
        · rw [if_pos hck] at hdone
          rw [if_pos hck, if_pos hck]
          cases outer with
          | nil =>
            refine ⟨rfl, ?_⟩
            rw [step_lastEnd he, step_lastEnd (by rwa [hkind]), hspan]
          | cons o outer =>
            have hlast' : (o :: outer).getLast? = some .closeBrace := by
              rwa [List.getLast?_cons_cons] at hlast
            rw [hck, ← demanded_of_closer hc (o :: outer)] at h
            exact ih hlast' (h.next hlast' he) hdone
        · rw [if_neg hck] at hdone
          cases hdone
    rw [if_neg hc] at hdone
    rw [if_neg hc, if_neg hc]
    by_cases hend : (decide (q.current.kind = .eof) || decide (q.current.kind = .error)) = true
    · rw [if_pos hend] at hdone
      cases hdone
    rw [if_neg hend] at hdone
    rw [if_neg hend, if_neg hend]
    have he : q.current.kind ≠ .eof := fun he => hend (by simp [he])
    cases closers with
    | nil => cases hlast
    | cons c outer =>
      rw [← demanded_of_other (by simpa using ho) (by simpa using hc) (c :: outer)] at h
      exact ih hlast (h.next hlast he) hdone

/-- A reader that starts at an offset, outside of substitutions. -/
def startingAt (text : Bytes) (offset : Nat) : Reader text :=
  let (t, lexer) := ((Lexer.start text).reset offset true).next
  ⟨lexer, t, none, offset⟩

/-- The bytes at the two offsets are braces that belong together: read on its own, the group that
opens with the first closes with the second. -/
def Encloses (text : Bytes) (opening closing : Nat) : Prop :=
  (startingAt text opening).current.kind = .openBrace ∧
    (startingAt text opening).current.span.start = opening ∧
    ∃ fuel, ((startingAt text opening).skipGroup fuel).done = true ∧
      ((startingAt text opening).skipGroup fuel).reader.lastEnd = closing + 1

theorem startingAt_ready {offset : Nat} (h : offset ≤ text.length) :
    (startingAt text offset).Ready :=
  ready_next fun _ => by rw [Lexer.reset_pos]; exact ⟨le_refl _, h⟩

/-- A reader that starts at a brace has it at hand. -/
theorem startingAt_openBrace {offset : Nat} {rest : Bytes}
    (h : text.drop offset = openBrace :: rest) :
    (startingAt text offset).current.kind = .openBrace ∧
      (startingAt text offset).current.span = Span.ofOffsets offset (offset + 1) ∧
      (startingAt text offset).lexer.pos = offset + 1 ∧
      (startingAt text offset).lexer.regexAllowed = true ∧
      (startingAt text offset).lexer.depths = [] := by
  have hpos := Lexer.reset_pos (Lexer.start text) offset true
  have hrest : ((Lexer.start text).reset offset true).rest = openBrace :: rest := by
    rw [Lexer.rest_eq, hpos, h]
  have hahead := (Lexer.ahead_of_openBrace hrest).trans hpos
  have hrestAhead : ((Lexer.start text).reset offset true).ahead.rest = openBrace :: rest := by
    rw [Lexer.rest_eq, hahead, h]
  have hnext := Lexer.next_openBrace hrestAhead
  rwa [hahead] at hnext

/-- A reader at a brace stands where one does that starts there. -/
theorem startingAt_beneath (hs : text.Short) (h : r.Ready) (hk : r.current.kind = .openBrace) :
    Beneath 1 (startingAt text r.current.span.start) r := by
  obtain ⟨lx, hlx⟩ := h.read
  have hcurrent : lx.next.1 = r.current := congrArg Prod.fst hlx
  have hlexer : lx.next.2 = r.lexer := congrArg Prod.snd hlx
  obtain ⟨rest, hrest⟩ := Lexer.rest_of_next_openBrace (hcurrent ▸ hk)
  obtain ⟨-, hspan, hpos, hallowed, hdepths⟩ := Lexer.next_openBrace hrest
  rw [hcurrent] at hspan
  rw [hlexer] at hpos hallowed hdepths
  have hstart : r.current.span.start = lx.ahead.pos := by
    have hend := h.pos_eq hs
    have hmark := ((h.placed hs).mark (congrArg Kind.mark? hk)).1
    omega
  rw [Lexer.rest_eq] at hrest
  obtain ⟨hkind', hspan', hpos', hallowed', hdepths'⟩ := startingAt_openBrace hrest
  rw [hstart]
  refine ⟨hk.trans hkind'.symm, hspan.trans hspan'.symm, ?_, hallowed.trans hallowed'.symm, ?_⟩
  · exact Cursor.ext_pos (hpos.trans hpos'.symm)
  · rw [hdepths, hdepths']
    cases lx.depths with
    | nil => exact .inl rfl
    | cons depth outer => exact .inr ⟨depth + 1, outer, rfl, by omega⟩

/-- A group that is skipped ends with the last of its closers. -/
theorem skipClosers_last {kind : Kind} {closers : List Kind} (hlast : closers.getLast? = some kind)
    (h : r.Ready) (hdone : (r.skipClosers closers fuel).done = true) :
    ∃ s : Reader text, r.After s ∧ s.current.kind = kind ∧
      (r.skipClosers closers fuel).reader = s.step := by
  have step {s : Reader text} {closers : List Kind} {fuel : Nat} (hs : s.Ready)
      (h : ∃ t : Reader text, s.step.After t ∧ t.current.kind = kind ∧
        (s.step.skipClosers closers fuel).reader = t.step) :
      ∃ t : Reader text, s.After t ∧ t.current.kind = kind ∧
        (s.step.skipClosers closers fuel).reader = t.step := by
    obtain ⟨t, ht, hkind, hreader⟩ := h
    exact ⟨t, (step_after hs).trans ht, hkind, hreader⟩
  fun_induction Reader.skipClosers r closers fuel with
  | case1 | case3 | case6 | case7 => cases hdone
  | case2 r closers fuel k ho ih =>
    refine step h (ih ?_ (step_after h).ready hdone)
    rw [List.getLast?_cons, hlast]
    rfl
  | case4 =>
    cases hlast
    exact ⟨_, h.after, rfl, rfl⟩
  | case5 _ _ _ _ _ _ _ ih =>
    refine step h (ih ?_ (step_after h).ready hdone)
    rwa [List.getLast?_cons_cons] at hlast
  | case8 => cases hlast
  | case9 _ _ _ _ _ _ _ _ ih => exact step h (ih hlast (step_after h).ready hdone)

theorem skipGroup_succ_of_openBrace (hk : r.current.kind = .openBrace) (fuel : Nat) :
    r.skipGroup (fuel + 1) = r.step.skipClosers [.closeBrace] fuel := by
  simp [skipGroup, skipClosers, hk, Kind.isOpener, Kind.closer]

/-- A group of braces that is skipped ends with a brace behind the one that opens it. -/
theorem skipGroup_openBrace_last (h : r.Ready) (hk : r.current.kind = .openBrace)
    (hdone : (r.skipGroup fuel).done = true) :
    ∃ s : Reader text, r.step.After s ∧ s.current.kind = .closeBrace ∧
      (r.skipGroup fuel).reader.lastEnd = s.current.span.stop := by
  cases fuel with
  | zero => cases hdone
  | succ fuel =>
    rw [skipGroup_succ_of_openBrace hk] at hdone ⊢
    have hlast : [Kind.closeBrace].getLast? = some .closeBrace := rfl
    obtain ⟨s, hs, hkind, hreader⟩ := skipClosers_last hlast (step_after h).ready hdone
    refine ⟨s, hs, hkind, ?_⟩
    rw [hreader, step_lastEnd (by simp [hkind])]

/-- The group of braces that a reader skips encloses what it passes. -/
theorem encloses_of_skipGroup (hs : text.Short) (h : r.Ready) (hk : r.current.kind = .openBrace)
    (hdone : (r.skipGroup fuel).done = true) :
    ∃ closing, Encloses text r.current.span.start closing := by
  have hbeneath : Beneath (demanded [.closeBrace]) (startingAt text r.current.span.start) r :=
    startingAt_beneath hs h hk
  have hkind : (startingAt text r.current.span.start).current.kind = .openBrace :=
    hbeneath.kind.symm.trans hk
  have hspan := hbeneath.span
  obtain ⟨s, hafter, hclose, hend⟩ := skipGroup_openBrace_last h hk hdone
  have hmark := ((hafter.ready.placed hs).mark (congrArg Kind.mark? hclose)).1
  refine ⟨s.current.span.start, hkind, by rw [← hspan], fuel, ?_⟩
  rw [← hmark, ← hend]
  cases fuel with
  | zero => cases hdone
  | succ fuel =>
    rw [skipGroup_succ_of_openBrace hk] at hdone ⊢
    rw [skipGroup_succ_of_openBrace hkind]
    have hlast : [Kind.closeBrace].getLast? = some .closeBrace := rfl
    have hnext := hbeneath.next hlast (by simp [hkind])
    exact hnext.skipClosers hlast hdone

/-- Where the braces stand. -/
theorem Encloses.placed {opening closing : Nat} (hs : text.Short)
    (h : Encloses text opening closing) :
    opening < closing ∧ closing < text.length ∧ text.byteAt opening = openBrace ∧
      text.byteAt closing = closeBrace := by
  obtain ⟨hkind, hstart, fuel, hdone, hend⟩ := h
  have hle : opening ≤ text.length := by
    obtain ⟨rest, hrest⟩ := Lexer.rest_of_next_openBrace hkind
    have hlt := Lexer.lt_length_of_rest (by rw [hrest]; rfl)
    have hahead := ((Lexer.start text).reset opening true).le_ahead
    rw [Lexer.reset_pos] at hahead
    exact (hahead.trans_lt hlt).le
  have hready := startingAt_ready hle
  obtain ⟨hstop, hopen⟩ := (hready.placed hs).mark (congrArg Kind.mark? hkind)
  obtain ⟨s, hafter, hclose, hlast⟩ := skipGroup_openBrace_last hready hkind hdone
  have hplaced := hafter.ready.placed hs
  obtain ⟨hstop', hbyte⟩ := hplaced.mark (congrArg Kind.mark? hclose)
  have hover := step_over hready (by simp [hkind])
  have hbehind := (hover.ready.lastEnd_le hs).trans (hafter.start_le hs)
  rw [hover.lastEnd_eq] at hbehind
  have hclosing : s.current.span.start = closing := by omega
  have hlength := hplaced.le_length
  rw [hstart] at hopen
  rw [hclosing] at hbyte
  exact ⟨by omega, by omega, hopen, hbyte⟩

end Reader

end JsxPresence
