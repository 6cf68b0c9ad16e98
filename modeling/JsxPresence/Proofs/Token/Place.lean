import JsxPresence.Proofs.Token.Extent

namespace JsxPresence

/-- The offsets of the text are small enough to be recorded as they are. -/
def Bytes.Short (text : Bytes) : Prop := text.length < offsetLimit

theorem Bytes.byteAt_of_drop {text : Bytes} {p : Nat} {b : UInt8} {r : Bytes}
    (h : text.drop p = b :: r) : text.byteAt p = b := by
  have hg : (text.drop p)[0]? = some b := by rw [h]; rfl
  rw [List.getElem?_drop, Nat.add_zero] at hg
  simp [byteAt, List.getD, hg]

theorem Bytes.lt_length_of_drop {text : Bytes} {p : Nat} {b : UInt8} {r : Bytes}
    (h : text.drop p = b :: r) : p < text.length := by
  by_contra hp
  rw [List.drop_eq_nil_of_le (Nat.le_of_not_lt hp)] at h
  cases h

namespace Token

/-- The token stands inside the text, on the byte of its kind if that has one; only the end token
is empty. -/
structure Placed (text : Bytes) (t : Token) : Prop where
  le : t.span.start ≤ t.span.stop
  lt : t.kind ≠ .eof → t.span.start < t.span.stop
  le_length : t.span.stop ≤ text.length
  lexeme : t.lexeme = text.slice t.span.start t.span.stop
  mark {c : UInt8} : t.kind.mark? = some c →
    t.span.stop = t.span.start + 1 ∧ text.byteAt t.span.start = c

/-- The name of a token stands on one line. -/
def Clean (t : Token) : Prop := t.isName = true → byte '\n' ∉ t.lexeme

end Token

namespace Lexer

variable {text : Bytes}

theorem rest_eq (lx : Lexer text) : lx.rest = text.drop lx.pos := lx.cursor.rest_eq

theorem rest_length (lx : Lexer text) : lx.rest.length = text.length - lx.pos := by
  rw [rest_eq, List.length_drop]

theorem lt_length_of_rest {lx : Lexer text} (h : lx.rest.isEmpty = false) :
    lx.pos < text.length := by
  have hl := lx.rest_length
  cases hr : lx.rest with
  | nil => simp [hr] at h
  | cons b r =>
    rw [hr] at hl
    simp only [List.length_cons] at hl
    omega

theorem byteAt_pos (lx : Lexer text) (n : Nat) : lx.peek n = text.byteAt (lx.pos + n) := by
  simp [peek, rest_eq, Bytes.byteAt, List.getD, List.getElem?_drop]

theorem lt_length_of_peek {lx : Lexer text} {n : Nat} {b : UInt8} (h : lx.peek n = b)
    (hb : b ≠ 0) : lx.pos + n < text.length := by
  rw [byteAt_pos] at h
  exact Bytes.lt_length_of_byteAt_eq h hb

@[simp]
theorem reset_pos (lx : Lexer text) (p : Nat) (regexAllowed : Bool) :
    (lx.reset p regexAllowed).pos = p := by
  simp [reset, pos, Cursor.seek_eq, Cursor.ofPos]

@[simp]
theorem skipByte_pos (lx : Lexer text) : lx.skipByte.pos = lx.pos + 1 := rfl

theorem skipTrivia_pos (lx : Lexer text) :
    lx.skipTrivia.pos = lx.pos + (Trivia.scan lx.rest).length := rfl

theorem le_skipTrivia (lx : Lexer text) : lx.pos ≤ lx.skipTrivia.pos := Nat.le_add_right _ _

theorem skipTrivia_le {lx : Lexer text} (h : lx.pos ≤ text.length) :
    lx.skipTrivia.pos ≤ text.length := by
  have ht := Trivia.scan_length_le lx.rest
  rw [rest_length] at ht
  rw [skipTrivia_pos]
  omega

theorem emit_pos (lx : Lexer text) (s : Scan) : (lx.emit s).2.pos = lx.pos + s.length := rfl

theorem emit_span (hs : text.Short) {lx : Lexer text} {s : Scan}
    (h : lx.pos + s.length ≤ text.length) :
    (lx.emit s).1.span = ⟨lx.pos, lx.pos + s.length⟩ := by
  unfold Bytes.Short at hs
  exact Span.ofOffsets_eq (by omega) (by omega)

theorem emit_lexeme (lx : Lexer text) (s : Scan) :
    (lx.emit s).1.lexeme = text.slice lx.pos (lx.pos + s.length) := by
  simp [emit, Bytes.slice, rest_eq]

/-- A token that fits where it is scanned is placed there. -/
theorem emit_placed (hs : text.Short) {lx : Lexer text} {s : Scan} {b : UInt8} {r : Bytes}
    (hr : lx.rest = b :: r) (hf : s.Fits b r) :
    (lx.emit s).1.Placed text ∧ (lx.emit s).1.span.start = lx.pos ∧
      (lx.emit s).1.span.stop = lx.pos + s.length := by
  have hd : text.drop lx.pos = b :: r := by rw [← rest_eq, hr]
  have hl : lx.pos + s.length ≤ text.length := by
    have h := hf.le
    rw [← hr, rest_length] at h
    have := Bytes.lt_length_of_drop hd
    omega
  have hsp := emit_span hs hl
  refine ⟨⟨?_, ?_, ?_, ?_, fun {c} hc => ?_⟩, ?_, ?_⟩
  · rw [hsp]
    exact Nat.le_add_right _ _
  · have hp := hf.pos
    rw [hsp]
    intro _
    show lx.pos < lx.pos + s.length
    omega
  · rw [hsp]
    exact hl
  · rw [hsp]
    exact emit_lexeme lx s
  · obtain ⟨hb, h1⟩ := hf.mark hc
    rw [hsp, h1]
    exact ⟨rfl, hb ▸ Bytes.byteAt_of_drop hd⟩
  · rw [hsp]
  · rw [hsp]

/-- The lexer right before its next token. -/
def ahead (lx : Lexer text) : Lexer text := { lx with newlinePending := false }.skipTrivia

theorem le_ahead (lx : Lexer text) : lx.pos ≤ lx.ahead.pos := Nat.le_add_right _ _

theorem ahead_le {lx : Lexer text} (h : lx.pos ≤ text.length) : lx.ahead.pos ≤ text.length :=
  @skipTrivia_le text { lx with newlinePending := false } h

theorem next_of_rest_nil {lx : Lexer text} (h : lx.ahead.rest = []) :
    lx.next = lx.ahead.emit (Scan.plain lx.ahead.depths .eof 0) := by
  unfold ahead at h
  simp only [next, h]
  rfl

theorem next_of_rest_cons {lx : Lexer text} {b : UInt8} {r : Bytes} (h : lx.ahead.rest = b :: r) :
    lx.next.1 = (lx.ahead.emit (Scan.token lx.ahead.regexAllowed lx.ahead.depths b r)).1 ∧
      lx.next.2.pos =
        lx.ahead.pos + (Scan.token lx.ahead.regexAllowed lx.ahead.depths b r).length := by
  unfold ahead at h
  simp only [next, h]
  exact ⟨rfl, rfl⟩

/-- Where the next token stands, and that the lexer goes on from its end. -/
theorem next_placed (hs : text.Short) {lx : Lexer text} (h : lx.pos ≤ text.length) :
    lx.next.1.Placed text ∧ lx.pos ≤ lx.next.1.span.start ∧
      lx.next.2.pos = lx.next.1.span.stop := by
  have hle := lx.le_ahead
  have hla := ahead_le h
  cases hr : lx.ahead.rest with
  | nil =>
    have hsp := @emit_span text hs lx.ahead (Scan.plain lx.ahead.depths .eof 0) hla
    have hx := emit_lexeme lx.ahead (Scan.plain lx.ahead.depths .eof 0)
    rw [next_of_rest_nil hr]
    refine ⟨⟨?_, fun hk => absurd rfl hk, ?_, ?_, fun hc => by cases hc⟩, ?_, ?_⟩ <;> rw [hsp]
    · exact Nat.le_add_right _ _
    · exact hla
    · exact hx
    · exact hle
    · rfl
  | cons b r =>
    obtain ⟨ht, hp⟩ := next_of_rest_cons hr
    obtain ⟨hpl, hst, hstop⟩ :=
      emit_placed hs hr (Scan.fits_token lx.ahead.regexAllowed lx.ahead.depths b r)
    rw [ht, hp, hst, hstop]
    exact ⟨hpl, hle, rfl⟩

theorem next_clean (lx : Lexer text) : lx.next.1.Clean := by
  intro hn
  cases hr : lx.ahead.rest with
  | nil =>
    rw [next_of_rest_nil hr] at hn
    cases hn
  | cons b r =>
    have hf := Scan.fits_token lx.ahead.regexAllowed lx.ahead.depths b r
    rw [(next_of_rest_cons hr).1] at hn ⊢
    have hk : (Scan.token lx.ahead.regexAllowed lx.ahead.depths b r).kind = .identifier ∨
        (Scan.token lx.ahead.regexAllowed lx.ahead.depths b r).kind = .keyword := by
      rcases Bool.or_eq_true_iff.1 hn with hk | hk
      · exact .inl (of_decide_eq_true hk)
      · exact .inr (of_decide_eq_true hk)
    obtain ⟨hb, hl⟩ := hf.name hk
    intro hm
    have hm : byte '\n' ∈ lx.ahead.rest.take
        (Scan.token lx.ahead.regexAllowed lx.ahead.depths b r).length := hm
    rw [hr, hl, Nat.add_comm, List.take_succ_cons, List.mem_cons] at hm
    rcases hm with hm | hm
    · rw [← hm] at hb
      exact absurd hb (by decide)
    · exact absurd (Bytes.mem_take_run hm) (by decide)

end Lexer

end JsxPresence
