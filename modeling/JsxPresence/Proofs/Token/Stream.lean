import JsxPresence.Proofs.Token.Place

namespace JsxPresence.Lexer

/-- A scan that fails says why, and never that a comment is to blame. -/
structure Scan.Tells (s : Scan) : Prop where
  cause_ne : s.cause ≠ some .unterminatedComment
  of_error : s.kind = .error → s.cause ≠ none

namespace Scan

theorem tells_plain (depths : List Nat) {kind : Kind} (n : Nat) (h : kind ≠ .error) :
    (plain depths kind n).Tells := ⟨by simp [plain], fun hk => absurd hk h⟩

theorem tells_failed (depths : List Nat) {cause : LexicalCause} (n : Nat)
    (h : cause ≠ .unterminatedComment) : (failed depths cause n).Tells :=
  ⟨by simpa [failed] using h, by simp [failed]⟩

theorem tells_ofExtent (depths : List Nat) {kind : Kind} {cause : LexicalCause} (opening : Nat)
    (e : Literal.Extent) (hk : kind ≠ .error) (hc : cause ≠ .unterminatedComment) :
    (ofExtent depths kind cause opening e).Tells :=
  of_ite (fun _ => tells_plain depths _ hk) fun _ => tells_failed depths _ hc

theorem tells_templateStart (depths : List Nat) (r : Bytes) : (templateStart depths r).Tells := by
  unfold templateStart
  dsimp only
  split <;> exact ⟨by simp, by simp⟩

theorem tells_templateRest (outer : List Nat) (r : Bytes) : (templateRest outer r).Tells := by
  unfold templateRest
  dsimp only
  split <;> exact ⟨by simp, by simp⟩

theorem tells_punctuator (depths : List Nat) (b : UInt8) (r : Bytes) :
    (punctuator depths b r).Tells := by
  unfold punctuator
  split
  · exact tells_failed depths _ (by simp)
  · split <;> exact tells_plain _ _ (by simp)
  · split
    · exact tells_plain _ _ (by simp)
    · exact tells_templateRest _ r
    · exact tells_plain _ _ (by simp)
  · rename_i hs
    exact tells_plain depths _ (Punctuator.scan?_cases hs).not_word.2.2.2

theorem tells_token (regexAllowed : Bool) (depths : List Nat) (b : UInt8) (r : Bytes) :
    (token regexAllowed depths b r).Tells := by
  unfold token
  split_ifs
  · exact tells_plain depths _ (of_ite (P := (· ≠ Kind.error)) (by simp) (by simp))
  · exact tells_ofExtent depths _ _ (by simp) (by simp)
  · exact tells_ofExtent depths _ _ (by simp) (by simp)
  · exact tells_templateStart depths r
  · exact tells_ofExtent depths _ _ (by simp) (by simp)
  · exact tells_punctuator depths b r

end Scan

variable {text : Bytes}

theorem errors_emit (lx : Lexer text) (s : Scan) : lx.errors <+: (lx.emit s).2.errors := by
  cases hcause : s.cause <;> simp [emit, hcause]

theorem errors_ahead (lx : Lexer text) : lx.errors <+: lx.ahead.errors := by
  cases hopen : (Trivia.scan lx.rest).openComment <;> simp_all [ahead, skipTrivia, rest]

theorem next_errors_of_rest_cons {lx : Lexer text} {b : UInt8} {r : Bytes}
    (h : lx.ahead.rest = b :: r) : lx.next.2.errors =
      (lx.ahead.emit (Scan.token lx.ahead.regexAllowed lx.ahead.depths b r)).2.errors := by
  unfold ahead at h
  simp only [next, h]
  rfl

/-- Errors are only ever added. -/
theorem errors_next (lx : Lexer text) : lx.errors <+: lx.next.2.errors := by
  apply lx.errors_ahead.trans
  cases hr : lx.ahead.rest with
  | nil =>
    rw [next_of_rest_nil hr]
    exact errors_emit _ _
  | cons b r =>
    rw [next_errors_of_rest_cons hr]
    exact errors_emit _ _

/-- A token that could not be made out leaves an error behind. -/
theorem next_errors_ne_nil {lx : Lexer text} (h : lx.next.1.kind = .error) :
    lx.next.2.errors ≠ [] := by
  cases hr : lx.ahead.rest with
  | nil =>
    rw [next_of_rest_nil hr] at h
    cases h
  | cons b r =>
    have htells := Scan.tells_token lx.ahead.regexAllowed lx.ahead.depths b r
    rw [(next_of_rest_cons hr).1] at h
    rw [next_errors_of_rest_cons hr]
    cases hcause : (Scan.token lx.ahead.regexAllowed lx.ahead.depths b r).cause with
    | none => exact absurd hcause (htells.of_error h)
    | some cause => simp [emit, hcause]

/-- At the end of the text there is only the end token. -/
theorem next_kind_eq_eof_iff (lx : Lexer text) : lx.next.1.kind = .eof ↔ lx.ahead.rest = [] := by
  cases hr : lx.ahead.rest with
  | nil =>
    rw [next_of_rest_nil hr]
    simp [emit, Scan.plain]
  | cons b r =>
    have hf := Scan.fits_token lx.ahead.regexAllowed lx.ahead.depths b r
    rw [(next_of_rest_cons hr).1]
    simpa [emit] using hf.ne_eof

/-- A token takes the lexer on, but never out of the text. -/
theorem lt_next_pos {lx : Lexer text} (h : lx.next.1.kind ≠ .eof) :
    lx.pos < lx.next.2.pos ∧ lx.next.2.pos ≤ text.length := by
  cases hr : lx.ahead.rest with
  | nil => exact absurd ((next_kind_eq_eof_iff lx).2 hr) h
  | cons b r =>
    have hf := Scan.fits_token lx.ahead.regexAllowed lx.ahead.depths b r
    have hpos := hf.pos
    have hle := hf.le
    have hahead := lx.le_ahead
    have hlength := lx.ahead.rest_length
    rw [hr] at hlength
    rw [(next_of_rest_cons hr).2]
    simp only [List.length_cons] at hle hlength
    omega

theorem tokensWithin_succ (lx : Lexer text) (fuel : Nat) :
    lx.tokensWithin (fuel + 1) =
      if lx.next.1.kind = .eof then ([lx.next.1], lx.next.2)
      else (lx.next.1 :: (lx.next.2.tokensWithin fuel).1, (lx.next.2.tokensWithin fuel).2) := rfl

/-- What holds where the text ends and is kept by a step back over a token holds everywhere. -/
theorem stream_induction {P : Lexer text → Prop} (last : ∀ lx, lx.next.1.kind = .eof → P lx)
    (step : ∀ lx, lx.next.1.kind ≠ .eof → P lx.next.2 → P lx) (lx : Lexer text) : P lx := by
  induction hn : text.length - lx.pos using Nat.strong_induction_on generalizing lx with
  | _ n ih =>
    by_cases hk : lx.next.1.kind = .eof
    · exact last lx hk
    · have hpos := lt_next_pos hk
      apply step lx hk
      exact ih (text.length - lx.next.2.pos) (by omega) lx.next.2 rfl

/-- More fuel than there are bytes left changes nothing. -/
theorem tokensWithin_eq {lx : Lexer text} {m n : Nat} (hm : text.length - lx.pos < m)
    (hn : text.length - lx.pos < n) : lx.tokensWithin m = lx.tokensWithin n := by
  induction lx using stream_induction generalizing m n with
  | last lx hk =>
    obtain ⟨m, rfl⟩ : ∃ k, m = k + 1 := ⟨m - 1, by omega⟩
    obtain ⟨n, rfl⟩ : ∃ k, n = k + 1 := ⟨n - 1, by omega⟩
    simp [tokensWithin_succ, hk]
  | step lx hk ih =>
    have hpos := lt_next_pos hk
    obtain ⟨m, rfl⟩ : ∃ k, m = k + 1 := ⟨m - 1, by omega⟩
    obtain ⟨n, rfl⟩ : ∃ k, n = k + 1 := ⟨n - 1, by omega⟩
    have h := @ih m n (by omega) (by omega)
    simp [tokensWithin_succ, hk, h]

/-- All tokens from here on, the end token included. -/
def stream (lx : Lexer text) : List Token := (lx.tokensWithin (text.length - lx.pos + 1)).1

/-- The lexer behind the last token. -/
def finish (lx : Lexer text) : Lexer text := (lx.tokensWithin (text.length - lx.pos + 1)).2

theorem stream_of_eof {lx : Lexer text} (h : lx.next.1.kind = .eof) :
    lx.stream = [lx.next.1] := by
  simp [stream, tokensWithin_succ, h]

theorem finish_of_eof {lx : Lexer text} (h : lx.next.1.kind = .eof) : lx.finish = lx.next.2 := by
  simp [finish, tokensWithin_succ, h]

theorem stream_of_token {lx : Lexer text} (h : lx.next.1.kind ≠ .eof) :
    lx.stream = lx.next.1 :: lx.next.2.stream := by
  have hpos := lt_next_pos h
  have heq : lx.next.2.tokensWithin (text.length - lx.pos) =
      lx.next.2.tokensWithin (text.length - lx.next.2.pos + 1) :=
    tokensWithin_eq (by omega) (by omega)
  simp [stream, tokensWithin_succ, h, heq]

theorem finish_of_token {lx : Lexer text} (h : lx.next.1.kind ≠ .eof) :
    lx.finish = lx.next.2.finish := by
  have hpos := lt_next_pos h
  have heq : lx.next.2.tokensWithin (text.length - lx.pos) =
      lx.next.2.tokensWithin (text.length - lx.next.2.pos + 1) :=
    tokensWithin_eq (by omega) (by omega)
  simp [finish, tokensWithin_succ, h, heq]

theorem stream_length_le (lx : Lexer text) : lx.stream.length ≤ text.length - lx.pos + 1 := by
  induction lx using stream_induction with
  | last lx hk => simp [stream_of_eof hk]
  | step lx hk ih =>
    have hpos := lt_next_pos hk
    rw [stream_of_token hk, List.length_cons]
    omega

theorem errors_finish (lx : Lexer text) : lx.errors <+: lx.finish.errors := by
  induction lx using stream_induction with
  | last lx hk =>
    rw [finish_of_eof hk]
    exact lx.errors_next
  | step lx hk ih =>
    rw [finish_of_token hk]
    exact lx.errors_next.trans ih

/-- Tokenizing a text gives the stream of the lexer at its start. -/
theorem tokenize_eq (text : Bytes) :
    tokenize text = ((start text).stream, (start text).finish.errors) := by
  have heq : (start text).tokensWithin (text.length + 1) =
      (start text).tokensWithin (text.length - (start text).pos + 1) :=
    tokensWithin_eq (by omega) (by omega)
  simp only [tokenize, stream, finish, heq]

end JsxPresence.Lexer
