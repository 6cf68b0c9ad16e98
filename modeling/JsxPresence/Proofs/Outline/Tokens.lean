import JsxPresence.Proofs.Outline.Reader
import JsxPresence.Proofs.Token.Stream

namespace JsxPresence.Reader

variable {text : Bytes} {r s : Reader text}

/-- The tokens behind the one at hand; behind the end token there are none. -/
def upcoming (r : Reader text) : List Token := if r.atEnd then [] else r.lexer.stream

/-- The token at hand and those behind it. -/
def tokens (r : Reader text) : List Token := r.current :: r.upcoming

/-- The errors there are once the text has been read to its end. -/
def allErrors (r : Reader text) : List LexicalError :=
  if r.atEnd then r.lexer.errors else r.lexer.finish.errors

theorem ne_eof_of_not_atEnd (h : r.atEnd = false) : r.current.kind ≠ .eof := of_decide_eq_false h

theorem not_atEnd_of_ne_eof (h : r.current.kind ≠ .eof) : r.atEnd = false := decide_eq_false h

theorem step_of_atEnd (h : r.atEnd = true) : r.step = r := by simp [step, h]

theorem step_of_not_atEnd (h : r.atEnd = false) :
    r.step = ⟨r.lexer.next.2, r.lexer.next.1, some r.current, r.current.span.stop⟩ := by
  simp [step, h]

theorem upcoming_of_atEnd (h : r.atEnd = true) : r.upcoming = [] := by simp [upcoming, h]

theorem upcoming_of_not_atEnd (h : r.atEnd = false) : r.upcoming = r.step.tokens := by
  have hne := ne_eof_of_not_atEnd h
  rw [step_of_not_atEnd h]
  by_cases hk : r.lexer.next.1.kind = .eof
  · simp [tokens, upcoming, atEnd, is, hne, hk, Lexer.stream_of_eof hk]
  · simp [tokens, upcoming, atEnd, is, hne, hk, Lexer.stream_of_token hk]

theorem tokens_of_not_atEnd (h : r.atEnd = false) : r.tokens = r.current :: r.step.tokens := by
  rw [tokens, upcoming_of_not_atEnd h]

theorem step_allErrors (r : Reader text) : r.step.allErrors = r.allErrors := by
  cases h : r.atEnd with
  | true => rw [step_of_atEnd h]
  | false =>
    have hne := ne_eof_of_not_atEnd h
    rw [step_of_not_atEnd h]
    by_cases hk : r.lexer.next.1.kind = .eof
    · simp [allErrors, atEnd, is, hne, hk, Lexer.finish_of_eof hk]
    · simp [allErrors, atEnd, is, hne, hk, Lexer.finish_of_token hk]

theorem start_tokens (text : Bytes) : (start text).tokens = (Lexer.tokenize text).1 := by
  rw [Lexer.tokenize_eq]
  by_cases hk : (Lexer.start text).next.1.kind = .eof
  · simp [start, tokens, upcoming, atEnd, is, hk, Lexer.stream_of_eof hk]
  · simp [start, tokens, upcoming, atEnd, is, hk, Lexer.stream_of_token hk]

theorem start_allErrors (text : Bytes) : (start text).allErrors = (Lexer.tokenize text).2 := by
  rw [Lexer.tokenize_eq]
  by_cases hk : (Lexer.start text).next.1.kind = .eof
  · simp [start, allErrors, atEnd, is, hk, Lexer.finish_of_eof hk]
  · simp [start, allErrors, atEnd, is, hk, Lexer.finish_of_token hk]

/-- Errors that were met are among those at the end. -/
theorem errors_prefix_allErrors (r : Reader text) : r.lexer.errors <+: r.allErrors := by
  unfold allErrors
  split_ifs
  · exact List.prefix_refl _
  · exact r.lexer.errors_finish

end JsxPresence.Reader
