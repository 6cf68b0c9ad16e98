import Mathlib.Algebra.GroupWithZero.Nat
import JsxPresence.Proofs.Token.Place

namespace JsxPresence

/-- How many braces a token opens. -/
def Kind.opened (kind : Kind) : Nat := if kind = .openBrace then 1 else 0

/-- How many braces a token closes. -/
def Kind.closed (kind : Kind) : Nat := if kind = .closeBrace then 1 else 0

namespace Lexer

/-- The second scan finds the token of the first, in a substitution that the first does not know of,
with so many braces open in it and inside of it before the token. -/
structure Scan.Within (outer : List Nat) (n : Nat) (s t : Scan) : Prop where
  kind : t.kind = s.kind
  length : t.length = s.length
  depths : ∃ depth, t.depths = s.depths ++ depth :: outer ∧
    depth + s.depths.sum + s.kind.closed = n + s.kind.opened

namespace Scan

variable {l outer : List Nat} {c : Nat}

theorem within_plain {kind : Kind} (length : Nat) (ho : kind ≠ .openBrace)
    (hc : kind ≠ .closeBrace) :
    Within outer (c + l.sum) (plain l kind length) (plain (l ++ c :: outer) kind length) :=
  ⟨rfl, rfl, c, rfl, by simp [plain, Kind.opened, Kind.closed, ho, hc]⟩

theorem within_failed (cause : LexicalCause) (length : Nat) :
    Within outer (c + l.sum) (failed l cause length) (failed (l ++ c :: outer) cause length) :=
  ⟨rfl, rfl, c, rfl, rfl⟩

theorem within_ofExtent {kind : Kind} (cause : LexicalCause) (opening : Nat) (e : Literal.Extent)
    (ho : kind ≠ .openBrace) (hc : kind ≠ .closeBrace) :
    Within outer (c + l.sum) (ofExtent l kind cause opening e)
      (ofExtent (l ++ c :: outer) kind cause opening e) := by
  unfold ofExtent
  split
  · exact within_plain _ ho hc
  · exact within_failed cause _

theorem within_templateStart (s : Bytes) :
    Within outer (c + l.sum) (templateStart l s) (templateStart (l ++ c :: outer) s) := by
  unfold templateStart
  dsimp only
  split
  · exact ⟨rfl, rfl, c, rfl, rfl⟩
  · exact ⟨rfl, rfl, c, rfl, by simp [Kind.opened, Kind.closed]⟩
  · exact ⟨rfl, rfl, c, rfl, rfl⟩

theorem within_templateRest (s : Bytes) :
    Within outer (c + l.sum) (templateRest l s) (templateRest (l ++ c :: outer) s) := by
  unfold templateRest
  dsimp only
  split
  · exact ⟨rfl, rfl, c, rfl, rfl⟩
  · exact ⟨rfl, rfl, c, rfl, by simp [Kind.opened, Kind.closed]⟩
  · exact ⟨rfl, rfl, c, rfl, rfl⟩

/-- The only token that could differ is the brace that ends the substitution. -/
theorem within_punctuator (b : UInt8) (r : Bytes) (h : 1 ≤ c + l.sum) :
    Within outer (c + l.sum) (punctuator l b r) (punctuator (l ++ c :: outer) b r) := by
  unfold punctuator
  split
  · exact within_failed _ _
  · cases l with
    | nil => exact ⟨rfl, rfl, c + 1, rfl, by simp [plain, Kind.opened, Kind.closed]⟩
    | cons d l =>
      refine ⟨rfl, rfl, c, rfl, ?_⟩
      simp only [plain, Kind.opened, Kind.closed, List.sum_cons]
      simp
      omega
  · cases l with
    | nil =>
      obtain ⟨k, rfl⟩ : ∃ k, c = k + 1 := ⟨c - 1, by simp at h; omega⟩
      exact ⟨rfl, rfl, k, rfl, by simp [plain, Kind.opened, Kind.closed]⟩
    | cons d l =>
      cases d with
      | zero =>
        have hrest : Within outer (c + l.sum) (templateRest l r)
            (templateRest (l ++ c :: outer) r) :=
          within_templateRest r
        simpa using hrest
      | succ d =>
        refine ⟨rfl, rfl, c, rfl, ?_⟩
        simp only [plain, Kind.opened, Kind.closed, List.sum_cons]
        simp
        omega
  · rename_i kind n ho hc _
    exact within_plain n ho hc

theorem within_token (regexAllowed : Bool) (b : UInt8) (r : Bytes) (h : 1 ≤ c + l.sum) :
    Within outer (c + l.sum) (token regexAllowed l b r)
      (token regexAllowed (l ++ c :: outer) b r) := by
  unfold token
  split_ifs
  · unfold name
    dsimp only
    split <;> exact within_plain _ (by decide) (by decide)
  · exact within_ofExtent _ _ _ (by decide) (by decide)
  · exact within_ofExtent _ _ _ (by decide) (by decide)
  · exact within_templateStart r
  · exact within_ofExtent _ _ _ (by decide) (by decide)
  · exact within_punctuator b r h

end Scan

variable {text : Bytes} {lx ly : Lexer text} {n m : Nat}

/-- The second lexer stands where the first does, maybe in a substitution that the first does not
know of; then at least so many braces are open in it and inside of it. -/
structure Beneath (n : Nat) (lx ly : Lexer text) : Prop where
  cursor : ly.cursor = lx.cursor
  regexAllowed : ly.regexAllowed = lx.regexAllowed
  depths : ly.depths = lx.depths ∨ ∃ depth outer,
    ly.depths = lx.depths ++ depth :: outer ∧ n ≤ depth + lx.depths.sum

theorem next_eq_of_rest_cons {b : UInt8} {r : Bytes} (h : lx.ahead.rest = b :: r) :
    lx.next = ((lx.ahead.emit (Scan.token lx.regexAllowed lx.depths b r)).1,
      { (lx.ahead.emit (Scan.token lx.regexAllowed lx.depths b r)).2 with
        regexAllowed := (Scan.token lx.regexAllowed lx.depths b r).kind.allowsExpression
          (lx.ahead.emit (Scan.token lx.regexAllowed lx.depths b r)).1.lexeme }) := by
  unfold ahead at h ⊢
  simp only [next, h]
  rfl

theorem Beneath.ahead_cursor (h : Beneath n lx ly) : ly.ahead.cursor = lx.ahead.cursor := by
  have hrest : ly.rest = lx.rest := congrArg Cursor.rest h.cursor
  change ly.cursor.advance (Trivia.scan ly.rest).length =
    lx.cursor.advance (Trivia.scan lx.rest).length
  rw [h.cursor, hrest]

/-- What is scanned where the lexers stand. -/
theorem Beneath.token (h : Beneath n lx ly) (hn : 1 ≤ n) (b : UInt8) (r : Bytes) :
    (Scan.token ly.regexAllowed ly.depths b r).kind =
        (Scan.token lx.regexAllowed lx.depths b r).kind ∧
      (Scan.token ly.regexAllowed ly.depths b r).length =
        (Scan.token lx.regexAllowed lx.depths b r).length ∧
      ((Scan.token ly.regexAllowed ly.depths b r).depths =
        (Scan.token lx.regexAllowed lx.depths b r).depths ∨ ∃ depth outer,
          (Scan.token ly.regexAllowed ly.depths b r).depths =
            (Scan.token lx.regexAllowed lx.depths b r).depths ++ depth :: outer ∧
          n + (Scan.token lx.regexAllowed lx.depths b r).kind.opened ≤
            depth + (Scan.token lx.regexAllowed lx.depths b r).depths.sum +
              (Scan.token lx.regexAllowed lx.depths b r).kind.closed) := by
  rw [h.regexAllowed]
  rcases h.depths with hsame | ⟨depth, outer, hdepths, hle⟩
  · rw [hsame]
    exact ⟨rfl, rfl, .inl rfl⟩
  · have hwithin : Scan.Within outer (depth + lx.depths.sum)
        (Scan.token lx.regexAllowed lx.depths b r)
        (Scan.token lx.regexAllowed (lx.depths ++ depth :: outer) b r) :=
      Scan.within_token lx.regexAllowed b r (by omega)
    obtain ⟨hkind, hlength, depth', hdepths', hsum⟩ := hwithin
    rw [hdepths]
    exact ⟨hkind, hlength, .inr ⟨depth', outer, hdepths', by omega⟩⟩

/-- Both lexers find the same next token, as long as a brace is open. -/
theorem Beneath.next (h : Beneath n lx ly) (hn : 1 ≤ n) :
    ly.next.1.kind = lx.next.1.kind ∧ ly.next.1.span = lx.next.1.span ∧
      ∀ m, m + lx.next.1.kind.closed ≤ n + lx.next.1.kind.opened →
        Beneath m lx.next.2 ly.next.2 := by
  have hcursor := h.ahead_cursor
  have hpos : ly.ahead.pos = lx.ahead.pos := congrArg Cursor.pos hcursor
  have hrest : ly.ahead.rest = lx.ahead.rest := congrArg Cursor.rest hcursor
  cases hr : lx.ahead.rest with
  | nil =>
    rw [next_of_rest_nil hr, next_of_rest_nil (hrest.trans hr)]
    refine ⟨rfl, ?_, fun m hm => ⟨?_, h.regexAllowed, ?_⟩⟩
    · change Span.ofOffsets ly.ahead.pos (ly.ahead.pos + 0) =
        Span.ofOffsets lx.ahead.pos (lx.ahead.pos + 0)
      rw [hpos]
    · change ly.ahead.cursor.advance 0 = lx.ahead.cursor.advance 0
      rw [hcursor]
    · rcases h.depths with hsame | ⟨depth, outer, hdepths, hle⟩
      · exact .inl hsame
      · have hmn : m ≤ n := hm
        exact .inr ⟨depth, outer, hdepths, hmn.trans hle⟩
  | cons b r =>
    obtain ⟨hkind, hlength, hdepths⟩ := h.token hn b r
    rw [next_eq_of_rest_cons hr, next_eq_of_rest_cons (hrest.trans hr)]
    refine ⟨hkind, ?_, fun m hm => ⟨?_, ?_, ?_⟩⟩
    · change Span.ofOffsets ly.ahead.pos (ly.ahead.pos + _) =
        Span.ofOffsets lx.ahead.pos (lx.ahead.pos + _)
      rw [hpos, hlength]
    · change ly.ahead.cursor.advance _ = lx.ahead.cursor.advance _
      rw [hcursor, hlength]
    · change Kind.allowsExpression _ (ly.ahead.rest.take _) =
        Kind.allowsExpression _ (lx.ahead.rest.take _)
      rw [hkind, hlength, hrest]
    · rcases hdepths with hsame | ⟨depth, outer, hdepths, hle⟩
      · exact .inl hsame
      · refine .inr ⟨depth, outer, hdepths, ?_⟩
        have hm : m + (Scan.token lx.regexAllowed lx.depths b r).kind.closed ≤
          n + (Scan.token lx.regexAllowed lx.depths b r).kind.opened := hm
        change m ≤ depth + (Scan.token lx.regexAllowed lx.depths b r).depths.sum
        omega

end Lexer

end JsxPresence
