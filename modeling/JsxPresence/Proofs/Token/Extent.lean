import Mathlib.Data.List.GetD
import Mathlib.Data.List.TakeWhile
import JsxPresence.Token.Lexer

namespace JsxPresence

namespace Bytes

theorem lt_length_of_byteAt_ne_zero {s : Bytes} {n : Nat} (h : s.byteAt n ≠ 0) :
    n < s.length := by
  by_contra hn
  exact h (List.getD_eq_default s 0 (Nat.le_of_not_lt hn))

theorem lt_length_of_byteAt_eq {s : Bytes} {n : Nat} {b : UInt8} (h : s.byteAt n = b)
    (hb : b ≠ 0) : n < s.length :=
  lt_length_of_byteAt_ne_zero (h ▸ hb)

theorem run_drop_le (p : UInt8 → Bool) (s : Bytes) {n : Nat} (h : n ≤ s.length) :
    n + run p (s.drop n) ≤ s.length := by
  have hr := run_le p (s.drop n)
  rw [List.length_drop] at hr
  omega

theorem run_cons_pos {p : UInt8 → Bool} {b : UInt8} (r : Bytes) (h : p b = true) :
    1 ≤ run p (b :: r) := by
  simp [run, h]

theorem mem_take_run {p : UInt8 → Bool} {s : Bytes} {b : UInt8} (h : b ∈ s.take (run p s)) :
    p b = true := by
  have ht : s.takeWhile p = s.take (run p s) :=
    List.prefix_iff_eq_take.1 (List.takeWhile_prefix p)
  rw [← ht] at h
  exact List.mem_takeWhile_imp h

/-- No blank, no line end and no slash comes first, so that a token does. -/
def StartsBare : Bytes → Prop
  | [] => False
  | b :: _ => Trivia.isBlank b = false ∧ b ≠ byte '\n' ∧ b ≠ byte '/'

instance : DecidablePred StartsBare
  | [] => inferInstanceAs (Decidable False)
  | b :: _ => inferInstanceAs (Decidable
      (Trivia.isBlank b = false ∧ b ≠ byte '\n' ∧ b ≠ byte '/'))

end Bytes

namespace Trivia

/-- Trivia reaches from where it starts to at most the end of the text. -/
theorem scanFrom_length (region : Region) (n : Nat) (newline : Bool) (s : Bytes) :
    n ≤ (scanFrom region n newline s).length ∧
      (scanFrom region n newline s).length ≤ n + s.length := by
  fun_induction scanFrom region n newline s <;> simp_all <;> omega

theorem scanFrom_blanks {blanks rest : Bytes} (h : ∀ b ∈ blanks, isBlank b = true)
    (hrest : rest.StartsBare) (n : Nat) (newline : Bool) :
    scanFrom .blank n newline (blanks ++ rest) = ⟨n + blanks.length, newline, none⟩ := by
  induction blanks generalizing n with
  | nil =>
    cases rest with
    | nil => cases hrest
    | cons b r =>
      obtain ⟨hblank, hline, hslash⟩ := hrest
      cases r <;> simp [scanFrom, hblank, hline, hslash]
  | cons b blanks ih =>
    obtain ⟨c, after, hafter⟩ : ∃ c after, blanks ++ rest = c :: after := by
      cases rest with
      | nil => cases hrest
      | cons b r => exact List.exists_cons_of_ne_nil (by simp)
    have hblanks := ih (fun c hc => h c (List.mem_cons_of_mem b hc)) (n + 1)
    rw [hafter] at hblanks
    rw [List.cons_append, hafter, scanFrom, if_pos (h b List.mem_cons_self), hblanks,
      List.length_cons, Nat.add_right_comm, Nat.add_assoc]

theorem scan_length_le (s : Bytes) : (scan s).length ≤ s.length := by
  have h := (scanFrom_length .blank 0 false s).2
  simpa [scan] using h

end Trivia

namespace Literal

theorem quotedFrom_length_le (quote : UInt8) (n : Nat) (s : Bytes) :
    (quotedFrom quote n s).length ≤ n + s.length := by
  fun_induction quotedFrom quote n s <;> simp_all <;> omega

theorem templateFrom_length_le (n : Nat) (newline : Bool) (s : Bytes) :
    (templateFrom n newline s).length ≤ n + s.length := by
  fun_induction templateFrom n newline s <;> simp_all <;> omega

theorem regexFrom_length_le (n : Nat) (inClass : Bool) (s : Bytes) :
    (regexFrom n inClass s).length ≤ n + s.length := by
  fun_induction regexFrom n inClass s with
  | case10 =>
    rename_i n inClass b c r _ _ _ _ _
    have hr := Bytes.run_le isNameByte (c :: r)
    simp only [List.length_cons] at hr ⊢
    omega
  | _ => simp_all <;> omega

theorem fraction_le (s : Bytes) : fraction s ≤ s.length := by
  cases s with
  | nil => simp [fraction]
  | cons b r =>
    have hr := Bytes.run_le isDigitOrGap r
    simp only [fraction, List.length_cons]
    split <;> omega

theorem exponent_le (s : Bytes) : exponent s ≤ s.length := by
  cases s with
  | nil => simp [exponent]
  | cons b r =>
    have hr := Bytes.run_le isDigitOrGap r
    simp only [exponent, List.length_cons]
    split_ifs with he hd hs
    · omega
    · have h1 : 1 < r.length := by
        apply Bytes.lt_length_of_byteAt_ne_zero
        intro h0
        have hz : isDigit 0 = false := by decide
        simp [h0, hz] at hs
      have hd1 := Bytes.run_drop_le isDigitOrGap r (n := 1) (by omega)
      omega
    · omega
    · omega

theorem plainNumber_le (s : Bytes) : plainNumber s ≤ s.length := by
  have hw := Bytes.run_le isDigitOrGap s
  have hf := fraction_le (s.drop (Bytes.run isDigitOrGap s))
  rw [List.length_drop] at hf
  have he := exponent_le (s.drop
    (Bytes.run isDigitOrGap s + fraction (s.drop (Bytes.run isDigitOrGap s))))
  rw [List.length_drop] at he
  simp only [plainNumber]
  split_ifs with hn
  · have := Bytes.lt_length_of_byteAt_eq hn (by decide)
    omega
  · omega

theorem plainNumber_pos {b : UInt8} {r : Bytes}
    (h : isDigit b = true ∨ (b = byte '.' ∧ isDigit (r.headD 0) = true)) :
    1 ≤ plainNumber (b :: r) := by
  suffices hs : 1 ≤ Bytes.run isDigitOrGap (b :: r) +
      fraction ((b :: r).drop (Bytes.run isDigitOrGap (b :: r))) by
    simp only [plainNumber]
    split <;> omega
  rcases h with h | ⟨rfl, h⟩
  · have hb : isDigitOrGap b = true := by simp [isDigitOrGap, h]
    have := Bytes.run_cons_pos r hb
    omega
  · have hp : isDigitOrGap (byte '.') = false := by decide
    have hz : Bytes.run isDigitOrGap (byte '.' :: r) = 0 := by simp [Bytes.run, hp]
    have hd : r.headD 0 ≠ byte '.' := by
      intro he
      rw [he] at h
      exact absurd h (by decide)
    have hb : (r.headD 0 != byte '.') = true := bne_iff_ne.2 hd
    simp only [hz, List.drop_zero, fraction, hb, decide_true, Bool.and_self, if_true]
    omega

theorem number_le (s : Bytes) : (number s).length ≤ s.length := by
  simp only [number]
  split_ifs with hr hn
  · have h1 : 1 < s.length := by
      apply Bytes.lt_length_of_byteAt_ne_zero
      intro h0
      have hz : isRadixMark 0 = false := by decide
      simp [h0, hz] at hr
    exact Bytes.run_drop_le isNameByte s (n := 2) (by omega)
  · exact Bytes.run_drop_le isNameByte s (plainNumber_le s)
  · exact plainNumber_le s

theorem number_pos {b : UInt8} {r : Bytes}
    (h : isDigit b = true ∨ (b = byte '.' ∧ isDigit (r.headD 0) = true)) :
    1 ≤ (number (b :: r)).length := by
  have hp := plainNumber_pos h
  simp only [number]
  split_ifs <;> simp only <;> omega

end Literal

/-- The byte that a kind of one byte stands for. -/
def Kind.mark? : Kind → Option UInt8
  | .openParen => some (byte '(')
  | .closeParen => some (byte ')')
  | .openBracket => some (byte '[')
  | .closeBracket => some (byte ']')
  | .openBrace => some JsxPresence.openBrace
  | .closeBrace => some JsxPresence.closeBrace
  | .comma => some (byte ',')
  | .less => some (byte '<')
  | .greater => some (byte '>')
  | _ => none

/-- Punctuators that no single byte decides. -/
def Kind.isLoose : Kind → Bool
  | .dot | .ellipsis | .optionalDot | .question | .arrow | .assign | .slash | .star | .bang
  | .operator => true
  | _ => false

theorem Kind.mark?_of_isLoose {kind : Kind} (h : kind.isLoose = true) : kind.mark? = none := by
  cases kind <;> first | rfl | cases h

theorem of_ite {α : Sort*} {p : Prop} [Decidable p] {x y : α} {P : α → Prop} (hx : p → P x)
    (hy : ¬p → P y) : P (if p then x else y) := by
  by_cases hp : p
  · rw [if_pos hp]
    exact hx hp
  · rw [if_neg hp]
    exact hy hp

theorem ite_eq_some {α : Type} {p : Prop} [Decidable p] {x y : Option α} {a : α}
    (h : (if p then x else y) = some a) : (p ∧ x = some a) ∨ (¬p ∧ y = some a) := by
  by_cases hp : p
  · exact .inl ⟨hp, by rwa [if_pos hp] at h⟩
  · exact .inr ⟨hp, by rwa [if_neg hp] at h⟩

namespace Punctuator

theorem single?_mark {b c : UInt8} {kind : Kind} (h : single? b = some kind)
    (hc : kind.mark? = some c) : b = c := by
  unfold single? at h
  iterate 12
    rcases ite_eq_some h with ⟨hb, h⟩ | ⟨-, h⟩
    · cases h
      cases hc <;> exact hb
  cases h

/-- What a scanned punctuator can be: decided by its first byte, a lone `<`, or a kind that stands
for no single byte. -/
def Scanned (b : UInt8) (r : Bytes) (kind : Kind) (n : Nat) : Prop :=
  (single? b = some kind ∧ n = 1) ∨ (kind = .less ∧ b = byte '<' ∧ n = 1) ∨
    (kind.isLoose = true ∧ 1 ≤ n ∧ n ≤ (b :: r).length)

private theorem scanned_assignable {b : UInt8} {r : Bytes} {kind : Kind} {m n : Nat} (hm : 1 ≤ m)
    (hl : m ≤ (b :: r).length) (he : some (assignable m (b :: r)) = some (kind, n)) :
    Scanned b r kind n := by
  right; right
  unfold assignable at he
  by_cases hc : Bytes.byteAt (b :: r) m = byte '='
  · rw [if_pos hc] at he
    cases he
    exact ⟨rfl, by omega, Bytes.lt_length_of_byteAt_eq hc (by decide)⟩
  · rw [if_neg hc] at he
    cases he
    exact ⟨rfl, hm, hl⟩

theorem scan?_cases {b : UInt8} {r : Bytes} {kind : Kind} {n : Nat}
    (h : scan? (b :: r) = some (kind, n)) : Scanned b r kind n := by
  have one {k : Kind} (hk : k.isLoose = true) (he : some (k, 1) = some (kind, n)) :
      Scanned b r kind n := by
    cases he
    exact .inr (.inr ⟨hk, le_refl 1, by simp⟩)
  have two {c : UInt8} (h0 : c ≠ 0) (hc : Bytes.byteAt (b :: r) 1 = c) : 2 ≤ (b :: r).length :=
    Bytes.lt_length_of_byteAt_eq hc h0
  have pair {c : UInt8} {k : Kind} (hk : k.isLoose = true) (h0 : c ≠ 0)
      (hc : Bytes.byteAt (b :: r) 1 = c) (he : some (k, 2) = some (kind, n)) :
      Scanned b r kind n := by
    cases he
    exact .inr (.inr ⟨hk, by omega, two h0 hc⟩)
  unfold scan? at h
  dsimp only at h
  split at h
  · rename_i k hk
    cases h
    exact .inl ⟨hk, rfl⟩
  rcases ite_eq_some h with ⟨-, h⟩ | ⟨-, h⟩
  · rcases ite_eq_some h with ⟨hc, h⟩ | ⟨-, h⟩
    · cases h
      have h2 : Bytes.byteAt (b :: r) 2 = byte '.' :=
        of_decide_eq_true (Bool.and_eq_true_iff.1 hc).2
      exact .inr (.inr ⟨rfl, by omega, Bytes.lt_length_of_byteAt_eq h2 (by decide)⟩)
    · exact one rfl h
  rcases ite_eq_some h with ⟨-, h⟩ | ⟨-, h⟩
  · rcases ite_eq_some h with ⟨hc, h⟩ | ⟨-, h⟩
    · exact pair rfl (by decide) (of_decide_eq_true (Bool.and_eq_true_iff.1 hc).1) h
    rcases ite_eq_some h with ⟨hc, h⟩ | ⟨-, h⟩
    · exact scanned_assignable (by omega) (two (by decide) hc) h
    · exact one rfl h
  rcases ite_eq_some h with ⟨-, h⟩ | ⟨-, h⟩
  · rcases ite_eq_some h with ⟨hc, h⟩ | ⟨-, h⟩
    · exact pair rfl (by decide) hc h
    rcases ite_eq_some h with ⟨hc, h⟩ | ⟨-, h⟩
    · exact scanned_assignable (by omega) (two (by decide) hc) h
    · exact one rfl h
  rcases ite_eq_some h with ⟨hb, h⟩ | ⟨-, h⟩
  · rcases ite_eq_some h with ⟨hc, h⟩ | ⟨-, h⟩
    · exact scanned_assignable (by omega) (two (by decide) hc) h
    rcases ite_eq_some h with ⟨hc, h⟩ | ⟨-, h⟩
    · exact pair rfl (by decide) hc h
    · cases h
      exact .inr (.inl ⟨rfl, hb, rfl⟩)
  rcases ite_eq_some h with ⟨-, h⟩ | ⟨-, h⟩
  · rcases ite_eq_some h with ⟨hc, h⟩ | ⟨-, h⟩
    · exact scanned_assignable (by omega) (two (by decide) hc) h
    · exact one rfl h
  rcases ite_eq_some h with ⟨-, h⟩ | ⟨-, h⟩
  · rcases ite_eq_some h with ⟨hc, h⟩ | ⟨-, h⟩
    · exact pair rfl (by decide) hc h
    · exact one rfl h
  rcases ite_eq_some h with ⟨-, h⟩ | ⟨-, h⟩
  · rcases ite_eq_some h with ⟨hc, h⟩ | ⟨-, h⟩
    · exact scanned_assignable (by omega) (two (by decide) hc) h
    rcases ite_eq_some h with ⟨hc, h⟩ | ⟨-, h⟩
    · exact pair rfl (by decide) hc h
    · exact one rfl h
  rcases ite_eq_some h with ⟨hb, h⟩ | ⟨-, h⟩
  · rw [List.headD_cons] at hb
    have hb0 : b ≠ 0 := by
      rintro rfl
      exact absurd hb (by decide)
    by_cases hc : Bytes.byteAt (b :: r) 1 = b
    · rw [List.headD_cons, if_pos hc] at h
      exact scanned_assignable (by omega) (two hb0 hc) h
    · rw [List.headD_cons, if_neg hc] at h
      exact scanned_assignable (le_refl 1) (by simp) h
  rcases ite_eq_some h with ⟨-, h⟩ | ⟨-, h⟩
  · exact scanned_assignable (le_refl 1) (by simp) h
  · cases h

theorem Scanned.length {b : UInt8} {r : Bytes} {kind : Kind} {n : Nat} (h : Scanned b r kind n) :
    1 ≤ n ∧ n ≤ (b :: r).length := by
  rcases h with ⟨-, rfl⟩ | ⟨-, -, rfl⟩ | ⟨-, h⟩
  · simp
  · simp
  · exact h

theorem Scanned.mark {b c : UInt8} {r : Bytes} {kind : Kind} {n : Nat} (h : Scanned b r kind n)
    (hc : kind.mark? = some c) : b = c ∧ n = 1 := by
  rcases h with ⟨hk, rfl⟩ | ⟨rfl, hb, rfl⟩ | ⟨hk, -⟩
  · exact ⟨single?_mark hk hc, rfl⟩
  · cases hc
    exact ⟨hb, rfl⟩
  · rw [Kind.mark?_of_isLoose hk] at hc
    cases hc

/-- No punctuator is a name, the end or a failure. -/
theorem Scanned.not_word {b : UInt8} {r : Bytes} {kind : Kind} {n : Nat} (h : Scanned b r kind n) :
    kind ≠ .identifier ∧ kind ≠ .keyword ∧ kind ≠ .eof ∧ kind ≠ .error := by
  rcases h with ⟨hk, -⟩ | ⟨rfl, -⟩ | ⟨hk, -⟩
  · unfold single? at hk
    iterate 12
      rcases ite_eq_some hk with ⟨-, hk⟩ | ⟨-, hk⟩
      · cases hk
        simp
    cases hk
  · simp
  · refine ⟨?_, ?_, ?_, ?_⟩ <;> rintro rfl <;> cases hk

end Punctuator

namespace Lexer

/-- What holds of every token scanned at the front of `b :: r`: it has a byte at least, ends inside
the text, is the byte that its kind stands for, and reaches to the end of a name. -/
structure Scan.Fits (b : UInt8) (r : Bytes) (s : Scan) : Prop where
  pos : 1 ≤ s.length
  le : s.length ≤ (b :: r).length
  mark {c : UInt8} : s.kind.mark? = some c → b = c ∧ s.length = 1
  name : s.kind = .identifier ∨ s.kind = .keyword →
    (isNameStart b = true ∨ b = byte '#') ∧ s.length = 1 + Bytes.run isNameByte r
  ne_eof : s.kind ≠ .eof

namespace Scan

/-- Scans whose kind stands for no byte, no name and no end fit as soon as their length does. -/
theorem Fits.of_length {b : UInt8} {r : Bytes} {s : Scan} (hp : 1 ≤ s.length)
    (hl : s.length ≤ (b :: r).length) (hk : s.kind.mark? = none) (hi : s.kind ≠ .identifier)
    (hw : s.kind ≠ .keyword) (he : s.kind ≠ .eof) : s.Fits b r where
  pos := hp
  le := hl
  mark h := by
    rw [hk] at h
    cases h
  name h := (h.elim hi hw).elim
  ne_eof := he

theorem fits_name (depths : List Nat) {b : UInt8} {r : Bytes}
    (hb : isNameStart b = true ∨ b = byte '#') : (name depths b r).Fits b r := by
  have hr := Bytes.run_le isNameByte r
  have hk : (name depths b r).kind = .keyword ∨ (name depths b r).kind = .identifier :=
    of_ite (P := fun k => k = Kind.keyword ∨ k = Kind.identifier) (fun _ => .inl rfl)
      (fun _ => .inr rfl)
  refine ⟨by simp [name, plain], by simp [name, plain]; omega, ?_, fun _ => ⟨hb, rfl⟩, ?_⟩
  · intro c hc
    rcases hk with hk | hk <;> rw [hk] at hc <;> cases hc
  · rcases hk with hk | hk <;> rw [hk] <;> simp

theorem fits_ofExtent (depths : List Nat) {kind : Kind} (cause : LexicalCause) {opening : Nat}
    {e : Literal.Extent} {b : UInt8} {r : Bytes} (hp : 1 ≤ opening + e.length)
    (hl : opening + e.length ≤ (b :: r).length) (hk : kind.mark? = none) (hi : kind ≠ .identifier)
    (hw : kind ≠ .keyword) (he : kind ≠ .eof) :
    (ofExtent depths kind cause opening e).Fits b r :=
  of_ite (fun _ => .of_length hp hl hk hi hw he)
    (fun _ => .of_length hp hl rfl (by simp [failed]) (by simp [failed]) (by simp [failed]))

theorem fits_templateStart (depths : List Nat) (b : UInt8) (r : Bytes) :
    (templateStart depths r).Fits b r := by
  have hl := Literal.templateFrom_length_le 0 false r
  unfold templateStart Literal.template
  dsimp only
  split <;> exact .of_length (by simp) (by simp; omega) rfl (by simp) (by simp) (by simp)

theorem fits_templateRest (outer : List Nat) (b : UInt8) (r : Bytes) :
    (templateRest outer r).Fits b r := by
  have hl := Literal.templateFrom_length_le 0 false r
  unfold templateRest Literal.template
  dsimp only
  split <;> exact .of_length (by simp) (by simp; omega) rfl (by simp) (by simp) (by simp)

theorem fits_plain (depths : List Nat) {b : UInt8} {r : Bytes} {kind : Kind} {n : Nat}
    (h : Punctuator.Scanned b r kind n) : (plain depths kind n).Fits b r where
  pos := h.length.1
  le := h.length.2
  mark := h.mark
  name hk := (hk.elim h.not_word.1 h.not_word.2.1).elim
  ne_eof := h.not_word.2.2.1

theorem fits_punctuator (depths : List Nat) (b : UInt8) (r : Bytes) :
    (punctuator depths b r).Fits b r := by
  unfold punctuator
  split
  · exact .of_length (le_refl 1) (by simp [failed]) rfl (by simp [failed]) (by simp [failed])
      (by simp [failed])
  · rename_i n hs
    have h := Punctuator.scan?_cases hs
    split <;> exact fits_plain _ h
  · rename_i n hs
    have h := Punctuator.scan?_cases hs
    split
    · exact fits_plain _ h
    · exact fits_templateRest _ b r
    · exact fits_plain _ h
  · rename_i kind n _ _ hs
    exact fits_plain _ (Punctuator.scan?_cases hs)

/-- Whatever token is scanned at the front of a text fits there. -/
theorem fits_token (regexAllowed : Bool) (depths : List Nat) (b : UInt8) (r : Bytes) :
    (token regexAllowed depths b r).Fits b r := by
  unfold token
  refine of_ite (fun hb => fits_name depths ?_) fun _ => of_ite (fun hb => ?_) fun _ =>
    of_ite (fun _ => ?_) fun _ => of_ite (fun _ => fits_templateStart depths b r) fun _ =>
    of_ite (fun _ => ?_) fun _ => fits_punctuator depths b r
  · rcases Bool.or_eq_true_iff.1 hb with hb | hb
    · exact .inl hb
    · exact .inr (of_decide_eq_true (Bool.and_eq_true_iff.1 hb).1)
  · have hd : isDigit b = true ∨ (b = byte '.' ∧ isDigit (r.headD 0) = true) := by
      rcases Bool.or_eq_true_iff.1 hb with hb | hb
      · exact .inl hb
      · have := Bool.and_eq_true_iff.1 hb
        exact .inr ⟨of_decide_eq_true this.1, this.2⟩
    have hp := Literal.number_pos hd
    have hl := Literal.number_le (b :: r)
    exact fits_ofExtent depths _ (by omega) (by omega) rfl (by simp) (by simp) (by simp)
  · have hl := Literal.quotedFrom_length_le b 0 r
    exact fits_ofExtent depths _ (by omega) (by simp [Literal.quoted]; omega) rfl (by simp)
      (by simp) (by simp)
  · have hl := Literal.regexFrom_length_le 0 false r
    exact fits_ofExtent depths _ (by omega) (by simp [Literal.regex]; omega) rfl (by simp)
      (by simp) (by simp)

end Scan

end Lexer

end JsxPresence
