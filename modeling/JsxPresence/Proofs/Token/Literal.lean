import Mathlib.Order.Bounds.Basic
import Mathlib.Order.Nat
import JsxPresence.Proofs.Token.Place

namespace JsxPresence

namespace Literal

/-- No backslash takes the byte at the offset along. -/
inductive Unescaped : Nat → Bytes → Prop
  | start (s : Bytes) : Unescaped 0 s
  | plain {b : UInt8} {n : Nat} {s : Bytes} (hb : b ≠ backslash) (h : Unescaped n s) :
      Unescaped (n + 1) (b :: s)
  | escape {c : UInt8} {n : Nat} {s : Bytes} (h : Unescaped n s) :
      Unescaped (n + 2) (backslash :: c :: s)

/-- The mark stands at the offset, outside of escapes. -/
def Stands (mark : Bytes) (n : Nat) (s : Bytes) : Prop := Unescaped n s ∧ mark <+: s.drop n

section Stands

variable {mark s : Bytes} {b c : UInt8} {n : Nat}

theorem stands_zero : Stands mark 0 s ↔ mark <+: s := and_iff_right (.start s)

theorem stands_cons (hb : b ≠ backslash) : Stands mark (n + 1) (b :: s) ↔ Stands mark n s := by
  refine and_congr_left fun _ => ⟨fun h => ?_, .plain hb⟩
  cases h with
  | plain _ h => exact h
  | escape h => exact absurd rfl hb

theorem stands_escape : Stands mark (n + 2) (backslash :: c :: s) ↔ Stands mark n s := by
  refine and_congr_left fun _ => ⟨fun h => ?_, .escape⟩
  cases h with
  | plain hb _ => exact absurd rfl hb
  | escape h => exact h

theorem not_stands_escaped : ¬Stands mark 1 (backslash :: s) := by
  intro h
  cases h.1 with
  | plain hb _ => exact hb rfl

/-- A backslash at the end of a text takes nothing along, and nothing stands behind it. -/
theorem stands_lone (h : Stands mark n [backslash]) : mark <+: [backslash] := by
  obtain ⟨hn, hmark⟩ := h
  cases hn with
  | start => exact hmark
  | plain hb _ => exact absurd rfl hb

theorem prefix_one : [b] <+: c :: s ↔ b = c := by simp

/-- The first byte of a text is never escaped. -/
theorem stands_first : Stands [b] 0 (c :: s) ↔ b = c := stands_zero.trans prefix_one

theorem not_stands_nil : ¬Stands (b :: mark) n [] := by
  intro h
  have hmark := h.2
  rw [List.drop_nil] at hmark
  exact absurd (List.prefix_nil.1 hmark) (List.cons_ne_nil b mark)

end Stands

/-- A scan that is to stop where a property holds first. It has found the text from there on, or it
is lost because there is no such place; offsets count from `k`. -/
def StopsAt {α : Type} (found : Nat → Bytes → α → Prop) (lost : α → Prop) (P : Nat → Prop) (k : Nat)
    (s : Bytes) (a : α) : Prop :=
  (∃ n, IsLeast {j | P j} n ∧ found (k + n) (s.drop n) a) ∨ ((∀ n, ¬P n) ∧ lost a)

section StopsAt

variable {α : Type} {found : Nat → Bytes → α → Prop} {lost : α → Prop} {P Q : Nat → Prop} {k : Nat}
  {s : Bytes} {a : α}

theorem StopsAt.here (hP : P 0) (h : found k s a) : StopsAt found lost P k s a :=
  .inl ⟨0, ⟨hP, fun _ _ => Nat.zero_le _⟩, h⟩

theorem StopsAt.nowhere (hP : ∀ n, ¬P n) (h : lost a) : StopsAt found lost P k s a := .inr ⟨hP, h⟩

/-- Bytes in front where the property does not hold change the offsets only. -/
theorem StopsAt.behind (front : Bytes) (h : StopsAt found lost P (k + front.length) s a)
    (hfront : ∀ j < front.length, ¬Q j) (hshift : ∀ j, Q (j + front.length) ↔ P j) :
    StopsAt found lost Q k (front ++ s) a := by
  have hback {j : Nat} (hj : Q j) : ∃ i, j = i + front.length ∧ P i := by
    have hle : front.length ≤ j := Nat.le_of_not_lt fun hlt => hfront j hlt hj
    refine ⟨j - front.length, (Nat.sub_add_cancel hle).symm, ?_⟩
    rwa [← hshift, Nat.sub_add_cancel hle]
  obtain ⟨n, ⟨hn, hleast⟩, hfound⟩ | ⟨hnone, hlost⟩ := h
  · left
    refine ⟨n + front.length, ⟨(hshift n).2 hn, fun j hj => ?_⟩, ?_⟩
    · obtain ⟨i, rfl, hi⟩ := hback hj
      exact Nat.add_le_add_right (hleast hi) _
    · have hdrop : (front ++ s).drop (n + front.length) = s.drop n := by
        rw [Nat.add_comm, List.drop_length_add_append]
      rw [hdrop, Nat.add_comm n, ← Nat.add_assoc]
      exact hfound
  · right
    refine ⟨fun j hj => ?_, hlost⟩
    obtain ⟨i, rfl, hi⟩ := hback hj
    exact hnone i hi

theorem StopsAt.cons (b : UInt8) (h : StopsAt found lost P (k + 1) s a) (h0 : ¬Q 0)
    (hshift : ∀ j, Q (j + 1) ↔ P j) : StopsAt found lost Q k (b :: s) a := by
  refine StopsAt.behind [b] h (fun j hj => ?_) hshift
  obtain rfl : j = 0 := Nat.lt_one_iff.1 hj
  exact h0

theorem StopsAt.cons₂ (b c : UInt8) (h : StopsAt found lost P (k + 2) s a) (h0 : ¬Q 0) (h1 : ¬Q 1)
    (hshift : ∀ j, Q (j + 2) ↔ P j) : StopsAt found lost Q k (b :: c :: s) a := by
  refine StopsAt.behind [b, c] h (fun j hj => ?_) hshift
  have hj : j < 2 := hj
  obtain rfl | rfl : j = 0 ∨ j = 1 := by omega
  · exact h0
  · exact h1

end StopsAt

/-- What may stand between the quotes of a string: bytes other than the quote, a newline or a
backslash, and backslashes together with the byte after them. -/
inductive IsBody (quote : UInt8) : Bytes → Prop
  | nil : IsBody quote []
  | plain {b : UInt8} {s : Bytes} (hq : b ≠ quote) (hn : b ≠ byte '\n') (hb : b ≠ backslash)
      (h : IsBody quote s) : IsBody quote (b :: s)
  | escape {c : UInt8} {s : Bytes} (h : IsBody quote s) : IsBody quote (backslash :: c :: s)

theorem quotedFrom_body {quote : UInt8} (hq : quote ≠ backslash) {body : Bytes}
    (h : IsBody quote body) (k : Nat) (r : Bytes) :
    quotedFrom quote k (body ++ quote :: r) = ⟨k + body.length + 1, true⟩ := by
  induction h generalizing k with
  | nil => cases r <;> simp [quotedFrom]
  | @plain b s hbq hn hb _ ih =>
    have hstep : quotedFrom quote k (b :: (s ++ quote :: r)) =
        quotedFrom quote (k + 1) (s ++ quote :: r) := by
      cases hs : s ++ quote :: r with
      | nil => simp at hs
      | cons c t => simp [quotedFrom, hbq, hn, hb]
    rw [List.cons_append, hstep, ih, List.length_cons, Nat.add_assoc k 1, Nat.add_comm 1]
  | @escape c s _ ih =>
    have hstep : quotedFrom quote k (backslash :: c :: (s ++ quote :: r)) =
        quotedFrom quote (k + 2) (s ++ quote :: r) := by
      have hn : backslash ≠ byte '\n' := by decide
      simp [quotedFrom, hq.symm, hn]
    rw [List.cons_append, List.cons_append, hstep, ih, List.length_cons, List.length_cons,
      Nat.add_assoc k 2, Nat.add_comm 2]

theorem exists_body {quote : UInt8} {k : Nat} {s : Bytes}
    (h : (quotedFrom quote k s).closed = true) :
    ∃ body r, IsBody quote body ∧ s = body ++ quote :: r := by
  fun_induction quotedFrom quote k s with
  | case1 => cases h
  | case2 => exact ⟨[], [], .nil, rfl⟩
  | case3 => cases h
  | case4 => cases h
  | case5 k c r => exact ⟨[], c :: r, .nil, rfl⟩
  | case6 => cases h
  | case7 k c r _ _ ih =>
    obtain ⟨body, t, hbody, rfl⟩ := ih h
    exact ⟨backslash :: c :: body, t, .escape hbody, rfl⟩
  | case8 k b c r hq hn hb ih =>
    obtain ⟨body, t, hbody, hs⟩ := ih h
    exact ⟨b :: body, t, .plain hq hn hb hbody, by rw [hs]; rfl⟩

/-- How a part of a template is seen to end. -/
def TemplateEnd.mark : TemplateEnd → Bytes
  | closed => [backquote]
  | substitution => [byte '$', openBrace]
  | unterminated => []

/-- A part of a template ends where a quote or a substitution is not escaped. -/
def EndsPart (s : Bytes) (n : Nat) : Prop :=
  Stands TemplateEnd.closed.mark n s ∨ Stands TemplateEnd.substitution.mark n s

theorem endsPart_zero {s : Bytes} : EndsPart s 0 ↔
    TemplateEnd.closed.mark <+: s ∨ TemplateEnd.substitution.mark <+: s :=
  or_congr stands_zero stands_zero

theorem endsPart_cons {b : UInt8} (hb : b ≠ backslash) {s : Bytes} {n : Nat} :
    EndsPart (b :: s) (n + 1) ↔ EndsPart s n := or_congr (stands_cons hb) (stands_cons hb)

theorem endsPart_escape {c : UInt8} {s : Bytes} {n : Nat} :
    EndsPart (backslash :: c :: s) (n + 2) ↔ EndsPart s n := or_congr stands_escape stands_escape

theorem not_endsPart_nil (n : Nat) : ¬EndsPart [] n := not_or.2 ⟨not_stands_nil, not_stands_nil⟩

/-- A part that ends in the text from offset `n` on. -/
def TemplatePart.EndsAt (n : Nat) (s : Bytes) (p : TemplatePart) : Prop :=
  p.ending ≠ .unterminated ∧ p.ending.mark <+: s ∧ p.length = n + p.ending.mark.length

theorem templateFrom_stops (k : Nat) (newline : Bool) (s : Bytes) :
    StopsAt TemplatePart.EndsAt (·.ending = .unterminated) (EndsPart s) k s
      (templateFrom k newline s) := by
  fun_induction templateFrom k newline s with
  | case1 k newline => exact .nowhere not_endsPart_nil rfl
  | case2 k newline =>
    refine .nowhere (fun n hn => ?_) rfl
    rcases hn with hn | hn
    · exact absurd (stands_lone hn) (by decide)
    · exact absurd (stands_lone hn) (by decide)
  | case3 k newline hb =>
    have hmark : TemplateEnd.closed.mark <+: [backquote] := List.prefix_refl _
    exact .here (endsPart_zero.2 (.inl hmark)) ⟨by simp, hmark, rfl⟩
  | case4 k newline b hb hq =>
    have h0 : ¬EndsPart [b] 0 := by
      rw [endsPart_zero]
      simp [TemplateEnd.mark, Ne.symm hq]
    exact StopsAt.cons b (.nowhere not_endsPart_nil rfl) h0 fun j => endsPart_cons hb
  | case5 k newline c r ih =>
    have h0 : ¬EndsPart (backslash :: c :: r) 0 := by
      rw [endsPart_zero]
      rintro (hmark | hmark)
      · exact absurd (List.cons_prefix_cons.1 hmark).1 (by decide)
      · exact absurd (List.cons_prefix_cons.1 hmark).1 (by decide)
    exact StopsAt.cons₂ backslash c ih h0 (not_or.2 ⟨not_stands_escaped, not_stands_escaped⟩)
      fun j => endsPart_escape
  | case6 k newline c r hb =>
    have hmark : TemplateEnd.closed.mark <+: backquote :: c :: r := ⟨c :: r, rfl⟩
    exact .here (endsPart_zero.2 (.inl hmark)) ⟨by simp, hmark, rfl⟩
  | case7 k newline b c r hb hq hs =>
    obtain ⟨rfl, rfl⟩ : b = byte '$' ∧ c = openBrace := by simpa using hs
    have hmark : TemplateEnd.substitution.mark <+: byte '$' :: openBrace :: r := ⟨r, rfl⟩
    exact .here (endsPart_zero.2 (.inr hmark)) ⟨by simp, hmark, rfl⟩
  | case8 k newline b c r hb hq hs ih =>
    have hs : ¬(b = byte '$' ∧ c = openBrace) := by simpa using hs
    have h0 : ¬EndsPart (b :: c :: r) 0 := by
      rw [endsPart_zero]
      rintro (hmark | hmark)
      · exact hq (prefix_one.1 hmark).symm
      · obtain ⟨hd, hbrace⟩ := List.cons_prefix_cons.1 hmark
        exact hs ⟨hd.symm, (prefix_one.1 hbrace).symm⟩
    exact StopsAt.cons b ih h0 fun j => endsPart_cons hb

/-- No `]` stands from offset `i` up to offset `n`. -/
def Unclosed (s : Bytes) (i n : Nat) : Prop := ∀ j, i ≤ j → j < n → ¬Stands [byte ']'] j s

/-- The offset lies in a character class, behind a `[` and no `]` after that. `isOpen` tells whether
the text starts in a class already. -/
def InClass (isOpen : Bool) (s : Bytes) (n : Nat) : Prop :=
  (∃ k < n, Stands [byte '['] k s ∧ Unclosed s k n) ∨ (isOpen = true ∧ Unclosed s 0 n)

/-- A regular expression ends at a slash that is neither escaped nor in a class, if no newline comes
first. -/
def EndsRegex (isOpen : Bool) (s : Bytes) (n : Nat) : Prop :=
  Stands [byte '/'] n s ∧ byte '\n' ∉ s.take n ∧ ¬InClass isOpen s n

theorem unclosed_cons {b : UInt8} (hb : b ≠ backslash) {s : Bytes} {i n : Nat} :
    Unclosed (b :: s) (i + 1) (n + 1) ↔ Unclosed s i n := by
  constructor
  · intro h j hi hj hs
    exact h (j + 1) (by omega) (by omega) ((stands_cons hb).2 hs)
  · intro h j hi hj hs
    obtain ⟨j, rfl⟩ : ∃ m, j = m + 1 := ⟨j - 1, by omega⟩
    exact h j (by omega) (by omega) ((stands_cons hb).1 hs)

theorem unclosed_zero_cons {b : UInt8} (hb : b ≠ backslash) {s : Bytes} {n : Nat} :
    Unclosed (b :: s) 0 (n + 1) ↔ b ≠ byte ']' ∧ Unclosed s 0 n := by
  constructor
  · intro h
    refine ⟨?_, (unclosed_cons hb).1 fun j _ hj => h j (Nat.zero_le j) hj⟩
    rintro rfl
    exact h 0 (Nat.le_refl 0) (Nat.succ_pos n) (stands_first.2 rfl)
  · rintro ⟨hne, h⟩ j - hj hs
    rcases j with _ | j
    · exact hne (stands_first.1 hs).symm
    · exact (unclosed_cons hb).2 h (j + 1) (by omega) hj hs

theorem unclosed_escape {c : UInt8} {s : Bytes} {i n : Nat} :
    Unclosed (backslash :: c :: s) (i + 2) (n + 2) ↔ Unclosed s i n := by
  constructor
  · intro h j hi hj hs
    exact h (j + 2) (by omega) (by omega) (stands_escape.2 hs)
  · intro h j hi hj hs
    obtain ⟨j, rfl⟩ : ∃ m, j = m + 2 := ⟨j - 2, by omega⟩
    exact h j (by omega) (by omega) (stands_escape.1 hs)

theorem unclosed_zero_escape {c : UInt8} {s : Bytes} {n : Nat} :
    Unclosed (backslash :: c :: s) 0 (n + 2) ↔ Unclosed s 0 n := by
  constructor
  · intro h
    exact unclosed_escape.1 fun j _ hj => h j (Nat.zero_le j) hj
  · intro h j _ hj hs
    rcases j with _ | _ | j
    · exact absurd (stands_first.1 hs) (by decide)
    · exact not_stands_escaped hs
    · exact unclosed_escape.2 h (j + 2) (by omega) hj hs

/-- Whether a class is open behind a byte that is not escaped. -/
def classBehind (isOpen : Bool) (b : UInt8) : Bool :=
  if b = byte '[' then true else if b = byte ']' then false else isOpen

theorem inClass_cons {isOpen : Bool} {b : UInt8} (hb : b ≠ backslash) {s : Bytes} {n : Nat} :
    InClass isOpen (b :: s) (n + 1) ↔ InClass (classBehind isOpen b) s n := by
  have hopen : (∃ k < n + 1, Stands [byte '['] k (b :: s) ∧ Unclosed (b :: s) k (n + 1)) ↔
      (b = byte '[' ∧ Unclosed s 0 n) ∨ ∃ k < n, Stands [byte '['] k s ∧ Unclosed s k n := by
    rw [Nat.exists_lt_succ_left]
    refine or_congr ?_ (exists_congr fun k => ?_)
    · rw [stands_first, eq_comm, unclosed_zero_cons hb]
      refine and_congr_right fun h => and_iff_right ?_
      rw [h]
      decide
    · rw [stands_cons hb, unclosed_cons hb]
  unfold InClass classBehind
  rw [hopen, unclosed_zero_cons hb]
  generalize (∃ k < n, Stands [byte '['] k s ∧ Unclosed s k n) = inside
  split
  next h =>
    have hne : b ≠ byte ']' := by
      rw [h]
      decide
    tauto
  next h =>
    split
    next hclose => tauto
    next hclose => tauto

theorem inClass_escape {isOpen : Bool} {c : UInt8} {s : Bytes} {n : Nat} :
    InClass isOpen (backslash :: c :: s) (n + 2) ↔ InClass isOpen s n := by
  refine or_congr ?_ (and_congr_right fun _ => unclosed_zero_escape)
  constructor
  · rintro ⟨k, hk, hs, hclosed⟩
    rcases k with _ | _ | k
    · exact absurd (stands_first.1 hs) (by decide)
    · exact absurd hs not_stands_escaped
    · exact ⟨k, by omega, stands_escape.1 hs, unclosed_escape.1 hclosed⟩
  · rintro ⟨k, hk, hs, hclosed⟩
    exact ⟨k + 2, by omega, stands_escape.2 hs, unclosed_escape.2 hclosed⟩

theorem inClass_zero {isOpen : Bool} {s : Bytes} : InClass isOpen s 0 ↔ isOpen = true := by
  simp [InClass, Unclosed]

theorem endsRegex_zero {isOpen : Bool} {b : UInt8} {s : Bytes} :
    EndsRegex isOpen (b :: s) 0 ↔ b = byte '/' ∧ isOpen = false := by
  unfold EndsRegex
  rw [stands_first, eq_comm, inClass_zero]
  simp

theorem endsRegex_cons {isOpen : Bool} {b : UInt8} (hb : b ≠ backslash) (hn : b ≠ byte '\n')
    {s : Bytes} {n : Nat} :
    EndsRegex isOpen (b :: s) (n + 1) ↔ EndsRegex (classBehind isOpen b) s n := by
  unfold EndsRegex
  rw [stands_cons hb, inClass_cons hb, List.take_succ_cons, List.mem_cons,
    or_iff_right (Ne.symm hn)]

theorem endsRegex_escape {isOpen : Bool} {c : UInt8} (hn : c ≠ byte '\n') {s : Bytes} {n : Nat} :
    EndsRegex isOpen (backslash :: c :: s) (n + 2) ↔ EndsRegex isOpen s n := by
  have hb : byte '\n' ≠ backslash := by decide
  unfold EndsRegex
  rw [stands_escape, inClass_escape, List.take_succ_cons, List.take_succ_cons, List.mem_cons,
    List.mem_cons, or_iff_right hb, or_iff_right (Ne.symm hn)]

theorem not_endsRegex_nil {isOpen : Bool} (n : Nat) : ¬EndsRegex isOpen [] n :=
  fun h => not_stands_nil h.1

theorem not_endsRegex_newline {isOpen : Bool} {s : Bytes} (n : Nat) :
    ¬EndsRegex isOpen (byte '\n' :: s) n := by
  intro h
  rcases n with _ | n
  · exact absurd (endsRegex_zero.1 h).1 (by decide)
  · exact h.2.1 List.mem_cons_self

theorem not_endsRegex_lone {isOpen : Bool} (n : Nat) : ¬EndsRegex isOpen [backslash] n :=
  fun h => absurd (prefix_one.1 (stands_lone h.1)) (by decide)

/-- An escape is of no use for a newline. -/
theorem not_endsRegex_escaped {isOpen : Bool} {s : Bytes} (n : Nat) :
    ¬EndsRegex isOpen (backslash :: byte '\n' :: s) n := by
  intro h
  rcases n with _ | _ | n
  · exact absurd (endsRegex_zero.1 h).1 (by decide)
  · exact not_stands_escaped h.1
  · exact h.2.1 (List.mem_cons_of_mem _ List.mem_cons_self)

/-- A regular expression that ends in the text from offset `n` on; names and digits right behind the
slash belong to it. -/
def Extent.EndsRegexAt (n : Nat) (s : Bytes) (e : Extent) : Prop :=
  e.closed = true ∧ e.length = n + 1 + Bytes.run isNameByte s.tail

theorem regexFrom_stops (k : Nat) (isOpen : Bool) (s : Bytes) :
    StopsAt Extent.EndsRegexAt (·.closed = false) (EndsRegex isOpen s) k s
      (regexFrom k isOpen s) := by
  fun_induction regexFrom k isOpen s with
  | case1 k isOpen => exact .nowhere not_endsRegex_nil rfl
  | case2 k isOpen => exact .nowhere not_endsRegex_newline rfl
  | case3 k isOpen b hn hs =>
    obtain ⟨rfl, rfl⟩ : b = byte '/' ∧ isOpen = false := by simpa using hs
    exact .here (endsRegex_zero.2 ⟨rfl, rfl⟩) ⟨rfl, rfl⟩
  | case4 k isOpen b hn hs =>
    by_cases hb : b = backslash
    · rw [hb]
      exact .nowhere not_endsRegex_lone rfl
    · have h0 : ¬EndsRegex isOpen [b] 0 := by
        rw [endsRegex_zero]
        simpa using hs
      exact StopsAt.cons b (.nowhere not_endsRegex_nil rfl) h0 fun j => endsRegex_cons hb hn
  | case5 k isOpen c r => exact .nowhere not_endsRegex_newline rfl
  | case6 k isOpen r hn => exact .nowhere not_endsRegex_escaped rfl
  | case7 k isOpen c r hn _ ih =>
    have h0 : ¬EndsRegex isOpen (backslash :: c :: r) 0 := fun h =>
      absurd (endsRegex_zero.1 h).1 (by decide)
    exact StopsAt.cons₂ backslash c ih h0 (fun h => not_stands_escaped h.1)
      fun j => endsRegex_escape hn
  | case8 k isOpen c r hn hb ih =>
    have h0 : ¬EndsRegex isOpen (byte '[' :: c :: r) 0 := fun h =>
      absurd (endsRegex_zero.1 h).1 (by decide)
    exact StopsAt.cons (byte '[') ih h0 fun j => endsRegex_cons hb hn
  | case9 k isOpen c r hn hb _ ih =>
    have h0 : ¬EndsRegex isOpen (byte ']' :: c :: r) 0 := fun h =>
      absurd (endsRegex_zero.1 h).1 (by decide)
    exact StopsAt.cons (byte ']') ih h0 fun j => endsRegex_cons hb hn
  | case10 k isOpen b c r hn hb ho hc hs =>
    obtain ⟨rfl, rfl⟩ : b = byte '/' ∧ isOpen = false := by simpa using hs
    exact .here (endsRegex_zero.2 ⟨rfl, rfl⟩) ⟨rfl, rfl⟩
  | case11 k isOpen b c r hn hb ho hc hs ih =>
    have h0 : ¬EndsRegex isOpen (b :: c :: r) 0 := by
      rw [endsRegex_zero]
      simpa using hs
    have hclass : classBehind isOpen b = isOpen := by
      rw [classBehind, if_neg ho, if_neg hc]
    have hshift (j : Nat) := @endsRegex_cons isOpen b hb hn (c :: r) j
    rw [hclass] at hshift
    exact StopsAt.cons b ih h0 hshift

end Literal

namespace Lexer

open Literal

/-- A string at the front of the text: how long it is. -/
inductive StringEnds (quote : UInt8) (s : Bytes) : Kind → Nat → Prop
  | intro {body : Bytes} (hbody : IsBody quote body) (h : quote :: (body ++ [quote]) <+: s) :
      StringEnds quote s .string (body.length + 2)

/-- A part of a template at the front of the text, behind a quote or the brace of a substitution: it
is `last` in its template, or there are `more`. -/
inductive PartEnds (last more : Kind) (s : Bytes) : Kind → Nat → Prop
  | closed {n : Nat} (h : IsLeast {j | EndsPart s.tail j} n)
      (hmark : TemplateEnd.closed.mark <+: s.tail.drop n) : PartEnds last more s last (n + 2)
  | substitution {n : Nat} (h : IsLeast {j | EndsPart s.tail j} n)
      (hmark : TemplateEnd.substitution.mark <+: s.tail.drop n) :
      PartEnds last more s more (n + 3)

/-- A regular expression at the front of the text, flags included. -/
inductive RegexEnds (s : Bytes) : Kind → Nat → Prop
  | intro {n : Nat} (h : IsLeast {j | EndsRegex false s.tail j} n) :
      RegexEnds s .regex (n + 2 + Bytes.run isNameByte (s.tail.drop (n + 1)))

/-- Where a part can end, there is a first place where it does, and it ends in the way that is seen
there. -/
theorem exists_partEnds {last more : Kind} {s : Bytes} :
    (∃ kind n, PartEnds last more s kind n) ↔ ∃ n, EndsPart s.tail n := by
  classical
  constructor
  · rintro ⟨kind, n, h⟩
    cases h with
    | closed h => exact ⟨_, h.1⟩
    | substitution h => exact ⟨_, h.1⟩
  · intro h
    have hleast := Nat.isLeast_find h
    rcases hleast.1 with hmark | hmark
    · exact ⟨_, _, .closed hleast hmark.2⟩
    · exact ⟨_, _, .substitution hleast hmark.2⟩

theorem exists_regexEnds {s : Bytes} :
    (∃ kind n, RegexEnds s kind n) ↔ ∃ n, EndsRegex false s.tail n := by
  classical
  constructor
  · rintro ⟨kind, n, ⟨h⟩⟩
    exact ⟨_, h.1⟩
  · intro h
    exact ⟨_, _, .intro (Nat.isLeast_find h)⟩

/-- The scan finds the end there is, or tells the cause if there is none. -/
def Scan.Finds (cause : LexicalCause) (ends : Kind → Nat → Prop) (s : Scan) : Prop :=
  (s.kind ≠ .error ∧ s.cause = none ∧ ∀ kind n, ends kind n ↔ kind = s.kind ∧ n = s.length) ∨
    (s.kind = .error ∧ s.cause = some cause ∧ ∀ kind n, ¬ends kind n)

namespace Scan

theorem finds_quoted (depths : List Nat) {quote : UInt8} (hq : quote ≠ backslash) (r : Bytes) :
    (ofExtent depths .string .unterminatedString 1 (Literal.quoted quote r)).Finds
      .unterminatedString (StringEnds quote (quote :: r)) := by
  have hends {kind : Kind} {n : Nat} (h : StringEnds quote (quote :: r) kind n) :
      kind = .string ∧ ∃ m, n = 1 + m ∧ Literal.quoted quote r = ⟨m, true⟩ := by
    obtain ⟨hbody, h⟩ := h
    rename_i body
    obtain ⟨t, rfl⟩ := (List.cons_prefix_cons.1 h).2
    refine ⟨rfl, body.length + 1, by omega, ?_⟩
    rw [List.append_assoc]
    exact (quotedFrom_body hq hbody 0 t).trans (by rw [Nat.zero_add])
  cases hc : (Literal.quoted quote r).closed with
  | false =>
    right
    rw [ofExtent, hc]
    refine ⟨rfl, rfl, fun kind n h => ?_⟩
    obtain ⟨-, m, -, hm⟩ := hends h
    rw [hm] at hc
    cases hc
  | true =>
    left
    obtain ⟨body, t, hbody, rfl⟩ := exists_body hc
    have hfirst : StringEnds quote (quote :: (body ++ quote :: t)) .string (body.length + 2) :=
      .intro hbody ⟨t, by simp⟩
    obtain ⟨-, m, hm, hquoted⟩ := hends hfirst
    rw [ofExtent, hquoted]
    refine ⟨by simp [plain], rfl, fun kind n => ⟨fun h => ?_, ?_⟩⟩
    · obtain ⟨hkind, i, hi, hquoted'⟩ := hends h
      rw [hquoted] at hquoted'
      cases hquoted'
      exact ⟨hkind, hi⟩
    · rintro ⟨rfl, rfl⟩
      change StringEnds _ _ .string (1 + m)
      rw [← hm]
      exact hfirst

theorem finds_part {last more : Kind} (hlast : last ≠ .error) (hmore : more ≠ .error) {s : Scan}
    (b : UInt8) {r : Bytes} (hlength : s.length = 1 + (template r).length)
    (hclosed : (template r).ending = .closed → s.kind = last ∧ s.cause = none)
    (hsubstitution : (template r).ending = .substitution → s.kind = more ∧ s.cause = none)
    (hunterminated : (template r).ending = .unterminated →
      s.kind = .error ∧ s.cause = some .unterminatedTemplate) :
    s.Finds .unterminatedTemplate (PartEnds last more (b :: r)) := by
  have hmarks {t : Bytes} (h : TemplateEnd.closed.mark <+: t)
      (h' : TemplateEnd.substitution.mark <+: t) : False := by
    obtain ⟨t, rfl⟩ := h
    exact absurd (List.cons_prefix_cons.1 h').1 (by decide)
  obtain ⟨n, hleast, hending, hmark, hn⟩ | ⟨hnone, hending⟩ := templateFrom_stops 0 false r
  · left
    rw [← template] at hending hmark hn
    rw [hn, Nat.zero_add] at hlength
    cases he : (template r).ending with
    | closed =>
      obtain ⟨hkind, hcause⟩ := hclosed he
      rw [he] at hmark hlength
      have hlength : s.length = n + 2 := by
        rw [hlength, TemplateEnd.mark, List.length_singleton, Nat.add_comm]
      rw [hkind, hlength]
      refine ⟨hlast, hcause, fun kind m => ⟨fun h => ?_, ?_⟩⟩
      · cases h with
        | closed h _ => exact ⟨rfl, by rw [h.unique hleast]⟩
        | substitution h hmark' =>
          rw [h.unique hleast] at hmark'
          exact (hmarks hmark hmark').elim
      · rintro ⟨rfl, rfl⟩
        exact .closed hleast hmark
    | substitution =>
      obtain ⟨hkind, hcause⟩ := hsubstitution he
      rw [he] at hmark hlength
      have hlength : s.length = n + 3 := by
        rw [hlength, TemplateEnd.mark, List.length_cons, List.length_singleton, Nat.add_comm]
      rw [hkind, hlength]
      refine ⟨hmore, hcause, fun kind m => ⟨fun h => ?_, ?_⟩⟩
      · cases h with
        | closed h hmark' =>
          rw [h.unique hleast] at hmark'
          exact (hmarks hmark' hmark).elim
        | substitution h _ => exact ⟨rfl, by rw [h.unique hleast]⟩
      · rintro ⟨rfl, rfl⟩
        exact .substitution hleast hmark
    | unterminated => exact absurd he hending
  · right
    obtain ⟨hkind, hcause⟩ := hunterminated hending
    refine ⟨hkind, hcause, fun kind m h => ?_⟩
    cases h with
    | closed h => exact hnone _ h.1
    | substitution h => exact hnone _ h.1

theorem finds_templateStart (depths : List Nat) (b : UInt8) (r : Bytes) :
    (templateStart depths r).Finds .unterminatedTemplate
      (PartEnds .template .templateHead (b :: r)) := by
  apply finds_part (by simp) (by simp) b
  · unfold templateStart
    dsimp only
    split <;> rfl
  · intro h
    simp [templateStart, h]
  · intro h
    simp [templateStart, h]
  · intro h
    simp [templateStart, h]

theorem finds_templateRest (outer : List Nat) (b : UInt8) (r : Bytes) :
    (templateRest outer r).Finds .unterminatedTemplate
      (PartEnds .templateTail .templateMiddle (b :: r)) := by
  apply finds_part (by simp) (by simp) b
  · unfold templateRest
    dsimp only
    split <;> rfl
  · intro h
    simp [templateRest, h]
  · intro h
    simp [templateRest, h]
  · intro h
    simp [templateRest, h]

theorem finds_regex (depths : List Nat) (b : UInt8) (r : Bytes) :
    (ofExtent depths .regex .unterminatedRegex 1 (Literal.regex r)).Finds .unterminatedRegex
      (RegexEnds (b :: r)) := by
  obtain ⟨n, hleast, hclosed, hn⟩ | ⟨hnone, hclosed⟩ := regexFrom_stops 0 false r
  · left
    rw [← Literal.regex] at hclosed hn
    rw [ofExtent, if_pos hclosed]
    have hlength : 1 + (Literal.regex r).length =
        n + 2 + Bytes.run isNameByte (r.drop (n + 1)) := by
      rw [hn, List.tail_drop]
      omega
    rw [hlength]
    refine ⟨by simp [plain], rfl, fun kind m => ⟨fun h => ?_, ?_⟩⟩
    · obtain ⟨h⟩ := h
      rw [h.unique hleast]
      exact ⟨rfl, rfl⟩
    · rintro ⟨rfl, rfl⟩
      exact .intro hleast
  · right
    rw [← Literal.regex] at hclosed
    rw [ofExtent, hclosed]
    refine ⟨rfl, rfl, fun kind m h => ?_⟩
    obtain ⟨h⟩ := h
    exact hnone _ h.1

/-- Literals are told by their first byte. -/
theorem token_quoted (regexAllowed : Bool) (depths : List Nat) {quote : UInt8}
    (h : quote = doubleQuote ∨ quote = singleQuote) (r : Bytes) :
    token regexAllowed depths quote r =
      ofExtent depths .string .unterminatedString 1 (Literal.quoted quote r) := by
  rcases h with rfl | rfl <;> rfl

theorem token_backquote (regexAllowed : Bool) (depths : List Nat) (r : Bytes) :
    token regexAllowed depths backquote r = templateStart depths r := rfl

theorem token_slash (depths : List Nat) (r : Bytes) :
    token true depths (byte '/') r =
      ofExtent depths .regex .unterminatedRegex 1 (Literal.regex r) := rfl

theorem token_closeBrace (regexAllowed : Bool) (outer : List Nat) (r : Bytes) :
    token regexAllowed (0 :: outer) closeBrace r = templateRest outer r := rfl

end Scan

variable {text : Bytes}

/-- What the lexer gives where a literal starts: a token exactly if the literal ends, of the kind
that tells how it ends, which reaches to that end; otherwise an error, and a token that stands for
it. -/
structure Exact (lx : Lexer text) (cause : LexicalCause) (ends : Kind → Nat → Prop)
    (found : Token × Lexer text) : Prop where
  accepted : found.1.kind ≠ .error ↔ ∃ kind n, ends kind n
  reaches (kind : Kind) (n : Nat) : ends kind n →
    found.1.kind = kind ∧ found.1.lexeme = text.slice lx.pos (lx.pos + n) ∧
      found.1.span = .ofOffsets lx.pos (lx.pos + n) ∧ found.2.pos = lx.pos + n ∧
      found.2.errors = lx.errors
  rejected : (∀ kind n, ¬ends kind n) → found.2.errors = lx.errors ++ [⟨cause, found.1.span⟩]

theorem exact_emit (lx : Lexer text) {cause : LexicalCause} {ends : Kind → Nat → Prop} {s : Scan}
    (h : s.Finds cause ends) : lx.Exact cause ends (lx.emit s) := by
  obtain ⟨hkind, hcause, hends⟩ | ⟨hkind, hcause, hnone⟩ := h
  · have hfirst : ends s.kind s.length := (hends _ _).2 ⟨rfl, rfl⟩
    refine ⟨iff_of_true hkind ⟨_, _, hfirst⟩, fun kind n h => ?_, fun h => absurd hfirst (h _ _)⟩
    obtain ⟨rfl, rfl⟩ := (hends kind n).1 h
    exact ⟨rfl, emit_lexeme lx s, rfl, rfl, by simp [emit, hcause]⟩
  · refine ⟨iff_of_false (not_not.2 hkind) ?_, fun kind n h => absurd h (hnone kind n), fun _ => ?_⟩
    · rintro ⟨kind, n, h⟩
      exact hnone kind n h
    · simp [emit, hcause]

/-- Literals are read exactly, wherever they start. A string ends at the quote behind a body that is
one of a string, a part of a template at the first quote or substitution that is not escaped, and a
regular expression at the first slash that is neither escaped nor in a class, on the same line, with
the names and digits right behind it. The token reaches to that end; where there is none, a single
error tells of it. -/
theorem literals_exact (lx : Lexer text) {b : UInt8} {r : Bytes} (hr : lx.rest = b :: r) :
    let found := lx.emit (Scan.token lx.regexAllowed lx.depths b r)
    (b = doubleQuote ∨ b = singleQuote →
      lx.Exact .unterminatedString (StringEnds b lx.rest) found) ∧
    (b = backquote →
      lx.Exact .unterminatedTemplate (PartEnds .template .templateHead lx.rest) found ∧
        (found.1.kind ≠ .error ↔ ∃ n, EndsPart r n)) ∧
    (b = closeBrace → lx.depths.head? = some 0 →
      lx.Exact .unterminatedTemplate (PartEnds .templateTail .templateMiddle lx.rest) found ∧
        (found.1.kind ≠ .error ↔ ∃ n, EndsPart r n)) ∧
    (b = byte '/' → lx.regexAllowed = true →
      lx.Exact .unterminatedRegex (RegexEnds lx.rest) found ∧
        (found.1.kind ≠ .error ↔ ∃ n, EndsRegex false r n)) := by
  intro found
  have parts {last more : Kind}
      (h : (Scan.token lx.regexAllowed lx.depths b r).Finds .unterminatedTemplate
        (PartEnds last more (b :: r))) :
      lx.Exact .unterminatedTemplate (PartEnds last more (b :: r)) found ∧
        (found.1.kind ≠ .error ↔ ∃ n, EndsPart r n) :=
    ⟨exact_emit lx h, (exact_emit lx h).accepted.trans exists_partEnds⟩
  rw [hr]
  refine ⟨fun hb => exact_emit lx ?_, fun hb => parts ?_, fun hb hd => parts ?_, fun hb ha => ?_⟩
  · rw [Scan.token_quoted _ _ hb]
    exact Scan.finds_quoted _ (by rcases hb with rfl | rfl <;> decide) r
  · rw [hb, Scan.token_backquote]
    exact Scan.finds_templateStart _ _ r
  · obtain ⟨outer, hd⟩ := List.head?_eq_some_iff.1 hd
    rw [hb, hd, Scan.token_closeBrace]
    exact Scan.finds_templateRest _ _ r
  · have hfinds : (Scan.token lx.regexAllowed lx.depths b r).Finds .unterminatedRegex
        (RegexEnds (b :: r)) := by
      rw [hb, ha, Scan.token_slash]
      exact Scan.finds_regex _ _ r
    exact ⟨exact_emit lx hfinds, (exact_emit lx hfinds).accepted.trans exists_regexEnds⟩

/-- A slash in a class, an escaped one, and one that ends the expression. -/
def classText : Bytes := utf8 "/[/]\\/a/gi/b"

theorem literals_exact_classText :
    (start classText).rest = byte '/' :: classText.tail ∧ (start classText).regexAllowed = true ∧
      ∃ n, RegexEnds (start classText).rest .regex n ∧
        classText.slice 0 n = utf8 "/[/]\\/a/gi" ∧
        ((start classText).emit (Scan.token true [] (byte '/') classText.tail)).1.lexeme =
          classText.slice 0 n := by
  have hrest : (start classText).rest = byte '/' :: classText.tail := by decide +kernel
  have hpos : (start classText).pos = 0 := by decide +kernel
  have hkind : ((start classText).emit (Scan.token true [] (byte '/') classText.tail)).1.kind =
    .regex := by decide +kernel
  have htext : ((start classText).emit (Scan.token true [] (byte '/') classText.tail)).1.lexeme =
    utf8 "/[/]\\/a/gi" := by decide +kernel
  obtain ⟨hexact, -⟩ := (literals_exact (start classText) hrest).2.2.2 rfl rfl
  obtain ⟨kind, n, hends⟩ := hexact.accepted.1 fun h => absurd (hkind.symm.trans h) (by decide)
  obtain ⟨hk, hlexeme, -⟩ := hexact.reaches kind n hends
  obtain rfl : kind = .regex := hk.symm.trans hkind
  rw [hpos, Nat.zero_add] at hlexeme
  exact ⟨hrest, rfl, n, hends, hlexeme.symm.trans htext, hlexeme⟩

end Lexer

end JsxPresence
