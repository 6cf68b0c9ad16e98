import JsxPresence.Proofs.Token.Layers
import JsxPresence.Proofs.Token.Literal
import JsxPresence.Proofs.Token.Partition

namespace JsxPresence

/-- A scanner has passed over a piece of the text, from offset `n` on, and its mark is set if it was
set before or the piece has the property. -/
def Sees (P : Bytes → Prop) (n : Nat) (mark : Bool) (s : Bytes) (length : Nat) (seen : Bool) :
    Prop :=
  ∃ m, length = n + m ∧ (seen = true ↔ mark = true ∨ P (s.take m))

section Sees

variable {P : Bytes → Prop} {n length : Nat} {mark mark' seen : Bool} {s : Bytes}

/-- Where a scanner stops, it has passed over nothing more. -/
theorem Sees.here (hP : ¬P []) : Sees P n mark s n mark := ⟨0, rfl, (or_iff_left hP).symm⟩

/-- What was passed behind some bytes, together with these bytes. -/
theorem Sees.behind (front : Bytes) (h : Sees P (n + front.length) mark' s length seen)
    (hfront : ∀ f, mark' = true ∨ P f ↔ mark = true ∨ P (front ++ f)) :
    Sees P n mark (front ++ s) length seen := by
  obtain ⟨m, hlength, hseen⟩ := h
  refine ⟨front.length + m, by omega, ?_⟩
  rw [List.take_length_add_append, ← hfront]
  exact hseen

end Sees

/-- A mark that a byte sets if it is a newline. -/
theorem mark_newline {mark : Bool} {b : UInt8} :
    (mark || decide (b = byte '\n')) = true ↔ mark = true ∨ byte '\n' = b := by
  rw [Bool.or_eq_true, decide_eq_true_iff, @eq_comm _ b]

namespace Trivia

theorem sees_behind {n length : Nat} {mark mark' seen : Bool} {s : Bytes} (front : Bytes)
    (h : Sees (byte '\n' ∈ ·) (n + front.length) mark' s length seen)
    (hfront : mark' = true ↔ mark = true ∨ byte '\n' ∈ front) :
    Sees (byte '\n' ∈ ·) n mark (front ++ s) length seen :=
  h.behind front fun f => by rw [hfront, List.mem_append, or_assoc]

theorem scanFrom_sees (region : Region) (n : Nat) (mark : Bool) (s : Bytes) :
    Sees (byte '\n' ∈ ·) n mark s (scanFrom region n mark s).length
      (scanFrom region n mark s).newline := by
  have here (n : Nat) (mark : Bool) (s : Bytes) : Sees (byte '\n' ∈ ·) n mark s n mark :=
    .here List.not_mem_nil
  have quiet {b : UInt8} {mark : Bool} (h : byte '\n' ≠ b) :
      mark = true ↔ mark = true ∨ byte '\n' ∈ [b] :=
    (or_iff_left (mt List.mem_singleton.1 h)).symm
  have hblank {b : UInt8} (h : isBlank b = true) : byte '\n' ≠ b := by
    rintro rfl
    exact absurd h (by decide)
  have marked {b : UInt8} {mark : Bool} :
      (mark || decide (b = byte '\n')) = true ↔ mark = true ∨ byte '\n' ∈ [b] :=
    mark_newline.trans (or_congr_right List.mem_singleton.symm)
  have newline {mark : Bool} : true = true ↔ mark = true ∨ byte '\n' ∈ [byte '\n'] :=
    iff_of_true rfl (.inr List.mem_cons_self)
  fun_induction scanFrom region n mark s with
  | case1 n mark => exact here n mark []
  | case2 n mark b hb => exact sees_behind [b] (here (n + 1) mark []) (quiet (hblank hb))
  | case3 n mark => exact sees_behind [byte '\n'] (here (n + 1) true []) newline
  | case4 n mark b => exact here n mark [b]
  | case5 n mark b c r hb ih => exact sees_behind [b] ih (quiet (hblank hb))
  | case6 n mark c r _ ih => exact sees_behind [byte '\n'] ih newline
  | case7 n mark b c r _ hb hslash ih =>
    obtain ⟨rfl, rfl⟩ : b = byte '/' ∧ c = byte '/' := by simpa using hslash
    exact sees_behind [byte '/', byte '/'] ih (or_iff_left (by decide)).symm
  | case8 n mark b c r _ hb _ hstar ih =>
    obtain ⟨rfl, rfl⟩ : b = byte '/' ∧ c = byte '*' := by simpa using hstar
    exact sees_behind [byte '/', byte '*'] ih (or_iff_left (by decide)).symm
  | case9 n mark b c r => exact here n mark (b :: c :: r)
  | case10 n mark => exact here n mark []
  | case11 n mark r ih => exact sees_behind [byte '\n'] ih newline
  | case12 n mark b r hb ih => exact sees_behind [b] ih (quiet (Ne.symm hb))
  | case13 start n mark => exact here n mark []
  | case14 start n mark b =>
    exact sees_behind [b] (here (n + 1) (mark || b = byte '\n') []) marked
  | case15 start n mark b c r hclose ih =>
    obtain ⟨rfl, rfl⟩ : b = byte '*' ∧ c = byte '/' := by simpa using hclose
    exact sees_behind [byte '*', byte '/'] ih (or_iff_left (by decide)).symm
  | case16 start n mark b c r hclose ih => exact sees_behind [b] ih marked

/-- The mark tells whether a newline was passed over. -/
theorem newline_scan_iff (s : Bytes) :
    (scan s).newline = true ↔ byte '\n' ∈ s.take (scan s).length := by
  obtain ⟨m, hlength, hmark⟩ := scanFrom_sees .blank 0 false s
  rw [scan, hmark, hlength, Nat.zero_add]
  simp

end Trivia

namespace Literal

/-- The byte stands in the text, outside of escapes. -/
def HasBare (b : UInt8) (s : Bytes) : Prop := ∃ n, Stands [b] n s

section HasBare

variable {b c x : UInt8} {s : Bytes}

theorem not_hasBare_nil : ¬HasBare x [] := by
  rintro ⟨n, h⟩
  exact not_stands_nil h

theorem hasBare_cons (hb : b ≠ backslash) : HasBare x (b :: s) ↔ x = b ∨ HasBare x s := by
  unfold HasBare
  rw [← Nat.or_exists_add_one, stands_first]
  exact or_congr_right (exists_congr fun n => stands_cons hb)

theorem hasBare_escape (hx : x ≠ backslash) : HasBare x (backslash :: c :: s) ↔ HasBare x s := by
  constructor
  · rintro ⟨n, h⟩
    rcases n with _ | _ | n
    · exact absurd (stands_first.1 h) hx
    · exact absurd h not_stands_escaped
    · exact ⟨n, stands_escape.1 h⟩
  · rintro ⟨n, h⟩
    exact ⟨n + 2, stands_escape.2 h⟩

theorem not_hasBare_lone (hx : x ≠ backslash) : ¬HasBare x [backslash] := by
  rintro ⟨n, h⟩
  exact hx (prefix_one.1 (stands_lone h))

end HasBare

theorem sees_bare {n length : Nat} {mark mark' seen : Bool} {b : UInt8} {s : Bytes}
    (hb : b ≠ backslash) (h : Sees (HasBare (byte '\n')) (n + 1) mark' s length seen)
    (hmark : mark' = true ↔ mark = true ∨ byte '\n' = b) :
    Sees (HasBare (byte '\n')) n mark (b :: s) length seen :=
  h.behind [b] fun f => by rw [List.singleton_append, hasBare_cons hb, hmark, or_assoc]

theorem templateFrom_sees (n : Nat) (mark : Bool) (s : Bytes) :
    Sees (HasBare (byte '\n')) n mark s (templateFrom n mark s).length
      (templateFrom n mark s).newline := by
  have here (n : Nat) (mark : Bool) (s : Bytes) : Sees (HasBare (byte '\n')) n mark s n mark :=
    .here not_hasBare_nil
  have hx : byte '\n' ≠ backslash := by decide
  fun_induction templateFrom n mark s with
  | case1 n mark => exact here n mark []
  | case2 n mark => exact ⟨1, rfl, (or_iff_left (not_hasBare_lone hx)).symm⟩
  | case3 n mark hb =>
    exact sees_bare hb (here (n + 1) mark []) (or_iff_left (by decide)).symm
  | case4 n mark b hb _ =>
    exact sees_bare hb (here (n + 1) (mark || b = byte '\n') []) mark_newline
  | case5 n mark c r ih =>
    refine Sees.behind [backslash, c] ih fun f => or_congr_right ?_
    exact (hasBare_escape hx).symm
  | case6 n mark c r hb =>
    exact sees_bare hb (here (n + 1) mark (c :: r)) (or_iff_left (by decide)).symm
  | case7 n mark b c r hb _ hs =>
    obtain ⟨rfl, rfl⟩ : b = byte '$' ∧ c = openBrace := by simpa using hs
    have hopen : Sees (HasBare (byte '\n')) (n + 1) mark (openBrace :: r) (n + 2) mark :=
      sees_bare (by decide) (here (n + 2) mark r) (or_iff_left (by decide)).symm
    exact sees_bare hb hopen (or_iff_left (by decide)).symm
  | case8 n mark b c r hb _ _ ih => exact sees_bare hb ih mark_newline

/-- The mark tells whether the part spans lines. -/
theorem newline_template_iff (s : Bytes) :
    (template s).newline = true ↔ HasBare (byte '\n') (s.take (template s).length) := by
  obtain ⟨m, hlength, hmark⟩ := templateFrom_sees 0 false s
  rw [template, hmark, hlength, Nat.zero_add]
  simp

end Literal

open Literal

/-- A token that starts as a part of a template does, with a newline in it that is not escaped. A
brace that is no such part has nothing behind it. -/
def Token.SpansLines (t : Token) : Prop :=
  ∃ b s, t.lexeme = b :: s ∧ (b = backquote ∨ b = closeBrace) ∧ HasBare (byte '\n') s

namespace Lexer

namespace Scan

/-- The scan is marked exactly if it is one of a part of a template that spans lines. -/
def Marks (b : UInt8) (r : Bytes) (s : Scan) : Prop :=
  s.newline = true ↔
    (b = backquote ∨ b = closeBrace) ∧ HasBare (byte '\n') (r.take (s.length - 1))

theorem marks_of_quiet {b : UInt8} {r : Bytes} {s : Scan} (hs : s.newline = false)
    (hq : b ≠ backquote) (hc : b ≠ closeBrace) : s.Marks b r := by
  simp [Marks, hs, hq, hc]

theorem marks_templateStart (depths : List Nat) (r : Bytes) :
    (templateStart depths r).Marks backquote r := by
  have hmark := newline_template_iff r
  unfold templateStart Marks
  dsimp only
  split <;> simpa using hmark

theorem marks_templateRest (outer : List Nat) (r : Bytes) :
    (templateRest outer r).Marks closeBrace r := by
  have hmark := newline_template_iff r
  unfold templateRest Marks
  dsimp only
  split <;> simpa using hmark

theorem marks_closeBrace (regexAllowed : Bool) (depths : List Nat) (r : Bytes) :
    (token regexAllowed depths closeBrace r).Marks closeBrace r := by
  have hplain (depths : List Nat) : (plain depths .closeBrace 1).Marks closeBrace r :=
    iff_of_false (by simp [plain]) fun h => not_hasBare_nil h.2
  rcases depths with _ | ⟨_ | d, outer⟩
  · exact hplain []
  · exact marks_templateRest outer r
  · exact hplain (d :: outer)

theorem newline_punctuator (depths : List Nat) {b : UInt8} (hb : b ≠ closeBrace) (r : Bytes) :
    (punctuator depths b r).newline = false := by
  unfold punctuator
  split
  · rfl
  · split <;> rfl
  · rename_i hs
    exact absurd ((Punctuator.scan?_cases hs).mark rfl).1 hb
  · rfl

theorem marks_token (regexAllowed : Bool) (depths : List Nat) (b : UInt8) (r : Bytes) :
    (token regexAllowed depths b r).Marks b r := by
  have hextent (depths : List Nat) (kind : Kind) (cause : LexicalCause) (opening : Nat)
      (e : Extent) : (ofExtent depths kind cause opening e).newline = false :=
    of_ite (P := fun s : Scan => s.newline = false) (fun _ => rfl) fun _ => rfl
  by_cases hc : b = closeBrace
  · rw [hc]
    exact marks_closeBrace regexAllowed depths r
  by_cases hq : b = backquote
  · rw [hq]
    exact marks_templateStart depths r
  refine marks_of_quiet ?_ hq hc
  unfold token
  rw [if_neg hq]
  split_ifs
  · rfl
  · exact hextent _ _ _ _ _
  · exact hextent _ _ _ _ _
  · exact hextent _ _ _ _ _
  · exact newline_punctuator depths hc r

end Scan

variable {text : Bytes}

/-- The mark of the next token tells of a newline before it or of one in it. -/
theorem next_newlineBefore_iff (lx : Lexer text) :
    lx.next.1.newlineBefore = true ↔
      byte '\n' ∈ text.slice lx.pos lx.ahead.pos ∨ lx.next.1.SpansLines := by
  have hgap : lx.ahead.newlinePending = true ↔ byte '\n' ∈ text.slice lx.pos lx.ahead.pos := by
    rw [ahead_pos, Bytes.slice, Nat.add_sub_cancel_left, ← rest_eq, ← Trivia.newline_scan_iff]
    simp [ahead, skipTrivia, rest]
  rw [← hgap]
  cases hr : lx.ahead.rest with
  | nil =>
    rw [next_of_rest_nil hr]
    simp [emit, Scan.plain, Token.SpansLines]
  | cons b r =>
    have hfits := Scan.fits_token lx.ahead.regexAllowed lx.ahead.depths b r
    have hmarks := Scan.marks_token lx.ahead.regexAllowed lx.ahead.depths b r
    rw [(next_of_rest_cons hr).1]
    generalize Scan.token lx.ahead.regexAllowed lx.ahead.depths b r = s at hfits hmarks
    have hlexeme : (lx.ahead.emit s).1.lexeme = b :: r.take (s.length - 1) := by
      rw [← List.take_succ_cons, Nat.sub_add_cancel hfits.pos, ← hr]
      rfl
    have hspans : (lx.ahead.emit s).1.SpansLines ↔ s.newline = true := by
      rw [Scan.Marks] at hmarks
      rw [hmarks, Token.SpansLines, hlexeme]
      simp
    rw [hspans, ← Bool.or_eq_true_iff]
    rfl

theorem next_past (n : Nat) (lx : Lexer text) : (past n lx).next.2 = past (n + 1) lx :=
  (Function.iterate_succ_apply' (fun lx : Lexer text => lx.next.2) n lx).symm

/-- A token of the stream is the next one behind those before it. -/
theorem eq_next_past {lx : Lexer text} {front back : List Token} {t : Token}
    (hsplit : lx.stream = front ++ t :: back) : t = (past front.length lx).next.1 := by
  induction lx using stream_induction generalizing front with
  | last lx hk =>
    rw [stream_of_eof hk] at hsplit
    cases front with
    | nil => exact (List.cons.inj hsplit).1.symm
    | cons u front => simp at hsplit
  | step lx hk ih =>
    rw [stream_of_token hk] at hsplit
    cases front with
    | nil => exact (List.cons.inj hsplit).1.symm
    | cons u front => exact ih (List.cons.inj hsplit).2

theorem past_le (hs : text.Short) {lx : Lexer text} (h : lx.pos ≤ text.length) (n : Nat) :
    (past n lx).pos ≤ text.length := by
  induction n with
  | zero => exact h
  | succ n ih =>
    rw [← next_past, (next_placed hs ih).2.2]
    exact (next_placed hs ih).1.le_length

/-- What stands before the next token behind some tokens of a text: from where the last of them
ends, or from the start of the text. -/
def gapBehind (text : Bytes) (front : List Token) : Bytes :=
  text.slice (if front.isEmpty then 0 else (past front.length (start text)).pos)
    (past front.length (start text)).ahead.pos

/-- Nothing of what is skipped at the start is a newline. -/
theorem mem_gapBehind_nil (text : Bytes) : byte '\n' ∈ gapBehind text [] ↔
    byte '\n' ∈ text.slice (start text).pos (start text).ahead.pos := by
  obtain ⟨mark, script, htake, -, hmark, hscript⟩ := take_startOffset text
  have hnone : byte '\n' ∉ text.take (start text).pos := by
    change byte '\n' ∉ text.take (startOffset text)
    rw [htake, List.mem_append, not_or]
    constructor
    · rcases hmark with rfl | rfl <;> decide
    · rcases hscript with rfl | ⟨body, rfl, hbody, -⟩
      · exact List.not_mem_nil
      · rw [List.mem_append, not_or]
        exact ⟨by decide, hbody⟩
  change byte '\n' ∈ text.slice 0 (start text).ahead.pos ↔ _
  rw [← Bytes.take_append_slice text (start text).le_ahead, List.mem_append, or_iff_right hnone]

/-- In a text whose offsets are not cut, the gap is the one between the spans. -/
theorem gapBehind_eq (hs : text.Short) {front back : List Token} {t : Token}
    (hsplit : (tokenize text).1 = front ++ t :: back) :
    gapBehind text front =
      text.slice ((front.getLast?.map (·.span.stop)).getD 0) t.span.start := by
  rw [tokenize_eq] at hsplit
  have hle := past_le hs (start_pos_le text)
  rw [eq_next_past hsplit, next_start hs (hle _), gapBehind]
  obtain rfl | ⟨front, u, rfl⟩ := front.eq_nil_or_concat
  · rfl
  · have hu : u = (past front.length (start text)).next.1 := eq_next_past (by simpa using hsplit)
    have hstop : (past (front.length + 1) (start text)).pos = u.span.stop := by
      rw [← next_past, (next_placed hs (hle _)).2.2, hu]
    simp [hstop]

/-- The mark of a token tells of a newline before it, behind the token before or from the start of
the text on; it is also set where a part of a template spans lines. -/
theorem newlineBefore_iff (text : Bytes) {front back : List Token} {t : Token}
    (hsplit : (tokenize text).1 = front ++ t :: back) :
    (t.newlineBefore = true ↔ byte '\n' ∈ gapBehind text front ∨ t.SpansLines) ∧
      (text.Short → gapBehind text front =
        text.slice ((front.getLast?.map (·.span.stop)).getD 0) t.span.start) := by
  refine ⟨?_, fun hs => gapBehind_eq hs hsplit⟩
  rw [tokenize_eq] at hsplit
  rw [eq_next_past hsplit, next_newlineBefore_iff]
  refine or_congr_left ?_
  cases front with
  | nil => exact (mem_gapBehind_nil text).symm
  | cons u front => rfl

/-- A newline before a token, and one in a template. -/
def foldedText : Bytes := utf8 "a\n+ `b\nc`"

theorem newlineBefore_iff_foldedText :
    ∃ front t back, (tokenize foldedText).1 = front ++ t :: back ∧ foldedText.Short ∧
      t.lexeme = utf8 "`b\nc`" ∧ t.newlineBefore = true ∧ gapBehind foldedText front = utf8 " " ∧
      t.SpansLines := by
  have hs : foldedText.Short := by
    unfold Bytes.Short
    decide +kernel
  obtain ⟨front, t, back, hsplit, hlexeme, hmark, hgap⟩ :
      ∃ front t back, (tokenize foldedText).1 = front ++ t :: back ∧
        t.lexeme = utf8 "`b\nc`" ∧ t.newlineBefore = true ∧
        foldedText.slice ((front.getLast?.map (·.span.stop)).getD 0) t.span.start = utf8 " " :=
    ⟨(tokenize foldedText).1.take 2, _, _, rfl, by decide +kernel, by decide +kernel,
      by decide +kernel⟩
  obtain ⟨hiff, hspans⟩ := newlineBefore_iff foldedText hsplit
  have hgap := (hspans hs).trans hgap
  have hquiet : byte '\n' ∉ gapBehind foldedText front := by
    rw [hgap]
    decide
  exact ⟨front, t, back, hsplit, hs, hlexeme, hmark, hgap, (hiff.1 hmark).resolve_left hquiet⟩

/-- The only token of a text is marked, and the only newline is in it. -/
theorem newlineBefore_inside :
    ∃ t back, (tokenize (utf8 "`\n`")).1 = [] ++ t :: back ∧ t.newlineBefore = true ∧
      byte '\n' ∉ gapBehind (utf8 "`\n`") [] ∧ t.span = ⟨0, 3⟩ :=
  ⟨_, _, rfl, by decide +kernel, by decide +kernel, by decide +kernel⟩

end Lexer

end JsxPresence
