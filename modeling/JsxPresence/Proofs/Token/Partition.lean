import JsxPresence.Proofs.Token.Stream

namespace JsxPresence

namespace Trivia

/-- A line ends before this text: a newline follows, or nothing does and the text is at its end. -/
def EndsLine (final : Bool) (s : Bytes) : Prop :=
  s.head? = some (byte '\n') ∨ (s = [] ∧ final = true)

/-- Blanks, newlines and complete comments. Where the text ends behind them, which `final` tells, a
line comment needs no newline, and there may be a block comment last that is left open. -/
inductive Filler (final : Bool) : Bool → Bytes → Prop
  | nil : Filler final false []
  | blank {isOpen : Bool} {b : UInt8} {s : Bytes} (hb : isBlank b = true ∨ b = byte '\n')
      (hs : Filler final isOpen s) : Filler final isOpen (b :: s)
  | lineComment {isOpen : Bool} {body s : Bytes} (hbody : byte '\n' ∉ body)
      (hend : EndsLine final s) (hs : Filler final isOpen s) :
      Filler final isOpen (utf8 "//" ++ body ++ s)
  | blockComment {isOpen : Bool} {body s : Bytes} (hbody : ¬utf8 "*/" <:+: body ++ [byte '*'])
      (hs : Filler final isOpen s) : Filler final isOpen (utf8 "/*" ++ body ++ utf8 "*/" ++ s)
  | openComment {body : Bytes} (hbody : ¬utf8 "*/" <:+: body) (hfinal : final = true) :
      Filler final true (utf8 "/*" ++ body)

/-- What the scanner passes over from inside a region. -/
def Region.Passes (final isOpen : Bool) : Region → Bytes → Prop
  | .blank, f => Filler final isOpen f
  | .lineComment, f => ∃ body s, f = body ++ s ∧ byte '\n' ∉ body ∧ EndsLine final s ∧
      Filler final isOpen s
  | .blockComment _, f =>
    (∃ body s, f = body ++ utf8 "*/" ++ s ∧ ¬utf8 "*/" <:+: body ++ [byte '*'] ∧
      Filler final isOpen s) ∨
    (isOpen = true ∧ final = true ∧ ¬utf8 "*/" <:+: f)

/-- A byte before a text closes no comment, unless it is a star and the text starts with a slash. -/
theorem not_closes_cons {b : UInt8} {s : Bytes} (hs : ¬utf8 "*/" <:+: s)
    (h : b = byte '*' → s.head? ≠ some (byte '/')) : ¬utf8 "*/" <:+: b :: s := by
  intro hin
  rcases List.infix_cons_iff.1 hin with hpre | hin
  · have hmark : utf8 "*/" = [byte '*', byte '/'] := by decide
    rw [hmark, List.cons_prefix_cons] at hpre
    obtain ⟨hb, t, ht⟩ := hpre
    apply h hb.symm
    rw [← ht]
    rfl
  · exact hs hin

theorem head?_of_prefix {c : UInt8} {f r : Bytes} (h : f <+: c :: r) :
    f.head? = none ∨ f.head? = some c := by
  cases f with
  | nil => exact .inl rfl
  | cons d f => exact .inr (congrArg some (List.cons_prefix_cons.1 h).1)

/-- Inside a block comment a byte that does not close it is passed over. -/
theorem Region.Passes.cons_block {final isOpen : Bool} {start : Nat} {b c : UInt8} {f r : Bytes}
    (hbc : ¬(b = byte '*' ∧ c = byte '/')) (hf : f <+: c :: r)
    (h : (Region.blockComment start).Passes final isOpen f) :
    (Region.blockComment start).Passes final isOpen (b :: f) := by
  have hhead := head?_of_prefix hf
  rcases h with ⟨body, s, rfl, hbody, hs⟩ | ⟨hopen, hfinal, hbody⟩
  · left
    have hclose : ¬utf8 "*/" <:+: b :: (body ++ [byte '*']) := by
      apply not_closes_cons hbody
      intro hb hslash
      cases body with
      | nil => exact absurd hslash (by decide)
      | cons d body =>
        simp only [List.cons_append, List.head?_cons, Option.some.injEq] at hslash hhead
        rcases hhead with hhead | hhead
        · cases hhead
        · exact hbc ⟨hb, by rw [← hhead, hslash]⟩
    exact ⟨b :: body, s, rfl, hclose, hs⟩
  · right
    have hclose : ¬utf8 "*/" <:+: b :: f := by
      apply not_closes_cons hbody
      intro hb hslash
      rw [hslash] at hhead
      rcases hhead with hhead | hhead
      · cases hhead
      · exact hbc ⟨hb, (Option.some.inj hhead).symm⟩
    exact ⟨hopen, hfinal, hclose⟩

/-- The scanner has passed over a piece of this text, from offset `n` on. -/
def Scanned (region : Region) (n : Nat) (s : Bytes) (t : Trivia) : Prop :=
  ∃ k ≤ s.length, t.length = n + k ∧
    region.Passes (decide (k = s.length)) t.openComment.isSome (s.take k)

/-- What was scanned behind some bytes, together with these bytes. -/
theorem Scanned.cons {region inner : Region} {n : Nat} {s : Bytes} {t : Trivia} (front : Bytes)
    (h : Scanned inner (n + front.length) s t)
    (hp : ∀ final isOpen f, f <+: s → inner.Passes final isOpen f →
      region.Passes final isOpen (front ++ f)) : Scanned region n (front ++ s) t := by
  obtain ⟨k, hk, hlength, hpass⟩ := h
  have htake : (front ++ s).take (front.length + k) = front ++ s.take k :=
    List.take_length_add_append k
  have hfinal : decide (front.length + k = (front ++ s).length) = decide (k = s.length) := by
    simp
  refine ⟨front.length + k, by simpa using hk, by omega, ?_⟩
  rw [htake, hfinal]
  exact hp _ _ _ (List.take_prefix k s) hpass

/-- Where the scanner stops, it has passed over nothing more. -/
theorem scanned_nil (n : Nat) (newline : Bool) (s : Bytes) :
    Scanned .blank n s ⟨n, newline, none⟩ := by
  refine ⟨0, Nat.zero_le _, rfl, ?_⟩
  exact .nil

/-- The scanner passes over a sentence of the grammar. -/
theorem scanFrom_scanned (region : Region) (n : Nat) (newline : Bool) (s : Bytes) :
    Scanned region n s (scanFrom region n newline s) := by
  fun_induction scanFrom region n newline s with
  | case1 n newline => exact scanned_nil n newline []
  | case2 n newline b hb =>
    have h := scanned_nil (n + 1) newline []
    exact h.cons [b] fun final isOpen f _ hf => .blank (.inl hb) hf
  | case3 n =>
    have h := scanned_nil (n + 1) true []
    exact h.cons [byte '\n'] fun final isOpen f _ hf => .blank (.inr rfl) hf
  | case4 n newline b => exact scanned_nil n newline [b]
  | case5 n newline b c r hb ih =>
    exact ih.cons [b] fun final isOpen f _ hf => .blank (.inl hb) hf
  | case6 n newline c r _ ih =>
    exact ih.cons [byte '\n'] fun final isOpen f _ hf => .blank (.inr rfl) hf
  | case7 n newline b c r _ _ hslash ih =>
    obtain ⟨rfl, rfl⟩ : b = byte '/' ∧ c = byte '/' := by simpa using hslash
    apply ih.cons [byte '/', byte '/']
    rintro final isOpen f - ⟨body, s, rfl, hbody, hend, hs⟩
    have h := Filler.lineComment hbody hend hs
    rw [List.append_assoc] at h
    exact h
  | case8 n newline b c r _ _ _ hstar ih =>
    obtain ⟨rfl, rfl⟩ : b = byte '/' ∧ c = byte '*' := by simpa using hstar
    apply ih.cons [byte '/', byte '*']
    rintro final isOpen f - (⟨body, s, rfl, hbody, hs⟩ | ⟨rfl, hfinal, hbody⟩)
    · have h := Filler.blockComment hbody hs
      rw [List.append_assoc, List.append_assoc] at h
      rw [List.append_assoc]
      exact h
    · exact .openComment hbody hfinal
  | case9 n newline b c r => exact scanned_nil n newline (b :: c :: r)
  | case10 n newline =>
    exact ⟨0, Nat.zero_le _, rfl, [], [], rfl, by simp, .inr ⟨rfl, rfl⟩, .nil⟩
  | case11 n newline r ih =>
    apply ih.cons [byte '\n']
    intro final isOpen f _ hf
    exact ⟨[], byte '\n' :: f, rfl, by simp, .inl rfl, .blank (.inr rfl) hf⟩
  | case12 n newline b r hb ih =>
    apply ih.cons [b]
    rintro final isOpen f - ⟨body, s, rfl, hbody, hend, hs⟩
    refine ⟨b :: body, s, rfl, ?_, hend, hs⟩
    simp [hbody, Ne.symm hb]
  | case13 start n newline =>
    exact ⟨0, Nat.zero_le _, rfl, .inr ⟨rfl, rfl, by decide⟩⟩
  | case14 start n newline b =>
    refine ⟨1, le_refl _, rfl, .inr ⟨rfl, rfl, ?_⟩⟩
    exact not_closes_cons (by decide) fun _ => by simp
  | case15 start n newline b c r hclose ih =>
    obtain ⟨rfl, rfl⟩ : b = byte '*' ∧ c = byte '/' := by simpa using hclose
    apply ih.cons [byte '*', byte '/']
    intro final isOpen f _ hf
    exact .inl ⟨[], f, rfl, by decide, hf⟩
  | case16 start n newline b c r hclose ih =>
    apply ih.cons [b]
    intro final isOpen f hpre hf
    exact hf.cons_block (by simpa using hclose) hpre

/-- What stands before the next token is filler. -/
theorem scan_filler (s : Bytes) :
    Filler (decide ((scan s).length = s.length)) (scan s).openComment.isSome
      (s.take (scan s).length) := by
  obtain ⟨k, -, hlength, hpass⟩ := scanFrom_scanned .blank 0 false s
  have hk : (scan s).length = k := by
    rw [scan, hlength]
    omega
  rw [hk]
  exact hpass

theorem Filler.final_of_open {final isOpen : Bool} {s : Bytes} (h : Filler final isOpen s)
    (ho : isOpen = true) : final = true := by
  induction h with
  | nil => cases ho
  | blank _ _ ih => exact ih ho
  | lineComment _ _ _ ih => exact ih ho
  | blockComment _ _ ih => exact ih ho
  | openComment _ hfinal => exact hfinal

/-- A comment is left open at the end of the text only. -/
theorem scan_length_of_open {s : Bytes} (h : (scan s).openComment.isSome = true) :
    (scan s).length = s.length := by
  have hfinal := (scan_filler s).final_of_open h
  exact of_decide_eq_true hfinal

theorem scan_newline_pos (r : Bytes) : 1 ≤ (scan (byte '\n' :: r)).length := by
  have hblank : isBlank (byte '\n') = false := by decide
  cases r with
  | nil => simp [scan, scanFrom, hblank]
  | cons c r =>
    have h := (scanFrom_length .blank 1 true (c :: r)).1
    simpa [scan, scanFrom, hblank] using h

/-- What may stand before the first token: a byte order mark, a `#!` line, and filler. -/
def Leading (final isOpen : Bool) (g : Bytes) : Prop :=
  ∃ mark script s, g = mark ++ script ++ s ∧ (mark = [] ∨ mark = [0xef, 0xbb, 0xbf]) ∧
    (script = [] ∨ ∃ body, script = utf8 "#!" ++ body ∧ byte '\n' ∉ body ∧ EndsLine final s) ∧
    Filler final isOpen s

end Trivia

theorem Bytes.slice_append_drop (text : Bytes) {p q : Nat} (h : p ≤ q) :
    text.slice p q ++ text.drop q = text.drop p := by
  have hq : text.drop q = (text.drop p).drop (q - p) := by
    rw [List.drop_drop]
    congr 1
    omega
  rw [slice, hq, List.take_append_drop]

theorem Bytes.take_append_slice (text : Bytes) {p q : Nat} (h : p ≤ q) :
    text.take p ++ text.slice p q = text.slice 0 q := by
  rw [slice, slice, ← List.take_add]
  congr 1
  omega

/-- The error of a block comment that is left open. -/
def LexicalError.isOpenComment (e : LexicalError) : Bool := e.cause = .unterminatedComment

/-- The second token comes behind the first. -/
def Token.Before (t u : Token) : Prop :=
  t.span.start < u.span.start ∧ t.span.stop ≤ u.span.start

namespace Lexer

variable {text : Bytes}

/-- Whether the errors tell of an open comment. -/
def reportsOpenComment (lx : Lexer text) : Bool := lx.errors.any LexicalError.isOpenComment

theorem ahead_rest (lx : Lexer text) : lx.ahead.rest = lx.rest.drop (Trivia.scan lx.rest).length :=
  rfl

theorem ahead_pos (lx : Lexer text) : lx.ahead.pos = lx.pos + (Trivia.scan lx.rest).length := rfl

theorem ahead_reports (lx : Lexer text) :
    lx.ahead.reportsOpenComment =
      (lx.reportsOpenComment || (Trivia.scan lx.rest).openComment.isSome) := by
  simp only [reportsOpenComment, ahead, skipTrivia, rest]
  cases (Trivia.scan lx.cursor.rest).openComment with
  | none => simp
  | some start => simp [LexicalError.isOpenComment]

/-- A token adds no error about a comment. -/
theorem emit_reports (lx : Lexer text) {s : Scan} (h : s.cause ≠ some .unterminatedComment) :
    (lx.emit s).2.reportsOpenComment = lx.reportsOpenComment := by
  unfold reportsOpenComment
  cases hcause : s.cause with
  | none => simp [emit, hcause]
  | some cause =>
    have hne : cause ≠ .unterminatedComment := by
      rintro rfl
      exact h hcause
    simp [emit, hcause, LexicalError.isOpenComment, hne]

/-- Before a token no comment is left open. -/
theorem next_reports_of_token {lx : Lexer text} (h : lx.next.1.kind ≠ .eof) :
    lx.next.2.reportsOpenComment = lx.reportsOpenComment := by
  cases hr : lx.ahead.rest with
  | nil => exact absurd ((next_kind_eq_eof_iff lx).2 hr) h
  | cons b r =>
    have hclosed : (Trivia.scan lx.rest).openComment.isSome = false := by
      by_contra hopen
      have hlength := Trivia.scan_length_of_open (Bool.not_eq_false _ ▸ hopen)
      rw [ahead_rest, hlength, List.drop_length] at hr
      cases hr
    have hcause := (Scan.tells_token lx.ahead.regexAllowed lx.ahead.depths b r).cause_ne
    rw [reportsOpenComment, next_errors_of_rest_cons hr, ← reportsOpenComment,
      emit_reports _ hcause, ahead_reports, hclosed, Bool.or_false]

theorem next_reports_of_eof {lx : Lexer text} (h : lx.next.1.kind = .eof) :
    lx.next.2.reportsOpenComment =
      (lx.reportsOpenComment || (Trivia.scan lx.rest).openComment.isSome) := by
  have hr := (next_kind_eq_eof_iff lx).1 h
  rw [next_of_rest_nil hr, emit_reports _ (by simp [Scan.plain]), ahead_reports]

/-- The next token starts where the filler before it ends. -/
theorem next_start (hs : text.Short) {lx : Lexer text} (h : lx.pos ≤ text.length) :
    lx.next.1.span.start = lx.ahead.pos := by
  have hle := ahead_le h
  cases hr : lx.ahead.rest with
  | nil =>
    rw [next_of_rest_nil hr, emit_span hs (by simpa [Scan.plain] using hle)]
  | cons b r =>
    have hf := Scan.fits_token lx.ahead.regexAllowed lx.ahead.depths b r
    rw [(next_of_rest_cons hr).1]
    exact (emit_placed hs hr hf).2.1

/-- What stands before the next token, as it is cut out of the text. -/
theorem slice_next (hs : text.Short) {lx : Lexer text} (h : lx.pos ≤ text.length) :
    text.slice lx.pos lx.next.1.span.start = lx.rest.take (Trivia.scan lx.rest).length := by
  rw [next_start hs h, ahead_pos, Bytes.slice, rest_eq]
  congr 1
  omega

theorem isEmpty_ahead (lx : Lexer text) :
    decide ((Trivia.scan lx.rest).length = lx.rest.length) = decide (lx.next.1.kind = .eof) := by
  have hle := Trivia.scan_length_le lx.rest
  rw [decide_eq_decide, next_kind_eq_eof_iff, ahead_rest, List.drop_eq_nil_iff]
  omega

/-- What stands before the next token is filler. -/
theorem next_filler (hs : text.Short) {lx : Lexer text} (h : lx.pos ≤ text.length) :
    Trivia.Filler (decide (lx.next.1.kind = .eof)) (Trivia.scan lx.rest).openComment.isSome
      (text.slice lx.pos lx.next.1.span.start) := by
  rw [slice_next hs h, ← isEmpty_ahead]
  exact Trivia.scan_filler lx.rest

/-- What stands before each of the tokens, from an offset on. -/
def gaps (text : Bytes) : Nat → List Token → List Bytes
  | _, [] => []
  | p, t :: ts => text.slice p t.span.start :: gaps text t.span.stop ts

/-- Gaps and lexemes in turn. -/
def interleaved (gaps : List Bytes) (tokens : List Token) : Bytes :=
  (List.zipWith (fun g t => g ++ t.lexeme) gaps tokens).flatten

theorem stream_ends (lx : Lexer text) :
    ∃ body last, lx.stream = body ++ [last] ∧ last.kind = .eof ∧ ∀ t ∈ body, t.kind ≠ .eof := by
  induction lx using stream_induction with
  | last lx hk =>
    rw [stream_of_eof hk]
    exact ⟨[], lx.next.1, rfl, hk, by simp⟩
  | step lx hk ih =>
    obtain ⟨body, last, hstream, hlast, hbody⟩ := ih
    rw [stream_of_token hk, hstream]
    refine ⟨lx.next.1 :: body, last, rfl, hlast, ?_⟩
    intro t ht
    rcases List.mem_cons.1 ht with rfl | ht
    · exact hk
    · exact hbody t ht

theorem stream_placed (hs : text.Short) (lx : Lexer text) (h : lx.pos ≤ text.length) :
    ∀ t ∈ lx.stream, t.Placed text ∧ lx.pos ≤ t.span.start := by
  induction lx using stream_induction with
  | last lx hk =>
    have hp := next_placed hs h
    rw [stream_of_eof hk]
    intro t ht
    rw [List.mem_singleton.1 ht]
    exact ⟨hp.1, hp.2.1⟩
  | step lx hk ih =>
    have hp := next_placed hs h
    have hpos := lt_next_pos hk
    rw [stream_of_token hk]
    intro t ht
    rcases List.mem_cons.1 ht with rfl | ht
    · exact ⟨hp.1, hp.2.1⟩
    · have hrest := ih hpos.2 t ht
      exact ⟨hrest.1, hpos.1.le.trans hrest.2⟩

theorem stream_before (hs : text.Short) (lx : Lexer text) (h : lx.pos ≤ text.length) :
    lx.stream.Pairwise Token.Before := by
  induction lx using stream_induction with
  | last lx hk =>
    rw [stream_of_eof hk]
    exact List.pairwise_singleton _ _
  | step lx hk ih =>
    have hp := next_placed hs h
    have hpos := lt_next_pos hk
    have hlt := hp.1.lt hk
    rw [stream_of_token hk]
    refine List.pairwise_cons.2 ⟨?_, ih hpos.2⟩
    intro t ht
    have hle := (stream_placed hs lx.next.2 hpos.2 t ht).2
    rw [hp.2.2] at hle
    exact ⟨hlt.trans_le hle, hle⟩

/-- Nothing is lost: gaps and lexemes give back the text from the lexer on. -/
theorem interleaved_stream (hs : text.Short) (lx : Lexer text) (h : lx.pos ≤ text.length) :
    interleaved (gaps text lx.pos lx.stream) lx.stream = text.drop lx.pos := by
  have hpiece (lx : Lexer text) (h : lx.pos ≤ text.length) :
      text.slice lx.pos lx.next.1.span.start ++ lx.next.1.lexeme ++
        text.drop lx.next.1.span.stop = text.drop lx.pos := by
    have hp := next_placed hs h
    rw [hp.1.lexeme, List.append_assoc, Bytes.slice_append_drop text hp.1.le,
      Bytes.slice_append_drop text hp.2.1]
  induction lx using stream_induction with
  | last lx hk =>
    have hend : text.drop lx.next.1.span.stop = [] := by
      have hr := (next_kind_eq_eof_iff lx).1 hk
      have hle := (next_placed hs h).1.le
      rw [next_start hs h] at hle
      rw [rest_eq, List.drop_eq_nil_iff] at hr
      exact List.drop_eq_nil_of_le (hr.trans hle)
    have hp := hpiece lx h
    rw [hend, List.append_nil] at hp
    simpa [stream_of_eof hk, interleaved, gaps] using hp
  | step lx hk ih =>
    have hpos := lt_next_pos hk
    have hp := hpiece lx h
    have hrest := ih hpos.2
    rw [(next_placed hs h).2.2] at hrest
    rw [← hp, ← hrest, stream_of_token hk]
    simp [interleaved, gaps]

theorem isEmpty_gaps_stream (p : Nat) (lx : Lexer text) :
    (gaps text p lx.stream).isEmpty = false := by
  obtain ⟨body, last, hstream, -, -⟩ := stream_ends lx
  rw [hstream]
  cases body <;> rfl

/-- Between tokens there is filler; an open comment stands before the end token, if there is one. -/
theorem gaps_stream (hs : text.Short) (lx : Lexer text) (h : lx.pos ≤ text.length)
    (hclosed : lx.reportsOpenComment = false) (before : List Bytes) {after : List Bytes} {g : Bytes}
    (hg : gaps text lx.pos lx.stream = before ++ g :: after) :
    Trivia.Filler after.isEmpty (after.isEmpty && lx.finish.reportsOpenComment) g := by
  induction lx using stream_induction generalizing before with
  | last lx hk =>
    have hf := next_filler hs h
    rw [stream_of_eof hk, gaps, gaps] at hg
    obtain ⟨rfl, rfl, rfl⟩ : before = [] ∧ g = text.slice lx.pos lx.next.1.span.start ∧
        after = [] := by
      cases before with
      | nil => simpa [eq_comm] using hg
      | cons a before => simp at hg
    rw [finish_of_eof hk, next_reports_of_eof hk, hclosed]
    simpa [hk] using hf
  | step lx hk ih =>
    have hpos := lt_next_pos hk
    have hp := next_placed hs h
    rw [stream_of_token hk, gaps, ← hp.2.2] at hg
    cases before with
    | nil =>
      obtain ⟨rfl, rfl⟩ := List.cons.inj hg
      have hf := next_filler hs h
      have hopen : (Trivia.scan lx.rest).openComment.isSome = false := by
        by_contra hopen
        have hfinal := hf.final_of_open (Bool.not_eq_false _ ▸ hopen)
        simp [hk] at hfinal
      rw [hopen] at hf
      simpa [isEmpty_gaps_stream, hk] using hf
    | cons a before =>
      obtain ⟨-, hg⟩ := List.cons.inj hg
      rw [finish_of_token hk]
      exact ih hpos.2 (by rw [next_reports_of_token hk, hclosed]) before hg

/-- A line that is cut off before its newline. -/
theorem run_line {s : Bytes} (h : (utf8 "#!").isPrefixOf s = true) :
    (∃ body, s.take (Bytes.run (· != byte '\n') s) = utf8 "#!" ++ body ∧ byte '\n' ∉ body) ∧
      (s.drop (Bytes.run (· != byte '\n') s) = [] ∨
        ∃ r, s.drop (Bytes.run (· != byte '\n') s) = byte '\n' :: r) := by
  have htake : s.take (Bytes.run (· != byte '\n') s) = s.takeWhile (· != byte '\n') :=
    (List.prefix_iff_eq_take.1 (List.takeWhile_prefix _)).symm
  have hdrop : s.drop (Bytes.run (· != byte '\n') s) = s.dropWhile (· != byte '\n') := by
    have happ : s.takeWhile (· != byte '\n') ++ s.dropWhile (· != byte '\n') = s :=
      List.takeWhile_append_dropWhile
    calc s.drop (Bytes.run (· != byte '\n') s)
        = (s.takeWhile (· != byte '\n') ++ s.dropWhile (· != byte '\n')).drop
            (Bytes.run (· != byte '\n') s) := by rw [happ]
      _ = s.dropWhile (· != byte '\n') := List.drop_left
  obtain ⟨tail, rfl⟩ := List.isPrefixOf_iff_prefix.1 h
  constructor
  · refine ⟨tail.takeWhile (· != byte '\n'), ?_, ?_⟩
    · rw [htake]
      rfl
    · intro hmem
      have hne := List.mem_takeWhile_imp hmem
      simp at hne
  · rw [hdrop]
    cases hrest : (utf8 "#!" ++ tail).dropWhile (· != byte '\n') with
    | nil => exact .inl rfl
    | cons b r =>
      have hb := List.head?_dropWhile_not (· != byte '\n') (utf8 "#!" ++ tail)
      rw [hrest] at hb
      have hb : b = byte '\n' := by simpa using hb
      exact .inr ⟨r, by rw [hb]⟩

/-- What is skipped at the start: a byte order mark, and a `#!` line up to its end. -/
theorem take_startOffset (text : Bytes) :
    ∃ mark script, text.take (startOffset text) = mark ++ script ∧
      startOffset text ≤ text.length ∧ (mark = [] ∨ mark = [0xef, 0xbb, 0xbf]) ∧
      (script = [] ∨ ∃ body, script = utf8 "#!" ++ body ∧ byte '\n' ∉ body ∧
        (text.drop (startOffset text) = [] ∨
          ∃ r, text.drop (startOffset text) = byte '\n' :: r)) := by
  obtain ⟨n, hn, hle, hmark⟩ : ∃ n, n = (if [0xef, 0xbb, 0xbf].isPrefixOf text then 3 else 0) ∧
      n ≤ text.length ∧ (text.take n = [] ∨ text.take n = [0xef, 0xbb, 0xbf]) := by
    by_cases hm : [0xef, 0xbb, 0xbf].isPrefixOf text = true
    · obtain ⟨tail, rfl⟩ := List.isPrefixOf_iff_prefix.1 hm
      exact ⟨3, by simp, by simp, .inr rfl⟩
    · exact ⟨0, by simp [hm], Nat.zero_le _, .inl rfl⟩
  unfold startOffset
  rw [← hn]
  dsimp only
  by_cases hscript : (utf8 "#!").isPrefixOf (text.drop n) = true
  · obtain ⟨⟨body, hbody, hline⟩, hend⟩ := run_line hscript
    rw [if_pos hscript, List.take_add, ← List.drop_drop, hbody]
    exact ⟨_, _, rfl, Bytes.run_drop_le _ _ hle, hmark, .inr ⟨body, rfl, hline, hend⟩⟩
  · rw [if_neg hscript]
    exact ⟨_, [], (List.append_nil _).symm, hle, hmark, .inl rfl⟩

theorem start_pos_le (text : Bytes) : (start text).pos ≤ text.length := by
  obtain ⟨mark, script, -, hle, -⟩ := take_startOffset text
  exact hle

/-- Before the first token there is filler, behind what is skipped at the start. -/
theorem leading_of_filler (hs : text.Short) {isOpen : Bool}
    (hf : Trivia.Filler (decide ((start text).next.1.kind = .eof)) isOpen
      (text.slice (start text).pos (start text).next.1.span.start)) :
    Trivia.Leading (decide ((start text).next.1.kind = .eof)) isOpen
      (text.slice 0 (start text).next.1.span.start) := by
  obtain ⟨mark, script, htake, hle, hmark, hscript⟩ := take_startOffset text
  have hrest : (start text).rest = text.drop (startOffset text) := rfl
  have hpos := (next_placed hs (start_pos_le text)).2.1
  have hsplit : text.slice 0 (start text).next.1.span.start =
      mark ++ script ++ text.slice (start text).pos (start text).next.1.span.start := by
    rw [← htake]
    exact (Bytes.take_append_slice text hpos).symm
  refine ⟨mark, script, _, hsplit, hmark, ?_, hf⟩
  rcases hscript with hscript | ⟨body, hscript, hline, hend⟩
  · exact .inl hscript
  right
  refine ⟨body, hscript, hline, ?_⟩
  rw [slice_next hs (start_pos_le text), ← isEmpty_ahead, hrest]
  rcases hend with hend | ⟨r, hend⟩
  · rw [hend]
    exact .inr ⟨by simp, by decide⟩
  · have hnewline := Trivia.scan_newline_pos r
    rw [hend]
    left
    obtain ⟨k, hk⟩ : ∃ k, (Trivia.scan (byte '\n' :: r)).length = k + 1 :=
      ⟨_, (Nat.sub_add_cancel hnewline).symm⟩
    rw [hk, List.take_succ_cons]
    rfl

/-- The tokens of a text, with the errors found on the way, cut the whole text into lexemes and the
gaps between them. -/
structure Partition (text : Bytes) (tokens : List Token) (errors : List LexicalError) : Prop where
  ends : ∃ body last, tokens = body ++ [last] ∧ last.kind = .eof ∧ ∀ t ∈ body, t.kind ≠ .eof
  inRange : ∀ t ∈ tokens, t.span.start ≤ t.span.stop ∧ t.span.stop ≤ text.length
  nonempty : ∀ t ∈ tokens, t.kind ≠ .eof → t.span.start < t.span.stop
  lexeme : ∀ t ∈ tokens, t.lexeme = text.slice t.span.start t.span.stop
  increasing : tokens.Pairwise Token.Before
  /-- The gap before the first token may start with a byte order mark and a `#!` line. -/
  first : ∀ g after, gaps text 0 tokens = g :: after →
    Trivia.Leading after.isEmpty (after.isEmpty && errors.any LexicalError.isOpenComment) g
  /-- Of the gaps, only the last may end in an open comment, and it does if that error is there. -/
  between : ∀ a before g after, gaps text 0 tokens = a :: before ++ g :: after →
    Trivia.Filler after.isEmpty (after.isEmpty && errors.any LexicalError.isOpenComment) g
  whole : interleaved (gaps text 0 tokens) tokens = text

/-- Tokenizing cuts a text into tokens and what may stand between them, and loses nothing. -/
theorem tokenize_partition (text : Bytes) (hs : text.Short) :
    Partition text (tokenize text).1 (tokenize text).2 := by
  have hle := start_pos_le text
  have hplaced := stream_placed hs (start text) hle
  obtain ⟨t, ts, hstream, ht, hlast⟩ : ∃ t ts, (start text).stream = t :: ts ∧
      t = (start text).next.1 ∧ (gaps text t.span.stop ts).isEmpty = decide (t.kind = .eof) := by
    by_cases hk : (start text).next.1.kind = .eof
    · exact ⟨_, _, stream_of_eof hk, rfl, by simp [gaps, hk]⟩
    · refine ⟨_, _, stream_of_token hk, rfl, ?_⟩
      rw [isEmpty_gaps_stream, decide_eq_false hk]
  have hgaps (p : Nat) : gaps text p (start text).stream =
      text.slice p t.span.start :: gaps text t.span.stop ts := by rw [hstream, gaps]
  rw [tokenize_eq]
  refine ⟨stream_ends _, fun u hu => ⟨(hplaced u hu).1.le, (hplaced u hu).1.le_length⟩,
    fun u hu => (hplaced u hu).1.lt, fun u hu => (hplaced u hu).1.lexeme,
    stream_before hs _ hle, ?_, ?_, ?_⟩
  · intro g after hg
    have hfiller := gaps_stream hs (start text) hle rfl [] (hgaps _)
    rw [hgaps 0] at hg
    obtain ⟨rfl, rfl⟩ := List.cons.inj hg
    rw [hlast, ht] at hfiller ⊢
    exact leading_of_filler hs hfiller
  · intro a before g after hg
    rw [hgaps 0] at hg
    obtain ⟨-, hg⟩ := List.cons.inj hg
    refine gaps_stream hs (start text) hle rfl
      (text.slice (start text).pos t.span.start :: before) ?_
    rw [hgaps, hg]
    rfl
  · have hwhole := interleaved_stream hs (start text) hle
    have hpos := (next_placed hs hle).2.1
    rw [hgaps, hstream, ht] at hwhole ⊢
    calc _ = text.take (start text).pos ++ text.drop (start text).pos := by
          rw [← hwhole, ← Bytes.take_append_slice text hpos]
          simp [interleaved]
      _ = text := List.take_append_drop _ _

/-- A script with a byte order mark, comments, a template and a comment that is left open. -/
def scriptText : Bytes :=
  [0xef, 0xbb, 0xbf] ++ utf8 "#!run\na /* b */ `$\x7bc\x7d` // d\n/* e"

theorem tokenize_partition_scriptText :
    scriptText.Short ∧ (tokenize scriptText).2.any LexicalError.isOpenComment = true ∧
      Partition scriptText (tokenize scriptText).1 (tokenize scriptText).2 := by
  have hs : scriptText.Short := by
    unfold Bytes.Short
    decide +kernel
  exact ⟨hs, by decide +kernel, tokenize_partition scriptText hs⟩

end Lexer

end JsxPresence
