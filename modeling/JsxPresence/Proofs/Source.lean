import JsxPresence.Source

namespace JsxPresence.Source

/-- The line in which an offset stands starts here: right behind the last newline before the offset,
or with the text if there is none. -/
structure LineStart (s : Source) (start offset : Nat) : Prop where
  le : start ≤ offset
  opens : start = 0 ∨ s.content[start - 1]? = some (byte '\n')
  unbroken : ∀ i, start ≤ i → i < offset → s.content[i]? ≠ some (byte '\n')

theorem length_lineBreaks (n : Nat) (s : Bytes) :
    (lineBreaks n s).length = s.count (byte '\n') := by
  induction s generalizing n with
  | nil => rfl
  | cons b r ih =>
    by_cases h : b = byte '\n'
    · simp [lineBreaks, h, ih]
    · simp [lineBreaks, h, ih]

theorem lineBreaks_append (n : Nat) (s t : Bytes) :
    lineBreaks n (s ++ t) = lineBreaks n s ++ lineBreaks (n + s.length) t := by
  induction s generalizing n with
  | nil => rfl
  | cons b r ih =>
    have hn : n + (b :: r).length = n + 1 + r.length := by simp +arith
    rw [hn, List.cons_append, lineBreaks, lineBreaks]
    split
    · rw [ih, List.cons_append]
    · exact ih _

theorem lineBreaks_eq_nil {s : Bytes} (h : byte '\n' ∉ s) (n : Nat) : lineBreaks n s = [] := by
  rw [← List.length_eq_zero_iff, length_lineBreaks, List.count_eq_zero.2 h]

/-- Further lines start behind the start of a text, and no later than right behind its end. -/
theorem lineBreaks_bounds {n k : Nat} {s : Bytes} (h : k ∈ lineBreaks n s) :
    n < k ∧ k ≤ n + s.length := by
  induction s generalizing n with
  | nil => cases h
  | cons b r ih =>
    have hr (h : k ∈ lineBreaks (n + 1) r) : n < k ∧ k ≤ n + (b :: r).length := by
      have := ih h
      rw [List.length_cons]
      omega
    rw [lineBreaks] at h
    split at h
    · rcases List.mem_cons.1 h with rfl | h
      · simp
      · exact hr h
    · exact hr h

/-- A text is cut in two behind its last newline. -/
theorem exists_lastLine (s : Bytes) :
    ∃ head tail, s = head ++ tail ∧ byte '\n' ∉ tail ∧
      (head = [] ∨ head.getLast? = some (byte '\n')) := by
  by_cases h : byte '\n' ∈ s
  · obtain ⟨tail, head, hs, htail⟩ := List.eq_append_cons_of_mem (List.mem_reverse.2 h)
    refine ⟨head.reverse ++ [byte '\n'], tail.reverse, ?_, ?_, .inr ?_⟩
    · simpa using congrArg List.reverse hs
    · rwa [List.mem_reverse]
    · rw [List.getLast?_concat]
  · exact ⟨[], s, rfl, h, .inl rfl⟩

/-- The last line of a text starts behind its last newline. -/
theorem getLastD_lineBreaks {head : Bytes}
    (h : head = [] ∨ head.getLast? = some (byte '\n')) :
    (0 :: lineBreaks 0 head).getLastD 0 = head.length := by
  rcases h with rfl | h
  · rfl
  · obtain ⟨before, rfl⟩ := List.getLast?_eq_some_iff.1 h
    have hbreaks : lineBreaks (0 + before.length) [byte '\n'] = [before.length + 1] := by
      simp [lineBreaks]
    rw [lineBreaks_append, hbreaks, ← List.cons_append, List.getLastD_concat, List.length_append,
      List.length_singleton]

/-- Only a last byte is dropped, and only if it is the one to drop. -/
theorem getElem?_dropFinal {c b : UInt8} {s : Bytes} {k : Nat} (hb : s[k]? = some b)
    (h : ¬(b = c ∧ k + 1 = s.length)) : (dropFinal c s)[k]? = some b := by
  unfold dropFinal
  split
  · rename_i hlast
    obtain ⟨r, rfl⟩ := List.getLast?_eq_some_iff.1 hlast
    rw [List.dropLast_concat]
    have hk := (List.getElem?_eq_some_iff.1 hb).1
    rw [List.length_append, List.length_singleton] at h hk
    rcases Nat.lt_or_eq_of_le (Nat.le_of_lt_succ hk) with hlt | rfl
    · rwa [List.getElem?_append_left hlt] at hb
    · rw [List.getElem?_concat_length] at hb
      exact absurd ⟨(Option.some.inj hb).symm, rfl⟩ h
  · exact hb

/-- A text in three parts: the lines before, the part of a line before a place, and what comes from
that place on. -/
structure Cut (s : Source) (head tail rest : Bytes) : Prop where
  content : s.content = head ++ tail ++ rest
  unbroken : byte '\n' ∉ tail
  closed : head = [] ∨ head.getLast? = some (byte '\n')

theorem exists_cut (s : Source) {offset : Nat} (h : offset ≤ s.length) :
    ∃ head tail rest, s.Cut head tail rest ∧ offset = head.length + tail.length := by
  obtain ⟨head, tail, hs, htail, hhead⟩ := exists_lastLine (s.content.take offset)
  refine ⟨head, tail, s.content.drop offset, ⟨?_, htail, hhead⟩, ?_⟩
  · rw [← hs, List.take_append_drop]
  · rw [← List.length_append, ← hs, List.length_take]
    exact (Nat.min_eq_left h).symm

namespace Cut

variable {s : Source} {head tail rest : Bytes} (h : s.Cut head tail rest)
include h

theorem length : s.length = head.length + tail.length + rest.length := by
  rw [Source.length, h.content, List.length_append, List.length_append]

theorem take : s.content.take (head.length + tail.length) = head ++ tail := by
  rw [h.content, ← List.length_append, List.take_left]

theorem count_take :
    (s.content.take (head.length + tail.length)).count (byte '\n') = head.count (byte '\n') := by
  rw [h.take, List.count_append, List.count_eq_zero.2 h.unbroken, Nat.add_zero]

theorem getElem? (k : Nat) : s.content[head.length + tail.length + k]? = rest[k]? := by
  rw [h.content, ← List.length_append, List.getElem?_append_right (by omega)]
  simp

theorem lineStart : s.LineStart head.length (head.length + tail.length) where
  le := Nat.le_add_right _ _
  opens := by
    refine h.closed.imp (fun e => by rw [e]; rfl) fun e => ?_
    obtain ⟨before, rfl⟩ := List.getLast?_eq_some_iff.1 e
    rw [h.content]
    simp
  unbroken i hi hlt he := by
    rw [h.content, List.append_assoc, List.getElem?_append_right hi,
      List.getElem?_append_left (by omega)] at he
    exact h.unbroken (List.mem_of_getElem? he)

/-- Where lines start, up to the place and behind it. -/
theorem lineStarts : s.lineStarts =
    (0 :: lineBreaks 0 head) ++ lineBreaks (head.length + tail.length) rest := by
  rw [Source.lineStarts, h.content, lineBreaks_append, lineBreaks_append,
    lineBreaks_eq_nil h.unbroken, List.append_nil, List.length_append, Nat.zero_add]
  rfl

/-- The lines that start at or before the place. -/
theorem takeWhile_lineStarts :
    s.lineStarts.takeWhile (· ≤ head.length + tail.length) = 0 :: lineBreaks 0 head := by
  rw [h.lineStarts, List.takeWhile_append_of_pos fun k hk => decide_eq_true ?_]
  · have hbehind : ∀ k ∈ lineBreaks (head.length + tail.length) rest,
        ¬k ≤ head.length + tail.length := fun k hk => Nat.not_le.2 (lineBreaks_bounds hk).1
    cases hb : lineBreaks (head.length + tail.length) rest with
    | nil => simp
    | cons k ks =>
      rw [hb] at hbehind
      rw [List.takeWhile_cons_of_neg (by simpa using hbehind k List.mem_cons_self), List.append_nil]
  · rcases List.mem_cons.1 hk with rfl | hk
    · exact Nat.zero_le _
    · have := (lineBreaks_bounds hk).2
      omega

/-- The numbers of a location are far from coming round. -/
theorem location (hs : s.length + 1 < offsetLimit) :
    (s.location (head.length + tail.length)).line = head.count (byte '\n') + 1 ∧
      (s.location (head.length + tail.length)).column = tail.length + 1 := by
  have hlength := h.length
  have hcount : head.count (byte '\n') ≤ head.length := List.count_le_length
  unfold Source.location
  simp only [h.takeWhile_lineStarts, List.length_cons, length_lineBreaks,
    getLastD_lineBreaks h.closed]
  constructor
  · exact Nat.mod_eq_of_lt (by omega)
  · rw [Nat.add_sub_cancel_left, Nat.mod_eq_of_lt (by omega)]

/-- The line of the place is the one that starts last of those before it. -/
theorem start_eq : s.lineStarts[head.count (byte '\n')]? = some head.length := by
  rw [h.lineStarts, ← getLastD_lineBreaks h.closed, ← length_lineBreaks 0 head,
    List.getElem?_append_left (by simp), List.getLastD_eq_getLast?, List.getLast?_eq_getElem?]
  simp

theorem next_eq : s.lineStarts[head.count (byte '\n') + 1]? =
    (lineBreaks (head.length + tail.length) rest)[0]? := by
  rw [h.lineStarts, ← length_lineBreaks 0 head, List.getElem?_append_right (by simp)]
  simp

/-- The last line goes up to the end of the text. -/
theorem line_last (hr : byte '\n' ∉ rest) :
    s.line (head.count (byte '\n') + 1) = tail ++ rest := by
  rw [line, h.start_eq, h.next_eq, lineBreaks_eq_nil hr]
  simp [h.content]

/-- Any other line goes up to its newline, or to a carriage return right before it. -/
theorem line_closed {mid behind : Bytes} (hr : rest = mid ++ byte '\n' :: behind)
    (hmid : byte '\n' ∉ mid) :
    s.line (head.count (byte '\n') + 1) = dropFinal (byte '\r') (tail ++ mid) := by
  have hslice : s.slice head.length (head.length + tail.length + mid.length + 1) =
      tail ++ mid ++ [byte '\n'] := by
    have hwidth : head.length + tail.length + mid.length + 1 - head.length =
        (tail ++ mid ++ [byte '\n']).length := by
      simp only [List.length_append, List.length_singleton]
      omega
    have htext : s.content = head ++ (tail ++ mid ++ [byte '\n'] ++ behind) := by
      simp [h.content, hr]
    rw [Source.slice, Bytes.slice, hwidth, htext, List.drop_left, List.take_left]
  rw [line, h.start_eq, h.next_eq, hr, lineBreaks_append, lineBreaks_eq_nil hmid, List.nil_append,
    lineBreaks, if_pos rfl, List.getElem?_cons_zero]
  simp only [hslice]
  congr 1
  rw [dropFinal, List.getLast?_concat, if_pos rfl, List.dropLast_concat]

/-- What stands at the place stands in its line, unless it belongs to the line break. -/
theorem getElem?_line {b : UInt8} (hb : rest[0]? = some b) (hn : b ≠ byte '\n')
    (hr : ¬(b = byte '\r' ∧ rest[1]? = some (byte '\n'))) :
    (s.line (head.count (byte '\n') + 1))[tail.length]? = some b := by
  obtain ⟨behind, rfl⟩ : ∃ behind, rest = b :: behind := by
    cases rest with
    | nil => cases hb
    | cons c behind =>
      cases hb
      exact ⟨behind, rfl⟩
  by_cases hbreak : byte '\n' ∈ b :: behind
  · obtain ⟨mid, after, he, hmid⟩ := List.eq_append_cons_of_mem hbreak
    obtain ⟨mid, rfl⟩ : ∃ others, mid = b :: others := by
      cases mid with
      | nil => exact absurd (List.cons.inj he).1 hn
      | cons c others => exact ⟨others, by rw [(List.cons.inj he).1]⟩
    rw [h.line_closed he hmid]
    refine getElem?_dropFinal (by simp) fun hlast => hr ⟨hlast.1, ?_⟩
    have hlength := hlast.2
    rw [List.length_append, List.length_cons] at hlength
    obtain rfl : mid = [] := List.eq_nil_of_length_eq_zero (by omega)
    rw [he]
    rfl
  · rw [h.line_last hbreak, List.getElem?_append_right (Nat.le_refl _), Nat.sub_self]
    rfl

end Cut

/-- The line of an offset is one more than the number of newlines before it, and its column counts
from the last of them, as long as these numbers do not come round. A byte that is not part of a line
break is found in its line at its column. -/
theorem location_line (s : Source) (h : s.length + 1 < offsetLimit) :
    s.lineCount = s.content.count (byte '\n') + 1 ∧
    ∀ offset ≤ s.length,
      (s.location offset).line = (s.content.take offset).count (byte '\n') + 1 ∧
      (∃ start, s.LineStart start offset ∧ (s.location offset).column = offset - start + 1) ∧
      ∀ b, s.content[offset]? = some b → b ≠ byte '\n' →
        ¬(b = byte '\r' ∧ s.content[offset + 1]? = some (byte '\n')) →
        (s.line (s.location offset).line)[(s.location offset).column - 1]? = some b := by
  have hcount : s.content.count (byte '\n') + 1 < offsetLimit :=
    Nat.lt_of_le_of_lt (Nat.succ_le_succ List.count_le_length) h
  refine ⟨?_, fun offset ho => ?_⟩
  · rw [lineCount, lineStarts, List.length_cons, length_lineBreaks, Nat.mod_eq_of_lt hcount]
  obtain ⟨head, tail, rest, hcut, rfl⟩ := s.exists_cut ho
  obtain ⟨hline, hcolumn⟩ := hcut.location h
  refine ⟨by rw [hline, hcut.count_take], ⟨head.length, hcut.lineStart, ?_⟩, fun b hb hn hr => ?_⟩
  · rw [hcolumn, Nat.add_sub_cancel_left]
  · rw [hcut.getElem? 1] at hr
    rw [hline, hcolumn, Nat.add_sub_cancel]
    exact hcut.getElem?_line ((hcut.getElem? 0).symm.trans hb) hn hr

/-- A text with both kinds of line breaks, an empty line, and a carriage return that ends none. -/
def brokenText : Source := ⟨defaultName, utf8 "a\r\n\nb\rc\nd"⟩

theorem location_line_brokenText :
    brokenText.length + 1 < offsetLimit ∧ brokenText.lineCount = 4 ∧
    (brokenText.location 5).line = 3 ∧
    (∃ start, brokenText.LineStart start 5 ∧ (brokenText.location 5).column = 5 - start + 1) ∧
    (brokenText.line (brokenText.location 5).line)[(brokenText.location 5).column - 1]? =
      some (byte '\r') := by
  have hshort : brokenText.length + 1 < offsetLimit := by decide +kernel
  obtain ⟨hcount, hall⟩ := location_line brokenText hshort
  obtain ⟨hline, hcolumn, hbyte⟩ := hall 5 (by decide +kernel)
  refine ⟨hshort, ?_, ?_, hcolumn, ?_⟩
  · rw [hcount]
    decide +kernel
  · rw [hline]
    decide +kernel
  · exact hbyte (byte '\r') (by decide +kernel) (by decide) (by decide +kernel)

end JsxPresence.Source
