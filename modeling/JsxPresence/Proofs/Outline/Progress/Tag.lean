import JsxPresence.Proofs.Outline.Progress.Expression
import JsxPresence.Proofs.Outline.Tag

namespace JsxPresence

/-- The offset lies in the text, with at most `n` bytes behind it. -/
structure Bytes.Leaves (text : Bytes) (n p : Nat) : Prop where
  le : p ≤ text.length
  length_le : text.length ≤ n + p

theorem Bytes.Leaves.onto {text : Bytes} {n m p q : Nat} (h : text.Leaves n p)
    (hq : q ≤ text.length) (hle : n + p ≤ m + q) : text.Leaves m q := ⟨hq, h.length_le.trans hle⟩

theorem Bytes.Leaves.mono {text : Bytes} {n m p : Nat} (h : text.Leaves n p) (hn : n ≤ m) :
    text.Leaves m p := h.onto h.le (by omega)

/-- Where a byte is left, there is one to pass. -/
theorem Bytes.Leaves.pos {text : Bytes} {n p : Nat} (h : text.Leaves n p) (hp : p < text.length) :
    0 < n := by
  have hle := h.length_le
  omega

namespace Lexer

variable {text : Bytes} {lx : Lexer text} {n : Nat}

theorem leaves_skipTrivia (h : text.Leaves n lx.pos) : text.Leaves n lx.skipTrivia.pos :=
  h.onto (skipTrivia_le h.le) (Nat.add_le_add_left lx.le_skipTrivia n)

theorem leaves_skipByte (h : text.Leaves n lx.pos) {b : UInt8} (hb : lx.peek 0 = b) (hne : b ≠ 0) :
    0 < n ∧ text.Leaves (n - 1) lx.skipByte.pos := by
  have hlt := lt_length_of_peek hb hne
  have hpos := h.pos hlt
  exact ⟨hpos, h.onto hlt (by rw [skipByte_pos]; omega)⟩

theorem leaves_emit {s : Scan} (h : text.Leaves n lx.pos) (hs : s.length ≤ lx.rest.length) :
    text.Leaves n (lx.emit s).2.pos := by
  have hle := h.le
  rw [rest_length] at hs
  exact h.onto (by rw [emit_pos]; omega) (by rw [emit_pos]; omega)

/-- A token that is not empty takes a byte at least. -/
theorem leaves_emit_pos {s : Scan} (h : text.Leaves n lx.pos) (hs : s.length ≤ lx.rest.length)
    (hpos : 1 ≤ s.length) : 0 < n ∧ text.Leaves (n - 1) (lx.emit s).2.pos := by
  have hlength := h.length_le
  have hle := (leaves_emit h hs).le
  rw [emit_pos] at hle
  exact ⟨by omega, h.onto (by rw [emit_pos]; omega) (by rw [emit_pos]; omega)⟩

theorem leaves_elementText (h : text.Leaves n lx.pos) : text.Leaves n lx.elementText.2.pos :=
  leaves_emit h (Bytes.run_le _ _)

/-- A reader that goes on from an offset has the bytes behind it before itself. -/
theorem left_reset (lx : Lexer text) {p : Nat} (h : text.Leaves n p) (regexAllowed : Bool)
    (previous : Option Token) (lastEnd : Nat) :
    Reader.Left n ⟨(lx.reset p regexAllowed).next.2, (lx.reset p regexAllowed).next.1, previous,
      lastEnd⟩ := by
  have hle : (lx.reset p regexAllowed).pos ≤ text.length := by simpa using h.le
  refine ⟨Reader.stands_next hle _ _, fun he => ?_⟩
  have hpos := (lt_next_pos (Reader.ne_eof_of_not_atEnd he)).1
  have hlength := h.length_le
  rw [reset_pos] at hpos
  change text.length < n + (lx.reset p regexAllowed).next.2.pos
  omega

end Lexer

/-- In a short text the token at hand is where it says, right before the lexer. -/
theorem Reader.Stands.placed {text : Bytes} {r : Reader text} (h : r.Stands) (hs : text.Short) :
    r.current.Placed text ∧ r.lexer.pos = r.current.span.stop := by
  obtain ⟨lx, hle, hnext⟩ := h
  have hplaced := Lexer.next_placed hs hle
  rw [hnext] at hplaced
  exact ⟨hplaced.1, hplaced.2.2⟩

/-- From offsets with at most `bound` bytes behind them both read the same element, pass a byte at
least and do not run out of fuel. -/
def ElementWalk.Sure {text : Bytes} (bound : Nat) (element element' : ElementWalk text) : Prop :=
  ∀ (n : Nat) (lx : Lexer text) (start : Nat), n ≤ bound → start < text.length →
    text.Leaves n start →
    JsxPresence.Sure (fun x => text.Leaves (n - 1) x.2.2) (element lx start) (element' lx start)

namespace Tag

variable {text : Bytes} {walk walk' : Walk text} {element element' : ElementWalk text}
  {lx : Lexer text} {n fuel fuel' bound : Nat}

theorem word_sure (h : text.Leaves n lx.pos) {missing : SyntaxCause} (hm : missing ≠ .exhausted) :
    Sure (fun x => 0 < n ∧ text.Leaves (n - 1) x.2.pos) (word lx missing) (word lx missing) := by
  unfold word Lexer.elementName
  cases hname : isNameStart (lx.peek 0) with
  | false => exact ⟨rfl, hm⟩
  | true =>
    have hne : lx.peek 0 ≠ 0 := by
      intro hzero
      rw [hzero] at hname
      exact absurd hname (by decide)
    have hrun : 1 ≤ Bytes.run (fun b => isNameByte b || b = byte '-') lx.rest := by
      cases hr : lx.rest with
      | nil => simp [Lexer.peek, hr, Bytes.byteAt] at hne
      | cons b rest =>
        have hb : isNameStart b = true := by simpa [Lexer.peek, hr, Bytes.byteAt] using hname
        exact Bytes.run_cons_pos rest (by simp [isNameByte, hb])
    exact ⟨rfl, Lexer.leaves_emit_pos h (Bytes.run_le _ _) hrun⟩

theorem segments_sure (h : text.Leaves n lx.pos) (hn : n < min fuel fuel') :
    Sure (fun x => text.Leaves n x.2.pos) (segments fuel lx) (segments fuel' lx) := by
  induction n using Nat.strong_induction_on generalizing lx fuel fuel' with
  | _ n ih =>
    obtain ⟨fuel, fuel', rfl, rfl⟩ := exists_succ_of_lt_min hn
    refine .ite (fun hdot => ?_) fun _ => .pure h
    obtain ⟨hpos, hskip⟩ := Lexer.leaves_skipByte h hdot (by decide)
    apply (word_sure hskip (by simp)).bind
    intro x hx
    apply (ih (n - 1 - 1) (by omega) hx.2 (by omega)).bind
    intro y hy
    exact .pure (hy.mono (by omega))

theorem name_sure (h : text.Leaves n lx.pos) (hn : n ≤ min fuel fuel') :
    Sure (fun x => 0 < n ∧ text.Leaves (n - 1) x.2.pos) (name fuel lx) (name fuel' lx) := by
  unfold name
  apply (word_sure h (by simp)).bind
  rintro ⟨first, ly⟩ ⟨hpos, hy⟩
  refine .ite (fun hcolon => ?_) fun _ => ?_
  · obtain ⟨-, hskip⟩ := Lexer.leaves_skipByte hy hcolon (by decide)
    apply (word_sure hskip (by simp)).bind
    rintro x ⟨-, hx⟩
    exact .pure ⟨hpos, hx.mono (by omega)⟩
  · apply (segments_sure hy (by omega)).bind
    rintro ⟨others, lz⟩ hz
    split
    all_goals
      rename_i heq
      cases heq
      exact .pure ⟨hpos, hz⟩

section short

variable (hs : text.Short) (hw : walk.Sure bound walk')
include hs hw

theorem container_sure (lx : Lexer text) {offset : Nat} (h : text.Leaves n offset)
    (hlt : offset < text.length) (hb : n ≤ bound) (hn : n ≤ min fuel fuel') :
    Sure (fun x => text.Leaves (n - 1) x.2.2) (container walk fuel lx offset)
      (container walk' fuel' lx offset) := by
  have hpos := h.pos hlt
  unfold container
  apply (Lexer.left_reset lx h true none offset).advance.bind
  intro r hr
  apply (Reader.walkUntil_sure hw hr (by omega) (by omega) _).bind
  intro x hx
  refine .ite (fun _ => .throw_bind (by simp)) fun hclose => .pure ?_
  have hend : x.2.atEnd = false := Reader.atEnd_eq_false_of_is (by simpa using hclose) (by decide)
  have hlength := hx.length_lt hend
  have hle := hx.stands.pos_le
  have hstop := (hx.stands.placed hs).2
  exact ⟨by dsimp only; omega, by dsimp only; omega⟩

omit hs hw in
theorem attributeName_sure (tag : Bytes) (h : text.Leaves n lx.pos) :
    Sure (fun x => 0 < n ∧ text.Leaves (n - 1) x.2.pos) (attributeName tag lx)
      (attributeName tag lx) := by
  unfold attributeName
  apply (word_sure h (by simp)).bind
  rintro ⟨first, ly⟩ ⟨hpos, hy⟩
  refine .ite (fun hcolon => ?_) fun _ => .pure ⟨hpos, hy⟩
  obtain ⟨-, hskip⟩ := Lexer.leaves_skipByte hy hcolon (by decide)
  apply (word_sure hskip (by simp)).bind
  rintro x ⟨-, hx⟩
  exact .pure ⟨hpos, hx.mono (by omega)⟩

theorem attributeValue_sure (he : element.Sure bound element') (attr : Bytes)
    (h : text.Leaves n lx.pos) (hb : n ≤ bound) (hn : n ≤ min fuel fuel') :
    Sure (fun x => text.Leaves n x.2.pos) (attributeValue walk element fuel attr lx)
      (attributeValue walk' element' fuel' attr lx) := by
  have onto {x : Nat} (hx : text.Leaves (n - 1) x) (ly : Lexer text) :
      text.Leaves n (ly.reset x false).pos := by
    rw [Lexer.reset_pos]
    exact hx.mono (by omega)
  refine .ite (fun hquote => ?_) fun _ => .ite (fun hbrace => ?_) fun _ =>
    .ite (fun htag => ?_) fun _ => .throw (by simp)
  · refine .ite (fun _ => .throw_bind (by simp)) fun hk => .pure ?_
    obtain ⟨hge, hle⟩ := elementString_onward (fun _ => ⟨le_refl _, h.le⟩) hk hs
    exact h.onto hle (Nat.add_le_add_left hge n)
  · have hlt := Lexer.lt_length_of_peek hbrace (by decide)
    exact (container_sure hs hw lx h hlt hb hn).bind fun x hx => .pure (onto hx x.2.1)
  · have hlt := Lexer.lt_length_of_peek htag (by decide)
    exact (he n lx lx.pos hb hlt h).bind fun x hx => .pure (onto hx x.2.1)

/-- Each attribute takes a byte at least. -/
theorem attributes_sure (he : element.Sure bound element') (start : Nat) (tag : Bytes)
    (h : text.Leaves n lx.pos) (hb : n ≤ bound) (hn : n < min fuel fuel') :
    Sure (fun x => text.Leaves n x.2.pos ∧ x.2.pos < text.length)
      (attributes walk element start tag fuel lx)
      (attributes walk' element' start tag fuel' lx) := by
  induction n using Nat.strong_induction_on generalizing lx fuel fuel' with
  | _ n ih =>
    obtain ⟨fuel, fuel', rfl, rfl⟩ := exists_succ_of_lt_min hn
    have htrivia := Lexer.leaves_skipTrivia h
    have further {ly : Lexer text} (hpos : 0 < n) (hy : text.Leaves (n - 1) ly.pos) :
        Sure (fun x => text.Leaves n x.2.pos ∧ x.2.pos < text.length)
          (attributes walk element start tag fuel ly)
          (attributes walk' element' start tag fuel' ly) :=
      (ih (n - 1) (by omega) hy (by omega) (by omega)).mono
        fun _ hx => ⟨hx.1.mono (by omega), hx.2⟩
    refine .ite (fun _ => .throw_bind (by simp)) fun hrest => .ite (fun _ => ?_) fun _ =>
      .ite (fun hbrace => ?_) fun _ => ?_
    · exact .pure ⟨htrivia, Lexer.lt_length_of_rest (by simpa using hrest)⟩
    · have hlt := Lexer.lt_length_of_peek hbrace (by decide)
      apply (container_sure hs hw _ htrivia hlt hb (by omega)).bind
      intro x hx
      apply (further (htrivia.pos hlt) (by simpa using hx)).bind
      intro y hy
      exact .pure hy
    · apply (attributeName_sure tag htrivia).bind
      rintro ⟨attr, ly⟩ ⟨hpos, hy⟩
      have hy := Lexer.leaves_skipTrivia hy
      refine .ite (fun hassign => ?_) fun _ => ?_
      · obtain ⟨hpos', hskip⟩ := Lexer.leaves_skipByte hy hassign (by decide)
        have hvalue := Lexer.leaves_skipTrivia hskip
        apply (attributeValue_sure hs hw he attr hvalue (by omega) (by omega)).bind
        intro x hx
        apply (further hpos (hx.mono (by omega))).bind
        intro y hy
        exact .pure hy
      · apply (further hpos hy).bind
        intro y hy
        exact .pure hy

omit hs hw in
theorem closing_sure (tag : Bytes) (offset : Nat) (h : text.Leaves n lx.pos)
    (hn : n ≤ min fuel fuel') :
    Sure (fun ly => text.Leaves n ly.pos) (closing fuel tag offset lx)
      (closing fuel' tag offset lx) := by
  have htrivia := Lexer.leaves_skipTrivia h
  have finish (found : Bytes) {ly : Lexer text} (hy : text.Leaves n ly.pos)
      {x : Except SyntaxError (Lexer text)} (hx : x = do
        if found ≠ tag then throw ⟨.mismatchedClosingTag tag found, ⟨offset, ly.pos⟩⟩
        if ly.peek 0 ≠ byte '>' then throw ⟨.missingCloseOfClosingTag, ⟨ly.pos, ly.pos + 1⟩⟩
        return ly.skipByte) : Sure (fun lz => text.Leaves n lz.pos) x x := by
    subst hx
    refine .ite (fun _ => .throw_bind (by simp)) fun _ =>
      .ite (fun _ => .throw_bind (by simp)) fun hgt => .pure ?_
    obtain ⟨-, hskip⟩ := Lexer.leaves_skipByte hy (Decidable.not_not.1 hgt) (by decide)
    exact hskip.mono (by omega)
  unfold closing
  refine .ite (fun _ => finish [] htrivia rfl) fun _ => ?_
  apply (name_sure htrivia hn).bind
  rintro x ⟨-, hx⟩
  exact finish _ (Lexer.leaves_skipTrivia (hx.mono (by omega))) rfl

/-- Each child takes a byte at least. -/
theorem children_sure (he : element.Sure bound element') (start : Nat) (tag : Bytes)
    (h : text.Leaves n lx.pos) (hb : n ≤ bound) (hn : n < min fuel fuel') :
    Sure (fun x => text.Leaves n x.2.2)
      (children walk element start tag fuel lx) (children walk' element' start tag fuel' lx) := by
  induction n using Nat.strong_induction_on generalizing lx fuel fuel' with
  | _ n ih =>
    obtain ⟨fuel, fuel', rfl, rfl⟩ := exists_succ_of_lt_min hn
    have htext := Lexer.leaves_elementText h
    refine .ite (fun _ => .throw_bind (by simp)) fun hrest => ?_
    have hlt := Lexer.lt_length_of_rest (Bool.eq_false_iff.2 hrest)
    have hpos := htext.pos hlt
    have further {x : Nat} (hx : text.Leaves (n - 1) x) (ly : Lexer text) :
        Sure (fun x => text.Leaves n x.2.2)
          (children walk element start tag fuel (ly.reset x false))
          (children walk' element' start tag fuel' (ly.reset x false)) :=
      (ih (n - 1) (by omega) (by simpa using hx) (by omega) (by omega)).mono
        fun _ hx => hx.mono (by omega)
    refine .ite (fun _ => ?_) fun hbrace => ?_
    · apply (container_sure hs hw _ htext hlt hb (by omega)).bind
      intro x hx
      apply (further hx x.2.1).bind
      intro y hy
      exact .pure hy
    · have htag := Lexer.elementText_peek (Bool.eq_false_iff.2 hrest) hbrace
      obtain ⟨-, hskip⟩ := Lexer.leaves_skipByte htext htag (by decide)
      have hinside := Lexer.leaves_skipTrivia hskip
      refine .ite (fun hslash => ?_) fun _ => ?_
      · obtain ⟨-, hname⟩ := Lexer.leaves_skipByte hinside hslash (by decide)
        apply (closing_sure tag _ hname (by omega)).bind
        intro ly hy
        exact .pure (hy.mono (by omega))
      · apply (he n _ _ hb hlt htext).bind
        intro x hx
        apply (further hx x.2.1).bind
        intro y hy
        exact .pure hy

theorem fragment_sure (he : element.Sure bound element') (start : Nat) (h : text.Leaves n lx.pos)
    (hb : n ≤ bound) (hn : n ≤ min fuel fuel') (hgt : lx.peek 0 = byte '>') :
    Sure (fun x => text.Leaves n x.2.2) (fragment walk element fuel start lx)
      (fragment walk' element' fuel' start lx) := by
  obtain ⟨hpos, hskip⟩ := Lexer.leaves_skipByte h hgt (by decide)
  apply (children_sure hs hw he start [] hskip (by omega) (by omega)).bind
  intro x hx
  exact .pure (hx.mono (by omega))

/-- An element takes a byte at least if its children do. -/
theorem element_sure (he : element.Sure bound element') (hn : bound ≤ min fuel fuel') :
    ElementWalk.Sure (bound + 1) (Tag.element walk element fuel)
      (Tag.element walk' element' fuel') := by
  intro n lx start hb hlt h
  have hpos := h.pos hlt
  have hopen : text.Leaves (n - 1) (lx.reset (start + 1) false).pos := by
    rw [Lexer.reset_pos]
    exact h.onto hlt (by omega)
  have hopen := Lexer.leaves_skipTrivia hopen
  refine .ite (fun hgt => ?_) fun _ => ?_
  · exact fragment_sure hs hw he start hopen (by omega) (by omega) hgt
  · apply (name_sure hopen (by omega)).bind
    rintro ⟨tag, ly⟩ ⟨hname, hy⟩
    apply (attributes_sure hs hw he start tag.full hy (by omega) (by omega)).bind
    rintro ⟨attrs, lz⟩ ⟨hz, hzlt⟩
    dsimp only at hz hzlt
    have hleft := hz.pos hzlt
    refine .ite (fun _ => .ite (fun _ => .throw_bind (by simp)) fun hgt => .pure ?_) fun _ => ?_
    · have hle := Lexer.lt_length_of_peek (Decidable.not_not.1 hgt) (by decide)
      exact hz.onto hle (by dsimp only; omega)
    · have hskip : text.Leaves (n - 1 - 1 - 1) lz.skipByte.pos :=
        hz.onto hzlt (by rw [Lexer.skipByte_pos]; omega)
      apply (children_sure hs hw he start tag.full hskip (by omega) (by omega)).bind
      intro x hx
      exact .pure (hx.mono (by omega))

end short

end Tag

namespace Reader

variable {text : Bytes} {r : Reader text} {n fuel fuel' bound : Nat} {walk walk' : Walk text}

theorem resumeAfter_sure (lx : Lexer text) {offset : Nat} (h : text.Leaves n offset) :
    Sure (Left n) (resumeAfter lx offset) (resumeAfter lx offset) :=
  (Lexer.left_reset lx h false _ offset).checked

/-- The `<` at hand is the last byte that the lexer has read. -/
theorem Left.leaves_less (h : r.Left n) (hs : text.Short) (hk : r.current.kind = .less) :
    r.current.span.start < text.length ∧ text.Leaves n r.current.span.start := by
  have hlength := h.length_lt (not_atEnd_of_ne_eof (by simp [hk]))
  have hle := h.stands.pos_le
  obtain ⟨hplaced, hpos⟩ := h.stands.placed hs
  have hmark := (hplaced.mark (by rw [hk]; rfl)).1
  exact ⟨by omega, by omega, by omega⟩

theorem walkUnit_sure {elements : Bool} {element element' : ElementWalk text}
    (hw : walk.Sure bound walk')
    (he : elements = true → text.Short ∧ element.Sure bound element') (h : r.Left n)
    (hb : n ≤ bound) (hn : n ≤ min fuel fuel') :
    Sure (fun x => x.2.Left (n - 1)) (walkUnit elements walk element fuel r)
      (walkUnit elements walk' element' fuel' r) := by
  have hchain (hk : r.current.kind = .identifier ∨ r.current.kind = .keyword) :=
    walkChain_sure hw h (not_atEnd_of_ne_eof (by rcases hk with hk | hk <;> simp [hk])) hb hn
  have hgroup (hk : r.current.kind.isOpener = true) :=
    walkGroup_sure hw h (atEnd_eq_false_of_isOpener hk) hb hn
  unfold walkUnit
  split
  · rename_i hk
    exact hgroup (by rw [hk]; rfl)
  · rename_i hk
    exact hgroup (by rw [hk]; rfl)
  · rename_i hk
    exact hgroup (by rw [hk]; rfl)
  · exact .throw (by simp [failAt])
  · exact .throw (by simp [failAt])
  · exact .throw (by simp [failAt])
  · rename_i hk
    refine .ite (fun hat => ?_) fun _ => walkToken_sure h
    obtain ⟨hs, helement⟩ := he (by
      unfold atElement at hat
      simp only [Bool.and_eq_true] at hat
      exact hat.1.1.1)
    obtain ⟨hlt, hleaves⟩ := h.leaves_less hs hk
    apply (helement n r.lexer _ hb hlt hleaves).bind
    intro x hx
    apply (resumeAfter_sure x.2.1 hx).bind
    intro s hs
    exact .pure hs
  · rename_i hk
    exact hchain (.inl hk)
  · rename_i hk
    exact .ite (fun _ => hchain (.inr hk)) fun _ => walkToken_sure h
  · exact walkToken_sure h

/-- Units and elements take a byte at least: by induction on one of the fuels, for both at once. -/
theorem walk_sure {elements : Bool} (hs : elements = true → text.Short) (fuel fuel' : Nat) :
    Walk.Sure (min fuel fuel') (Reader.walk elements fuel : Walk text)
      (Reader.walk elements fuel') ∧
    (elements = true → ElementWalk.Sure (min fuel fuel')
      (walkElement elements fuel : ElementWalk text) (walkElement elements fuel')) := by
  induction fuel generalizing fuel' with
  | zero =>
    refine ⟨fun n r hn => by omega, fun _ n lx start hn hlt h => ?_⟩
    have hpos := h.pos hlt
    omega
  | succ fuel ih =>
    refine ⟨fun n r hn h => ?_, fun hel n lx start hn hlt h => ?_⟩
    · obtain ⟨fuel', rfl⟩ : ∃ k, fuel' = k + 1 := ⟨fuel' - 1, by omega⟩
      obtain ⟨hw, he⟩ := ih fuel'
      simp only [Reader.walk]
      exact walkUnit_sure hw (fun hel => ⟨hs hel, he hel⟩) h (by omega) (by omega)
    · have hpos := h.pos hlt
      obtain ⟨fuel', rfl⟩ : ∃ k, fuel' = k + 1 := ⟨fuel' - 1, by omega⟩
      obtain ⟨hw, he⟩ := ih fuel'
      simp only [walkElement]
      exact Tag.element_sure (hs hel) hw (he hel) (le_refl _) n lx start (by omega) hlt h

end Reader

end JsxPresence
