import JsxPresence.Outline.Tag
import JsxPresence.Proofs.Outline.Expression

namespace JsxPresence

/-- Going from `p` to `q` is going on in the text. -/
def Bytes.Onward (text : Bytes) (p q : Nat) : Prop := text.Short → p ≤ q ∧ q ≤ text.length

theorem Bytes.Onward.trans {text : Bytes} {p q n : Nat} (h : text.Onward p q)
    (k : text.Onward q n) : text.Onward p n :=
  fun hs => ⟨(h hs).1.trans (k hs).1, (k hs).2⟩

theorem Bytes.Onward.refl_right {text : Bytes} {p q : Nat} (h : text.Onward p q) :
    text.Onward q q := fun hs => ⟨le_refl _, (h hs).2⟩

/-- The byte behind a run does not belong to it. -/
theorem Bytes.byteAt_run {p : UInt8 → Bool} {s : Bytes} (h : run p s < s.length) :
    p (s.byteAt (run p s)) = false := by
  induction s with
  | nil => simp [run] at h
  | cons b r ih =>
    cases hb : p b with
    | false => simp [run, hb, byteAt]
    | true =>
      have hr : run p (b :: r) = run p r + 1 := by simp [run, hb]
      rw [hr] at h ⊢
      exact ih (by simpa using h)

namespace Lexer

variable {text : Bytes}

theorem onward_emit {lx : Lexer text} {s : Scan} (h : s.length ≤ lx.rest.length)
    (hp : text.Onward lx.pos lx.pos) : text.Onward lx.pos (lx.emit s).2.pos := by
  intro hs
  have := (hp hs).2
  rw [rest_length] at h
  rw [emit_pos]
  omega

theorem onward_skipTrivia {lx : Lexer text} (hp : text.Onward lx.pos lx.pos) :
    text.Onward lx.pos lx.skipTrivia.pos :=
  fun hs => ⟨lx.le_skipTrivia, skipTrivia_le (hp hs).2⟩

theorem onward_skipByte {lx : Lexer text} {b : UInt8} (h : lx.peek 0 = b) (hb : b ≠ 0) :
    text.Onward lx.pos lx.skipByte.pos :=
  fun _ => ⟨Nat.le_add_right _ _, lt_length_of_peek h hb⟩

theorem onward_elementText {lx : Lexer text} (hp : text.Onward lx.pos lx.pos) :
    text.Onward lx.pos lx.elementText.2.pos :=
  onward_emit (Bytes.run_le _ _) hp

/-- Text between tags ends at a brace or at a tag. -/
theorem elementText_peek {lx : Lexer text} (h : lx.elementText.2.rest.isEmpty = false)
    (hb : lx.elementText.2.peek 0 ≠ openBrace) : lx.elementText.2.peek 0 = byte '<' := by
  have hlt := lt_length_of_rest h
  have hpos : lx.elementText.2.pos =
    lx.pos + Bytes.run (fun b => b != byte '<' && b != openBrace) lx.rest := rfl
  have hr : Bytes.run (fun b => b != byte '<' && b != openBrace) lx.rest < lx.rest.length := by
    rw [rest_length]
    omega
  have hn := Bytes.byteAt_run hr
  have hpeek : lx.elementText.2.peek 0 = lx.rest.byteAt
      (Bytes.run (fun b => b != byte '<' && b != openBrace) lx.rest) := by
    rw [byteAt_pos, hpos, Nat.add_zero, ← byteAt_pos]
    rfl
  rw [← hpeek] at hn
  simpa [hb] using hn

end Lexer

/-- Reading an element finds a sound outline between its `<` and the offset it gives. -/
def ElementWalk.Sound {text : Bytes} (element : ElementWalk text) : Prop :=
  ∀ (lx : Lexer text) (start : Nat), (text.Short → text.byteAt start = byte '<') →
    Yields (element lx start) fun x =>
      x.1.Sound text start x.2.2 ∧ (text.Short → start < x.2.2 ∧ x.2.2 ≤ text.length)

namespace Tag

variable {text : Bytes} {walk : Walk text} {element : ElementWalk text} {lx : Lexer text}

theorem plain_of_run {s : Bytes} :
    Name.Plain (s.take (Bytes.run (fun b => isNameByte b || b = byte '-') s)) := by
  constructor
  · intro h
    exact absurd (Bytes.mem_take_run h) (by decide)
  · intro h
    exact absurd (Bytes.mem_take_run h) (by decide)

theorem word_plain (missing : SyntaxCause) (hp : text.Onward lx.pos lx.pos) :
    Yields (word lx missing) fun x => Name.Plain x.1 ∧ text.Onward lx.pos x.2.pos := by
  unfold word Lexer.elementName
  by_cases hn : isNameStart (lx.peek 0) = true
  · simp only [hn, if_true]
    refine .ite (fun _ => .error _) fun _ => .ok ⟨plain_of_run, ?_⟩
    exact Lexer.onward_emit (Bytes.run_le _ _) hp
  · simp only [hn]
    exact .ite (fun _ => .error _) fun he => absurd rfl he

theorem segments_plain (fuel : Nat) (hp : text.Onward lx.pos lx.pos) :
    Yields (segments fuel lx) fun x =>
      (∀ segment ∈ x.1, Name.Plain segment) ∧ text.Onward lx.pos x.2.pos := by
  induction fuel generalizing lx with
  | zero => exact .error _
  | succ fuel ih =>
    refine .ite (fun hd => ?_) fun _ => .pure ⟨by simp, hp⟩
    have hb := Lexer.onward_skipByte hd (by decide)
    refine (word_plain _ hb.refl_right).bind fun x hx => ?_
    refine (ih hx.2.refl_right).bind fun y hy => ?_
    refine .pure ⟨fun segment hm => ?_, hb.trans (hx.2.trans hy.2)⟩
    rcases List.mem_cons.1 hm with rfl | hm
    · exact hx.1
    · exact hy.1 segment hm

theorem name_plain (fuel : Nat) (hp : text.Onward lx.pos lx.pos) :
    Yields (name fuel lx) fun x => x.1.shape.Plain ∧ text.Onward lx.pos x.2.pos := by
  unfold name
  refine (word_plain _ hp).bind fun x hx => ?_
  refine .ite (fun hc => ?_) fun _ => ?_
  · have hb := Lexer.onward_skipByte hc (by decide)
    refine (word_plain _ hb.refl_right).bind fun y hy => ?_
    exact .pure ⟨trivial, hx.2.trans (hb.trans hy.2)⟩
  · refine (segments_plain fuel hx.2.refl_right).bind fun y hy => ?_
    obtain ⟨others, ly⟩ := y
    split
    · rename_i heq
      cases heq
      exact .pure ⟨hx.1, hx.2.trans hy.2⟩
    · rename_i heq
      cases heq
      refine .pure ⟨⟨by simp, fun segment hm => ?_⟩, hx.2.trans hy.2⟩
      rcases List.mem_cons.1 hm with rfl | hm
      · exact hx.1
      · exact hy.1 segment hm

theorem container_sound (hw : walk.Sound) (fuel : Nat) (lx : Lexer text) {offset : Nat}
    (ho : text.Short → offset ≤ text.length) :
    Yields (container walk fuel lx offset) fun x =>
      x.1.Sound text offset x.2.2 ∧ text.Onward offset x.2.2 := by
  unfold container
  have hready : Reader.Ready ⟨(lx.reset offset true).next.2, (lx.reset offset true).next.1, none,
      offset⟩ := Reader.ready_next fun hs => by simpa using ho hs
  refine (Reader.advance_after hready).bind fun r hr => ?_
  refine (Reader.walkUntil_found hw _ fuel hr.ready).bind fun x hx => ?_
  refine .ite (fun _ => .throw_bind _ _) fun hc => .pure ?_
  have hc : x.2.current.kind = .closeBrace := by simpa [Reader.is] using hc
  have order (hs : text.Short) : offset ≤ r.current.span.start ∧ offset ≤ x.2.lastEnd ∧
      x.2.lastEnd < x.2.current.span.stop ∧ x.2.current.span.stop ≤ text.length := by
    have h1 := hready.lastEnd_le hs
    have h2 := hr.start_le hs
    have h3 := hr.lastEnd_le hs
    have h4 := hx.lastEnd_le hs
    have h5 := hx.ready.lastEnd_lt_stop hs (by simp [hc])
    have h6 := (hx.ready.placed hs).le_length
    simp only at h1 h2 h3
    omega
  refine ⟨hx.sound.mono fun hs => ?_, fun hs => ?_⟩ <;> have := order hs <;> dsimp only <;> omega

theorem attributeName_onward (tag : Bytes) (hp : text.Onward lx.pos lx.pos) :
    Yields (attributeName tag lx) fun x => text.Onward lx.pos x.2.pos := by
  unfold attributeName
  refine (word_plain _ hp).bind fun x hx => ?_
  refine .ite (fun hc => ?_) fun _ => .pure hx.2
  have hb := Lexer.onward_skipByte hc (by decide)
  refine (word_plain _ hb.refl_right).bind fun y hy => ?_
  exact .pure (hx.2.trans (hb.trans hy.2))

theorem elementString_onward (hp : text.Onward lx.pos lx.pos)
    (hk : lx.elementString.1.kind ≠ .error) : text.Onward lx.pos lx.elementString.2.pos := by
  unfold Lexer.elementString at hk ⊢
  dsimp only at hk ⊢
  split_ifs at hk ⊢ with he
  · exact absurd rfl hk
  · refine Lexer.onward_emit ?_ hp
    have hl : 0 < (lx.rest.drop (1 + Bytes.run (· != lx.peek 0) (lx.rest.drop 1))).length := by
      apply List.length_pos_iff.2
      simpa using he
    rw [List.length_drop] at hl
    show 2 + _ ≤ lx.rest.length
    omega

theorem attributeValue_sound (hw : walk.Sound) (he : element.Sound) (fuel : Nat) (attr : Bytes)
    (hp : text.Onward lx.pos lx.pos) :
    Yields (attributeValue walk element fuel attr lx) fun x =>
      x.1.Sound text lx.pos x.2.pos ∧ text.Onward lx.pos x.2.pos := by
  unfold attributeValue
  refine .ite (fun _ => ?_) fun _ => .ite (fun _ => ?_) fun _ => .ite (fun hb => ?_) fun _ => .throw _
  · refine .ite (fun _ => .throw_bind _ _) fun hk => ?_
    exact .pure ⟨Outline.sound_empty, elementString_onward hp hk⟩
  · refine (container_sound hw fuel lx fun hs => (hp hs).2).bind fun x hx => .pure ?_
    simpa using hx
  · rw [Lexer.byteAt_pos, Nat.add_zero] at hb
    refine (he lx lx.pos fun _ => hb).bind fun x hx => .pure ?_
    simp only [Lexer.reset_pos]
    exact ⟨hx.1, fun hs => ⟨(hx.2 hs).1.le, (hx.2 hs).2⟩⟩

/-- Outlines of two parts of a tag, one behind the other. -/
theorem sound_append {a b : Outline} {p q n m : Nat} (ha : a.Sound text p q)
    (hb : b.Sound text n m) (hpq : text.Onward p q) (hqn : text.Onward q n)
    (hnm : text.Onward n m) : (a ++ b).Sound text p m :=
  ha.append_of_le hb fun hs => by
    have h1 := hpq hs
    have h2 := hqn hs
    have h3 := hnm hs
    omega

theorem attributes_sound (hw : walk.Sound) (he : element.Sound) (start : Nat) (tag : Bytes)
    (fuel : Nat) (hp : text.Onward lx.pos lx.pos) :
    Yields (attributes walk element start tag fuel lx) fun x =>
      x.1.inner.Sound text lx.pos x.2.pos ∧ text.Onward lx.pos x.2.pos ∧
        (x.2.peek 0 = byte '/' ∨ x.2.peek 0 = byte '>') := by
  induction fuel generalizing lx with
  | zero => exact .error _
  | succ fuel ih =>
    have h1 := Lexer.onward_skipTrivia hp
    refine .ite (fun _ => .throw_bind _ _) fun _ => .ite (fun hb => ?_) fun _ =>
      .ite (fun _ => ?_) fun _ => ?_
    · refine .pure ⟨Outline.sound_empty, h1, ?_⟩
      simpa using hb
    · refine (container_sound hw fuel lx.skipTrivia fun hs => (h1 hs).2).bind fun x hx => ?_
      have h2 : text.Onward x.2.2 (x.2.1.reset x.2.2 false).pos := by
        simpa using hx.2.refl_right
      refine (ih h2.refl_right).bind fun y hy => .pure ⟨?_, ?_, hy.2.2⟩
      · refine sound_append (hx.1.mono fun hs => ⟨(h1 hs).1, le_refl _⟩) hy.1 (h1.trans hx.2) h2
          hy.2.1
      · exact h1.trans (hx.2.trans (h2.trans hy.2.1))
    · refine (attributeName_onward tag h1.refl_right).bind fun x hx => ?_
      have h2 := Lexer.onward_skipTrivia hx.refl_right
      refine .ite (fun hq => ?_) fun _ => ?_
      · have h3 := Lexer.onward_skipByte hq (by decide)
        have h4 := Lexer.onward_skipTrivia h3.refl_right
        have h5 := h1.trans (hx.trans (h2.trans (h3.trans h4)))
        refine (attributeValue_sound hw he fuel x.1 h4.refl_right).bind fun y hy => ?_
        refine (ih hy.2.refl_right).bind fun z hz => .pure ⟨?_, ?_, hz.2.2⟩
        · exact sound_append (hy.1.mono fun hs => ⟨(h5 hs).1, le_refl _⟩) hz.1 (h5.trans hy.2)
            hy.2.refl_right hz.2.1
        · exact h5.trans (hy.2.trans hz.2.1)
      · refine (ih h2.refl_right).bind fun z hz => .pure ⟨?_, ?_, hz.2.2⟩
        · exact sound_append Outline.sound_empty hz.1 (h1.trans hx) h2 hz.2.1
        · exact h1.trans (hx.trans (h2.trans hz.2.1))

theorem closing_onward (fuel : Nat) (tag : Bytes) (offset : Nat) (hp : text.Onward lx.pos lx.pos) :
    Yields (closing fuel tag offset lx) fun ly => text.Onward lx.pos ly.pos := by
  have h1 := Lexer.onward_skipTrivia hp
  have finish (found : Bytes) {ly : Lexer text} (hy : text.Onward lx.pos ly.pos) :
      Yields (do
        if found ≠ tag then throw ⟨.mismatchedClosingTag tag found, ⟨offset, ly.pos⟩⟩
        if ly.peek 0 ≠ byte '>' then throw ⟨.missingCloseOfClosingTag, ⟨ly.pos, ly.pos + 1⟩⟩
        return ly.skipByte : Except SyntaxError (Lexer text))
      fun lz => text.Onward lx.pos lz.pos := by
    refine .ite (fun _ => .throw_bind _ _) fun _ => .ite (fun _ => .throw_bind _ _) fun hb => .pure ?_
    exact hy.trans (Lexer.onward_skipByte (Decidable.not_not.1 hb) (by decide))
  unfold closing
  refine .ite (fun _ => finish [] h1) fun _ => ?_
  refine (name_plain fuel h1.refl_right).bind fun x hx => ?_
  exact finish _ (h1.trans (hx.2.trans (Lexer.onward_skipTrivia hx.2.refl_right)))

theorem children_sound (hw : walk.Sound) (he : element.Sound) (start : Nat) (tag : Bytes)
    (fuel : Nat) (hp : text.Onward lx.pos lx.pos) :
    Yields (children walk element start tag fuel lx) fun x =>
      x.1.Sound text lx.pos x.2.2 ∧ text.Onward lx.pos x.2.2 := by
  induction fuel generalizing lx with
  | zero => exact .error _
  | succ fuel ih =>
    have h1 := Lexer.onward_elementText hp
    refine .ite (fun _ => .throw_bind _ _) fun hn => .ite (fun _ => ?_) fun hb => ?_
    · refine (container_sound hw fuel lx.elementText.2 fun hs => (h1 hs).2).bind fun x hx => ?_
      have h2 : text.Onward x.2.2 (x.2.1.reset x.2.2 false).pos := by
        simpa using hx.2.refl_right
      refine (ih h2.refl_right).bind fun y hy => .pure ⟨?_, ?_⟩
      · exact sound_append (hx.1.mono fun hs => ⟨(h1 hs).1, le_refl _⟩) hy.1 (h1.trans hx.2) h2 hy.2
      · exact h1.trans (hx.2.trans (h2.trans hy.2))
    · have hlt := Lexer.elementText_peek (Bool.eq_false_iff.2 hn) hb
      have h2 := Lexer.onward_skipByte hlt (by decide)
      have h3 := Lexer.onward_skipTrivia h2.refl_right
      refine .ite (fun hs => ?_) fun _ => ?_
      · have h4 := Lexer.onward_skipByte hs (by decide)
        refine (closing_onward fuel tag _ h4.refl_right).bind fun x hx => .pure ?_
        exact ⟨Outline.sound_empty, h1.trans (h2.trans (h3.trans (h4.trans hx)))⟩
      · rw [Lexer.byteAt_pos, Nat.add_zero] at hlt
        refine (he _ _ fun _ => hlt).bind fun x hx => ?_
        have h4 : text.Onward lx.elementText.2.pos x.2.2 :=
          fun hs => ⟨(hx.2 hs).1.le, (hx.2 hs).2⟩
        have h5 : text.Onward x.2.2 (x.2.1.reset x.2.2 false).pos := by
          simpa using h4.refl_right
        refine (ih h5.refl_right).bind fun y hy => .pure ⟨?_, ?_⟩
        · exact sound_append (hx.1.mono fun hs => ⟨(h1 hs).1, le_refl _⟩) hy.1 (h1.trans h4) h5 hy.2
        · exact h1.trans (h4.trans (h5.trans hy.2))

theorem fragment_sound (hw : walk.Sound) (he : element.Sound) (fuel : Nat) {start : Nat}
    (hst : text.Short → text.byteAt start = byte '<') (hlt : start < lx.pos)
    (hb : lx.peek 0 = byte '>') :
    Yields (fragment walk element fuel start lx) fun x =>
      x.1.Sound text start x.2.2 ∧ (text.Short → start < x.2.2 ∧ x.2.2 ≤ text.length) := by
  unfold fragment
  have h1 := Lexer.onward_skipByte hb (by decide)
  refine (children_sound hw he start [] fuel h1.refl_right).bind fun x hx => ?_
  obtain ⟨inner, lx1, stop⟩ := x
  refine .pure ⟨?_, ?_⟩
  · rw [Lexer.byteAt_pos, Nat.add_zero] at hb
    rw [← Outline.append_empty (Outline.ofElement _)]
    refine Outline.Sound.append_of_le (m := lx.pos + 1)
      (Outline.sound_empty.element trivial fun hs => ⟨⟨hst hs, hlt, ?_, ?_⟩, le_refl _, le_refl _⟩)
      hx.1 fun hs => ?_
    · exact .inr ⟨rfl, rfl, hb⟩
    · exact (h1 hs).2
    · have h2 := hx.2 hs
      simp only [Lexer.skipByte_pos] at h2 ⊢
      omega
  · intro hs
    have h2 := hx.2 hs
    simp only [Lexer.skipByte_pos] at h2 ⊢
    omega

/-- An element is sound if the walks inside it are. -/
theorem element_sound (hw : walk.Sound) (he : element.Sound) (fuel : Nat) :
    (Tag.element walk element fuel).Sound := by
  intro lx start hst
  unfold Tag.element
  have h1 : text.Onward (start + 1) (start + 1) := fun hs =>
    ⟨le_refl _, Bytes.lt_length_of_byteAt_eq (hst hs) (by decide)⟩
  have h2 : text.Onward (start + 1) (lx.reset (start + 1) false).skipTrivia.pos := by
    have := @Lexer.onward_skipTrivia text (lx.reset (start + 1) false) (by simpa using h1)
    simpa using this
  have hlt : start < (lx.reset (start + 1) false).skipTrivia.pos := by
    have := (lx.reset (start + 1) false).le_skipTrivia
    simp only [Lexer.reset_pos] at this
    omega
  refine .ite (fun hb => fragment_sound hw he fuel hst hlt hb) fun _ => ?_
  refine (name_plain fuel h2.refl_right).bind fun x hx => ?_
  obtain ⟨tag, lx1⟩ := x
  refine (attributes_sound hw he start tag.full fuel hx.2.refl_right).bind fun y hy => ?_
  obtain ⟨attrs, lx2⟩ := y
  obtain ⟨hsound, honward, hend⟩ := hy
  have h3 : text.Onward (start + 1) lx2.pos := h2.trans (hx.2.trans honward)
  have hinner : attrs.inner.Sound text (start + 1) lx2.pos :=
    hsound.mono fun hs => ⟨((h2.trans hx.2) hs).1, le_refl _⟩
  have hpos (k : Nat) : lx2.peek k = text.byteAt (lx2.pos + k) := lx2.byteAt_pos k
  dsimp only
  refine .ite (fun hslash => .ite (fun _ => .throw_bind _ _) fun hgt => ?_) fun hslash => ?_
  · have hgt : lx2.peek 1 = byte '>' := Decidable.not_not.1 hgt
    have hle : lx2.pos + 1 < text.length := Lexer.lt_length_of_peek hgt (by decide)
    refine .pure ⟨hinner.element hx.1 fun hs => ⟨⟨hst hs, ?_, ?_, hle⟩, le_refl _, le_refl _⟩,
      fun hs => ?_⟩
    · exact (h3 hs).1
    · exact .inl ⟨rfl, rfl, by simpa [hpos] using hslash, by simpa [hpos] using hgt⟩
    · have := h3 hs
      dsimp only
      omega
  · have hgt : lx2.peek 0 = byte '>' := hend.resolve_left hslash
    have h4 := Lexer.onward_skipByte hgt (by decide)
    refine (children_sound hw he start tag.full fuel h4.refl_right).bind fun z hz => ?_
    obtain ⟨inner, lx3, stop⟩ := z
    refine .pure ⟨?_, ?_⟩
    · refine Outline.Sound.append_of_le (m := lx2.pos + 1)
        (hinner.element hx.1 fun hs => ⟨⟨hst hs, (h3 hs).1, ?_, (h4 hs).2⟩, le_refl _, le_refl _⟩)
        hz.1 fun hs => ?_
      · exact .inr ⟨rfl, rfl, by simpa [hpos] using hgt⟩
      · have h5 := h3 hs
        have h6 := hz.2 hs
        simp only [Lexer.skipByte_pos] at h6 ⊢
        omega
    · intro hs
      have h5 := h3 hs
      have h6 := hz.2 hs
      simp only [Lexer.skipByte_pos] at h6 ⊢
      omega

/-- The tag of an element is the first one that is recorded for it. -/
theorem element_records (walk : Walk text) (element : ElementWalk text) (fuel : Nat) :
    (Tag.element walk element fuel).Records := by
  intro lx start
  have any {α : Type} (x : Except SyntaxError α) : Yields x fun _ => True := fun _ _ => trivial
  have first (e : Element) (inner : Outline) : (Outline.ofElement e ++ inner).elements ≠ [] := by
    simp [Outline.ofElement, Outline.append_def]
  unfold Tag.element
  refine .ite (fun _ => ?_) fun _ => ?_
  · exact (any _).bind fun x _ => .pure (first _ x.1)
  · refine (any _).bind fun x _ => ?_
    refine (any _).bind fun y _ => ?_
    refine .ite (fun _ => .ite (fun _ => .throw_bind _ _) fun _ => .pure (first _ _)) fun _ => ?_
    refine (any _).bind fun z _ => .pure ?_
    rw [Outline.append_assoc]
    exact first _ _

end Tag

end JsxPresence
