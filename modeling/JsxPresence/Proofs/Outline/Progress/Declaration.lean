import JsxPresence.Proofs.Outline.Progress.Binding

namespace JsxPresence.Reader

variable {text : Bytes} {r : Reader text} {n fuel fuel' bound : Nat} {walk walk' : Walk text}

theorem passType_sure (h : r.Left n) (hn : n < min fuel fuel') (angle : Nat) :
    Sure (Left n) (passType angle fuel r) (passType angle fuel' r) := by
  induction n using Nat.strong_induction_on generalizing r fuel fuel' angle with
  | _ n ih =>
    obtain ⟨fuel, fuel', rfl, rfl⟩ := exists_succ_of_lt_min hn
    refine .ite (fun _ => .pure h) fun he => ?_
    have hpos := h.pos (not_atEnd_of_ne_eof he)
    have further {s : Reader text} (hs : s.Left (n - 1)) (angle : Nat) :
        Sure (Left n) (passType angle fuel s) (passType angle fuel' s) :=
      (ih (n - 1) (by omega) hs (by omega) angle).mono fun _ ht => ht.mono (by omega)
    refine .ite (fun _ => .pure h) fun _ => .ite (fun ho => ?_) fun _ =>
      .ite (fun _ => .pure h) fun _ => ?_
    · apply (passGroup_sure h ho (by omega) fun _ => by simp).bind
      intro s hs
      exact further hs angle
    · apply h.advance.bind
      intro s hs
      exact further hs _

theorem passTyping_sure (h : r.Left n) (hn : n < min fuel fuel') :
    Sure (Left n) (r.passTyping fuel) (r.passTyping fuel') := by
  unfold passTyping
  refine .ite (fun _ => ?_) fun _ => .pure h
  apply h.advance_le.bind
  intro s hs
  exact passType_sure hs hn 0

section walk

variable (hw : walk.Sure bound walk')
include hw

theorem walkInitializer_sure (h : r.Left n) (hb : n < bound) (hn : n < min fuel fuel') :
    Sure (fun x => x.2.Left n) (walkInitializer walk fuel r) (walkInitializer walk' fuel' r) := by
  induction n using Nat.strong_induction_on generalizing r fuel fuel' with
  | _ n ih =>
    obtain ⟨fuel, fuel', rfl, rfl⟩ := exists_succ_of_lt_min hn
    refine .ite (fun _ => .pure h) fun hgo => ?_
    have hpos := h.pos (by simp_all)
    apply (hw n r hb h).bind
    intro x hx
    apply (ih (n - 1) (by omega) hx (by omega) (by omega)).bind
    intro y hy
    exact .pure (hy.mono (by omega))

theorem propertyValue_sure (h : r.Left n) (hb : n < bound) (hn : n < min fuel fuel') (start : Nat)
    (key : Bytes) :
    Sure (fun x => x.2.2.Left n) (r.propertyValue walk fuel start key)
      (r.propertyValue walk' fuel' start key) := by
  unfold propertyValue
  extract_lets other other'
  have hother : Sure (fun x => x.2.2.Left n) other other' := by
    apply (walkUntil_sure hw h hb hn endsProperty).bind
    intro x hx
    exact .pure hx
  refine .ite (fun hi => ?_) fun _ => hother
  obtain ⟨hpath, hlast⟩ := dottedPath_sure h hi hn.le
  rw [← hpath]
  generalize r.dottedPath fuel = path at hlast ⊢
  obtain ⟨_ | path, last⟩ := path
  · exact hother
  · exact .ite (fun _ => .pure (hlast.mono (Nat.sub_le n 1))) fun _ => hother

theorem property_sure (h : r.Left n) (hb : n < bound) (hn : n < min fuel fuel') :
    Sure (fun x => x.2.2.Left n) (r.property walk fuel) (r.property walk' fuel') := by
  unfold property
  extract_lets first skip key skip'
  have hskip {s : Reader text} (hs : s.Left n) :
      Sure (fun x => x.2.2.Left n) (skip s) (skip' s) := by
    apply (walkUntil_sure hw hs hb hn endsProperty).bind
    intro x hx
    exact .pure hx
  refine .ite (fun _ => ?_) fun _ => hskip h
  apply h.advance_le.bind
  intro s hs
  refine .ite (fun _ => ?_) fun _ => .ite (fun _ => .pure hs) fun _ => hskip hs
  apply hs.advance_le.bind
  intro t ht
  exact propertyValue_sure hw ht hb hn _ key

theorem properties_sure (h : r.Left n) (hb : n < bound) (hn : n + 1 < min fuel fuel') :
    Sure (fun x => x.2.2.Left n) (properties walk fuel r) (properties walk' fuel' r) := by
  induction n using Nat.strong_induction_on generalizing r fuel fuel' with
  | _ n ih =>
    obtain ⟨fuel, fuel', rfl, rfl⟩ := exists_succ_of_lt_min hn
    refine .ite (fun _ => .pure h) fun _ => ?_
    apply (property_sure hw h hb (by omega)).bind
    intro x hx
    refine .ite (fun hcomma => ?_) fun _ => .pure hx
    have hpos := hx.pos (atEnd_eq_false_of_is hcomma (by decide))
    apply hx.advance.bind
    intro s hs
    apply (ih (n - 1) (by omega) hs (by omega) (by omega)).bind
    intro y hy
    exact .pure (hy.mono (by omega))

theorem objectLiteral_sure (h : r.Left n) (he : r.atEnd = false) (hb : n < bound)
    (hn : n < min fuel fuel') :
    Sure (fun x => x.2.2.Left n) (r.objectLiteral walk fuel) (r.objectLiteral walk' fuel') := by
  have hpos := h.pos he
  unfold objectLiteral
  apply h.advance.bind
  intro s hs
  apply (properties_sure hw hs (by omega) (by omega)).bind
  intro x hx
  refine .ite (fun _ => .throw_bind (by simp)) fun _ => ?_
  apply hx.advance_le.bind
  intro t ht
  exact .pure (ht.mono (by omega))

theorem initializer_sure (h : r.Left n) (hb : n < bound) (hn : n < min fuel fuel') :
    Sure (fun x => x.2.2.Left n) (r.initializer walk fuel) (r.initializer walk' fuel') := by
  unfold initializer
  refine .ite (fun _ => ?_) fun _ => .pure h
  apply h.advance_le.bind
  intro s hs
  refine .ite (fun hbrace => ?_) fun _ => ?_
  · have he := atEnd_eq_false_of_is hbrace (by decide)
    apply (objectLiteral_sure hw hs he hb hn).bind
    intro x hx
    apply (walkInitializer_sure hw hx hb hn).bind
    intro y hy
    exact .pure hy
  · apply (walkInitializer_sure hw hs hb hn).bind
    intro x hx
    exact .pure hx

theorem declarator_sure (h : r.Left n) (he : r.atEnd = false) (hb : n ≤ bound)
    (hn : n ≤ min fuel fuel') (kind : DeclarationKind) (exportStart : Option Nat) :
    Sure (fun x => x.2.Left (n - 1)) (r.declarator walk fuel kind exportStart)
      (r.declarator walk' fuel' kind exportStart) := by
  have hpos := h.pos he
  unfold declarator
  apply h.advance.bind
  intro s hs
  apply (hs.passOver .bang).bind
  intro t ht
  apply (passTyping_sure ht (by omega)).bind
  intro u hu
  apply (initializer_sure hw hu (by omega) (by omega)).bind
  intro x hx
  exact .pure hx

theorem pattern_sure (h : r.Left n) (he : r.atEnd = false) (hb : n ≤ bound)
    (hn : n ≤ min fuel fuel') :
    Sure (fun x => x.2.Left (n - 1)) (r.pattern walk fuel) (r.pattern walk' fuel') := by
  have hpos := h.pos he
  unfold pattern
  apply (walkGroup_sure hw h he hb hn).bind
  intro x hx
  apply (passTyping_sure hx (by omega)).bind
  intro s hs
  refine .ite (fun _ => ?_) fun _ => .pure hs
  apply hs.advance_le.bind
  intro t ht
  apply (walkInitializer_sure hw ht (by omega) (by omega)).bind
  intro y hy
  exact .pure hy

theorem declarators_sure (h : r.Left n) (hb : n < bound) (hn : n < min fuel fuel')
    (kind : DeclarationKind) (exportStart : Option Nat) :
    Sure (fun x => x.2.Left n) (declarators walk kind exportStart fuel r)
      (declarators walk' kind exportStart fuel' r) := by
  induction n using Nat.strong_induction_on generalizing r fuel fuel' with
  | _ n ih =>
    obtain ⟨fuel, fuel', rfl, rfl⟩ := exists_succ_of_lt_min hn
    unfold declarators
    refine .ite (fun hstarts => ?_) fun _ => .pure h
    have he : r.atEnd = false := not_atEnd_of_ne_eof (by
      rintro hk
      simp [is, hk] at hstarts)
    have hpos := h.pos he
    extract_lets rest rest'
    have more {x : Outline × Reader text} (hx : x.2.Left (n - 1)) :
        Sure (fun x => x.2.Left n) (rest x) (rest' x) := by
      refine .ite (fun _ => ?_) fun _ => ?_
      · apply hx.advance_le.bind
        intro s hs
        apply (ih (n - 1) (by omega) hs (by omega) (by omega)).bind
        intro y hy
        exact .pure (hy.mono (by omega))
      · apply (hx.passOver .semicolon).bind
        intro s hs
        exact .pure (hs.mono (by omega))
    refine .ite (fun _ => ?_) fun _ => ?_
    · apply (declarator_sure hw h he (by omega) (by omega) kind exportStart).bind
      intro x hx
      exact more hx
    · apply (pattern_sure hw h he (by omega) (by omega)).bind
      intro x hx
      exact more hx

omit hw in
theorem functionOrClass_sure (h : r.Left n) (exportStart : Option Nat) :
    Sure (fun x => x.2.Left (n - 1)) (r.functionOrClass exportStart)
      (r.functionOrClass exportStart) := by
  unfold functionOrClass
  extract_lets kind rest
  have named {s : Reader text} (hs : s.Left (n - 1)) :
      Sure (fun x => x.2.Left (n - 1)) (rest s) (rest s) := by
    refine .ite (fun _ => ?_) fun _ => .pure hs
    apply hs.advance_le.bind
    intro t ht
    exact .pure ht
  apply h.advance.bind
  intro s hs
  refine .ite (fun _ => ?_) fun _ => named hs
  apply (hs.passOver .star).bind
  intro t ht
  exact named ht

theorem walkDeclaration_sure (h : r.Left n) (he : r.atEnd = false) (hb : n ≤ bound)
    (hn : n ≤ min fuel fuel') (exportStart : Option Nat) :
    Sure (fun x => x.2.Left (n - 1)) (r.walkDeclaration walk fuel exportStart)
      (r.walkDeclaration walk' fuel' exportStart) := by
  have hpos := h.pos he
  unfold walkDeclaration
  extract_lets rest rest'
  have behind {s : Reader text} (hs : s.Left n) :
      Sure (fun x => x.2.Left (n - 1)) (rest s) (rest' s) := by
    refine .ite (fun _ => functionOrClass_sure hs exportStart) fun _ => ?_
    apply hs.advance.bind
    intro t ht
    exact declarators_sure hw ht (by omega) (by omega) _ exportStart
  refine .ite (fun _ => ?_) fun _ => behind h
  apply h.advance_le.bind
  intro s hs
  exact behind hs

omit hw in
theorem exportEnum_sure (h : r.Left n) (start : Nat) :
    Sure (fun x => x.2.Left n) (r.exportEnum start) (r.exportEnum start) := by
  unfold exportEnum
  apply h.advance_le.bind
  intro s hs
  refine .ite (fun _ => ?_) fun _ => .pure hs
  apply hs.advance_le.bind
  intro t ht
  exact .pure ht

theorem walkExport_sure (h : r.Left n) (he : r.atEnd = false) (hb : n ≤ bound)
    (hn : n ≤ min fuel fuel') :
    Sure (fun x => x.2.Left (n - 1)) (r.walkExport walk fuel) (r.walkExport walk' fuel') := by
  have hpos := h.pos he
  unfold walkExport
  extract_lets start rest rest'
  have declaration {s : Reader text} (hs : s.Left (n - 1)) :
      Sure (fun x => x.2.Left (n - 1)) (rest s) (rest' s) := by
    refine .ite (fun _ => exportEnum_sure hs start) fun _ =>
      .ite (fun hstarts => ?_) fun _ => .pure hs
    have he : s.atEnd = false := by
      apply not_atEnd_of_ne_eof
      intro hk
      simp [atVariableKeyword, atFunctionOrClass, atAsyncFunction, isKeyword, isWord,
        Token.isKeyword, Token.isWord, hk] at hstarts
    exact (walkDeclaration_sure hw hs he (by omega) (by omega) (some start)).mono
      fun _ hx => hx.mono (Nat.sub_le (n - 1) 1)
  apply h.advance.bind
  intro s hs
  refine .ite (fun _ => ?_) fun _ => .ite (fun _ => exportStar_sure hs (by omega) start) fun _ =>
    .ite (fun _ => exportList_sure hs (by omega) start false) fun _ =>
    .ite (fun _ => ?_) fun _ => .ite (fun _ => ?_) fun _ => declaration hs
  · apply hs.advance_le.bind
    intro t ht
    exact exportDefault_sure ht start
  · apply hs.advance_le.bind
    intro t ht
    exact exportList_sure ht (by omega) start true
  · apply hs.advance_le.bind
    intro t ht
    exact declaration ht

/-- An item takes a byte at least. -/
theorem walkItem_sure (h : r.Left n) (he : r.atEnd = false) (hb : n < bound)
    (hn : n ≤ min fuel fuel') :
    Sure (fun x => x.2.Left (n - 1)) (r.walkItem walk fuel) (r.walkItem walk' fuel') := by
  unfold walkItem
  exact .ite (fun _ => walkImport_sure hw h he hb.le hn) fun _ =>
    .ite (fun _ => walkExport_sure hw h he hb.le hn) fun _ =>
    .ite (fun _ => walkDeclaration_sure hw h he hb.le hn none) fun _ => hw n r hb h

theorem walkItems_sure (h : r.Left n) (hb : n < bound) (hn : n < min fuel fuel') :
    Sure (fun x => x.2.Left n) (walkItems walk fuel r) (walkItems walk' fuel' r) := by
  induction n using Nat.strong_induction_on generalizing r fuel fuel' with
  | _ n ih =>
    obtain ⟨fuel, fuel', rfl, rfl⟩ := exists_succ_of_lt_min hn
    refine .ite (fun _ => .pure h) fun hgo => ?_
    have he : r.atEnd = false := by simpa using hgo
    have hpos := h.pos he
    apply (walkItem_sure hw h he hb (by omega)).bind
    intro x hx
    apply (ih (n - 1) (by omega) hx (by omega) (by omega)).bind
    intro y hy
    exact .pure (hy.mono (by omega))

end walk

end JsxPresence.Reader
