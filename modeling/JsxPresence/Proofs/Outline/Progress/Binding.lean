import JsxPresence.Proofs.Outline.Progress.Tag

namespace JsxPresence.Reader

variable {text : Bytes} {r : Reader text} {n fuel fuel' bound : Nat} {walk walk' : Walk text}

theorem stringLiteral_sure (h : r.Left n) :
    Sure (fun x => x.2.Left (n - 1)) r.stringLiteral r.stringLiteral := by
  unfold stringLiteral
  refine .ite (fun _ => .throw_bind (by simp [failAt])) fun _ => ?_
  apply h.advance.bind
  intro s hs
  exact .pure hs

theorem moduleName_sure (h : r.Left n) :
    Sure (fun x => x.2.Left (n - 1)) r.moduleName r.moduleName := by
  unfold moduleName
  refine .ite (fun _ => ?_) fun _ => .ite (fun _ => stringLiteral_sure h) fun _ =>
    .throw (by simp [failAt])
  apply h.advance.bind
  intro s hs
  exact .pure hs

theorem passAttributes_sure (h : r.Left n) (hn : n ≤ min fuel fuel') :
    Sure (Left n) (r.passAttributes fuel) (r.passAttributes fuel') := by
  unfold passAttributes
  refine .ite (fun hbrace => ?_) fun _ => .pure h
  have hopener : r.step.current.kind.isOpener = true := by
    have hkind : r.peek.kind = .openBrace := of_decide_eq_true (Bool.and_eq_true_iff.1 hbrace).2
    rw [← peek, hkind]
    rfl
  apply (h.advance_le.yields r.advance_yields).bind
  rintro _ ⟨rfl, hstep⟩
  exact (passGroup_sure hstep hopener hn fun s => by simp [failAt]).mono
    fun _ hs => hs.mono (Nat.sub_le n 1)

theorem bindingItem_sure (h : r.Left n) (typeOnly : Bool) :
    Sure (fun x => x.2.Left (n - 1)) (r.bindingItem typeOnly) (r.bindingItem typeOnly) := by
  unfold bindingItem
  extract_lets start marked rest
  have named {s : Reader text} (hs : s.Left n) :
      Sure (fun x => x.2.Left (n - 1)) (rest s) (rest s) := by
    apply (moduleName_sure hs).bind
    intro x hx
    refine .ite (fun _ => ?_) fun _ => .pure hx
    apply hx.advance_le.bind
    intro t ht
    apply (moduleName_sure ht).bind
    intro y hy
    exact .pure (hy.mono (by omega))
  refine .ite (fun _ => ?_) fun _ => named h
  apply h.advance_le.bind
  intro s hs
  exact named hs

theorem bindingItems_sure (h : r.Left n) (hn : n < min fuel fuel') (typeOnly : Bool) :
    Sure (fun x => x.2.Left n) (bindingItems typeOnly fuel r) (bindingItems typeOnly fuel' r) := by
  induction n using Nat.strong_induction_on generalizing r fuel fuel' with
  | _ n ih =>
    obtain ⟨fuel, fuel', rfl, rfl⟩ := exists_succ_of_lt_min hn
    refine .ite (fun _ => .pure h) fun _ => ?_
    apply (bindingItem_sure h typeOnly).bind
    intro x hx
    refine .ite (fun hcomma => ?_) fun _ => .pure (hx.mono (by omega))
    have hpos := hx.pos (atEnd_eq_false_of_is hcomma (by decide))
    apply hx.advance.bind
    intro s hs
    apply (ih (n - 1 - 1) (by omega) hs (by omega)).bind
    intro y hy
    exact .pure (hy.mono (by omega))

theorem bindingList_sure (h : r.Left n) (hn : n < min fuel fuel') (list : BindingList)
    (typeOnly : Bool) :
    Sure (fun x => x.2.Left n) (r.bindingList list typeOnly fuel)
      (r.bindingList list typeOnly fuel') := by
  unfold bindingList
  apply h.advance_le.bind
  intro s hs
  apply (bindingItems_sure hs hn typeOnly).bind
  intro x hx
  refine .ite (fun _ => .throw_bind (by simp [failAt])) fun _ => ?_
  apply hx.advance_le.bind
  intro t ht
  exact .pure ht

theorem moduleItem_sure (h : r.Left n) (typeOnly : Bool) :
    Sure (fun x => x.2.Left n) (r.moduleItem typeOnly) (r.moduleItem typeOnly) := by
  unfold moduleItem
  apply h.advance_le.bind
  intro s hs
  refine .ite (fun _ => .throw_bind (by simp [failAt])) fun _ => ?_
  apply hs.advance_le.bind
  intro t ht
  refine .ite (fun _ => .throw_bind (by simp [failAt])) fun _ => ?_
  apply ht.advance_le.bind
  intro u hu
  exact .pure hu

theorem importItems_sure (h : r.Left n) (hn : n < min fuel fuel') (typeOnly : Bool) :
    Sure (fun x => x.2.Left n) (r.importItems typeOnly fuel) (r.importItems typeOnly fuel') := by
  unfold importItems
  refine .ite (fun _ => ?_) fun _ => .ite (fun _ => ?_) fun _ => .pure h
  · apply (moduleItem_sure h typeOnly).bind
    intro x hx
    exact .pure hx
  · apply (bindingList_sure h hn .imports typeOnly).bind
    intro x hx
    exact .pure hx

theorem importEnd_sure (h : r.Left n) (hn : n ≤ min fuel fuel') (start : Nat) (typeOnly : Bool)
    (items : List ImportItem) :
    Sure (fun x => x.2.Left n) (r.importEnd start typeOnly items fuel)
      (r.importEnd start typeOnly items fuel') := by
  unfold importEnd
  apply (stringLiteral_sure h).bind
  intro x hx
  apply (passAttributes_sure (hx.mono (Nat.sub_le n 1)) hn).bind
  intro s hs
  apply (hs.passOver .semicolon).bind
  intro t ht
  exact .pure ht

theorem importFrom_sure (h : r.Left n) (hn : n ≤ min fuel fuel') (start : Nat) (typeOnly : Bool)
    (items : List ImportItem) :
    Sure (fun x => x.2.Left n) (r.importFrom start typeOnly items fuel)
      (r.importFrom start typeOnly items fuel') := by
  unfold importFrom
  refine .ite (fun _ => .throw_bind (by simp [failAt])) fun _ => ?_
  apply h.advance_le.bind
  intro s hs
  exact .ite (fun _ => .throw_bind (by simp [failAt]))
    fun _ => importEnd_sure hs hn start typeOnly items

theorem walkImport_sure (hw : walk.Sure bound walk') (h : r.Left n) (he : r.atEnd = false)
    (hb : n ≤ bound) (hn : n ≤ min fuel fuel') :
    Sure (fun x => x.2.Left (n - 1)) (r.walkImport walk fuel) (r.walkImport walk' fuel') := by
  have hpos := h.pos he
  unfold walkImport
  apply h.advance.bind
  intro s hs
  refine .ite (fun _ => importEnd_sure hs (by omega) _ _ _) fun _ => ?_
  extract_lets typeOnly rest rest'
  have clause {t : Reader text} (ht : t.Left (n - 1)) :
      Sure (fun x => x.2.Left (n - 1)) (rest t) (rest' t) := by
    refine .ite (fun _ => ?_) fun _ => ?_
    · apply ht.advance_le.bind
      intro u hu
      refine .ite (fun _ => ?_) fun _ => ?_
      · apply hu.advance_le.bind
        intro v hv
        apply (hw _ v (by omega) hv).bind
        intro x hx
        apply (hx.passOver .semicolon).bind
        intro z hz
        exact .pure (hz.mono (by omega))
      · apply (hu.passOver .comma).bind
        intro v hv
        apply (importItems_sure hv (by omega) typeOnly).bind
        intro x hx
        exact importFrom_sure hx (by omega) _ _ _
    · apply (importItems_sure ht (by omega) typeOnly).bind
      intro x hx
      exact importFrom_sure hx (by omega) _ _ _
  refine .ite (fun _ => ?_) fun _ => clause hs
  apply hs.advance_le.bind
  intro t ht
  exact clause ht

theorem exportDefaultDeclaration_sure (h : r.Left n) (start : Nat) :
    Sure (fun x => x.2.Left n) (r.exportDefaultDeclaration start)
      (r.exportDefaultDeclaration start) := by
  unfold exportDefaultDeclaration
  extract_lets kind tail rest
  have named {s : Reader text} (hs : s.Left n) : Sure (fun x => x.2.Left n) (tail s) (tail s) := by
    refine .ite (fun _ => ?_) fun _ => .pure hs
    apply hs.advance_le.bind
    intro t ht
    exact .pure ht
  have behind {s : Reader text} (hs : s.Left n) : Sure (fun x => x.2.Left n) (rest s) (rest s) := by
    apply hs.advance_le.bind
    intro t ht
    refine .ite (fun _ => ?_) fun _ => named ht
    apply (ht.passOver .star).bind
    intro u hu
    exact named hu
  refine .ite (fun _ => ?_) fun _ => behind h
  apply h.advance_le.bind
  intro s hs
  exact behind hs

theorem exportDefault_sure (h : r.Left n) (start : Nat) :
    Sure (fun x => x.2.Left n) (r.exportDefault start) (r.exportDefault start) := by
  unfold exportDefault
  refine .ite (fun _ => exportDefaultDeclaration_sure h start) fun _ =>
    .ite (fun _ => ?_) fun _ => .pure h
  apply h.advance_le.bind
  intro s hs
  apply (hs.passOver .semicolon).bind
  intro t ht
  exact .pure ht

theorem exportStar_sure (h : r.Left n) (hn : n ≤ min fuel fuel') (start : Nat) :
    Sure (fun x => x.2.Left n) (r.exportStar start fuel) (r.exportStar start fuel') := by
  unfold exportStar
  apply h.advance_le.bind
  intro s hs
  extract_lets rest rest'
  have source (name : Option Bytes) {t : Reader text} (ht : t.Left n) :
      Sure (fun x => x.2.Left n) (rest (name, t)) (rest' (name, t)) := by
    refine .ite (fun _ => .throw_bind (by simp [failAt])) fun _ => ?_
    apply ht.advance_le.bind
    intro u hu
    apply (stringLiteral_sure hu).bind
    intro x hx
    apply (passAttributes_sure (hx.mono (Nat.sub_le n 1)) hn).bind
    intro v hv
    apply (hv.passOver .semicolon).bind
    intro z hz
    exact .pure hz
  refine .ite (fun _ => ?_) fun _ => source none hs
  apply hs.advance_le.bind
  intro t ht
  apply (moduleName_sure ht).bind
  intro x hx
  exact source (some x.1) (hx.mono (Nat.sub_le n 1))

theorem exportList_sure (h : r.Left n) (hn : n < min fuel fuel') (start : Nat) (typeOnly : Bool) :
    Sure (fun x => x.2.Left n) (r.exportList start typeOnly fuel)
      (r.exportList start typeOnly fuel') := by
  unfold exportList
  apply (bindingList_sure h hn .exports typeOnly).bind
  rintro ⟨items, s⟩ hs
  dsimp -zeta only at hs ⊢
  extract_lets rest
  have finish (specifier : Option Bytes) {t : Reader text} (ht : t.Left n) :
      Sure (fun x => x.2.Left n) (rest (specifier, t)) (rest (specifier, t)) := by
    apply (ht.passOver .semicolon).bind
    intro u hu
    exact .pure hu
  refine .ite (fun _ => ?_) fun _ => finish none hs
  apply hs.advance_le.bind
  intro t ht
  apply (stringLiteral_sure ht).bind
  intro x hx
  apply (passAttributes_sure (hx.mono (Nat.sub_le n 1)) hn.le).bind
  intro u hu
  exact finish (some x.1) hu

end JsxPresence.Reader
