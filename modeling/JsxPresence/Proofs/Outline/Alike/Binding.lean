import JsxPresence.Proofs.Outline.Alike.Expression

namespace JsxPresence.Reader

variable {a b : Bytes} {r : Reader a} {s : Reader b} {n m fuel fuel' bound : Nat}
  {walk : Walk a} {walk' : Walk b}

theorem map_eq_of_map_eq {α β γ δ : Type} {f : α → γ} {f' : β → γ} {g : α → δ} {g' : β → δ}
    {xs : List α} {ys : List β} (h : xs.map f = ys.map f') (hi : ∀ x y, f x = f' y → g x = g' y) :
    xs.map g = ys.map g' := by
  induction xs generalizing ys with
  | nil => simp_all
  | cons x xs ih =>
    cases ys with
    | nil => simp at h
    | cons y ys =>
      simp only [List.map_cons, List.cons.injEq] at h ⊢
      exact ⟨hi x y h.1, ih h.2⟩

theorem stringLiteral_alike (h : r.Alike n s) :
    Agree (Same id (n - 1)) r.stringLiteral s.stringLiteral := by
  unfold stringLiteral
  apply Agree.ite (by rw [h.is])
  · intro _
    exact .throw_bind rfl
  · intro _
    apply h.advance.bind
    intro t u htu
    exact ⟨congrArg unquote h.lexeme, htu⟩

theorem moduleName_alike (h : r.Alike n s) : Agree (Same id (n - 1)) r.moduleName s.moduleName := by
  unfold moduleName
  apply Agree.ite (by rw [h.isName])
  · intro _
    apply h.advance.bind
    intro t u htu
    exact ⟨h.lexeme, htu⟩
  · intro _
    apply Agree.ite (by rw [h.is]) fun _ => stringLiteral_alike h
    intro _
    exact .throw (congrArg SyntaxCause.missingName h.kind)

theorem passAttributes_alike (h : r.Alike n s) (hn : n ≤ fuel) (hn' : n ≤ fuel') :
    Agree (Alike n) (r.passAttributes fuel) (s.passAttributes fuel') := by
  unfold passAttributes
  apply Agree.ite (by rw [h.isKeyword, h.isWord, h.peek_kind]) _ fun _ => .pure h
  intro hbrace
  have hopener : r.step.current.kind.isOpener = true := by
    have hkind : r.peek.kind = .openBrace := of_decide_eq_true (Bool.and_eq_true_iff.1 hbrace).2
    rw [← peek, hkind]
    rfl
  rw [h.left.advance, h.right.advance]
  have hgroup := passGroup_alike h.step hopener (show n - 1 ≤ fuel by omega)
    (show n - 1 ≤ fuel' by omega) (·.failAt .unterminatedAttributes)
    (·.failAt .unterminatedAttributes) fun _ _ => rfl
  exact hgroup.mono fun _ _ htu => htu.mono (by omega)

theorem marksType_alike (h : r.Alike n s) : r.marksType = s.marksType := by
  simp only [marksType, h.isWord, h.peek_isName, h.peek_isWord, h.peek_kind]

def BindingItem.unplaced (i : BindingItem) : BindingItem := { i with span := .nowhere }

theorem bindingItem_alike (h : r.Alike n s) (typeOnly : Bool) :
    Agree (Same BindingItem.unplaced (n - 1)) (r.bindingItem typeOnly)
      (s.bindingItem typeOnly) := by
  unfold bindingItem
  extract_lets start marked rest start' marked' rest'
  have hmarks : marked = marked' := marksType_alike h
  have named {t : Reader a} {u : Reader b} (htu : t.Alike n u) :
      Agree (Same BindingItem.unplaced (n - 1)) (rest t) (rest' u) := by
    apply (moduleName_alike htu).bind
    intro x y hxy
    have hname : x.1 = y.1 := hxy.value
    apply Agree.ite (by rw [hxy.reader.isWord])
    · intro _
      apply hxy.reader.advance.bind
      intro t u htu
      apply (moduleName_alike htu).bind
      intro x' y' hxy'
      have hbound : x'.1 = y'.1 := hxy'.value
      apply Agree.pure
      exact ⟨by simp [BindingItem.unplaced, hname, hbound, hmarks],
        hxy'.reader.mono (by omega)⟩
    · intro _
      apply Agree.pure
      exact ⟨by simp [BindingItem.unplaced, hname, hmarks], hxy.reader⟩
  apply Agree.ite (by rw [hmarks])
  · intro _
    apply h.advance.bind
    intro t u htu
    exact named (htu.mono (by omega))
  · intro _
    exact named h

theorem bindingItems_alike (h : r.Alike n s) (hn : n < fuel) (hn' : n < fuel') (typeOnly : Bool) :
    Agree (Same (List.map BindingItem.unplaced) n) (bindingItems typeOnly fuel r)
      (bindingItems typeOnly fuel' s) := by
  induction n using Nat.strong_induction_on generalizing r s fuel fuel' with
  | _ n ih =>
    obtain ⟨fuel, rfl⟩ := Nat.exists_eq_add_one_of_ne_zero (n := fuel) (by omega)
    obtain ⟨fuel', rfl⟩ := Nat.exists_eq_add_one_of_ne_zero (n := fuel') (by omega)
    simp only [bindingItems, ← h.is]
    apply Agree.ite Iff.rfl fun _ => .pure ⟨rfl, h⟩
    intro _
    apply (bindingItem_alike h typeOnly).bind
    intro x y hxy
    apply Agree.ite (by rw [hxy.reader.is])
    · intro hcomma
      have hpos := hxy.reader.pos (not_atEnd_of_ne_eof (by simp [of_decide_eq_true hcomma]))
      apply hxy.reader.advance.bind
      intro t u htu
      apply (ih (n - 1 - 1) (by omega) htu (by omega) (by omega)).bind
      intro x' y' hxy'
      apply Agree.pure
      exact ⟨by simp [hxy.value, hxy'.value], hxy'.reader.mono (by omega)⟩
    · intro _
      apply Agree.pure
      exact ⟨by simp [hxy.value], hxy.reader.mono (by omega)⟩

theorem bindingList_alike (h : r.Alike n s) (hn : n < fuel) (hn' : n < fuel') (list : BindingList)
    (typeOnly : Bool) :
    Agree (Same (List.map BindingItem.unplaced) n) (r.bindingList list typeOnly fuel)
      (s.bindingList list typeOnly fuel') := by
  unfold bindingList
  apply h.advance.bind
  intro t u htu
  apply (bindingItems_alike htu (by omega) (by omega) typeOnly).bind
  intro x y hxy
  apply Agree.ite (by rw [hxy.reader.is])
  · intro _
    exact .throw_bind (congrArg (SyntaxCause.unclosedList list) hxy.reader.kind)
  · intro _
    apply hxy.reader.advance.bind
    intro t u htu
    exact ⟨hxy.value, htu.mono (by omega)⟩

theorem atImport_alike (h : r.Alike n s) : r.atImport = s.atImport := by
  simp only [atImport, h.isKeyword, h.peek_kind]

theorem marksTypeImport_alike (h : r.Alike n s) : r.marksTypeImport = s.marksTypeImport := by
  simp only [marksTypeImport, h.isWord, h.peek_isWord, h.peek_kind]

theorem BindingItem.toImport_unplaced (i : BindingItem) :
    i.toImport.unplaced = i.unplaced.toImport.unplaced := rfl

theorem moduleItem_alike (h : r.Alike n s) (typeOnly : Bool) :
    Agree (Same ImportItem.unplaced n) (r.moduleItem typeOnly) (s.moduleItem typeOnly) := by
  unfold moduleItem
  apply h.advance.bind
  intro t u htu
  apply Agree.ite (by rw [htu.isWord])
  · intro _
    exact .throw_bind rfl
  · intro _
    apply htu.advance.bind
    intro t u htu
    apply Agree.ite (by rw [htu.is])
    · intro _
      exact .throw_bind rfl
    · intro _
      have hname := htu.lexeme
      apply htu.advance.bind
      intro t u htu
      apply Agree.pure
      exact ⟨by simp [ImportItem.unplaced, hname], htu.mono (by omega)⟩

theorem importItems_alike (h : r.Alike n s) (hn : n < fuel) (hn' : n < fuel') (typeOnly : Bool) :
    Agree (Same (List.map ImportItem.unplaced) n) (r.importItems typeOnly fuel)
      (s.importItems typeOnly fuel') := by
  unfold importItems
  apply Agree.ite (by rw [h.is])
  · intro _
    apply (moduleItem_alike h typeOnly).bind
    intro x y hxy
    exact ⟨congrArg ([·]) hxy.value, hxy.reader⟩
  · intro _
    apply Agree.ite (by rw [h.is])
    · intro _
      apply (bindingList_alike h hn hn' .imports typeOnly).bind
      intro x y hxy
      have himports := congrArg (List.map (ImportItem.unplaced ∘ BindingItem.toImport)) hxy.value
      apply Agree.pure
      refine ⟨?_, hxy.reader⟩
      simpa [Function.comp_def, ← BindingItem.toImport_unplaced] using himports
    · intro _
      exact ⟨rfl, h⟩

theorem importEnd_alike (h : r.Alike n s) (hn : n ≤ fuel) (hn' : n ≤ fuel') (typeOnly : Bool)
    {items items' : List ImportItem}
    (hitems : items.map ImportItem.unplaced = items'.map ImportItem.unplaced) (start start' : Nat) :
    Agree (Same Outline.unplaced n) (r.importEnd start typeOnly items fuel)
      (s.importEnd start' typeOnly items' fuel') := by
  unfold importEnd
  apply (stringLiteral_alike h).bind
  intro x y hxy
  have hspecifier : x.1 = y.1 := hxy.value
  apply (passAttributes_alike hxy.reader (by omega) (by omega)).bind
  intro t u htu
  apply (htu.passOver .semicolon).bind
  intro t u htu
  apply (htu.mono (Nat.sub_le n 1)).same
  simp [Outline.unplaced, Outline.ofImport, Outline.empty, Import.unplaced, hspecifier, hitems]

theorem importFrom_alike (h : r.Alike n s) (hn : n ≤ fuel) (hn' : n ≤ fuel') (typeOnly : Bool)
    {items items' : List ImportItem}
    (hitems : items.map ImportItem.unplaced = items'.map ImportItem.unplaced) (start start' : Nat) :
    Agree (Same Outline.unplaced n) (r.importFrom start typeOnly items fuel)
      (s.importFrom start' typeOnly items' fuel') := by
  unfold importFrom
  apply Agree.ite (by rw [h.isWord])
  · intro _
    exact .throw_bind rfl
  · intro _
    apply h.advance.bind
    intro t u htu
    have htu := htu.mono (Nat.sub_le n 1)
    apply Agree.ite (by rw [htu.is])
    · intro _
      exact .throw_bind rfl
    · intro _
      exact importEnd_alike htu hn hn' typeOnly hitems start start'

theorem walkImport_alike (hw : walk.Alike bound walk') (h : r.Alike n s) (he : r.atEnd = false)
    (hb : n ≤ bound) (hn : n ≤ fuel) (hn' : n ≤ fuel') :
    Agree (Same Outline.unplaced (n - 1)) (r.walkImport walk fuel) (s.walkImport walk' fuel') := by
  have hpos := h.pos he
  unfold walkImport
  extract_lets start start'
  apply h.advance.bind
  intro t u htu
  apply Agree.ite (by rw [htu.is])
  · intro _
    exact importEnd_alike htu (by omega) (by omega) false rfl start start'
  intro _
  extract_lets typeOnly rest typeOnly' rest'
  have htype : typeOnly = typeOnly' := marksTypeImport_alike htu
  clear_value typeOnly typeOnly'
  subst htype
  have clause {t : Reader a} {u : Reader b} (htu : t.Alike (n - 1) u) :
      Agree (Same Outline.unplaced (n - 1)) (rest t) (rest' u) := by
    have hname := htu.lexeme
    apply Agree.ite (by rw [htu.is])
    · intro _
      apply htu.advance.bind
      intro t u htu
      have htu := htu.mono (Nat.sub_le (n - 1) 1)
      apply Agree.ite (by rw [htu.is])
      · intro _
        apply htu.advance.bind
        intro t u htu
        apply (hw _ t u (by omega) htu).bind
        intro x y hxy
        apply (hxy.reader.passOver .semicolon).bind
        intro t u htu
        exact (htu.mono (by omega)).same hxy.value
      · intro _
        apply (htu.passOver .comma).bind
        intro t u htu
        apply (importItems_alike htu (by omega) (by omega) typeOnly).bind
        intro x y hxy
        have hitems := hxy.value
        apply importFrom_alike hxy.reader (by omega) (by omega)
        simp [ImportItem.unplaced, hname, hitems]
    · intro _
      apply (importItems_alike htu (by omega) (by omega) typeOnly).bind
      intro x y hxy
      exact importFrom_alike hxy.reader (by omega) (by omega) typeOnly hxy.value start start'
  apply Agree.ite Iff.rfl
  · intro _
    apply htu.advance.bind
    intro t u htu
    exact clause (htu.mono (by omega))
  · intro _
    exact clause htu

theorem isBareExport_alike (h : r.Alike n s) : r.isBareExport = s.isBareExport := by
  have hnewline : r.peek.newlineBefore = s.peek.newlineBefore := h.step.newline
  simp only [isBareExport, h.is, h.peek_kind, hnewline]

theorem atAsyncFunction_alike (h : r.Alike n s) : r.atAsyncFunction = s.atAsyncFunction := by
  simp only [atAsyncFunction, h.isWord, h.peek_isKeyword]

theorem exportDefaultDeclaration_alike (h : r.Alike n s) (start start' : Nat) :
    Agree (Same Outline.unplaced n) (r.exportDefaultDeclaration start)
      (s.exportDefaultDeclaration start') := by
  unfold exportDefaultDeclaration
  extract_lets kind tail rest kind' tail' rest'
  have hkind : kind = kind' := by simp only [kind, kind', h.isKeyword]
  clear_value kind kind'
  subst hkind
  have named {t : Reader a} {u : Reader b} (htu : t.Alike n u) :
      Agree (Same Outline.unplaced n) (tail t) (tail' u) := by
    have hname := htu.lexeme
    apply Agree.ite (by rw [htu.is])
    · intro _
      apply htu.advance.bind
      intro t u htu
      apply (htu.mono (Nat.sub_le n 1)).same
      rw [hname]
      rfl
    · intro _
      exact htu.same rfl
  have behind {t : Reader a} {u : Reader b} (htu : t.Alike n u) :
      Agree (Same Outline.unplaced n) (rest t) (rest' u) := by
    apply htu.advance.bind
    intro t u htu
    have htu := htu.mono (Nat.sub_le n 1)
    apply Agree.ite Iff.rfl
    · intro _
      apply (htu.passOver .star).bind
      intro t u htu
      exact named htu
    · intro _
      exact named htu
  apply Agree.ite (by rw [atAsyncFunction_alike h])
  · intro _
    apply h.advance.bind
    intro t u htu
    exact behind (htu.mono (Nat.sub_le n 1))
  · intro _
    exact behind h

theorem exportDefault_alike (h : r.Alike n s) (start start' : Nat) :
    Agree (Same Outline.unplaced n) (r.exportDefault start) (s.exportDefault start') := by
  have hname := h.lexeme
  unfold exportDefault
  apply Agree.ite (by rw [h.isKeyword, h.isKeyword, atAsyncFunction_alike h])
  · intro _
    exact exportDefaultDeclaration_alike h start start'
  intro _
  apply Agree.ite (by rw [isBareExport_alike h])
  · intro _
    apply h.advance.bind
    intro t u htu
    apply (htu.passOver .semicolon).bind
    intro t u htu
    apply (htu.mono (Nat.sub_le n 1)).same
    rw [hname]
    rfl
  · intro _
    exact h.same rfl

theorem exportStar_alike (h : r.Alike n s) (hn : n ≤ fuel) (hn' : n ≤ fuel') (start start' : Nat) :
    Agree (Same Outline.unplaced n) (r.exportStar start fuel) (s.exportStar start' fuel') := by
  unfold exportStar
  apply h.advance.bind
  intro t u htu
  have htu := htu.mono (Nat.sub_le n 1)
  extract_lets rest rest'
  have source {x : Option Bytes × Reader a} {y : Option Bytes × Reader b} (hxy : Same id n x y) :
      Agree (Same Outline.unplaced n) (rest x) (rest' y) := by
    have hname : x.1 = y.1 := hxy.value
    apply Agree.ite (by rw [hxy.reader.isWord])
    · intro _
      exact .throw_bind rfl
    · intro _
      apply hxy.reader.advance.bind
      intro t u htu
      apply (stringLiteral_alike htu).bind
      intro x' y' hxy'
      have hspecifier : x'.1 = y'.1 := hxy'.value
      apply (passAttributes_alike hxy'.reader (by omega) (by omega)).bind
      intro t u htu
      apply (htu.passOver .semicolon).bind
      intro t u htu
      apply (htu.mono (by omega)).same
      rw [hname, hspecifier]
      rfl
  apply Agree.ite (by rw [htu.isWord])
  · intro _
    apply htu.advance.bind
    intro t u htu
    apply (moduleName_alike htu).bind
    intro x y hxy
    have hname : x.1 = y.1 := hxy.value
    exact source (x := (some x.1, x.2)) (y := (some y.1, y.2))
      ⟨congrArg some hname, hxy.reader.mono (by omega)⟩
  · intro _
    exact source (x := (none, t)) (y := (none, u)) ⟨rfl, htu⟩

theorem exportList_alike (h : r.Alike n s) (hn : n < fuel) (hn' : n < fuel') (start start' : Nat)
    (typeOnly : Bool) :
    Agree (Same Outline.unplaced n) (r.exportList start typeOnly fuel)
      (s.exportList start' typeOnly fuel') := by
  unfold exportList
  apply (bindingList_alike h hn hn' .exports typeOnly).bind
  intro x y hxy
  obtain ⟨items, t⟩ := x
  obtain ⟨items', u⟩ := y
  obtain ⟨hitems, htu⟩ := hxy
  dsimp -zeta only at hitems htu ⊢
  extract_lets rest rest'
  have finish {x : Option Bytes × Reader a} {y : Option Bytes × Reader b} (hxy : Same id n x y) :
      Agree (Same Outline.unplaced n) (rest x) (rest' y) := by
    obtain ⟨specifier, t⟩ := x
    obtain ⟨specifier', u⟩ := y
    have hspecifier : specifier = specifier' := hxy.value
    subst hspecifier
    apply (hxy.reader.passOver .semicolon).bind
    intro t u htu
    apply htu.same
    simp only [Outline.unplaced, Outline.ofExports, Outline.empty, List.map_map]
    congr 1
    apply map_eq_of_map_eq hitems
    intro i j hij
    obtain ⟨hname, hbound, htype⟩ :
        i.name = j.name ∧ i.bound = j.bound ∧ i.typeOnly = j.typeOnly := by
      simpa [BindingItem.unplaced] using hij
    cases specifier <;> simp [Export.unplaced, hname, hbound, htype]
  apply Agree.ite (by rw [htu.isWord])
  · intro _
    apply htu.advance.bind
    intro t u htu
    apply (stringLiteral_alike htu).bind
    intro x y hxy
    have hspecifier : x.1 = y.1 := hxy.value
    apply (passAttributes_alike hxy.reader (by omega) (by omega)).bind
    intro t u htu
    exact finish (x := (some x.1, t)) (y := (some y.1, u))
      ⟨congrArg some hspecifier, htu.mono (by omega)⟩
  · intro _
    exact finish (x := (none, t)) (y := (none, u)) ⟨rfl, htu⟩

end JsxPresence.Reader
