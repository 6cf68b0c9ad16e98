import JsxPresence.Proofs.Outline.Alike.Binding

namespace JsxPresence.Reader

variable {a b : Bytes} {r : Reader a} {s : Reader b} {n m fuel fuel' bound : Nat}
  {walk : Walk a} {walk' : Walk b}

theorem atVariableKeyword_alike (h : r.Alike n s) : r.atVariableKeyword = s.atVariableKeyword := by
  simp only [atVariableKeyword, h.isKeyword]

theorem atFunctionOrClass_alike (h : r.Alike n s) : r.atFunctionOrClass = s.atFunctionOrClass := by
  simp only [atFunctionOrClass, h.isKeyword]

theorem afterStatement_alike (h : r.Alike n s) : r.afterStatement = s.afterStatement := by
  unfold afterStatement
  rw [expressionAllowed_alike h, h.newline]
  obtain ⟨hr, hs⟩ | ⟨t, u, hr, hs, hk, -⟩ := h.previous_cases
  · rw [hr, hs]
  · simp only [hr, hs, hk]

/-- Here the text itself is looked at, and not the tokens only. -/
theorem atDeclaration_alike (h : r.Alike n s) : r.atDeclaration = s.atDeclaration := by
  simp only [atDeclaration, atVariableKeyword_alike h, atFunctionOrClass_alike h,
    afterStatement_alike h]
  cases hasync : r.isWord (utf8 "async") with
  | false =>
    rw [h.isWord] at hasync
    simp [hasync]
  | true =>
    have hfollows : r.functionFollows = s.functionFollows := h.follow 0 hasync
    rw [← h.isWord, hasync, hfollows]

theorem atStatement_alike (h : r.Alike n s) : r.atStatement = s.atStatement := by
  simp only [atStatement, h.isKeyword, atVariableKeyword_alike h, atImport_alike h,
    atFunctionOrClass_alike h, h.newline, expressionAllowed_alike h]

theorem passType_alike (h : r.Alike n s) (hn : n < fuel) (hn' : n < fuel') (angle : Nat) :
    Agree (Alike n) (passType angle fuel r) (passType angle fuel' s) := by
  induction n using Nat.strong_induction_on generalizing r s fuel fuel' angle with
  | _ n ih =>
    obtain ⟨fuel, rfl⟩ := Nat.exists_eq_add_one_of_ne_zero (n := fuel) (by omega)
    obtain ⟨fuel', rfl⟩ := Nat.exists_eq_add_one_of_ne_zero (n := fuel') (by omega)
    simp only [passType, ← h.kind, ← h.newline, ← atStatement_alike h]
    apply Agree.ite Iff.rfl fun _ => .pure h
    intro he
    have hpos := h.pos (not_atEnd_of_ne_eof he)
    have further {t : Reader a} {u : Reader b} (htu : t.Alike (n - 1) u) (angle : Nat) :
        Agree (Alike n) (passType angle fuel t) (passType angle fuel' u) :=
      (ih (n - 1) (by omega) htu (by omega) (by omega) angle).mono fun _ _ h => h.mono (by omega)
    apply Agree.ite Iff.rfl fun _ => .pure h
    intro _
    apply Agree.ite Iff.rfl
    · intro ho
      apply (passGroup_alike h ho (by omega) (by omega) _ _ fun _ _ => by rfl).bind
      intro t u htu
      exact further htu angle
    intro _
    apply Agree.ite Iff.rfl fun _ => .pure h
    intro _
    apply h.advance.bind
    intro t u htu
    exact further htu _

theorem walkInitializer_alike (hw : walk.Alike bound walk') (h : r.Alike n s) (hb : n < bound)
    (hn : n < fuel) (hn' : n < fuel') :
    Agree (Same Outline.unplaced n) (walkInitializer walk fuel r)
      (walkInitializer walk' fuel' s) := by
  induction n using Nat.strong_induction_on generalizing r s fuel fuel' with
  | _ n ih =>
    obtain ⟨fuel, rfl⟩ := Nat.exists_eq_add_one_of_ne_zero (n := fuel) (by omega)
    obtain ⟨fuel', rfl⟩ := Nat.exists_eq_add_one_of_ne_zero (n := fuel') (by omega)
    simp only [walkInitializer, ← h.atEnd, ← h.is, ← atStatement_alike h]
    apply Agree.ite Iff.rfl fun _ => .pure (h.same rfl)
    intro hgo
    have hpos := h.pos (by simp_all)
    apply (hw n r s hb h).bind
    intro x y hxy
    apply (ih (n - 1) (by omega) hxy.reader (by omega) (by omega) (by omega)).bind
    intro x' y' hxy'
    exact (hxy'.append hxy.value).mono (by omega)

/-- Members of an object that are the same without their places, and what stands in them. -/
def SameMembers (n : Nat) (x : List Property × Outline × Reader a)
    (y : List Property × Outline × Reader b) : Prop :=
  x.1.map Property.unplaced = y.1.map Property.unplaced ∧ Same Outline.unplaced n x.2 y.2

theorem propertyValue_alike (hw : walk.Alike bound walk') (h : r.Alike n s) (hb : n < bound)
    (hn : n < fuel) (hn' : n < fuel') (start start' : Nat) (key : Bytes) :
    Agree (SameMembers n) (r.propertyValue walk fuel start key)
      (s.propertyValue walk' fuel' start' key) := by
  unfold propertyValue
  extract_lets other other'
  have hother : Agree (SameMembers n) other other' := by
    apply (walkUntil_alike hw h hb hn hn' endsProperty).bind
    intro x y hxy
    exact ⟨rfl, hxy⟩
  apply Agree.ite (by rw [h.is]) _ fun _ => hother
  intro hi
  have hpath := dottedPath_alike h hi hn.le hn'.le
  generalize r.dottedPath fuel = x at hpath ⊢
  generalize s.dottedPath fuel' = y at hpath ⊢
  obtain ⟨path, last⟩ := x
  obtain ⟨path', last'⟩ := y
  obtain ⟨hpath, hlast⟩ := hpath
  dsimp only at hpath hlast
  subst hpath
  cases path with
  | none => exact hother
  | some path =>
    apply Agree.ite (by rw [hlast.kind]) _ fun _ => hother
    intro _
    exact ⟨rfl, (hlast.mono (Nat.sub_le n 1)).same rfl⟩

theorem property_alike (hw : walk.Alike bound walk') (h : r.Alike n s) (hb : n < bound)
    (hn : n < fuel) (hn' : n < fuel') :
    Agree (SameMembers n) (r.property walk fuel) (s.property walk' fuel') := by
  unfold property
  extract_lets first skip key first' skip' key'
  have hkind : first.kind = first'.kind := h.kind
  have hname : first.isName = first'.isName := h.isName
  have hkey : key = key' := by
    have hlexeme : first.lexeme = first'.lexeme := h.lexeme
    simp only [key, key', hkind, hlexeme]
  have hskip {t : Reader a} {u : Reader b} (htu : t.Alike n u) :
      Agree (SameMembers n) (skip t) (skip' u) := by
    apply (walkUntil_alike hw htu hb hn hn' endsProperty).bind
    intro x y hxy
    exact ⟨rfl, hxy⟩
  rw [← hkey, ← hkind, ← hname]
  apply Agree.ite Iff.rfl _ fun _ => hskip h
  intro _
  apply h.advance.bind
  intro t u htu
  have htu := htu.mono (Nat.sub_le n 1)
  apply Agree.ite (by rw [htu.is])
  · intro _
    apply htu.advance.bind
    intro t u htu
    exact propertyValue_alike hw (htu.mono (Nat.sub_le n 1)) hb hn hn' _ _ key
  intro _
  apply Agree.ite (by rw [htu.kind]) _ fun _ => hskip htu
  intro _
  exact ⟨rfl, htu.same rfl⟩

theorem properties_alike (hw : walk.Alike bound walk') (h : r.Alike n s) (hb : n < bound)
    (hn : n + 1 < fuel) (hn' : n + 1 < fuel') :
    Agree (SameMembers n) (properties walk fuel r) (properties walk' fuel' s) := by
  induction n using Nat.strong_induction_on generalizing r s fuel fuel' with
  | _ n ih =>
    obtain ⟨fuel, rfl⟩ := Nat.exists_eq_add_one_of_ne_zero (n := fuel) (by omega)
    obtain ⟨fuel', rfl⟩ := Nat.exists_eq_add_one_of_ne_zero (n := fuel') (by omega)
    simp only [properties, ← h.is, ← h.atEnd]
    apply Agree.ite Iff.rfl fun _ => .pure ⟨rfl, h.same rfl⟩
    intro _
    apply (property_alike hw h hb (by omega) (by omega)).bind
    intro x y hxy
    have hreader := hxy.2.reader
    apply Agree.ite (by rw [hreader.is]) _ fun _ => .pure hxy
    intro hcomma
    have hpos := hreader.pos (not_atEnd_of_ne_eof (by simp [of_decide_eq_true hcomma]))
    apply hreader.advance.bind
    intro t u htu
    apply (ih (n - 1) (by omega) htu (by omega) (by omega) (by omega)).bind
    intro x' y' hxy'
    exact ⟨by simp [hxy.1, hxy'.1], (hxy'.2.append hxy.2.value).mono (by omega)⟩

theorem objectLiteral_alike (hw : walk.Alike bound walk') (h : r.Alike n s) (he : r.atEnd = false)
    (hb : n < bound) (hn : n < fuel) (hn' : n < fuel') :
    Agree (SameMembers n) (r.objectLiteral walk fuel) (s.objectLiteral walk' fuel') := by
  have hpos := h.pos he
  unfold objectLiteral
  apply h.advance.bind
  intro t u htu
  apply (properties_alike hw htu (by omega) (by omega) (by omega)).bind
  intro x y hxy
  have hreader := hxy.2.reader
  apply Agree.ite (by rw [hreader.is])
  · intro _
    exact .throw_bind rfl
  · intro _
    apply hreader.advance.bind
    intro t u htu
    exact ⟨hxy.1, (htu.mono (by omega)).same hxy.2.value⟩

theorem passTyping_alike (h : r.Alike n s) (hn : n < fuel) (hn' : n < fuel') :
    Agree (Alike n) (r.passTyping fuel) (s.passTyping fuel') := by
  unfold passTyping
  apply Agree.ite (by rw [h.is]) _ fun _ => .pure h
  intro _
  apply h.advance.bind
  intro t u htu
  exact passType_alike (htu.mono (Nat.sub_le n 1)) hn hn' 0

theorem initializer_alike (hw : walk.Alike bound walk') (h : r.Alike n s) (hb : n < bound)
    (hn : n < fuel) (hn' : n < fuel') :
    Agree (fun x y => x.1.map (·.map Property.unplaced) = y.1.map (·.map Property.unplaced) ∧
        Same Outline.unplaced n x.2 y.2)
      (r.initializer walk fuel) (s.initializer walk' fuel') := by
  unfold initializer
  apply Agree.ite (by rw [h.is]) _ fun _ => .pure ⟨rfl, h.same rfl⟩
  intro _
  apply h.advance.bind
  intro t u htu
  have htu := htu.mono (Nat.sub_le n 1)
  apply Agree.ite (by rw [htu.is])
  · intro hbrace
    have he := not_atEnd_of_ne_eof (r := t) (by simp [of_decide_eq_true hbrace])
    apply (objectLiteral_alike hw htu he hb hn hn').bind
    intro x y hxy
    apply (walkInitializer_alike hw hxy.2.reader hb hn hn').bind
    intro x' y' hxy'
    exact ⟨congrArg some hxy.1, hxy'.append hxy.2.value⟩
  · intro _
    apply (walkInitializer_alike hw htu hb hn hn').bind
    intro x y hxy
    exact ⟨rfl, hxy⟩

theorem declarator_alike (hw : walk.Alike bound walk') (h : r.Alike n s) (he : r.atEnd = false)
    (hb : n ≤ bound) (hn : n ≤ fuel) (hn' : n ≤ fuel') (kind : DeclarationKind)
    {exportStart exportStart' : Option Nat} (hexport : exportStart.isSome = exportStart'.isSome) :
    Agree (Same Outline.unplaced (n - 1)) (r.declarator walk fuel kind exportStart)
      (s.declarator walk' fuel' kind exportStart') := by
  have hpos := h.pos he
  have hname := h.lexeme
  unfold declarator
  apply h.advance.bind
  intro t u htu
  apply (htu.passOver .bang).bind
  intro t u htu
  apply (passTyping_alike htu (by omega) (by omega)).bind
  intro t u htu
  apply (initializer_alike hw htu (by omega) (by omega) (by omega)).bind
  intro x y hxy
  obtain ⟨members, inner, t⟩ := x
  obtain ⟨members', inner', u⟩ := y
  obtain ⟨hmembers, hinner, htu⟩ := hxy
  dsimp -zeta only at hmembers hinner htu ⊢
  extract_lets exported exported'
  have hexported : exported.unplaced = exported'.unplaced := by
    simp only [exported, exported', hname]
    cases exportStart <;> cases exportStart' <;> first | rfl | cases hexport
  apply htu.same
  simp only [Outline.unplaced_append, hinner, hexported, hname]
  simp [Outline.unplaced, Outline.ofDeclaration, Outline.empty, Declaration.unplaced, hmembers]

theorem pattern_alike (hw : walk.Alike bound walk') (h : r.Alike n s) (he : r.atEnd = false)
    (hb : n ≤ bound) (hn : n ≤ fuel) (hn' : n ≤ fuel') :
    Agree (Same Outline.unplaced (n - 1)) (r.pattern walk fuel) (s.pattern walk' fuel') := by
  have hpos := h.pos he
  unfold pattern
  apply (walkGroup_alike hw h he hb hn hn').bind
  intro x y hxy
  apply (passTyping_alike hxy.reader (by omega) (by omega)).bind
  intro t u htu
  apply Agree.ite (by rw [htu.is]) _ fun _ => .pure (htu.same hxy.value)
  intro _
  apply htu.advance.bind
  intro t u htu
  have htu := htu.mono (Nat.sub_le (n - 1) 1)
  apply (walkInitializer_alike hw htu (by omega) (by omega) (by omega)).bind
  intro x' y' hxy'
  exact hxy'.append hxy.value

theorem declarators_alike (hw : walk.Alike bound walk') (h : r.Alike n s) (hb : n < bound)
    (hn : n < fuel) (hn' : n < fuel') (kind : DeclarationKind)
    {exportStart exportStart' : Option Nat} (hexport : exportStart.isSome = exportStart'.isSome) :
    Agree (Same Outline.unplaced n) (declarators walk kind exportStart fuel r)
      (declarators walk' kind exportStart' fuel' s) := by
  induction n using Nat.strong_induction_on generalizing r s fuel fuel' with
  | _ n ih =>
    obtain ⟨fuel, rfl⟩ := Nat.exists_eq_add_one_of_ne_zero (n := fuel) (by omega)
    obtain ⟨fuel', rfl⟩ := Nat.exists_eq_add_one_of_ne_zero (n := fuel') (by omega)
    unfold declarators
    apply Agree.ite (by rw [h.is, h.is, h.is]) _ fun _ => .pure (h.same rfl)
    intro hstarts
    have he : r.atEnd = false := not_atEnd_of_ne_eof (by rintro hk; simp [is, hk] at hstarts)
    have hpos := h.pos he
    extract_lets rest rest'
    have more {x : Outline × Reader a} {y : Outline × Reader b}
        (hxy : Same Outline.unplaced (n - 1) x y) :
        Agree (Same Outline.unplaced n) (rest x) (rest' y) := by
      apply Agree.ite (by rw [hxy.reader.is])
      · intro _
        apply hxy.reader.advance.bind
        intro t u htu
        have htu := htu.mono (Nat.sub_le (n - 1) 1)
        apply (ih (n - 1) (by omega) htu (by omega) (by omega) (by omega)).bind
        intro x' y' hxy'
        exact (hxy'.append hxy.value).mono (by omega)
      · intro _
        apply (hxy.reader.passOver .semicolon).bind
        intro t u htu
        exact (htu.mono (by omega)).same hxy.value
    apply Agree.ite (by rw [h.is])
    · intro _
      apply (declarator_alike hw h he (by omega) (by omega) (by omega) kind hexport).bind
      intro x y hxy
      exact more hxy
    · intro _
      apply (pattern_alike hw h he (by omega) (by omega) (by omega)).bind
      intro x y hxy
      exact more hxy

theorem functionOrClass_alike (h : r.Alike n s) {exportStart exportStart' : Option Nat}
    (hexport : exportStart.isSome = exportStart'.isSome) :
    Agree (Same Outline.unplaced (n - 1)) (r.functionOrClass exportStart)
      (s.functionOrClass exportStart') := by
  unfold functionOrClass
  extract_lets kind rest kind' rest'
  have hkind : kind = kind' := by simp only [kind, kind', h.isKeyword]
  clear_value kind kind'
  subst hkind
  have named {t : Reader a} {u : Reader b} (htu : t.Alike (n - 1) u) :
      Agree (Same Outline.unplaced (n - 1)) (rest t) (rest' u) := by
    have hname := htu.lexeme
    apply Agree.ite (by rw [htu.is]) _ fun _ => .pure (htu.same rfl)
    intro _
    apply htu.advance.bind
    intro t u htu
    extract_lets exported exported'
    have hexported : exported.unplaced = exported'.unplaced := by
      simp only [exported, exported', hname]
      cases exportStart <;> cases exportStart' <;> first | rfl | cases hexport
    apply (htu.mono (Nat.sub_le (n - 1) 1)).same
    simp only [Outline.unplaced_append, hexported, hname]
    rfl
  apply h.advance.bind
  intro t u htu
  apply Agree.ite Iff.rfl
  · intro _
    apply (htu.passOver .star).bind
    intro t u htu
    exact named htu
  · intro _
    exact named htu

theorem walkDeclaration_alike (hw : walk.Alike bound walk') (h : r.Alike n s) (he : r.atEnd = false)
    (hb : n ≤ bound) (hn : n ≤ fuel) (hn' : n ≤ fuel') {exportStart exportStart' : Option Nat}
    (hexport : exportStart.isSome = exportStart'.isSome) :
    Agree (Same Outline.unplaced (n - 1)) (r.walkDeclaration walk fuel exportStart)
      (s.walkDeclaration walk' fuel' exportStart') := by
  have hpos := h.pos he
  unfold walkDeclaration
  extract_lets rest rest'
  have behind {t : Reader a} {u : Reader b} (htu : t.Alike n u) :
      Agree (Same Outline.unplaced (n - 1)) (rest t) (rest' u) := by
    apply Agree.ite (by rw [atFunctionOrClass_alike htu])
    · intro _
      exact functionOrClass_alike htu hexport
    · intro _
      simp only [htu.isKeyword]
      apply htu.advance.bind
      intro t u htu
      exact declarators_alike hw htu (by omega) (by omega) (by omega) _ hexport
  apply Agree.ite (by rw [h.isWord])
  · intro _
    apply h.advance.bind
    intro t u htu
    exact behind (htu.mono (Nat.sub_le n 1))
  · intro _
    exact behind h

theorem exportEnum_alike (h : r.Alike n s) (start start' : Nat) :
    Agree (Same Outline.unplaced n) (r.exportEnum start) (s.exportEnum start') := by
  unfold exportEnum
  apply h.advance.bind
  intro t u htu
  have htu := htu.mono (Nat.sub_le n 1)
  have hname := htu.lexeme
  apply Agree.ite (by rw [htu.is]) _ fun _ => .pure (htu.same rfl)
  intro _
  apply htu.advance.bind
  intro t u htu
  apply (htu.mono (Nat.sub_le n 1)).same
  rw [hname]
  rfl

theorem walkExport_alike (hw : walk.Alike bound walk') (h : r.Alike n s) (he : r.atEnd = false)
    (hb : n ≤ bound) (hn : n ≤ fuel) (hn' : n ≤ fuel') :
    Agree (Same Outline.unplaced (n - 1)) (r.walkExport walk fuel) (s.walkExport walk' fuel') := by
  have hpos := h.pos he
  unfold walkExport
  extract_lets start rest start' rest'
  have declaration {t : Reader a} {u : Reader b} (htu : t.Alike (n - 1) u) :
      Agree (Same Outline.unplaced (n - 1)) (rest t) (rest' u) := by
    apply Agree.ite (by rw [htu.isKeyword])
    · intro _
      exact exportEnum_alike htu start start'
    intro _
    apply Agree.ite (by rw [atVariableKeyword_alike htu, atFunctionOrClass_alike htu,
      atAsyncFunction_alike htu]) _ fun _ => .pure (htu.same rfl)
    intro hstarts
    have he : t.atEnd = false := by
      apply not_atEnd_of_ne_eof
      intro hk
      simp [atVariableKeyword, atFunctionOrClass, atAsyncFunction, isKeyword, isWord,
        Token.isKeyword, Token.isWord, hk] at hstarts
    have hwalk := walkDeclaration_alike hw htu he (show n - 1 ≤ bound by omega)
      (show n - 1 ≤ fuel by omega) (show n - 1 ≤ fuel' by omega)
      (show (some start).isSome = (some start').isSome from rfl)
    exact hwalk.mono fun _ _ hxy => hxy.mono (Nat.sub_le (n - 1) 1)
  apply h.advance.bind
  intro t u htu
  apply Agree.ite (by rw [htu.isKeyword])
  · intro _
    apply htu.advance.bind
    intro t u htu
    exact exportDefault_alike (htu.mono (Nat.sub_le (n - 1) 1)) start start'
  intro _
  apply Agree.ite (by rw [htu.is])
  · intro _
    exact exportStar_alike htu (by omega) (by omega) start start'
  intro _
  apply Agree.ite (by rw [htu.is])
  · intro _
    exact exportList_alike htu (by omega) (by omega) start start' false
  intro _
  apply Agree.ite (by rw [htu.isWord, htu.peek_kind])
  · intro _
    apply htu.advance.bind
    intro t u htu
    have htu := htu.mono (Nat.sub_le (n - 1) 1)
    exact exportList_alike htu (by omega) (by omega) start start' true
  intro _
  apply Agree.ite (by rw [htu.isWord, htu.isWord])
  · intro _
    apply htu.advance.bind
    intro t u htu
    exact declaration (htu.mono (Nat.sub_le (n - 1) 1))
  · intro _
    exact declaration htu

end JsxPresence.Reader
