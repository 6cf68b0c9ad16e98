import JsxPresence.Outline.Parse
import JsxPresence.Proofs.Outline.Course

namespace JsxPresence

/-- The walk leaves the open brackets as they are. -/
def Walk.Passes {text : Bytes} (walk : Walk text) : Prop :=
  ∀ r, Yields (walk r) fun x => r.Passes x.2

theorem Walk.Passes.free {text : Bytes} {walk : Walk text} (h : walk.Passes) :
    walk.PassesFree false :=
  fun r => (h r).mono fun _ hx _ => hx

theorem Walk.PassesFree.passes {text : Bytes} {walk : Walk text} (h : walk.PassesFree false) :
    walk.Passes :=
  fun r => (h r).mono fun x hx => hx x.1.free_false

namespace Reader

variable {text : Bytes} {r s t : Reader text} {walk : Walk text}

theorem walkUntil_passes (hw : walk.Passes) (stop : Kind → Bool) (fuel : Nat) :
    Yields (walkUntil walk stop fuel r) fun x => r.Passes x.2 :=
  (walkUntil_passesFree hw.free stop fuel).mono fun x hx => hx x.1.free_false

theorem walkGroup_passes (hw : walk.Passes) (fuel : Nat) (ho : r.current.kind.isOpener = true) :
    Yields (walkGroup walk fuel r) fun x => r.Passes x.2 :=
  (walkGroup_passesFree hw.free fuel ho).mono fun x hx => hx x.1.free_false

/-- Without elements every unit leaves the open brackets as they are. -/
theorem walk_passes (fuel : Nat) : Walk.Passes (Reader.walk false fuel : Walk text) := by
  induction fuel with
  | zero => exact fun _ => .error _
  | succ fuel ih =>
    exact (walkUnit_passesFree ih.free (fun h => absurd h Bool.false_ne_true) fuel).passes

theorem stringLiteral_passes : Yields r.stringLiteral fun x => r.Passes x.2 := by
  unfold stringLiteral
  refine .ite (fun _ => .throw_bind _ _) fun h => ?_
  have hstring : r.is .string = true := by simpa using h
  exact (advance_passes (loose_of_is hstring ⟨rfl, rfl⟩)).bind fun _ hs => .pure hs

theorem moduleName_passes : Yields r.moduleName fun x => r.Passes x.2 := by
  unfold moduleName
  refine .ite (fun hname => ?_) fun _ => .ite (fun _ => stringLiteral_passes) fun _ => .throw _
  exact (advance_passes (loose_of_isName hname)).bind fun _ hs => .pure hs

theorem passAttributes_passes (fuel : Nat) : Yields (r.passAttributes fuel) r.Passes := by
  unfold passAttributes
  refine .ite (fun h => ?_) fun _ => .pure (.refl r)
  have hloose : r.Loose := by
    rcases Bool.or_eq_true_iff.1 (Bool.and_eq_true_iff.1 h).1 with h | h
    · exact loose_of_isKeyword h
    · exact loose_of_isWord h
  refine (advance_passes hloose).bind fun s hs => ?_
  exact (passGroup_passes _).mono fun _ ht => hs.trans ht

theorem bindingItem_passes (typeOnly : Bool) :
    Yields (r.bindingItem typeOnly) fun x => r.Passes x.2 := by
  unfold bindingItem
  extract_lets start marked rest
  have named {s : Reader text} (hs : r.Passes s) : Yields (rest s) fun x => r.Passes x.2 := by
    refine moduleName_passes.bind fun x hx => ?_
    refine .ite (fun has => ?_) fun _ => .pure (hs.trans hx)
    refine (advance_passes (loose_of_isWord has)).bind fun t ht => ?_
    refine moduleName_passes.bind fun y hy => .pure ?_
    exact ((hs.trans hx).trans ht).trans hy
  refine .ite (fun hmarked => ?_) fun _ => named (.refl r)
  have htype : r.isWord (utf8 "type") = true := (Bool.and_eq_true_iff.1 hmarked).1
  exact (advance_passes (loose_of_isWord htype)).bind fun _ hs => named hs

theorem bindingItems_passes (typeOnly : Bool) (fuel : Nat) :
    Yields (bindingItems typeOnly fuel r) fun x => r.Passes x.2 := by
  induction fuel generalizing r with
  | zero => exact .error _
  | succ fuel ih =>
    refine .ite (fun _ => .pure (.refl r)) fun _ => ?_
    refine (bindingItem_passes typeOnly).bind fun x hx => ?_
    refine .ite (fun hcomma => ?_) fun _ => .pure hx
    refine (advance_passes (loose_of_is hcomma ⟨rfl, rfl⟩)).bind fun s hs => ?_
    exact ih.bind fun y hy => .pure ((hx.trans hs).trans hy)

theorem bindingList_passes (list : BindingList) (typeOnly : Bool) (fuel : Nat)
    (hb : r.is .openBrace = true) :
    Yields (r.bindingList list typeOnly fuel) fun x => r.Passes x.2 := by
  unfold bindingList
  refine r.advance_yields.bind fun s hs => ?_
  refine (bindingItems_passes typeOnly fuel).bind fun x hx => ?_
  refine .ite (fun _ => .throw_bind _ _) fun hc => ?_
  rw [hs] at hx
  exact (advance_closes hb rfl hx hc).bind fun t ht => .pure ht

theorem moduleItem_passes (typeOnly : Bool) (hstar : r.is .star = true) :
    Yields (r.moduleItem typeOnly) fun x => r.Passes x.2 := by
  unfold moduleItem
  refine (advance_passes (loose_of_is hstar ⟨rfl, rfl⟩)).bind fun s hs => ?_
  refine .ite (fun _ => .throw_bind _ _) fun has => ?_
  have has : s.isWord (utf8 "as") = true := by simpa using has
  refine (advance_passes (loose_of_isWord has)).bind fun t ht => ?_
  refine .ite (fun _ => .throw_bind _ _) fun hname => ?_
  have hname : t.is .identifier = true := by simpa using hname
  refine (advance_passes (loose_of_is hname ⟨rfl, rfl⟩)).bind fun u hu => .pure ?_
  exact (hs.trans ht).trans hu

theorem importItems_passes (typeOnly : Bool) (fuel : Nat) :
    Yields (r.importItems typeOnly fuel) fun x => r.Passes x.2 := by
  unfold importItems
  refine .ite (fun hstar => ?_) fun _ => .ite (fun hbrace => ?_) fun _ => .pure (.refl r)
  · exact (moduleItem_passes typeOnly hstar).bind fun _ hx => .pure hx
  · exact (bindingList_passes _ typeOnly fuel hbrace).bind fun _ hx => .pure hx

theorem importEnd_passes (start : Nat) (typeOnly : Bool) (items : List ImportItem) (fuel : Nat) :
    Yields (r.importEnd start typeOnly items fuel) fun x => r.Passes x.2 := by
  unfold importEnd
  refine stringLiteral_passes.bind fun x hx => ?_
  refine (passAttributes_passes fuel).bind fun s hs => ?_
  refine (passOver_passes .semicolon ⟨rfl, rfl⟩).bind fun t ht => .pure ?_
  exact (hx.trans hs).trans ht

theorem importFrom_passes (start : Nat) (typeOnly : Bool) (items : List ImportItem) (fuel : Nat) :
    Yields (r.importFrom start typeOnly items fuel) fun x => r.Passes x.2 := by
  unfold importFrom
  refine .ite (fun _ => .throw_bind _ _) fun hfrom => ?_
  have hfrom : r.isWord (utf8 "from") = true := by simpa using hfrom
  refine (advance_passes (loose_of_isWord hfrom)).bind fun s hs => ?_
  refine .ite (fun _ => .throw_bind _ _) fun _ => ?_
  exact (importEnd_passes start typeOnly items fuel).mono fun _ hx => hs.trans hx

theorem walkImport_passes (hw : walk.Passes) (fuel : Nat) (himport : r.atImport = true) :
    Yields (r.walkImport walk fuel) fun x => r.Passes x.2 := by
  have hkeyword := (Bool.and_eq_true_iff.1 himport).1
  unfold walkImport
  extract_lets start
  refine (advance_passes (loose_of_isKeyword hkeyword)).bind fun s hs => ?_
  refine .ite (fun _ => ?_) fun _ => ?_
  · exact (importEnd_passes start false [] fuel).mono fun _ hx => hs.trans hx
  extract_lets typeOnly rest
  have clause {t : Reader text} (ht : r.Passes t) : Yields (rest t) fun x => r.Passes x.2 := by
    refine .ite (fun hname => ?_) fun _ => ?_
    · refine (advance_passes (loose_of_is hname ⟨rfl, rfl⟩)).bind fun u hu => ?_
      refine .ite (fun hassign => ?_) fun _ => ?_
      · refine (advance_passes (loose_of_is hassign ⟨rfl, rfl⟩)).bind fun v hv => ?_
        refine (hw v).bind fun x hx => ?_
        refine (passOver_passes .semicolon ⟨rfl, rfl⟩).bind fun w hw => .pure ?_
        exact (((ht.trans hu).trans hv).trans hx).trans hw
      · refine (passOver_passes .comma ⟨rfl, rfl⟩).bind fun v hv => ?_
        refine (importItems_passes typeOnly fuel).bind fun x hx => ?_
        refine (importFrom_passes start typeOnly _ fuel).mono fun y hy => ?_
        exact (((ht.trans hu).trans hv).trans hx).trans hy
    · refine (importItems_passes typeOnly fuel).bind fun x hx => ?_
      refine (importFrom_passes start typeOnly _ fuel).mono fun y hy => ?_
      exact (ht.trans hx).trans hy
  refine .ite (fun hmarked => ?_) fun _ => clause hs
  have htype : s.isWord (utf8 "type") = true := (Bool.and_eq_true_iff.1 hmarked).1
  exact (advance_passes (loose_of_isWord htype)).bind fun t ht => clause (hs.trans ht)

/-- Where a function or class is declared, `async` left aside, its keyword stands. -/
theorem exportDefaultDeclaration_passes (start : Nat)
    (h : r.atAsyncFunction = false → r.isKeyword (utf8 "function") = true ∨
      r.isKeyword (utf8 "class") = true) :
    Yields (r.exportDefaultDeclaration start) fun x => r.Passes x.2 := by
  unfold exportDefaultDeclaration
  extract_lets kind tail rest
  have named {s : Reader text} (hs : r.Passes s) : Yields (tail s) fun x => r.Passes x.2 := by
    refine .ite (fun hname => ?_) fun _ => .pure hs
    refine (advance_passes (loose_of_is hname ⟨rfl, rfl⟩)).bind fun t ht => .pure ?_
    exact hs.trans ht
  have behind {s : Reader text} (hs : r.Passes s) (hl : s.Loose) :
      Yields (rest s) fun x => r.Passes x.2 := by
    refine (advance_passes hl).bind fun t ht => ?_
    refine .ite (fun _ => ?_) fun _ => named (hs.trans ht)
    exact (passOver_passes .star ⟨rfl, rfl⟩).bind fun u hu => named ((hs.trans ht).trans hu)
  refine .ite (fun hasync => ?_) fun hasync => ?_
  · obtain ⟨hword, hfunction⟩ := Bool.and_eq_true_iff.1 hasync
    refine r.advance_yields.bind fun s hs => ?_
    rw [hs]
    exact behind (step_passes (loose_of_isWord hword)) (loose_of_isKeyword hfunction)
  · rcases h (by simpa using hasync) with hk | hk
    · exact behind (.refl r) (loose_of_isKeyword hk)
    · exact behind (.refl r) (loose_of_isKeyword hk)

theorem exportDefault_passes (start : Nat) :
    Yields (r.exportDefault start) fun x => r.Passes x.2 := by
  unfold exportDefault
  refine .ite (fun h => ?_) fun _ => .ite (fun hbare => ?_) fun _ => .pure (.refl r)
  · apply exportDefaultDeclaration_passes
    intro hasync
    simpa [hasync] using h
  · have hname : r.is .identifier = true := (Bool.and_eq_true_iff.1 hbare).1
    refine (advance_passes (loose_of_is hname ⟨rfl, rfl⟩)).bind fun s hs => ?_
    exact (passOver_passes .semicolon ⟨rfl, rfl⟩).bind fun t ht => .pure (hs.trans ht)

theorem exportStar_passes (start fuel : Nat) (hstar : r.is .star = true) :
    Yields (r.exportStar start fuel) fun x => r.Passes x.2 := by
  unfold exportStar
  refine (advance_passes (loose_of_is hstar ⟨rfl, rfl⟩)).bind fun s hs => ?_
  extract_lets rest
  have source {x : Option Bytes × Reader text} (hx : r.Passes x.2) :
      Yields (rest x) fun y => r.Passes y.2 := by
    refine .ite (fun _ => .throw_bind _ _) fun hfrom => ?_
    have hfrom : x.2.isWord (utf8 "from") = true := by simpa using hfrom
    refine (advance_passes (loose_of_isWord hfrom)).bind fun t ht => ?_
    refine stringLiteral_passes.bind fun y hy => ?_
    refine (passAttributes_passes fuel).bind fun u hu => ?_
    refine (passOver_passes .semicolon ⟨rfl, rfl⟩).bind fun v hv => .pure ?_
    exact (((hx.trans ht).trans hy).trans hu).trans hv
  refine .ite (fun has => ?_) fun _ => source (x := (none, s)) hs
  refine (advance_passes (loose_of_isWord has)).bind fun t ht => ?_
  refine moduleName_passes.bind fun x hx => ?_
  exact source (x := (some x.1, x.2)) ((hs.trans ht).trans hx)

theorem exportList_passes (start : Nat) (typeOnly : Bool) (fuel : Nat)
    (hb : r.is .openBrace = true) :
    Yields (r.exportList start typeOnly fuel) fun x => r.Passes x.2 := by
  unfold exportList
  refine (bindingList_passes _ typeOnly fuel hb).bind fun x hx => ?_
  refine .ite (fun hfrom => ?_) fun _ => ?_
  · refine (advance_passes (loose_of_isWord hfrom)).bind fun s hs => ?_
    refine stringLiteral_passes.bind fun y hy => ?_
    refine (passAttributes_passes fuel).bind fun t ht => ?_
    refine (passOver_passes .semicolon ⟨rfl, rfl⟩).bind fun u hu => .pure ?_
    exact (((hx.trans hs).trans hy).trans ht).trans hu
  · refine (passOver_passes .semicolon ⟨rfl, rfl⟩).bind fun u hu => .pure ?_
    exact hx.trans hu

end Reader

end JsxPresence
