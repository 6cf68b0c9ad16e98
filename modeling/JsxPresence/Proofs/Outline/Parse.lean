import JsxPresence.Outline.Parse
import JsxPresence.Proofs.Outline.Walk

namespace JsxPresence

namespace Reader

variable {text : Bytes} {r : Reader text} {walk : Walk text}

theorem stringLiteral_after (h : r.Ready) : Yields r.stringLiteral fun x => r.After x.2 := by
  unfold stringLiteral
  refine .ite (fun _ => .throw_bind _ _) fun _ => ?_
  exact (advance_after h).bind fun _ hs => .pure hs

theorem moduleName_after (h : r.Ready) : Yields r.moduleName fun x => r.After x.2 := by
  unfold moduleName
  refine .ite (fun _ => ?_) fun _ => .ite (fun _ => stringLiteral_after h) fun _ => .throw _
  exact (advance_after h).bind fun _ hs => .pure hs

theorem passAttributes_after (h : r.Ready) (fuel : Nat) :
    Yields (r.passAttributes fuel) r.After := by
  unfold passAttributes
  refine .ite (fun _ => ?_) fun _ => .pure h.after
  refine (advance_after h).bind fun s hs => ?_
  exact (passGroup_after hs.ready fuel _).mono fun _ => hs.trans

theorem bindingItem_after (h : r.Ready) (typeOnly : Bool) :
    Yields (r.bindingItem typeOnly) fun x => r.After x.2 := by
  have named {s : Reader text} (hs : r.After s) :
      Yields (do
        let x ← s.moduleName
        let y ←
          if x.2.isWord (utf8 "as") then do
            let t ← x.2.advance
            t.moduleName
          else pure x
        return (⟨x.1, y.1, typeOnly || r.marksType, ⟨r.current.span.start, y.2.lastEnd⟩⟩, y.2) :
          Except SyntaxError (BindingItem × Reader text)) fun x => r.After x.2 := by
    refine (moduleName_after hs.ready).bind fun x hx => ?_
    have hx := hs.trans hx
    refine .ite (fun _ => ?_) fun _ => .pure hx
    refine (advance_after hx.ready).bind fun t ht => ?_
    refine (moduleName_after ht.ready).bind fun y hy => .pure ?_
    exact hx.trans (ht.trans hy)
  unfold bindingItem
  exact .ite (fun _ => (advance_after h).bind fun _ hs => named hs) fun _ => named h.after

theorem bindingItems_after (h : r.Ready) (typeOnly : Bool) (fuel : Nat) :
    Yields (bindingItems typeOnly fuel r) fun x => r.After x.2 := by
  induction fuel generalizing r with
  | zero => exact .error _
  | succ fuel ih =>
    refine .ite (fun _ => .pure h.after) fun _ => ?_
    refine (bindingItem_after h typeOnly).bind fun x hx => ?_
    refine .ite (fun _ => ?_) fun _ => .pure hx
    refine (advance_after hx.ready).bind fun s hs => ?_
    refine (ih hs.ready).bind fun y hy => .pure ?_
    exact hx.trans (hs.trans hy)

theorem bindingList_after (h : r.Ready) (list : BindingList) (typeOnly : Bool) (fuel : Nat) :
    Yields (r.bindingList list typeOnly fuel) fun x => r.After x.2 := by
  unfold bindingList
  refine (advance_after h).bind fun s hs => ?_
  refine (bindingItems_after hs.ready typeOnly fuel).bind fun x hx => ?_
  refine .ite (fun _ => .throw_bind _ _) fun _ => ?_
  refine (advance_after hx.ready).bind fun t ht => .pure ?_
  exact hs.trans (hx.trans ht)

theorem moduleItem_after (h : r.Ready) (typeOnly : Bool) :
    Yields (r.moduleItem typeOnly) fun x => r.After x.2 := by
  unfold moduleItem
  refine (advance_after h).bind fun s hs => ?_
  refine .ite (fun _ => .throw_bind _ _) fun _ => ?_
  refine (advance_after hs.ready).bind fun t ht => ?_
  refine .ite (fun _ => .throw_bind _ _) fun _ => ?_
  refine (advance_after ht.ready).bind fun u hu => .pure ?_
  exact hs.trans (ht.trans hu)

theorem importItems_after (h : r.Ready) (typeOnly : Bool) (fuel : Nat) :
    Yields (r.importItems typeOnly fuel) fun x => r.After x.2 := by
  unfold importItems
  refine .ite (fun _ => ?_) fun _ => .ite (fun _ => ?_) fun _ => .pure h.after
  · exact (moduleItem_after h typeOnly).bind fun _ hx => .pure hx
  · exact (bindingList_after h _ typeOnly fuel).bind fun _ hx => .pure hx

theorem importEnd_found (h : r.Ready) (start : Nat) (typeOnly : Bool) (items : List ImportItem)
    (fuel : Nat) : Yields (r.importEnd start typeOnly items fuel) r.Found := by
  unfold importEnd
  refine (stringLiteral_after h).bind fun x hx => ?_
  refine (passAttributes_after hx.ready fuel).bind fun s hs => ?_
  refine (passOver_after hs.ready _).bind fun t ht => .pure ?_
  exact (hx.trans (hs.trans ht)).found rfl rfl

theorem importFrom_found (h : r.Ready) (start : Nat) (typeOnly : Bool) (items : List ImportItem)
    (fuel : Nat) : Yields (r.importFrom start typeOnly items fuel) r.Found := by
  unfold importFrom
  refine .ite (fun _ => .throw_bind _ _) fun _ => ?_
  refine (advance_after h).bind fun s hs => ?_
  refine .ite (fun _ => .throw_bind _ _) fun _ => ?_
  exact (importEnd_found hs.ready start typeOnly items fuel).mono fun _ => hs.trans_found

theorem walkImport_found (hw : walk.Sound) (h : r.Ready) (fuel : Nat) :
    Yields (r.walkImport walk fuel) r.Found := by
  have clause {s : Reader text} (typeOnly : Bool) (hs : r.After s) :
      Yields (do
        if s.is .identifier then
          let name := s.current
          let s ← s.advance
          if s.is .assign then
            let s ← s.advance
            let x ← walk s
            let s ← x.2.passOver .semicolon
            return (x.1, s)
          else
            let first : ImportItem :=
              ⟨.default, utf8 "default", name.lexeme, typeOnly, name.span⟩
            let s ← s.passOver .comma
            let x ← s.importItems typeOnly fuel
            x.2.importFrom r.current.span.start typeOnly (first :: x.1) fuel
        else
          let x ← s.importItems typeOnly fuel
          x.2.importFrom r.current.span.start typeOnly x.1 fuel) r.Found := by
    refine .ite (fun _ => ?_) fun _ => ?_
    · refine (advance_after hs.ready).bind fun t ht => ?_
      have ht := hs.trans ht
      refine .ite (fun _ => ?_) fun _ => ?_
      · refine (advance_after ht.ready).bind fun u hu => ?_
        refine (hw.found hu.ready).bind fun x hx => ?_
        refine (passOver_after hx.ready _).bind fun v hv => .pure ?_
        exact (ht.trans hu).trans_found (hx.trans_after hv)
      · refine (passOver_after ht.ready _).bind fun u hu => ?_
        refine (importItems_after hu.ready typeOnly fuel).bind fun x hx => ?_
        refine (importFrom_found hx.ready _ typeOnly _ fuel).mono fun _ => ?_
        exact (ht.trans (hu.trans hx)).trans_found
    · refine (importItems_after hs.ready typeOnly fuel).bind fun x hx => ?_
      exact (importFrom_found hx.ready _ typeOnly _ fuel).mono fun _ => (hs.trans hx).trans_found
  unfold walkImport
  refine (advance_after h).bind fun s hs => ?_
  refine .ite (fun _ => ?_) fun _ => ?_
  · exact (importEnd_found hs.ready _ _ _ fuel).mono fun _ => hs.trans_found
  · refine .ite (fun _ => ?_) fun _ => clause _ hs
    exact (advance_after hs.ready).bind fun _ ht => clause _ (hs.trans ht)

theorem exportDefaultDeclaration_found (h : r.Ready) (start : Nat) :
    Yields (r.exportDefaultDeclaration start) r.Found := by
  have named {s : Reader text} (kind : DeclarationKind) (hs : r.After s) :
      Yields (do
        if s.is .identifier then
          let name := s.current
          let s ← s.advance
          return (.ofDeclaration ⟨name.lexeme, kind, name.span, none⟩ ++
            localExport name.lexeme (utf8 "default") start name.span.stop, s)
        else return (localExport [] (utf8 "default") start s.lastEnd, s)) r.Found := by
    refine .ite (fun _ => ?_) fun _ => .pure (hs.found rfl rfl)
    exact (advance_after hs.ready).bind fun _ ht => .pure ((hs.trans ht).found rfl rfl)
  have behind {s : Reader text} (kind : DeclarationKind) (hs : r.After s) :
      Yields (do
        let s ← s.advance
        let s ← if kind = .function then s.passOver .star else pure s
        if s.is .identifier then
          let name := s.current
          let s ← s.advance
          return (.ofDeclaration ⟨name.lexeme, kind, name.span, none⟩ ++
            localExport name.lexeme (utf8 "default") start name.span.stop, s)
        else return (localExport [] (utf8 "default") start s.lastEnd, s)) r.Found := by
    refine (advance_after hs.ready).bind fun t ht => ?_
    have ht := hs.trans ht
    refine .ite (fun _ => ?_) fun _ => named kind ht
    exact (passOver_after ht.ready _).bind fun u hu => named kind (ht.trans hu)
  unfold exportDefaultDeclaration
  refine .ite (fun _ => ?_) fun _ => behind _ h.after
  exact (advance_after h).bind fun _ hs => behind _ hs

theorem exportDefault_found (h : r.Ready) (start : Nat) :
    Yields (r.exportDefault start) r.Found := by
  unfold exportDefault
  refine .ite (fun _ => exportDefaultDeclaration_found h start) fun _ => .ite (fun _ => ?_)
    fun _ => .pure (h.after.found rfl rfl)
  refine (advance_after h).bind fun s hs => ?_
  exact (passOver_after hs.ready _).bind fun _ ht => .pure ((hs.trans ht).found rfl rfl)

theorem exportStar_found (h : r.Ready) (start fuel : Nat) :
    Yields (r.exportStar start fuel) r.Found := by
  have source {s : Reader text} (kind : Bytes → ExportKind) (hs : r.After s) :
      Yields (do
        if !s.isWord (utf8 "from") then throw (s.failAt .missingFromAfterStar)
        let s ← s.advance
        let x ← s.stringLiteral
        let s ← x.2.passAttributes fuel
        let stop := s.lastEnd
        let s ← s.passOver .semicolon
        return (.ofExport ⟨kind x.1, false, ⟨start, stop⟩⟩, s)) r.Found := by
    refine .ite (fun _ => .throw_bind _ _) fun _ => ?_
    refine (advance_after hs.ready).bind fun t ht => ?_
    refine (stringLiteral_after ht.ready).bind fun x hx => ?_
    refine (passAttributes_after hx.ready fuel).bind fun u hu => ?_
    refine (passOver_after hu.ready _).bind fun v hv => .pure ?_
    exact (hs.trans (ht.trans (hx.trans (hu.trans hv)))).found rfl rfl
  unfold exportStar
  refine (advance_after h).bind fun s hs => ?_
  refine .ite (fun _ => ?_) fun _ => source .allFrom hs
  refine (advance_after hs.ready).bind fun t ht => ?_
  refine (moduleName_after ht.ready).bind fun x hx => ?_
  exact source (.moduleFrom x.1) (hs.trans (ht.trans hx))

theorem exportList_found (h : r.Ready) (start : Nat) (typeOnly : Bool) (fuel : Nat) :
    Yields (r.exportList start typeOnly fuel) r.Found := by
  unfold exportList
  refine (bindingList_after h _ typeOnly fuel).bind fun x hx => ?_
  refine .ite (fun _ => ?_) fun _ => ?_
  · refine (advance_after hx.ready).bind fun s hs => ?_
    refine (stringLiteral_after hs.ready).bind fun y hy => ?_
    refine (passAttributes_after hy.ready fuel).bind fun t ht => ?_
    refine (passOver_after ht.ready _).bind fun u hu => .pure ?_
    exact (hx.trans (hs.trans (hy.trans (ht.trans hu)))).found rfl rfl
  · exact (passOver_after hx.ready _).bind fun u hu => .pure ((hx.trans hu).found rfl rfl)

theorem passType_after (h : r.Ready) (angle fuel : Nat) :
    Yields (passType angle fuel r) r.After := by
  induction fuel generalizing r angle with
  | zero => exact .error _
  | succ fuel ih =>
    refine .ite (fun _ => .pure h.after) fun _ => .ite (fun _ => .pure h.after) fun _ =>
      .ite (fun _ => ?_) fun _ => .ite (fun _ => .pure h.after) fun _ => ?_
    · refine (passGroup_after h fuel _).bind fun s hs => ?_
      exact (ih hs.ready angle).mono fun _ => hs.trans
    · refine (advance_after h).bind fun s hs => ?_
      exact (ih hs.ready _).mono fun _ => hs.trans

theorem passTyping_after (h : r.Ready) (fuel : Nat) : Yields (r.passTyping fuel) r.After := by
  unfold passTyping
  refine .ite (fun _ => ?_) fun _ => .pure h.after
  refine (advance_after h).bind fun s hs => ?_
  exact (passType_after hs.ready 0 fuel).mono fun _ => hs.trans

theorem walkInitializer_found (hw : walk.Sound) (h : r.Ready) (fuel : Nat) :
    Yields (walkInitializer walk fuel r) r.Found := by
  induction fuel generalizing r with
  | zero => exact .error _
  | succ fuel ih =>
    refine .ite (fun _ => .pure h.after.found_empty) fun _ => ?_
    refine (hw.found h).bind fun x hx => ?_
    exact (ih hx.ready).bind fun y hy => .pure (hx.append hy)

theorem propertyValue_found (hw : walk.Sound) (h : r.Ready) (fuel start : Nat) (key : Bytes) :
    Yields (r.propertyValue walk fuel start key) fun x => r.Found x.2 := by
  have other : Yields (do
      let x ← r.walkUntil walk endsProperty fuel
      return ([⟨key, [], ⟨start, x.2.lastEnd⟩⟩], x) :
        Except SyntaxError (List Property × Outline × Reader text)) fun x => r.Found x.2 :=
    (walkUntil_found hw _ fuel h).bind fun _ hx => .pure hx
  unfold propertyValue
  refine .ite (fun _ => ?_) fun _ => other
  split
  · rename_i path last hd
    refine .ite (fun _ => .pure ?_) fun _ => other
    have ha := dottedPath_after h fuel
    rw [hd] at ha
    exact ha.found_empty
  · exact other

theorem property_found (hw : walk.Sound) (h : r.Ready) (fuel : Nat) :
    Yields (r.property walk fuel) fun x => r.Found x.2 := by
  have skip {s : Reader text} (hs : r.After s) : Yields (do
      let x ← s.walkUntil walk endsProperty fuel
      return ([], x) : Except SyntaxError (List Property × Outline × Reader text))
      fun x => r.Found x.2 :=
    (walkUntil_found hw _ fuel hs.ready).bind fun _ hx => .pure (hs.trans_found hx)
  unfold property
  refine .ite (fun _ => ?_) fun _ => skip h.after
  refine (advance_after h).bind fun s hs => ?_
  refine .ite (fun _ => ?_) fun _ => .ite (fun _ => .pure hs.found_empty) fun _ => skip hs
  refine (advance_after hs.ready).bind fun t ht => ?_
  exact (propertyValue_found hw ht.ready fuel _ _).mono fun _ => (hs.trans ht).trans_found

theorem properties_found (hw : walk.Sound) (h : r.Ready) (fuel : Nat) :
    Yields (properties walk fuel r) fun x => r.Found x.2 := by
  induction fuel generalizing r with
  | zero => exact .error _
  | succ fuel ih =>
    refine .ite (fun _ => .pure h.after.found_empty) fun _ => ?_
    refine (property_found hw h fuel).bind fun x hx => ?_
    refine .ite (fun _ => ?_) fun _ => .pure hx
    refine (advance_after hx.ready).bind fun s hs => ?_
    refine (ih hs.ready).bind fun y hy => .pure ?_
    exact (hx.trans_after hs).append hy

theorem objectLiteral_found (hw : walk.Sound) (h : r.Ready) (fuel : Nat) :
    Yields (r.objectLiteral walk fuel) fun x => r.Found x.2 := by
  unfold objectLiteral
  refine (advance_after h).bind fun s hs => ?_
  refine (properties_found hw hs.ready fuel).bind fun x hx => ?_
  refine .ite (fun _ => .throw_bind _ _) fun _ => ?_
  refine (advance_after hx.ready).bind fun t ht => .pure ?_
  exact hs.trans_found (hx.trans_after ht)

theorem initializer_found (hw : walk.Sound) (h : r.Ready) (fuel : Nat) :
    Yields (r.initializer walk fuel) fun x => r.Found x.2 := by
  unfold initializer
  refine .ite (fun _ => ?_) fun _ => .pure h.after.found_empty
  refine (advance_after h).bind fun s hs => .ite (fun _ => ?_) fun _ => ?_
  · refine (objectLiteral_found hw hs.ready fuel).bind fun x hx => ?_
    refine (walkInitializer_found hw hx.ready fuel).bind fun y hy => .pure ?_
    exact hs.trans_found (hx.append hy)
  · refine (walkInitializer_found hw hs.ready fuel).bind fun y hy => .pure ?_
    exact hs.trans_found hy

/-- The export that stands beside a declaration, if it is exported. -/
theorem exported_unplaced (exportStart : Option Nat) (name : Token) :
    (match exportStart with
      | some start => localExport name.lexeme name.lexeme start name.span.stop
      | none => .empty : Outline).calls = [] ∧
    (match exportStart with
      | some start => localExport name.lexeme name.lexeme start name.span.stop
      | none => .empty : Outline).elements = [] := by
  cases exportStart <;> exact ⟨rfl, rfl⟩

theorem declarator_found (hw : walk.Sound) (h : r.Ready) (fuel : Nat) (kind : DeclarationKind)
    (exportStart : Option Nat) : Yields (r.declarator walk fuel kind exportStart) r.Found := by
  unfold declarator
  refine (advance_after h).bind fun s hs => ?_
  refine (passOver_after hs.ready _).bind fun t ht => ?_
  refine (passTyping_after ht.ready fuel).bind fun u hu => ?_
  refine (initializer_found hw hu.ready fuel).bind fun x hx => .pure ?_
  have hx := (hs.trans (ht.trans hu)).trans_found hx
  have he := exported_unplaced exportStart r.current
  exact (hx.append_unplaced he.1 he.2).append_unplaced rfl rfl

theorem pattern_found (hw : walk.Sound) (h : r.Ready) (fuel : Nat) :
    Yields (r.pattern walk fuel) r.Found := by
  unfold pattern
  refine (walkGroup_found hw fuel h).bind fun x hx => ?_
  refine (passTyping_after hx.ready fuel).bind fun s hs => ?_
  have hx := hx.trans_after hs
  refine .ite (fun _ => ?_) fun _ => .pure hx
  refine (advance_after hs.ready).bind fun t ht => ?_
  refine (walkInitializer_found hw ht.ready fuel).bind fun y hy => .pure ?_
  exact (hx.trans_after ht).append hy

theorem declarators_found (hw : walk.Sound) (h : r.Ready) (kind : DeclarationKind)
    (exportStart : Option Nat) (fuel : Nat) :
    Yields (declarators walk kind exportStart fuel r) r.Found := by
  induction fuel generalizing r with
  | zero => exact .error _
  | succ fuel ih =>
    have more {x : Outline × Reader text} (hx : r.Found x) :
        Yields (do
          if x.2.is .comma then
            let s ← x.2.advance
            let y ← declarators walk kind exportStart fuel s
            return (x.1 ++ y.1, y.2)
          else
            let s ← x.2.passOver .semicolon
            return (x.1, s)) r.Found := by
      refine .ite (fun _ => ?_) fun _ => ?_
      · refine (advance_after hx.ready).bind fun s hs => ?_
        exact (ih hs.ready).bind fun y hy => .pure ((hx.trans_after hs).append hy)
      · exact (passOver_after hx.ready _).bind fun s hs => .pure (hx.trans_after hs)
    refine .ite (fun _ => .ite (fun _ => ?_) fun _ => ?_) fun _ => .pure h.after.found_empty
    · exact (declarator_found hw h fuel kind exportStart).bind fun _ hx => more hx
    · exact (pattern_found hw h fuel).bind fun _ hx => more hx

theorem functionOrClass_found (h : r.Ready) (exportStart : Option Nat) :
    Yields (r.functionOrClass exportStart) r.Found := by
  have named {s : Reader text} (kind : DeclarationKind) (hs : r.After s) :
      Yields (do
        if s.is .identifier then
          let name := s.current
          let s ← s.advance
          let exported :=
            match exportStart with
            | some start => localExport name.lexeme name.lexeme start name.span.stop
            | none => .empty
          return (exported ++ .ofDeclaration ⟨name.lexeme, kind, name.span, none⟩, s)
        else return (.empty, s)) r.Found := by
    refine .ite (fun _ => ?_) fun _ => .pure hs.found_empty
    refine (advance_after hs.ready).bind fun t ht => .pure ?_
    have he := exported_unplaced exportStart s.current
    exact ((hs.trans ht).found he.1 he.2).append_unplaced rfl rfl
  unfold functionOrClass
  refine (advance_after h).bind fun s hs => .ite (fun _ => ?_) fun _ => named _ hs
  exact (passOver_after hs.ready _).bind fun _ ht => named _ (hs.trans ht)

theorem walkDeclaration_found (hw : walk.Sound) (h : r.Ready) (fuel : Nat)
    (exportStart : Option Nat) : Yields (r.walkDeclaration walk fuel exportStart) r.Found := by
  have behind {s : Reader text} (hs : r.After s) :
      Yields (do
        if s.atFunctionOrClass then s.functionOrClass exportStart
        else
          let kind : DeclarationKind :=
            if s.isKeyword (utf8 "let") then .let
            else if s.isKeyword (utf8 "var") then .var
            else .const
          let s ← s.advance
          declarators walk kind exportStart fuel s) r.Found := by
    refine .ite (fun _ => ?_) fun _ => ?_
    · exact (functionOrClass_found hs.ready exportStart).mono fun _ => hs.trans_found
    · refine (advance_after hs.ready).bind fun t ht => ?_
      exact (declarators_found hw ht.ready _ exportStart fuel).mono fun _ => (hs.trans ht).trans_found
  unfold walkDeclaration
  refine .ite (fun _ => ?_) fun _ => behind h.after
  exact (advance_after h).bind fun _ hs => behind hs

theorem exportEnum_found (h : r.Ready) (start : Nat) : Yields (r.exportEnum start) r.Found := by
  unfold exportEnum
  refine (advance_after h).bind fun s hs => .ite (fun _ => ?_) fun _ => .pure hs.found_empty
  exact (advance_after hs.ready).bind fun _ ht => .pure ((hs.trans ht).found rfl rfl)

theorem walkExport_found (hw : walk.Sound) (h : r.Ready) (fuel : Nat) :
    Yields (r.walkExport walk fuel) r.Found := by
  have declaration {s : Reader text} (hs : r.After s) :
      Yields (do
        if s.isKeyword (utf8 "enum") then s.exportEnum r.current.span.start
        else if s.atVariableKeyword || s.atFunctionOrClass || s.atAsyncFunction then
          s.walkDeclaration walk fuel (some r.current.span.start)
        else return (.empty, s)) r.Found := by
    refine .ite (fun _ => ?_) fun _ => .ite (fun _ => ?_) fun _ => .pure hs.found_empty
    · exact (exportEnum_found hs.ready _).mono fun _ => hs.trans_found
    · exact (walkDeclaration_found hw hs.ready fuel _).mono fun _ => hs.trans_found
  unfold walkExport
  refine (advance_after h).bind fun s hs => ?_
  refine .ite (fun _ => ?_) fun _ => .ite (fun _ => ?_) fun _ => .ite (fun _ => ?_) fun _ =>
    .ite (fun _ => ?_) fun _ => .ite (fun _ => ?_) fun _ => declaration hs
  · refine (advance_after hs.ready).bind fun t ht => ?_
    exact (exportDefault_found ht.ready _).mono fun _ => (hs.trans ht).trans_found
  · exact (exportStar_found hs.ready _ fuel).mono fun _ => hs.trans_found
  · exact (exportList_found hs.ready _ _ fuel).mono fun _ => hs.trans_found
  · refine (advance_after hs.ready).bind fun t ht => ?_
    exact (exportList_found ht.ready _ _ fuel).mono fun _ => (hs.trans ht).trans_found
  · exact (advance_after hs.ready).bind fun _ ht => declaration (hs.trans ht)

theorem walkItem_found (hw : walk.Sound) (h : r.Ready) (fuel : Nat) :
    Yields (r.walkItem walk fuel) r.Found := by
  unfold walkItem
  refine .ite (fun _ => ?_) fun _ => .ite (fun _ => ?_) fun _ => .ite (fun _ => ?_) fun _ => ?_
  · exact walkImport_found hw h fuel
  · exact walkExport_found hw h fuel
  · exact walkDeclaration_found hw h fuel none
  · exact hw.found h

theorem walkItems_found (hw : walk.Sound) (h : r.Ready) (fuel : Nat) :
    Yields (walkItems walk fuel r) r.Found := by
  induction fuel generalizing r with
  | zero => exact .error _
  | succ fuel ih =>
    refine .ite (fun _ => .pure h.after.found_empty) fun _ => ?_
    refine (walkItem_found hw h fuel).bind fun x hx => ?_
    exact (ih hx.ready).bind fun y hy => .pure (hx.append hy)

end Reader

namespace Outline

theorem read_sound (elements : Bool) (text : Bytes) :
    Yields (read elements text) fun x => x.1.Sound text 0 text.length := by
  unfold read
  refine ((Reader.start text).checked_yields).bind fun r hr => ?_
  subst hr
  have hw : (Reader.walk elements (stepBound text) : Walk text).Sound :=
    Reader.walk_sound elements (stepBound text)
  refine (Reader.walkItems_found hw (Reader.start_ready text) _).bind fun x hx => .pure ?_
  refine hx.sound.mono fun hs => ⟨Nat.zero_le _, ?_⟩
  have h1 := hx.ready.lastEnd_le hs
  have h2 := hx.ready.placed hs
  exact h1.trans (h2.le.trans h2.le_length)

/-- The outline of a file is sound in its text. -/
theorem parse_sound {s : Source} {o : Outline} (h : parse s = .ok o) :
    o.Sound s.content 0 s.content.length := by
  unfold parse at h
  split at h
  · cases h
  · rename_i outline hr
    cases h
    exact read_sound _ _ _ hr
  · cases h

end Outline

end JsxPresence
