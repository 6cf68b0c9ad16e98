import JsxPresence.Proofs.Outline.Passing
import JsxPresence.Proofs.Token.Outside
import JsxPresence.Proofs.Token.Partition

namespace JsxPresence

namespace Reader

variable {text : Bytes} {r s t : Reader text} {walk : Walk text} {strays : Bool}

/-- Where blanks and then `function` follow, a name follows. -/
theorem isName_of_functionFollows (hshort : text.Short) (hr : r.Ready) (he : r.atEnd = false)
    (h : r.functionFollows = true) : r.step.current.isName = true := by
  have hlexer : text.drop r.current.span.stop = r.lexer.rest := by
    rw [r.lexer.rest_eq, hr.pos_eq hshort]
  rw [functionFollows, hlexer] at h
  obtain ⟨behind, hbehind⟩ := List.isPrefixOf_iff_prefix.1 h
  obtain ⟨after, hafter⟩ : ∃ after, utf8 "function" ++ behind = byte 'f' :: after := ⟨_, rfl⟩
  have hblanks : ∀ b ∈ r.lexer.rest.takeWhile (fun b => b = byte ' ' || b = byte '\t'),
      Trivia.isBlank b = true := by
    intro b hb
    have hb := List.mem_takeWhile_imp hb
    simp only [Bool.or_eq_true, decide_eq_true_eq] at hb
    rcases hb with rfl | rfl <;> decide
  have hbare : Bytes.StartsBare (byte 'f' :: after) := ⟨by decide, by decide, by decide⟩
  have hrest : r.lexer.ahead.rest = byte 'f' :: after := by
    rw [Lexer.ahead_rest, Trivia.scan]
    rw [← List.takeWhile_append_dropWhile (p := fun b => b = byte ' ' || b = byte '\t')
      (l := r.lexer.rest), ← hbehind, hafter, Trivia.scanFrom_blanks hblanks hbare]
    simp
  have hscan (regexAllowed : Bool) (depths : List Nat) :
      Lexer.Scan.token regexAllowed depths (byte 'f') after =
        Lexer.Scan.name depths (byte 'f') after := if_pos rfl
  have hnext := (Lexer.next_of_rest_cons hrest).1
  rw [hscan] at hnext
  have hkind : r.step.current.kind = .keyword ∨ r.step.current.kind = .identifier := by
    rw [step_of_not_atEnd he, hnext]
    exact ite_eq_or_eq _ _ _
  rcases hkind with hkind | hkind <;> simp [Token.isName, hkind]

/-- Closing brackets may stray, or no `<` ahead stands as in a type annotation. -/
def Lenient (strays : Bool) (r : Reader text) : Prop :=
  strays = true ∨ ¬Kind.Annotates (r.tokens.map Token.kind)

/-- Nothing is open before and nothing behind. -/
def Clears (r s : Reader text) : Prop := ∀ strays, r.Lenient strays → r.Course strays s [] []

theorem Course.lenient {before after : List Kind} (h : r.Course strays s before after)
    (hr : r.Lenient strays) : s.Lenient strays := by
  obtain ⟨passed, htokens, -⟩ := h.settles
  refine Or.imp_right (fun hnone => ?_) hr
  rintro ⟨front, between, rest, hkinds, hbetween⟩
  refine hnone ⟨passed.map Token.kind ++ front, between, rest, ?_, hbetween⟩
  rw [htokens, List.map_append, hkinds, List.append_assoc]

/-- A `<` behind a colon stands as in a type annotation. -/
theorem Course.annotates (hcolon : r.is .colon = true) (h : r.step.Course false s [] [])
    (hless : s.current.kind = .less) : Kind.Annotates (r.tokens.map Token.kind) := by
  obtain ⟨passed, htokens, -, hsettled⟩ := h.settles
  have hkind : r.current.kind = .colon := of_decide_eq_true hcolon
  have hr : r.atEnd = false := by simp [atEnd, is, hkind]
  have hs : s.atEnd = false := by simp [atEnd, is, hless]
  refine ⟨[], passed.map Token.kind, s.step.tokens.map Token.kind, ?_, hsettled⟩
  rw [tokens_of_not_atEnd hr, htokens, tokens_of_not_atEnd hs]
  simp [hkind, hless]

theorem Clears.trans (h : r.Clears s) (k : s.Clears t) : r.Clears t := by
  intro strays hr
  have hcourse := h strays hr
  exact hcourse.trans (k strays (hcourse.lenient hr))

theorem Passes.clears (h : r.Passes s) : r.Clears s := fun strays _ => h strays []

theorem Clears.refl (r : Reader text) : r.Clears r := (Passes.refl r).clears

theorem Clears.ready (h : r.Clears s) (hr : r.Ready) : s.Ready := by
  obtain ⟨passed, -, hsteps, -⟩ := (h true (.inl rfl)).settles
  rw [hsteps]
  exact Function.Iterate.rec Ready hr (fun _ ht => (step_after ht).ready) _

/-- Inside angles a closing bracket is no end, so it is passed over; outside it is. -/
theorem passType_course {angle : Nat} (fuel : Nat) (hcolon : r.is .colon = true)
    (hr : r.Lenient strays) (hs : r.step.Course strays s [] [])
    (hangle : strays = true ∨ angle = 0) :
    Yields (passType angle fuel s) fun t => r.step.Course strays t [] [] := by
  induction fuel generalizing s angle with
  | zero => exact .error _
  | succ fuel ih =>
    unfold passType
    extract_lets kind opening inner
    refine .ite (fun _ => .pure hs) fun _ => ?_
    refine .ite (fun _ => .pure hs) fun hstop => ?_
    refine .ite (fun _ => ?_) fun hopener => ?_
    · exact (passGroup_passes _).bind fun t ht => ih (hs.trans (ht strays [])) hangle
    refine .ite (fun _ => .pure hs) fun _ => ?_
    have ho : s.current.kind.isOpener = false := by simpa using hopener
    have hstep : s.Course strays s.step [] [] := by
      apply step_course
      rcases hangle with rfl | rfl
      · exact Kind.settle_stray ho
      · have hc : s.current.kind.isCloser = false := by
          simp only [decide_true, Bool.true_and, Bool.or_eq_true, not_or] at hstop
          simpa using hstop.2
        exact Kind.settle_loose ho hc
    have hinner : strays = true ∨ inner = 0 := by
      rcases hr with hstrays | hnone
      · exact .inl hstrays
      · cases strays with
        | true => exact .inl rfl
        | false =>
          have hkind : s.current.kind ≠ .less := fun hless => hnone (hs.annotates hcolon hless)
          exact hangle.imp_right fun hangle => by simp [inner, kind, hkind, hangle]
    refine s.advance_yields.bind fun t ht => ?_
    rw [ht]
    exact ih (hs.trans hstep) hinner

theorem passTyping_clears (fuel : Nat) : Yields (r.passTyping fuel) r.Clears := by
  refine .ite (fun hcolon => ?_) fun _ => .pure (.refl r)
  refine r.advance_yields.bind fun s hs => ?_
  rw [hs]
  intro t ht strays hr
  have hpasses : r.Passes r.step := step_passes (loose_of_is hcolon ⟨rfl, rfl⟩)
  exact (hpasses strays []).trans
    (passType_course fuel hcolon hr (Passes.refl r.step strays []) (.inr rfl) t ht)

theorem walkInitializer_passes (hw : walk.Passes) (fuel : Nat) :
    Yields (walkInitializer walk fuel r) fun x => r.Passes x.2 := by
  induction fuel generalizing r with
  | zero => exact .error _
  | succ fuel ih =>
    refine .ite (fun _ => .pure (.refl r)) fun _ => ?_
    refine (hw r).bind fun x hx => ?_
    exact ih.bind fun y hy => .pure (hx.trans hy)

theorem propertyValue_passes (hw : walk.Passes) (fuel start : Nat) (key : Bytes) :
    Yields (r.propertyValue walk fuel start key) fun x => r.Passes x.2.2 := by
  unfold propertyValue
  extract_lets other
  have hother : Yields other fun x => r.Passes x.2.2 :=
    (walkUntil_passes hw _ fuel).bind fun x hx => .pure hx
  refine .ite (fun hi => ?_) fun _ => hother
  have hpath := dottedPath_passes hi fuel
  generalize r.dottedPath fuel = x at hpath ⊢
  obtain ⟨path, last⟩ := x
  cases path with
  | none => exact hother
  | some path => exact .ite (fun _ => .pure hpath) fun _ => hother

theorem property_passes (hw : walk.Passes) (fuel : Nat) :
    Yields (r.property walk fuel) fun x => r.Passes x.2.2 := by
  unfold property
  extract_lets first skip key
  have hskip {s : Reader text} (hs : r.Passes s) : Yields (skip s) fun x => r.Passes x.2.2 :=
    (walkUntil_passes hw _ fuel).bind fun x hx => .pure (hs.trans hx)
  refine .ite (fun hkey => ?_) fun _ => hskip (.refl r)
  have hloose : r.Loose := by
    simp only [Bool.or_eq_true] at hkey
    rcases hkey with (hkey | hkey) | hkey
    · exact loose_of_isName hkey
    · exact loose_of_is hkey ⟨rfl, rfl⟩
    · exact loose_of_is hkey ⟨rfl, rfl⟩
  refine (advance_passes hloose).bind fun s hs => ?_
  refine .ite (fun hcolon => ?_) fun _ => .ite (fun _ => .pure hs) fun _ => hskip hs
  refine (advance_passes (loose_of_is hcolon ⟨rfl, rfl⟩)).bind fun t ht => ?_
  exact (propertyValue_passes hw fuel _ key).mono fun _ hx => (hs.trans ht).trans hx

theorem properties_passes (hw : walk.Passes) (fuel : Nat) :
    Yields (properties walk fuel r) fun x => r.Passes x.2.2 := by
  induction fuel generalizing r with
  | zero => exact .error _
  | succ fuel ih =>
    refine .ite (fun _ => .pure (.refl r)) fun _ => ?_
    refine (property_passes hw fuel).bind fun x hx => ?_
    refine .ite (fun hcomma => ?_) fun _ => .pure hx
    refine (advance_passes (loose_of_is hcomma ⟨rfl, rfl⟩)).bind fun s hs => ?_
    exact ih.bind fun y hy => .pure ((hx.trans hs).trans hy)

theorem objectLiteral_passes (hw : walk.Passes) (fuel : Nat) (hb : r.is .openBrace = true) :
    Yields (r.objectLiteral walk fuel) fun x => r.Passes x.2.2 := by
  unfold objectLiteral
  refine r.advance_yields.bind fun s hs => ?_
  refine (properties_passes hw fuel).bind fun x hx => ?_
  refine .ite (fun _ => .throw_bind _ _) fun hc => ?_
  rw [hs] at hx
  exact (advance_closes hb rfl hx hc).bind fun t ht => .pure ht

theorem initializer_passes (hw : walk.Passes) (fuel : Nat) :
    Yields (r.initializer walk fuel) fun x => r.Passes x.2.2 := by
  unfold initializer
  refine .ite (fun hassign => ?_) fun _ => .pure (.refl r)
  refine (advance_passes (loose_of_is hassign ⟨rfl, rfl⟩)).bind fun s hs => ?_
  refine .ite (fun hbrace => ?_) fun _ => ?_
  · refine (objectLiteral_passes hw fuel hbrace).bind fun x hx => ?_
    exact (walkInitializer_passes hw fuel).bind fun y hy => .pure ((hs.trans hx).trans hy)
  · exact (walkInitializer_passes hw fuel).bind fun x hx => .pure (hs.trans hx)

theorem declarator_clears (hw : walk.Passes) (fuel : Nat) (kind : DeclarationKind)
    (exportStart : Option Nat) (hname : r.is .identifier = true) :
    Yields (r.declarator walk fuel kind exportStart) fun x => r.Clears x.2 := by
  unfold declarator
  refine (advance_passes (loose_of_is hname ⟨rfl, rfl⟩)).bind fun s hs => ?_
  refine (passOver_passes .bang ⟨rfl, rfl⟩).bind fun t ht => ?_
  refine (passTyping_clears fuel).bind fun u hu => ?_
  refine (initializer_passes hw fuel).bind fun x hx => .pure ?_
  exact ((hs.trans ht).clears.trans hu).trans hx.clears

theorem pattern_clears (hw : walk.Passes) (fuel : Nat) (ho : r.current.kind.isOpener = true) :
    Yields (r.pattern walk fuel) fun x => r.Clears x.2 := by
  unfold pattern
  refine (walkGroup_passes hw fuel ho).bind fun x hx => ?_
  refine (passTyping_clears fuel).bind fun s hs => ?_
  refine .ite (fun hassign => ?_) fun _ => .pure (hx.clears.trans hs)
  refine (advance_passes (loose_of_is hassign ⟨rfl, rfl⟩)).bind fun t ht => ?_
  refine (walkInitializer_passes hw fuel).bind fun y hy => .pure ?_
  exact (hx.clears.trans hs).trans (ht.trans hy).clears

theorem declarators_clears (hw : walk.Passes) (kind : DeclarationKind) (exportStart : Option Nat)
    (fuel : Nat) : Yields (declarators walk kind exportStart fuel r) fun x => r.Clears x.2 := by
  induction fuel generalizing r with
  | zero => exact .error _
  | succ fuel ih =>
    unfold declarators
    extract_lets rest
    have more {x : Outline × Reader text} (hx : r.Clears x.2) :
        Yields (rest x) fun y => r.Clears y.2 := by
      refine .ite (fun hcomma => ?_) fun _ => ?_
      · refine (advance_passes (loose_of_is hcomma ⟨rfl, rfl⟩)).bind fun s hs => ?_
        exact ih.bind fun y hy => .pure ((hx.trans hs.clears).trans hy)
      · refine (passOver_passes .semicolon ⟨rfl, rfl⟩).bind fun s hs => .pure ?_
        exact hx.trans hs.clears
    refine .ite (fun hstarts => ?_) fun _ => .pure (.refl r)
    refine .ite (fun hname => ?_) fun hname => ?_
    · exact (declarator_clears hw fuel kind exportStart hname).bind fun _ hx => more hx
    · have ho : r.current.kind.isOpener = true := by
        simp only [hname, Bool.false_or, Bool.or_eq_true] at hstarts
        rcases hstarts with hk | hk <;> rw [of_decide_eq_true hk] <;> rfl
      exact (pattern_clears hw fuel ho).bind fun _ hx => more hx

theorem functionOrClass_passes (exportStart : Option Nat) (hl : r.Loose) :
    Yields (r.functionOrClass exportStart) fun x => r.Passes x.2 := by
  unfold functionOrClass
  extract_lets kind rest
  have named {s : Reader text} (hs : r.Passes s) : Yields (rest s) fun x => r.Passes x.2 := by
    refine .ite (fun hname => ?_) fun _ => .pure hs
    exact (advance_passes (loose_of_is hname ⟨rfl, rfl⟩)).bind fun t ht => .pure (hs.trans ht)
  refine (advance_passes hl).bind fun s hs => ?_
  refine .ite (fun _ => ?_) fun _ => named hs
  exact (passOver_passes .star ⟨rfl, rfl⟩).bind fun t ht => named (hs.trans ht)

/-- A declaration starts with a word, and so does what stands behind its `async`. -/
theorem walkDeclaration_clears (hw : walk.Passes) (fuel : Nat) (exportStart : Option Nat)
    (hl : r.Loose) (hasync : r.isWord (utf8 "async") = true → r.step.Loose) :
    Yields (r.walkDeclaration walk fuel exportStart) fun x => r.Clears x.2 := by
  unfold walkDeclaration
  extract_lets rest
  have behind {s : Reader text} (hs : r.Passes s) (hl : s.Loose) :
      Yields (rest s) fun x => r.Clears x.2 := by
    refine .ite (fun _ => ?_) fun _ => ?_
    · exact (functionOrClass_passes exportStart hl).mono fun _ hx => (hs.trans hx).clears
    · refine (advance_passes hl).bind fun t ht => ?_
      refine (declarators_clears hw _ exportStart fuel).mono fun _ hx => ?_
      exact (hs.trans ht).clears.trans hx
  refine .ite (fun hword => ?_) fun _ => behind (.refl r) hl
  refine r.advance_yields.bind fun s hs => ?_
  rw [hs]
  exact behind (step_passes hl) (hasync hword)

theorem exportEnum_passes (start : Nat) (hl : r.Loose) :
    Yields (r.exportEnum start) fun x => r.Passes x.2 := by
  unfold exportEnum
  refine (advance_passes hl).bind fun s hs => ?_
  refine .ite (fun hname => ?_) fun _ => .pure hs
  exact (advance_passes (loose_of_is hname ⟨rfl, rfl⟩)).bind fun t ht => .pure (hs.trans ht)

theorem loose_of_atVariableKeyword (h : r.atVariableKeyword = true) : r.Loose := by
  simp only [atVariableKeyword, Bool.or_eq_true] at h
  rcases h with (h | h) | h <;> exact loose_of_isKeyword h

theorem loose_of_atFunctionOrClass (h : r.atFunctionOrClass = true) : r.Loose := by
  rcases Bool.or_eq_true_iff.1 h with h | h <;> exact loose_of_isKeyword h

/-- A word that is reserved in some places only is no keyword. -/
theorem isKeyword_of_isWord {word word' : Bytes} (h : r.isWord word = true) :
    r.isKeyword word' = false := by
  have hkind : r.current.kind = .identifier := of_decide_eq_true (Bool.and_eq_true_iff.1 h).1
  simp [isKeyword, Token.isKeyword, hkind]

theorem walkExport_clears (hw : walk.Passes) (fuel : Nat) (hl : r.Loose) :
    Yields (r.walkExport walk fuel) fun x => r.Clears x.2 := by
  unfold walkExport
  extract_lets start rest
  have declaration {s : Reader text} (hs : r.Passes s) : Yields (rest s) fun x => r.Clears x.2 := by
    refine .ite (fun henum => ?_) fun _ => .ite (fun hstarts => ?_) fun _ => .pure hs.clears
    · exact (exportEnum_passes start (loose_of_isKeyword henum)).mono fun _ hx =>
        (hs.trans hx).clears
    simp only [Bool.or_eq_true] at hstarts
    have hloose : s.Loose := by
      rcases hstarts with (h | h) | h
      · exact loose_of_atVariableKeyword h
      · exact loose_of_atFunctionOrClass h
      · exact loose_of_isWord (Bool.and_eq_true_iff.1 h).1
    refine (walkDeclaration_clears hw fuel (some start) hloose fun hword => ?_).mono fun _ hx =>
      hs.clears.trans hx
    have hasync : s.atAsyncFunction = true := by
      simpa [atVariableKeyword, atFunctionOrClass, isKeyword_of_isWord hword] using hstarts
    exact loose_of_isKeyword (Bool.and_eq_true_iff.1 hasync).2
  refine (advance_passes hl).bind fun s hs => ?_
  refine .ite (fun hdefault => ?_) fun _ => .ite (fun hstar => ?_) fun _ =>
    .ite (fun hbrace => ?_) fun _ => .ite (fun htype => ?_) fun _ =>
    .ite (fun hword => ?_) fun _ => ?_
  · refine (advance_passes (loose_of_isKeyword hdefault)).bind fun t ht => ?_
    exact (exportDefault_passes start).mono fun _ hx => ((hs.trans ht).trans hx).clears
  · exact (exportStar_passes start fuel hstar).mono fun _ hx => (hs.trans hx).clears
  · exact (exportList_passes start false fuel hbrace).mono fun _ hx => (hs.trans hx).clears
  · obtain ⟨hword, hbrace⟩ := Bool.and_eq_true_iff.1 htype
    refine s.advance_yields.bind fun t ht => ?_
    have ht' : s.Passes t := ht ▸ step_passes (loose_of_isWord hword)
    have hbrace : t.is .openBrace = true := ht ▸ hbrace
    exact (exportList_passes start true fuel hbrace).mono fun _ hx =>
      ((hs.trans ht').trans hx).clears
  · have hloose : s.Loose := by
      rcases Bool.or_eq_true_iff.1 hword with h | h <;> exact loose_of_isWord h
    exact (advance_passes hloose).bind fun t ht => declaration (hs.trans ht)
  · exact declaration hs

theorem walkItem_clears (hshort : text.Short) (hr : r.Ready) (hw : walk.Passes) (fuel : Nat)
    (he : r.atEnd = false) : Yields (r.walkItem walk fuel) fun x => r.Clears x.2 := by
  refine .ite (fun himport => ?_) fun _ => .ite (fun hexport => ?_) fun _ =>
    .ite (fun hdeclares => ?_) fun _ => ?_
  · exact (walkImport_passes hw fuel himport).mono fun _ hx => hx.clears
  · exact walkExport_clears hw fuel (loose_of_isKeyword hexport)
  · simp only [atDeclaration, Bool.or_eq_true, Bool.and_eq_true] at hdeclares
    have hloose : r.Loose := by
      rcases hdeclares with h | ⟨h | h, -⟩
      · exact loose_of_atVariableKeyword h
      · exact loose_of_atFunctionOrClass h
      · exact loose_of_isWord h.1
    refine walkDeclaration_clears hw fuel none hloose fun hword => ?_
    have hfollows : r.functionFollows = true := by
      simp only [atVariableKeyword, atFunctionOrClass, isKeyword_of_isWord hword, Bool.or_self,
        Bool.false_eq_true, false_or] at hdeclares
      exact hdeclares.1.2
    exact loose_of_isName (isName_of_functionFollows hshort hr he hfollows)
  · exact (hw r).mono fun _ hx => hx.clears

/-- Items are read up to the end of the text. -/
theorem walkItems_clears (hshort : text.Short) (hr : r.Ready) (hw : walk.Passes) (fuel : Nat) :
    Yields (walkItems walk fuel r) fun x => r.Clears x.2 ∧ x.2.atEnd = true := by
  induction fuel generalizing r with
  | zero => exact .error _
  | succ fuel ih =>
    refine .ite (fun he => .pure ⟨.refl r, he⟩) fun he => ?_
    refine (walkItem_clears hshort hr hw fuel (by simpa using he)).bind fun x hx => ?_
    exact (ih (hx.ready hr)).bind fun y hy => .pure ⟨hx.trans hy.1, hy.2⟩

theorem tokens_of_atEnd (h : r.atEnd = true) : r.tokens = [r.current] := by
  rw [tokens, upcoming_of_atEnd h]

/-- At the end of the text, what was passed tells of the brackets of the whole text. -/
theorem Course.settled (h : (start text).Course strays s [] []) (he : s.atEnd = true) :
    Kind.Settled strays ((Lexer.tokenize text).1.map Token.kind) := by
  obtain ⟨passed, htokens, -, hpassed⟩ := h.settles
  have hkind : s.current.kind = .eof := of_decide_eq_true he
  rw [tokens_of_atEnd he] at htokens
  rw [Kind.Settled, ← start_tokens, htokens, List.map_append, List.foldlM_append, hpassed,
    List.map_singleton, hkind]
  rfl

end Reader

namespace Outline

open Reader

theorem read_clears {text : Bytes} (hshort : text.Short) :
    Yields (read false text) fun x => ∃ s : Reader text,
      (start text).Clears s ∧ s.atEnd = true ∧ x.2 = s.lexer.errors := by
  unfold read
  refine (checked_yields _).bind fun r hr => ?_
  rw [hr]
  refine (walkItems_clears hshort (start_ready text) (walk_passes _) _).bind fun x hx => .pure ?_
  exact ⟨x.2, hx.1, hx.2, rfl⟩

theorem read_of_parse {s : Source} {o : Outline} (h : parse s = .ok o) :
    read s.dialect.allowsElements s.content = .ok (o, []) := by
  unfold parse at h
  split at h
  · cases h
  · rename_i hread
    cases h
    exact hread
  · cases h

/-- A plain file that is read has no lexer error, and its brackets match in kind with none of them
left open. Closing brackets can be too many, though only if some `<` stands as in a type annotation;
brackets and substitutions are in order as soon as their numbers are, and they are if there is
neither such a `<` nor a substitution. -/
theorem brackets_of_parse {s : Source} {o : Outline} (hts : s.dialect = .ts)
    (hshort : s.content.Short) (h : parse s = .ok o) :
    let kinds := (Lexer.tokenize s.content).1.map Token.kind
    (Lexer.tokenize s.content).2 = [] ∧ Kind.Settled true kinds ∧
      (¬Kind.Annotates kinds → Kind.Settled false kinds) ∧
      (¬Kind.Annotates kinds → .templateHead ∉ kinds → Kind.Balanced kinds) ∧
      (Kind.Balanced kinds ↔ Kind.Balanced (kinds.map Kind.blurred)) := by
  intro kinds
  have hread := read_of_parse h
  rw [hts] at hread
  obtain ⟨r, hclears, hend, herrors⟩ := read_clears hshort _ hread
  have hcourse := hclears true (.inl rfl)
  have hsettled : Kind.Settled true kinds := hcourse.settled hend
  have hstrict (hnone : ¬Kind.Annotates kinds) : Kind.Settled false kinds := by
    have hnone : ¬Kind.Annotates ((start s.content).tokens.map Token.kind) := by rwa [start_tokens]
    exact (hclears false (.inr hnone)).settled hend
  refine ⟨?_, hsettled, hstrict, fun hnone hhead => ?_, Kind.balanced_iff_blurred hsettled⟩
  · rw [← start_allErrors, ← hcourse.errors, allErrors, if_pos hend, ← herrors]
  · have hstream : kinds = (Lexer.start s.content).stream.map Token.kind := by
      simp only [kinds, Lexer.tokenize_eq]
    apply (Kind.balanced_iff_settled _).2 (hstrict hnone)
    rw [hstream] at hhead ⊢
    exact Lexer.stream_outside _ rfl hhead

theorem exists_of_isOk {s : Source} (h : (parse s).isOk = true) : ∃ o, parse s = .ok o := by
  cases hparse : parse s with
  | error e =>
    rw [hparse] at h
    cases h
  | ok o => exact ⟨o, rfl⟩

/-- A type annotation lets a closing bracket pass that closes nothing. -/
theorem parse_stray_bracket :
    ¬∀ (s : Source) (o : Outline), s.dialect = .ts → parse s = .ok o →
      (Lexer.tokenize s.content).2 = [] ∧
        Kind.Balanced ((Lexer.tokenize s.content).1.map Token.kind) := by
  intro h
  obtain ⟨o, ho⟩ :=
    exists_of_isOk (s := ⟨utf8 "a.ts", utf8 "const x: A<) = 1;"⟩) (by decide +kernel)
  exact absurd (h _ o (by decide +kernel) ho).2 (by decide +kernel)

end Outline

end JsxPresence
