import JsxPresence.Proofs.Outline.Gap
import JsxPresence.Proofs.Outline.Progress.Declaration
import JsxPresence.Proofs.Token.Partition

namespace JsxPresence

namespace Reader

variable {text : Bytes} {r s : Reader text}

/-- The second reader stands in the text, behind the first one or at the end. -/
structure Passed (r s : Reader text) : Prop where
  stands : s.Stands
  moved : s.atEnd = true ∨ r.lexer.pos < s.lexer.pos

/-- The bytes before a reader, the last one of the token at hand among them. -/
def bytesLeft (r : Reader text) : Nat := text.length + 1 - r.lexer.pos

theorem bytesLeft_le (r : Reader text) : r.bytesLeft ≤ text.length + 1 := Nat.sub_le _ _

theorem Stands.left (h : r.Stands) : r.Left r.bytesLeft where
  stands := h
  length_lt _ := by
    have hle := h.pos_le
    unfold bytesLeft
    omega

theorem Stands.passed (h : r.Stands) (hs : s.Left (r.bytesLeft - 1)) : r.Passed s where
  stands := hs.stands
  moved := by
    cases he : s.atEnd with
    | true => exact .inl rfl
    | false =>
      have hlt := hs.length_lt he
      have hle := h.pos_le
      unfold bytesLeft at hlt
      exact .inr (by omega)

/-- A round of each loop over tokens, from a reader that is not at the end. -/
structure Advances (elements : Bool) (fuel : Nat) (r : Reader text) : Prop where
  /-- Items of a module. -/
  item : Ends (fun x => r.Passed x.2) (r.walkItem (walk elements fuel) fuel)
  /-- Units of an expression, of a group and of an initialiser. -/
  unit : Ends (fun x => r.Passed x.2) (walk elements fuel r)
  /-- An argument and its comma. -/
  argument (stop : Kind → Bool) :
    Ends r.Passed (walkUntil (walk elements fuel) stop fuel r >>= fun x => x.2.advance)
  /-- An entry of an object literal and its comma. -/
  property : Ends r.Passed (r.property (walk elements fuel) fuel >>= fun x => x.2.2.advance)
  /-- An entry of an import or export list and its comma. -/
  binding (typeOnly : Bool) : Ends r.Passed (r.bindingItem typeOnly >>= fun x => x.2.advance)
  /-- A declared name and its comma. -/
  declarator (kind : DeclarationKind) (exportStart : Option Nat) :
    Ends r.Passed
      (r.declarator (walk elements fuel) fuel kind exportStart >>= fun x => x.2.advance)
  /-- A declared pattern and its comma. -/
  pattern : Ends r.Passed (r.pattern (walk elements fuel) fuel >>= fun x => x.2.advance)
  /-- A token of a type annotation. -/
  annotation : Ends r.Passed r.advance
  /-- A group in a type annotation. -/
  annotatedGroup (e : SyntaxError) : e.cause ≠ .exhausted → r.current.kind.isOpener = true →
    Ends r.Passed (r.passGroup fuel fun _ => e)
  /-- A token of a return type, which is only looked at. -/
  returnType : r.Passed r.step
  /-- A group in a return type. -/
  returnedGroup : r.current.kind.isOpener = true → r.Passed (r.skipGroup fuel).reader

theorem Stands.advances {elements : Bool} (hs : elements = true → text.Short) {fuel : Nat}
    (hfuel : text.length + 1 < fuel) (h : r.Stands) (he : r.atEnd = false) :
    r.Advances elements fuel := by
  have hw := (walk_sure hs fuel fuel).1
  have hleft := h.left
  have hle := r.bytesLeft_le
  have hb : r.bytesLeft < min fuel fuel := by omega
  have passed {α : Type} {f : α → Reader text} {x : Except SyntaxError α}
      (hx : Sure (fun a => (f a).Left (r.bytesLeft - 1)) x x) : Ends (fun a => r.Passed (f a)) x :=
    (hx.mono fun _ ha => h.passed ha).ends
  have comma {α : Type} {f : α → Reader text} {x : Except SyntaxError α}
      (hx : Sure (fun a => (f a).Left r.bytesLeft) x x) :
      Ends r.Passed (x >>= fun a => (f a).advance) :=
    passed (f := id) (hx.bind fun _ ha => ha.advance)
  exact {
    item := passed (walkItem_sure hw hleft he hb hb.le)
    unit := passed (hw _ r hb hleft)
    argument := fun stop => comma (walkUntil_sure hw hleft hb hb stop)
    property := comma (property_sure hw hleft hb hb)
    binding := fun typeOnly =>
      comma ((bindingItem_sure hleft typeOnly).mono fun _ hx => hx.mono (Nat.sub_le _ 1))
    declarator := fun kind exportStart =>
      comma ((declarator_sure hw hleft he hb.le hb.le kind exportStart).mono
        fun _ hx => hx.mono (Nat.sub_le _ 1))
    pattern := comma ((pattern_sure hw hleft he hb.le hb.le).mono
      fun _ hx => hx.mono (Nat.sub_le _ 1))
    annotation := passed (f := id) hleft.advance
    annotatedGroup := fun e hcause ho =>
      passed (f := id) (passGroup_sure hleft ho hb.le fun _ => hcause)
    returnType := h.passed hleft.step
    returnedGroup := fun ho => h.passed (skipGroup_sure hleft ho hb.le).left }

end Reader

namespace Tag

variable {text : Bytes}

/-- The second offset lies in the text, behind the first one. -/
structure Passed (text : Bytes) (p q : Nat) : Prop where
  lt : p < q
  le : q ≤ text.length

/-- A round of each loop over characters: what an attribute is made of and what a child is. -/
structure Advances (fuel : Nat) (lx : Lexer text) (offset : Nat) : Prop where
  attributeName (tag : Bytes) : Ends (fun x => Passed text lx.pos x.2.pos) (attributeName tag lx)
  /-- The value of an attribute; its name was passed before. -/
  attributeValue (attr : Bytes) : Ends (fun x => lx.pos ≤ x.2.pos ∧ x.2.pos ≤ text.length)
    (attributeValue (Reader.walk true fuel) (Reader.walkElement true fuel) fuel attr lx)
  /-- Braces around a spread, the value of an attribute or a child. -/
  container : Ends (fun x => Passed text offset x.2.2)
    (container (Reader.walk true fuel) fuel lx offset)
  /-- An element that is a child or the value of an attribute. -/
  element : Ends (fun x => Passed text offset x.2.2) (Reader.walkElement true fuel lx offset)

theorem advances (hs : text.Short) {fuel : Nat} (hfuel : text.length + 1 < fuel) {lx : Lexer text}
    (hlx : lx.pos ≤ text.length) {offset : Nat} (hoffset : offset < text.length) :
    Advances fuel lx offset := by
  obtain ⟨hw, he⟩ := @Reader.walk_sure text true (fun _ => hs) fuel fuel
  have here : text.Leaves (text.length - lx.pos) lx.pos := ⟨hlx, by omega⟩
  have there : text.Leaves (text.length - offset) offset := ⟨hoffset.le, by omega⟩
  have enough (p : Nat) : text.length - p ≤ min fuel fuel := by omega
  have passed {p q : Nat} (hp : p ≤ text.length) (hpos : 0 < text.length - p)
      (hq : text.Leaves (text.length - p - 1) q) : Passed text p q := by
    have hlength := hq.length_le
    exact ⟨by omega, hq.le⟩
  exact {
    attributeName := fun tag =>
      ((attributeName_sure tag here).mono fun _ hx => passed hlx hx.1 hx.2).ends
    attributeValue := fun attr =>
      ((attributeValue_sure hs hw (he rfl) attr here (enough _) (enough _)).mono fun _ hx =>
        ⟨by have := hx.length_le; omega, hx.le⟩).ends
    container := ((container_sure hs hw lx there hoffset (enough _) (enough _)).mono fun _ hx =>
      passed hoffset.le (by omega) hx).ends
    element := ((he rfl _ lx offset (enough _) hoffset there).mono fun _ hx =>
      passed hoffset.le (by omega) hx).ends }

end Tag

namespace Outline

open Reader

/-- Reads a text with this step bound. -/
def readWithin (fuel : Nat) (elements : Bool) (text : Bytes) :
    Except SyntaxError (Outline × List LexicalError) := do
  let r ← (Reader.start text).checked
  let x ← walkItems (walk elements fuel) fuel r
  return (x.1, x.2.lexer.errors)

theorem readWithin_stepBound (elements : Bool) (text : Bytes) :
    readWithin (stepBound text) elements text = read elements text := rfl

theorem start_left (text : Bytes) : (Reader.start text).Left (text.length + 1) :=
  ⟨stands_next (Lexer.start_pos_le text) none 0, fun _ => by omega⟩

/-- With enough fuel reading ends, and more fuel changes nothing. -/
theorem readWithin_sure {elements : Bool} {text : Bytes} (hs : elements = true → text.Short)
    {fuel fuel' : Nat} (hn : text.length + 1 < min fuel fuel') :
    Sure (fun _ => True) (readWithin fuel elements text) (readWithin fuel' elements text) := by
  unfold readWithin
  apply (start_left text).checked.bind
  intro r hr
  apply (walkItems_sure (walk_sure hs fuel fuel').1 hr hn hn).bind
  intro x _
  exact .pure trivial

theorem lt_stepBound (text : Bytes) : text.length + 1 < stepBound text := by
  unfold stepBound
  omega

theorem parse_not_exhausted {s : Source} (h : s.dialect.allowsElements = true → s.content.Short)
    {errors : List SyntaxError} (hp : parse s = .error errors) :
    ∀ e ∈ errors, e.cause ≠ .exhausted := by
  have hlt := lt_stepBound s.content
  have hends := (readWithin_sure h (lt_min hlt hlt)).ends
  rw [readWithin_stepBound] at hends
  unfold parse at hp
  split at hp
  · rename_i error hread
    cases hp
    rw [hread] at hends
    intro e he
    rw [List.mem_singleton.1 he]
    exact hends
  · cases hp
  · cases hp
    intro e he
    obtain ⟨error, -, rfl⟩ := List.mem_map.1 he
    simp [SyntaxError.ofLexical]

/-- Names, a type, an object, a call and elements in each other. -/
def looseSource : Source where
  filename := utf8 "a.tsx"
  content := utf8 (
    "import \x7ba, b\x7d from 'c'; const d: E<F> = \x7bg: a.b, h\x7d, " ++
    "i = j(k, <l m=\x7bn\x7d>o\x7bp\x7d<q/></l>);")

end Outline

/-- A tag without attributes that closes itself. -/
theorem Tag.element_bare {text : Bytes} {lx m n : Lexer text} {start : Nat} {word : Bytes}
    (hopen : (lx.reset (start + 1) false).skipTrivia = m) (hname : m.peek 0 ≠ byte '>')
    (hword : Tag.word m .missingElementName = .ok (word, n)) (hskip : n.skipTrivia = n)
    (h0 : n.peek 0 = byte '/') (h1 : n.peek 1 = byte '>') (walk : Walk text)
    (element : ElementWalk text) (fuel : Nat) :
    ∃ o, Tag.element walk element (fuel + 1) lx start = .ok (o, n, n.pos + 2) := by
  have hrest : n.rest.isEmpty = false := by
    cases hnil : n.rest with
    | nil =>
      rw [Lexer.peek, hnil] at h0
      exact absurd h0 (by decide)
    | cons => rfl
  have hname' : Tag.name (fuel + 1) m = .ok (⟨word, .identifier word, ⟨m.pos, n.pos⟩⟩, n) := by
    have hcolon : byte '/' ≠ byte ':' := by decide
    have hdot : byte '/' ≠ byte '.' := by decide
    simp [Tag.name, hword, h0, hcolon, hdot, Tag.segments, bind, Except.bind, pure, Except.pure]
  have hattrs : Tag.attributes walk element start word (fuel + 1) n = .ok (.empty, n) := by
    simp [Tag.attributes, hskip, hrest, h0, pure, Except.pure]
  let opening : Element :=
    { name := .identifier word
      span := ⟨start, n.pos + 2⟩
      nameSpan := ⟨m.pos, n.pos⟩
      attributes := []
      hasSpread := false
      selfClosing := true
      insertAt := n.pos }
  refine ⟨.ofElement opening ++ .empty, ?_⟩
  simp [Tag.element, hopen, hname, hname', hattrs, h0, h1, opening, Tag.Attributes.empty, bind,
    Except.bind, pure, Except.pure]

namespace Reader

variable {text : Bytes} {r s : Reader text}

theorem walkItem_element {elements : Bool} {fuel fuel' : Nat} {o : Outline} {lx : Lexer text}
    {stop : Nat} (himport : r.atImport = false) (hdeclaration : r.atDeclaration = false)
    (hk : r.current.kind = .less) (hel : r.atElement elements = true)
    (helement : walkElement elements fuel r.lexer r.current.span.start = .ok (o, lx, stop))
    (hresume : resumeAfter lx stop = .ok s) :
    r.walkItem (Reader.walk elements (fuel + 1)) fuel' = .ok (o, s) := by
  have hexport : r.isKeyword (utf8 "export") = false := by
    simp [isKeyword, Token.isKeyword, hk]
  simp [walkItem, himport, hdeclaration, hexport, walk, walkUnit, hk, hel, helement, hresume, bind,
    Except.bind, pure, Except.pure]

theorem walkItems_exhausted {walk : Walk text} {o : Outline} {fuel : Nat} (hr : r.atEnd = false)
    (hitem : r.walkItem walk fuel = .ok (o, s))
    (hs : ∃ e, walkItems walk fuel s = .error e ∧ e.cause = .exhausted) :
    ∃ e, walkItems walk (fuel + 1) r = .error e ∧ e.cause = .exhausted := by
  obtain ⟨e, he, hcause⟩ := hs
  exact ⟨e, by simp [walkItems, hr, hitem, he, bind, Except.bind], hcause⟩

/-- Items that lead back to where they start are never all read. -/
theorem walkItems_round {walk : Walk text} (hr : r.atEnd = false) (hs : s.atEnd = false)
    (hrs : ∀ fuel, ∃ o, r.walkItem walk fuel = .ok (o, s))
    (hsr : ∀ fuel, ∃ o, s.walkItem walk fuel = .ok (o, r)) (fuel : Nat) :
    (∃ e, walkItems walk fuel r = .error e ∧ e.cause = .exhausted) ∧
      ∃ e, walkItems walk fuel s = .error e ∧ e.cause = .exhausted := by
  induction fuel with
  | zero => exact ⟨⟨_, rfl, rfl⟩, _, rfl, rfl⟩
  | succ fuel ih =>
    obtain ⟨o, ho⟩ := hrs fuel
    obtain ⟨o', ho'⟩ := hsr fuel
    exact ⟨walkItems_exhausted hr ho ih.2, walkItems_exhausted hs ho' ih.1⟩

end Reader

namespace Outline

open Reader

theorem readWithin_eq_error {text : Bytes} {elements : Bool} {fuel : Nat} {e : SyntaxError}
    (hstart : (start text).checked = .ok (start text))
    (he : walkItems (walk elements fuel) fuel (start text) = .error e) :
    readWithin fuel elements text = .error e := by
  simp [readWithin, hstart, he, bind, Except.bind]

def endlessText : Bytes := utf8 ";<a/>"

theorem endlessText_le : endlessText.length ≤ offsetLimit := by decide +kernel

/-- The lexer at the end of the name in the tag. -/
def endlessTag : Lexer (Bytes.apart endlessText endlessText) := ⟨.ofPos 3, false, false, [], []⟩

/-- The reader behind the tag, where it comes to the second half. -/
def endlessTurn : Reader (Bytes.apart endlessText endlessText) :=
  let next := ((endlessTag.reset 5 false).leap endlessText_le).next
  ⟨next.2, next.1, some ⟨.elementText, utf8 ">", ⟨4, 5⟩, false⟩, 5⟩

theorem resumeAfter_endlessTag : resumeAfter endlessTag 5 = .ok endlessTurn := by
  have hpos : (endlessTag.reset 5 false).pos = endlessText.length := by decide +kernel
  have hbare : endlessText.StartsBare := by decide +kernel
  have hvalid : endlessTurn.is .error = false := by decide +kernel
  have hnext := Lexer.next_leap endlessText_le hpos hbare
  rw [resumeAfter, hnext]
  change endlessTurn.checked = _
  simp [checked, hvalid]

/-- The reader stands at a semicolon, and an element follows that is recorded at the place of the
first one. -/
def BeforeTag (r : Reader (Bytes.apart endlessText endlessText)) : Prop :=
  r.current.kind = .semicolon ∧ r.step.is .error = false ∧ r.step.atImport = false ∧
    r.step.atDeclaration = false ∧ r.step.current.kind = .less ∧ r.step.atElement true = true ∧
    r.step.current.span.start = 1 ∧
    (r.step.lexer.reset 2 false).skipTrivia = ⟨.ofPos 2, false, false, [], []⟩

theorem beforeTag_start : BeforeTag (start _) := by
  unfold BeforeTag
  decide +kernel

theorem beforeTag_endlessTurn : BeforeTag endlessTurn := by
  unfold BeforeTag
  decide +kernel

variable {r : Reader (Bytes.apart endlessText endlessText)} (h : BeforeTag r) (fuel fuel' : Nat)
include h

theorem BeforeTag.walkItem :
    ∃ o, r.walkItem (walk true (fuel + 3)) fuel' = .ok (o, r.step) := by
  obtain ⟨hsemicolon, hvalid, -⟩ := h
  refine ⟨.empty, ?_⟩
  rw [walkItem_semicolon hsemicolon, walkToken, advance, checked, hvalid]
  rfl

theorem BeforeTag.walkItem_step :
    ∃ o, r.step.walkItem (walk true (fuel + 3)) fuel' = .ok (o, endlessTurn) := by
  obtain ⟨-, -, himport, hdeclaration, hk, hel, hstart, hopen⟩ := h
  have hword : Tag.word ⟨.ofPos 2, false, false, [], []⟩ .missingElementName =
      .ok (utf8 "a", endlessTag) := by
    decide +kernel
  obtain ⟨o, ho⟩ := Tag.element_bare hopen (by decide +kernel) hword (by decide +kernel)
    (by decide +kernel) (by decide +kernel) (walk true (fuel + 1)) (walkElement true (fuel + 1))
    fuel
  have helement : walkElement true (fuel + 2) r.step.lexer r.step.current.span.start =
      .ok (o, endlessTag, 5) := by
    rw [hstart]
    exact ho
  exact ⟨o, walkItem_element himport hdeclaration hk hel helement resumeAfter_endlessTag⟩

theorem BeforeTag.atEnd : r.atEnd = false ∧ r.step.atEnd = false := by
  obtain ⟨hsemicolon, -, -, -, hk, -⟩ := h
  simp [Reader.atEnd, is, hsemicolon, hk]

end Outline

end JsxPresence
