import JsxPresence.Outline
import JsxPresence.Proofs.Outline.Enclosure

namespace JsxPresence

/-- A name without dots that stands on one line. -/
def Name.Plain (segment : Bytes) : Prop := byte '.' ∉ segment ∧ byte '\n' ∉ segment

def ElementName.Plain : ElementName → Prop
  | .identifier name => Name.Plain name
  | .member path => path ≠ [] ∧ ∀ segment ∈ path, Name.Plain segment
  | .namespaced _ _ | .fragment => True

/-- The offsets of a parameter list are offsets of the text, and the brace of its pattern opens
one. -/
structure Params.Placed (text : Bytes) (params : Params) : Prop where
  openParenEnd_le : params.openParenEnd ≤ text.length
  patternBraceEnd_le : params.patternBraceEnd ≤ text.length
  pattern : params.first = .objectPattern → ∃ opening closing,
    params.patternBraceEnd = opening + 1 ∧ Reader.Encloses text opening closing

/-- Behind the parenthesis, or behind the brace of a pattern that follows it. -/
def Params.headEnd (params : Params) : Nat := max params.openParenEnd params.patternBraceEnd

/-- The parenthesis and the brace of a parameter list, as they stand to the argument that the list
was found in. They are inside it, unless the argument ends at a comma before them that stands
behind a `<`, or an element of the argument was read in place of what stands there. -/
structure Params.Heads (text : Bytes) (elements : List Element) (span : Span) (params : Params) :
    Prop where
  start_lt : span.start < params.openParenEnd
  paren : text.byteAt (params.openParenEnd - 1) = byte '('
  brace : params.first = .objectPattern → params.openParenEnd < params.patternBraceEnd ∧
    text.byteAt (params.patternBraceEnd - 1) = openBrace
  inside : params.headEnd ≤ span.stop ∨
    (∃ k n, span.start ≤ k ∧ k < span.stop ∧ text.byteAt k = byte '<' ∧
      span.stop ≤ n ∧ n < params.openParenEnd ∧ text.byteAt n = byte ',') ∨
    ∃ e ∈ elements, span.start ≤ e.span.start ∧ e.span.start < params.headEnd ∧
      e.span.stop ≤ span.stop

/-- The parentheses of functions stand where the argument has them. -/
def Argument.Headed (text : Bytes) (elements : List Element) (a : Argument) : Prop :=
  ∀ arrow params, a.kind = .function arrow params → params.hasParens = true →
    params.Heads text elements a.span

theorem Argument.Headed.mono {text : Bytes} {elements more : List Element} {a : Argument}
    (h : a.Headed text elements) (hsub : elements ⊆ more) : a.Headed text more := by
  intro arrow params hk hp
  have hheads := h arrow params hk hp
  refine { hheads with inside := hheads.inside.imp_right (Or.imp_right ?_) }
  rintro ⟨e, he, hwithin⟩
  exact ⟨e, hsub he, hwithin⟩

namespace ArgumentKind

/-- The argument is nothing but a dotted name. -/
def isReference : ArgumentKind → Bool
  | .identifier _ | .member _ => true
  | _ => false

/-- The names of a reference stand on one line each. -/
def Plain : ArgumentKind → Prop
  | .identifier name => byte '\n' ∉ name
  | .member path => ∀ segment ∈ path, byte '\n' ∉ segment
  | _ => True

def Placed (text : Bytes) : ArgumentKind → Prop
  | .function _ params => params.Placed text
  | _ => True

end ArgumentKind

/-- A recorded part of the text: its range, and the ranges inside it that may hold others. -/
structure Piece where
  span : Span
  holes : List Span

namespace Piece

/-- The parts are apart, or one stands in a hole of the other. -/
def Clear (p q : Piece) : Prop :=
  p.span.stop ≤ q.span.start ∨ q.span.stop ≤ p.span.start ∨
    (∃ h ∈ p.holes, h.contains q.span = true) ∨ ∃ h ∈ q.holes, h.contains p.span = true

theorem Clear.symm {p q : Piece} (h : p.Clear q) : q.Clear p := by
  rcases h with h | h | h | h
  · exact .inr (.inl h)
  · exact .inl h
  · exact .inr (.inr (.inr h))
  · exact .inr (.inr (.inl h))

end Piece

/-- What stands in a call stands in one of its arguments that are no references. -/
def Call.piece (c : Call) : Piece :=
  ⟨c.span, (c.arguments.filter (!·.kind.isReference)).map (·.span)⟩

/-- What stands in a tag stands before the place where attributes are added. -/
def Element.piece (e : Element) : Piece := ⟨e.span, [⟨e.span.start + 1, e.insertAt⟩]⟩

namespace Callee

/-- The names of a callee, in order. -/
def path : Callee → List Bytes
  | .identifier name => [name]
  | .member path => path

/-- The callee stands between two offsets: the text there starts with its first name, and `last`,
the span of its last name, lies inside. -/
structure Placed (text : Bytes) (lo hi : Nat) (callee : Callee) (last : Span) : Prop where
  named : ∃ name, callee.path.head? = some name ∧ name <+: text.slice lo hi
  le_start : lo ≤ last.start
  start_lt : last.start < last.stop
  stop_le : last.stop ≤ hi

theorem Placed.mono {text : Bytes} {lo hi hi' : Nat} {callee : Callee} {last : Span}
    (h : callee.Placed text lo hi last) (hle : hi ≤ hi') : callee.Placed text lo hi' last := by
  obtain ⟨name, hn, hp⟩ := h.named
  refine ⟨⟨name, hn, hp.trans ?_⟩, h.le_start, h.start_lt, h.stop_le.trans hle⟩
  exact List.take_prefix_take_left (Nat.sub_le_sub_right hle lo)

end Callee

structure Call.Placed (text : Bytes) (c : Call) : Prop where
  callee : c.callee.Placed text c.span.start c.span.stop c.calleeSpan
  le_length : c.span.stop ≤ text.length
  closed : text.byteAt (c.span.stop - 1) = byte ')'
  argument : ∀ a ∈ c.arguments,
    c.span.start < a.span.start ∧ a.span.stop < c.span.stop ∧ a.kind.Placed text

structure Element.Placed (text : Bytes) (e : Element) : Prop where
  opening : text.byteAt e.span.start = byte '<'
  start_lt : e.span.start < e.insertAt
  closing :
    (e.selfClosing = true ∧ e.span.stop = e.insertAt + 2 ∧ text.byteAt e.insertAt = byte '/' ∧
        text.byteAt (e.insertAt + 1) = byte '>') ∨
      (e.selfClosing = false ∧ e.span.stop = e.insertAt + 1 ∧ text.byteAt e.insertAt = byte '>')
  le_length : e.span.stop ≤ text.length

theorem Element.Placed.insertAt_lt {text : Bytes} {e : Element} (h : e.Placed text) :
    e.insertAt < e.span.stop := by
  rcases h.closing with ⟨-, hs, -⟩ | ⟨-, hs, -⟩ <;> omega

namespace Outline

variable {text : Bytes} {lo hi : Nat} {a b o : Outline}

def pieces (o : Outline) : List Piece := o.calls.map Call.piece ++ o.elements.map Element.piece

theorem pieces_append (a b : Outline) : ((a ++ b).pieces).Perm (a.pieces ++ b.pieces) := by
  simp only [pieces, append_def, List.map_append, List.append_assoc]
  refine List.Perm.append_left _ ?_
  rw [← List.append_assoc, ← List.append_assoc]
  exact List.Perm.append_right _ List.perm_append_comm

theorem mem_pieces_append {p : Piece} : p ∈ (a ++ b).pieces ↔ p ∈ a.pieces ∨ p ∈ b.pieces := by
  rw [(pieces_append a b).mem_iff, List.mem_append]

theorem piece_mem_of_call {c : Call} (h : c ∈ o.calls) : c.piece ∈ o.pieces :=
  List.mem_append_left _ (List.mem_map_of_mem h)

theorem piece_mem_of_element {e : Element} (h : e ∈ o.elements) : e.piece ∈ o.pieces :=
  List.mem_append_right _ (List.mem_map_of_mem h)

@[simp]
theorem pieces_ofCall (c : Call) : (ofCall c).pieces = [c.piece] := rfl

@[simp]
theorem pieces_ofElement (e : Element) : (ofElement e).pieces = [e.piece] := rfl

/-- The calls and tags lie between two offsets, in the order of their starts, and never share bytes
by halves. -/
structure Held (text : Bytes) (lo hi : Nat) (o : Outline) : Prop where
  within : ∀ p ∈ o.pieces, lo ≤ p.span.start ∧ p.span.start < p.span.stop ∧ p.span.stop ≤ hi
  calls : ∀ c ∈ o.calls, c.Placed text
  elements : ∀ e ∈ o.elements, e.Placed text
  clear : o.pieces.Pairwise Piece.Clear
  calls_sorted : o.calls.Pairwise fun c d => c.span.start < d.span.start
  elements_sorted : o.elements.Pairwise fun e f => e.span.start < f.span.start

theorem Held.mono {lo' hi' : Nat} (h : o.Held text lo hi) (hl : lo' ≤ lo) (hh : hi ≤ hi') :
    o.Held text lo' hi' :=
  { h with
    within := fun p hp => by
      have := h.within p hp
      omega }

/-- Outlines go together if what the first one holds starts before what the second one holds and is
clear of it. -/
theorem Held.append (ha : a.Held text lo hi) (hb : b.Held text lo hi)
    (hc : ∀ p ∈ a.pieces, ∀ q ∈ b.pieces, p.span.start < q.span.start ∧ p.Clear q) :
    (a ++ b).Held text lo hi where
  within p hp := (mem_pieces_append.1 hp).elim (ha.within p) (hb.within p)
  calls c hm := (List.mem_append.1 hm).elim (ha.calls c) (hb.calls c)
  elements e hm := (List.mem_append.1 hm).elim (ha.elements e) (hb.elements e)
  clear := by
    rw [(pieces_append a b).pairwise_iff (fun h => h.symm), List.pairwise_append]
    exact ⟨ha.clear, hb.clear, fun p hp q hq => (hc p hp q hq).2⟩
  calls_sorted := List.pairwise_append.2 ⟨ha.calls_sorted, hb.calls_sorted, fun _ hx _ hy =>
    (hc _ (piece_mem_of_call hx) _ (piece_mem_of_call hy)).1⟩
  elements_sorted := List.pairwise_append.2 ⟨ha.elements_sorted, hb.elements_sorted,
    fun _ hx _ hy => (hc _ (piece_mem_of_element hx) _ (piece_mem_of_element hy)).1⟩

/-- The names of an outline are plain, and its calls and tags are held between the two offsets. -/
structure Laid (text : Bytes) (lo hi : Nat) (o : Outline) : Prop where
  elements_plain : ∀ e ∈ o.elements, e.name.Plain
  arguments_plain : ∀ c ∈ o.calls, ∀ a ∈ c.arguments, a.kind.Plain
  held : text.Short → o.Held text lo hi

theorem Laid.append (ha : a.Laid text lo hi) (hb : b.Laid text lo hi)
    (hc : text.Short → ∀ p ∈ a.pieces, ∀ q ∈ b.pieces, p.span.start < q.span.start ∧ p.Clear q) :
    (a ++ b).Laid text lo hi where
  elements_plain e hm := (List.mem_append.1 hm).elim (ha.elements_plain e) (hb.elements_plain e)
  arguments_plain c hm := (List.mem_append.1 hm).elim (ha.arguments_plain c) (hb.arguments_plain c)
  held hs := (ha.held hs).append (hb.held hs) (hc hs)

/-- What is known of the outline of a part of a text: how it is laid out there, and that the
functions among the arguments of its calls have their parentheses where they should. -/
structure Sound (text : Bytes) (lo hi : Nat) (o : Outline) : Prop extends Laid text lo hi o where
  headed : text.Short → ∀ c ∈ o.calls, ∀ a ∈ c.arguments, a.Headed text o.elements

/-- Imports, exports and declarations take no place. -/
theorem sound_of_nil (hc : o.calls = []) (he : o.elements = []) : o.Sound text lo hi where
  elements_plain := by simp [he]
  arguments_plain := by simp [hc]
  held _ := ⟨by simp [pieces, hc, he], by simp [hc], by simp [he], by simp [pieces, hc, he],
    by simp [hc], by simp [he]⟩
  headed := by simp [hc]

theorem sound_empty : empty.Sound text lo hi := sound_of_nil rfl rfl

theorem Sound.mono {lo' hi' : Nat} (h : o.Sound text lo hi)
    (hl : text.Short → lo' ≤ lo ∧ hi ≤ hi') : o.Sound text lo' hi' :=
  { h with held := fun hs => (h.held hs).mono (hl hs).1 (hl hs).2 }

theorem Sound.append (ha : a.Sound text lo hi) (hb : b.Sound text lo hi)
    (hc : text.Short → ∀ p ∈ a.pieces, ∀ q ∈ b.pieces, p.span.start < q.span.start ∧ p.Clear q) :
    (a ++ b).Sound text lo hi where
  toLaid := ha.toLaid.append hb.toLaid hc
  headed hs c hm argument harg := by
    rcases List.mem_append.1 hm with hm | hm
    · exact (ha.headed hs c hm argument harg).mono (List.subset_append_left _ _)
    · exact (hb.headed hs c hm argument harg).mono (List.subset_append_right _ _)

/-- Outlines of two parts, one behind the other. -/
theorem Sound.append_of_le {m n : Nat} (ha : a.Sound text lo m) (hb : b.Sound text n hi)
    (hle : text.Short → lo ≤ n ∧ m ≤ n ∧ m ≤ hi) : (a ++ b).Sound text lo hi := by
  refine (ha.mono fun hs => ⟨le_refl _, (hle hs).2.2⟩).append
    (hb.mono fun hs => ⟨(hle hs).1, le_refl _⟩) fun hs p hp q hq => ?_
  have hle := hle hs
  have hp := (ha.held hs).within p hp
  have hq := (hb.held hs).within q hq
  exact ⟨by omega, .inl (by omega)⟩

/-- A call goes before what stands in its arguments. -/
theorem Sound.call {c : Call} {m n : Nat} (hb : b.Sound text m n)
    (hp : ∀ a ∈ c.arguments, a.kind.Plain)
    (hh : text.Short → ∀ a ∈ c.arguments, a.Headed text b.elements)
    (hc : text.Short → c.Placed text ∧ lo ≤ c.span.start ∧ c.span.start < m ∧ n < c.span.stop ∧
      c.span.start < c.span.stop ∧ c.span.stop ≤ hi ∧
      ∀ q ∈ b.pieces, ∃ h ∈ c.piece.holes, h.contains q.span = true) :
    (ofCall c ++ b).Sound text lo hi where
  toLaid := by
    refine Laid.append ⟨by simp [ofCall, empty], by simpa [ofCall] using hp, fun hs => ?_⟩
      (hb.mono fun hs => ?_).toLaid fun hs p hp q hq => ?_
    · obtain ⟨hpl, hlo, -, -, hlt, hhi, -⟩ := hc hs
      refine ⟨?_, by simpa [ofCall] using hpl, by simp [ofCall, empty], by simp, by simp [ofCall],
        by simp [ofCall, empty]⟩
      simpa using ⟨hlo, hlt, hhi⟩
    · have := hc hs
      omega
    · obtain ⟨-, -, hm, -, -, -, hin⟩ := hc hs
      rw [pieces_ofCall, List.mem_singleton] at hp
      subst hp
      have hq' := (hb.held hs).within q hq
      exact ⟨hm.trans_le hq'.1, .inr (.inr (.inl (hin q hq)))⟩
  headed hs d hd argument harg := by
    rcases List.mem_append.1 hd with hd | hd
    · obtain rfl := List.mem_singleton.1 hd
      exact hh hs argument harg
    · exact hb.headed hs d hd argument harg

/-- A tag goes before what stands in its attributes. -/
theorem Sound.element {e : Element} (hb : b.Sound text (e.span.start + 1) e.insertAt)
    (hn : e.name.Plain)
    (he : text.Short → e.Placed text ∧ lo ≤ e.span.start ∧ e.span.stop ≤ hi) :
    (ofElement e ++ b).Sound text lo hi := by
  refine Sound.append ⟨⟨by simpa [ofElement] using hn, by simp [ofElement, empty], fun hs => ?_⟩,
    by simp [ofElement, empty]⟩ (hb.mono fun hs => ?_) fun hs p hp q hq => ?_
  · obtain ⟨hpl, hlo, hhi⟩ := he hs
    have h1 := hpl.start_lt
    have h2 := hpl.insertAt_lt
    refine ⟨?_, by simp [ofElement, empty], by simpa [ofElement] using hpl, by simp,
      by simp [ofElement, empty], by simp [ofElement]⟩
    simpa using ⟨hlo, h1.trans h2, hhi⟩
  · obtain ⟨hpl, hlo, hhi⟩ := he hs
    have := hpl.insertAt_lt
    omega
  · rw [pieces_ofElement, List.mem_singleton] at hp
    subst hp
    have hq' := (hb.held hs).within q hq
    refine ⟨hq'.1, .inr (.inr (.inl ⟨_, List.mem_singleton_self _, ?_⟩))⟩
    simp [Span.contains, hq'.1, hq'.2.2]

end Outline

end JsxPresence
