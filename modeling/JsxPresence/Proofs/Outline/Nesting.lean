import JsxPresence.Proofs.Outline.Parse

namespace JsxPresence

namespace Bytes

variable {text : Bytes}

theorem slice_self (text : Bytes) (p : Nat) : text.slice p p = [] := by simp [slice]

theorem slice_succ {lo hi : Nat} (hle : lo ≤ hi) (hl : hi < text.length) :
    text.slice lo (hi + 1) = text.slice lo hi ++ [text.byteAt hi] := by
  have hg : (text.drop lo)[hi - lo]? = some (text.byteAt hi) := by
    rw [List.getElem?_drop, Nat.add_sub_cancel' hle]
    simp [byteAt, List.getD, hl]
  simp only [slice, Nat.succ_sub hle, List.take_add_one, hg, Option.toList_some]

/-- A part of a text ends with its last byte. -/
theorem suffix_slice {lo hi : Nat} (hlt : lo < hi) (hl : hi ≤ text.length) :
    [text.byteAt (hi - 1)] <:+ text.slice lo hi := by
  have h := @slice_succ text lo (hi - 1) (by omega) (by omega)
  rw [Nat.sub_add_cancel (by omega)] at h
  exact ⟨_, h.symm⟩

end Bytes

namespace Span

/-- The spans share no byte, or one of them holds the other. -/
def Laminar (s t : Span) : Prop :=
  s.stop ≤ t.start ∨ t.stop ≤ s.start ∨ s.contains t = true ∨ t.contains s = true

theorem contains_iff {s t : Span} :
    s.contains t = true ↔ s.start ≤ t.start ∧ t.stop ≤ s.stop := by
  simp [contains]

theorem contains_trans {s t u : Span} (h : s.contains t = true) (k : t.contains u = true) :
    s.contains u = true := by
  rw [contains_iff] at h k ⊢
  omega

end Span

/-- The parts of the text that may hold others lie inside the piece. -/
def Piece.Closed (p : Piece) : Prop := ∀ h ∈ p.holes, p.span.contains h = true

theorem Piece.Clear.laminar {p q : Piece} (h : p.Clear q) (hp : p.Closed) (hq : q.Closed) :
    p.span.Laminar q.span := by
  rcases h with h | h | ⟨i, hi, hc⟩ | ⟨i, hi, hc⟩
  · exact .inl h
  · exact .inr (.inl h)
  · exact .inr (.inr (.inl (Span.contains_trans (hp i hi) hc)))
  · exact .inr (.inr (.inr (Span.contains_trans (hq i hi) hc)))

theorem Call.Placed.closed_piece {text : Bytes} {c : Call} (h : c.Placed text) :
    c.piece.Closed := by
  intro i hi
  obtain ⟨a, ha, rfl⟩ := List.mem_map.1 hi
  obtain ⟨hstart, hstop, -⟩ := h.argument a (List.mem_filter.1 ha).1
  exact Span.contains_iff.2 ⟨hstart.le, hstop.le⟩

theorem Element.Placed.closed_piece {text : Bytes} {e : Element} (h : e.Placed text) :
    e.piece.Closed := by
  intro i hi
  rw [List.mem_singleton.1 hi]
  exact Span.contains_iff.2 ⟨Nat.le_succ _, h.insertAt_lt.le⟩

/-- The call as the text shows it: it starts with the first name of its callee, ends with the
parenthesis of its arguments, and holds the last name of the callee. -/
structure Call.Shown (text : Bytes) (c : Call) : Prop where
  le_length : c.span.stop ≤ text.length
  callee : ∃ name, c.callee.path.head? = some name ∧ name <+: text.slice c.span.start c.span.stop
  closing : [byte ')'] <:+ text.slice c.span.start c.span.stop
  calleeSpan : c.span.contains c.calleeSpan = true

theorem Call.Placed.shown {text : Bytes} {c : Call} (h : c.Placed text) : c.Shown text where
  le_length := h.le_length
  callee := h.callee.named
  closing := by
    have hc := h.callee
    rw [← h.closed]
    exact Bytes.suffix_slice (hc.le_start.trans_lt (hc.start_lt.trans_le hc.stop_le)) h.le_length
  calleeSpan := Span.contains_iff.2 ⟨h.callee.le_start, h.callee.stop_le⟩

/-- The tag as the text shows it: it starts with `<`, and attributes are added right before what
ends it, which is `/>` if the element closes itself and `>` if not. -/
structure Element.Shown (text : Bytes) (e : Element) : Prop where
  opening : text.byteAt e.span.start = byte '<'
  closing :
    (e.selfClosing = true ∧ text.slice e.insertAt (e.insertAt + 2) = utf8 "/>" ∧
        e.span.stop = e.insertAt + 2) ∨
      (e.selfClosing = false ∧ text.byteAt e.insertAt = byte '>' ∧ e.span.stop = e.insertAt + 1)

theorem Element.Placed.shown {text : Bytes} {e : Element} (h : e.Placed text) :
    e.Shown text := by
  refine ⟨h.opening, ?_⟩
  have hle := h.le_length
  rcases h.closing with ⟨hself, hstop, hslash, hgreater⟩ | ⟨hself, hstop, hgreater⟩
  · refine .inl ⟨hself, ?_, hstop⟩
    rw [Bytes.slice_succ (by omega) (by omega), Bytes.slice_succ (by omega) (by omega),
      Bytes.slice_self, hslash, hgreater]
    decide
  · exact .inr ⟨hself, hgreater, hstop⟩

namespace Outline

/-- The spans of all calls and tags. -/
def spans (o : Outline) : List Span := o.calls.map (·.span) ++ o.elements.map (·.span)

theorem spans_eq (o : Outline) : o.spans = o.pieces.map (·.span) := by
  simp [spans, pieces, Function.comp_def, Call.piece, Element.piece]

variable {text : Bytes} {lo hi : Nat} {o : Outline}

theorem Held.closed (h : o.Held text lo hi) : ∀ p ∈ o.pieces, p.Closed := by
  intro p hp
  rcases List.mem_append.1 hp with hp | hp
  · obtain ⟨c, hc, rfl⟩ := List.mem_map.1 hp
    exact (h.calls c hc).closed_piece
  · obtain ⟨e, he, rfl⟩ := List.mem_map.1 hp
    exact (h.elements e he).closed_piece

theorem Held.laminar (h : o.Held text lo hi) : o.spans.Pairwise Span.Laminar := by
  rw [spans_eq, List.pairwise_map]
  exact h.clear.imp_of_mem fun hp hq hc => hc.laminar (h.closed _ hp) (h.closed _ hq)

/-- The calls and tags of a file that can be read are in the order of the text, look as recorded
there, and never share bytes by halves. -/
theorem parse_shown {s : Source} (hs : s.content.Short) (h : parse s = .ok o) :
    (o.calls.Pairwise (·.span.start < ·.span.start) ∧ ∀ c ∈ o.calls, c.Shown s.content) ∧
    (o.elements.Pairwise (·.span.start < ·.span.start) ∧ ∀ e ∈ o.elements, e.Shown s.content) ∧
    o.spans.Pairwise Span.Laminar := by
  have held := (parse_sound h).held hs
  exact ⟨⟨held.calls_sorted, fun c hc => (held.calls c hc).shown⟩,
    ⟨held.elements_sorted, fun e he => (held.elements e he).shown⟩, held.laminar⟩

/-- Calls and tags inside each other, beside a method that is no call. -/
def nestedSource : Source :=
  ⟨utf8 "a.tsx", utf8 "a.b(<A c=\x7bf(1)\x7d/>, \x7b m(x = g()) \x7b\x7d \x7d)(<B></B>)"⟩

def nestedOutline : Outline :=
  match parse nestedSource with
  | .ok o => o
  | .error _ => empty

theorem parse_shown_nestedSource :
    nestedSource.content.Short ∧ parse nestedSource = .ok nestedOutline ∧
    nestedOutline.calls.length = 3 ∧ nestedOutline.elements.length = 2 ∧
    (nestedOutline.calls.Pairwise (·.span.start < ·.span.start) ∧
      ∀ c ∈ nestedOutline.calls, c.Shown nestedSource.content) ∧
    (nestedOutline.elements.Pairwise (·.span.start < ·.span.start) ∧
      ∀ e ∈ nestedOutline.elements, e.Shown nestedSource.content) ∧
    nestedOutline.spans.Pairwise Span.Laminar := by
  have hs : nestedSource.content.Short := by
    unfold Bytes.Short
    decide +kernel
  have hp : parse nestedSource = .ok nestedOutline := by decide +kernel
  exact ⟨hs, hp, by decide +kernel, by decide +kernel, parse_shown hs hp⟩

/-- A function with a type parameter and a pattern. -/
def genericSource : Source := ⟨utf8 "a.ts", utf8 "f(<T>(\x7b x \x7d) => x)"⟩

def genericOutline : Outline :=
  match parse genericSource with
  | .ok o => o
  | .error _ => empty

def genericParams : Params where
  hasParens := true
  openParenEnd := 6
  count := 1
  first := .objectPattern
  firstName := []
  patternBraceEnd := 7
  span := ⟨5, 12⟩

/-- A comma between type parameters ends the argument that they stand in. -/
def commaSource : Source := ⟨utf8 "a.tsx", utf8 "f(<T,>(x) => x)"⟩

def commaOutline : Outline :=
  match parse commaSource with
  | .ok o => o
  | .error _ => empty

end Outline

end JsxPresence
