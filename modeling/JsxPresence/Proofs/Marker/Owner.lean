import Mathlib.Data.List.Pairwise
import JsxPresence.Proofs.Marker
import JsxPresence.Proofs.Outline.Gap
import JsxPresence.Proofs.Outline.Nesting

namespace JsxPresence

/-- The span lies inside the other one and meets neither of its ends. -/
def Span.Inside (s t : Span) : Prop := t.start < s.start ∧ s.stop < t.stop

theorem Span.Inside.contains {s t : Span} (h : s.Inside t) : t.contains s = true :=
  contains_iff.2 ⟨h.1.le, h.2.le⟩

theorem Span.Inside.length_lt {s t : Span} (h : s.Inside t) (hs : s.start < s.stop) :
    s.length < t.length := by
  obtain ⟨hstart, hstop⟩ := h
  simp only [length]
  omega

namespace Owner

/-- The definition that a call makes: the component function is called with a function as its only
argument. -/
structure IsOf (name : Bytes) (call : Call) (owner : Owner) : Prop where
  called : call.callee = .identifier name
  callSpan : owner.callSpan = call.span
  argument : ∃ arrow, call.arguments = [⟨.function arrow owner.params, owner.functionSpan⟩]

/-- The call makes the definition, and its function holds the span. -/
structure IsAround (name : Bytes) (inner : Span) (call : Call) (owner : Owner) : Prop
    extends IsOf name call owner where
  contains : owner.functionSpan.contains inner = true

variable {name : Bytes} {inner : Span} {call : Call} {owner other : Owner}

theorem IsOf.unique (h : IsOf name call owner) (k : IsOf name call other) : owner = other := by
  obtain ⟨arrow, hargs⟩ := h.argument
  obtain ⟨arrow', hargs'⟩ := k.argument
  rw [hargs] at hargs'
  simp only [List.cons.injEq, Argument.mk.injEq, ArgumentKind.function.injEq, and_true] at hargs'
  obtain ⟨⟨-, hparams⟩, hspan⟩ := hargs'
  cases owner
  cases other
  have hcall := h.callSpan.trans k.callSpan.symm
  simp_all

theorem ofCall?_eq_some_iff :
    ofCall? name inner call = some owner ↔ IsAround name inner call owner := by
  constructor
  · intro h
    unfold ofCall? at h
    split at h
    · rename_i arrow params span hargs
      rcases ite_eq_some h with ⟨hc, h⟩ | ⟨-, h⟩
      · cases h
        obtain ⟨hto, hin⟩ := Bool.and_eq_true_iff.1 hc
        exact ⟨⟨of_decide_eq_true hto, rfl, arrow, hargs⟩, hin⟩
      · cases h
    · cases h
  · intro h
    obtain ⟨arrow, hargs⟩ := h.argument
    simp [ofCall?, hargs, Call.isTo, h.called, h.contains, ← h.callSpan]

theorem innermost?_mem {l : List Owner} {owner : Owner} (h : innermost? l = some owner) :
    owner ∈ l := by
  cases l with
  | nil => cases h
  | cons a rest =>
    cases h
    induction rest generalizing a with
    | nil => exact List.mem_singleton_self a
    | cons b rest ih =>
      rw [List.foldl_cons]
      rcases List.mem_cons.1 (ih (closer a b)) with h | h
      · rw [h]
        exact of_ite (P := (· ∈ a :: b :: rest)) (fun _ => by simp) fun _ => by simp
      · exact List.mem_cons_of_mem _ (List.mem_cons_of_mem _ h)

theorem innermost?_eq_none_iff {l : List Owner} : innermost? l = none ↔ l = [] := by
  cases l <;> simp [innermost?]

/-- Nothing is shorter than the innermost definition. -/
theorem innermost?_length_le {l : List Owner} (h : innermost? l = some owner) :
    ∀ a ∈ l, owner.functionSpan.length ≤ a.functionSpan.length := by
  cases l with
  | nil => cases h
  | cons a rest =>
    cases h
    induction rest generalizing a with
    | nil => simp
    | cons b rest ih =>
      obtain ⟨hcloser, hrest⟩ := List.forall_mem_cons.1 (ih (closer a b))
      have hboth : (closer a b).functionSpan.length ≤ a.functionSpan.length ∧
          (closer a b).functionSpan.length ≤ b.functionSpan.length := by
        unfold closer
        split_ifs <;> omega
      rw [List.foldl_cons, List.forall_mem_cons, List.forall_mem_cons]
      exact ⟨hcloser.trans hboth.1, hcloser.trans hboth.2, hrest⟩

/-- The definition around a span is one that a call of the file makes. -/
theorem exists_call_of_around? {o : Outline} (h : around? o name inner = some owner) :
    ∃ call ∈ o.calls, IsAround name inner call owner := by
  obtain ⟨call, hc, ho⟩ := List.mem_filterMap.1 (innermost?_mem h)
  exact ⟨call, hc, ofCall?_eq_some_iff.1 ho⟩

end Owner

/-- Of two definitions that share a byte, the function of the later one lies inside the function of
the earlier one. -/
theorem Outline.Held.owners_nested {text : Bytes} {lo hi : Nat} {o : Outline}
    (h : o.Held text lo hi) (name : Bytes) :
    o.calls.Pairwise fun c d => ∀ a b, Owner.IsOf name c a → Owner.IsOf name d b →
      ∀ n, a.functionSpan.start ≤ n ∧ n < a.functionSpan.stop →
        b.functionSpan.start ≤ n ∧ n < b.functionSpan.stop →
          b.functionSpan.Inside a.functionSpan := by
  have hboth := h.clear_calls.and h.calls_sorted
  refine hboth.imp_of_mem fun {c d} hc hd ⟨hclear, hlt⟩ a b ha hb n hna hnb => ?_
  obtain ⟨arrow, hargs⟩ := ha.argument
  obtain ⟨arrow', hargs'⟩ := hb.argument
  obtain ⟨hstart, hstop, -⟩ := (h.calls c hc).argument _ (hargs ▸ List.mem_singleton_self _)
  obtain ⟨hstart', hstop', -⟩ := (h.calls d hd).argument _ (hargs' ▸ List.mem_singleton_self _)
  dsimp only at hstart hstop hstart' hstop'
  have hholes : c.piece.holes = [a.functionSpan] := by
    simp [Call.piece, hargs, ArgumentKind.isReference]
  have hholes' : d.piece.holes = [b.functionSpan] := by
    simp [Call.piece, hargs', ArgumentKind.isReference]
  simp only [Piece.Clear, hholes, hholes', List.mem_singleton, exists_eq_left, Span.contains_iff]
    at hclear
  simp only [Call.piece] at hclear
  simp only [Span.Inside]
  omega

namespace Owner

/-- The definition is around the span, and the functions of all others that are hold its own. -/
def Innermost (o : Outline) (name : Bytes) (inner : Span) (owner : Owner) : Prop :=
  ∃ call ∈ o.calls, IsAround name inner call owner ∧
    ∀ other ∈ o.calls, ∀ a, IsAround name inner other a →
      a.functionSpan.contains owner.functionSpan = true

variable {text : Bytes} {lo hi : Nat} {o : Outline} {name : Bytes} {inner : Span}

theorem around?_eq_none_iff :
    around? o name inner = none ↔ ∀ call ∈ o.calls, ∀ owner, ¬IsAround name inner call owner := by
  rw [around?, innermost?_eq_none_iff, List.filterMap_eq_nil_iff]
  simp only [Option.eq_none_iff_forall_ne_some, ne_eq, ofCall?_eq_some_iff]

/-- Two definitions that share a byte are the same, or one is inside the other. -/
theorem eq_or_inside (h : o.Held text lo hi) {c d : Call} (hc : c ∈ o.calls) (hd : d ∈ o.calls)
    {a b : Owner} (ha : IsOf name c a) (hb : IsOf name d b) {n : Nat}
    (hna : a.functionSpan.start ≤ n ∧ n < a.functionSpan.stop)
    (hnb : b.functionSpan.start ≤ n ∧ n < b.functionSpan.stop) :
    a = b ∨ a.functionSpan.Inside b.functionSpan ∨ b.functionSpan.Inside a.functionSpan := by
  let R (c d : Call) : Prop := ∀ a b, IsOf name c a → IsOf name d b →
    ∀ n, a.functionSpan.start ≤ n ∧ n < a.functionSpan.stop →
      b.functionSpan.start ≤ n ∧ n < b.functionSpan.stop →
        a = b ∨ a.functionSpan.Inside b.functionSpan ∨ b.functionSpan.Inside a.functionSpan
  have hsymm : Std.Symm R :=
    ⟨fun c d hcd a b ha hb n hna hnb => (hcd b a hb ha n hnb hna).imp Eq.symm Or.symm⟩
  have hself : ∀ c ∈ o.calls, R c c := fun c _ a b ha hb _ _ _ => .inl (ha.unique hb)
  have hnested : o.calls.Pairwise R := (h.owners_nested name).imp
    fun hin a b ha hb n hna hnb => .inr (.inr (hin a b ha hb n hna hnb))
  exact List.Pairwise.forall_of_forall hself hnested hc hd a b ha hb n hna hnb

/-- A function around a span holds its first byte. -/
theorem IsAround.holds {call : Call} {owner : Owner} (h : IsAround name inner call owner)
    (hinner : inner.start < inner.stop) :
    owner.functionSpan.start ≤ inner.start ∧ inner.start < owner.functionSpan.stop := by
  have hin := Span.contains_iff.1 h.contains
  omega

/-- The shortest definition around a span is the innermost one. -/
theorem around?_eq_some_iff (h : o.Held text lo hi) (hinner : inner.start < inner.stop)
    {owner : Owner} : around? o name inner = some owner ↔ Innermost o name inner owner := by
  have hshortest {owner : Owner} (ho : around? o name inner = some owner) :
      Innermost o name inner owner := by
    obtain ⟨call, hc, haround⟩ := exists_call_of_around? ho
    refine ⟨call, hc, haround, fun other hother a ha => ?_⟩
    have hle := innermost?_length_le ho a
      (List.mem_filterMap.2 ⟨other, hother, ofCall?_eq_some_iff.2 ha⟩)
    have hholds := ha.holds hinner
    rcases eq_or_inside h hc hother haround.toIsOf ha.toIsOf (haround.holds hinner) hholds with
      rfl | hin | hin
    · exact Span.contains_iff.2 ⟨le_rfl, le_rfl⟩
    · exact hin.contains
    · exact absurd hle (Nat.not_le.2 (hin.length_lt (hholds.1.trans_lt hholds.2)))
  refine ⟨hshortest, fun ⟨call, hc, haround, hall⟩ => ?_⟩
  cases hfound : around? o name inner with
  | none => exact absurd haround (around?_eq_none_iff.1 hfound call hc owner)
  | some found =>
    obtain ⟨other, hother, hfoundAround, hfoundAll⟩ := hshortest hfound
    have h1 := Span.contains_iff.1 (hall other hother found hfoundAround)
    have h2 := Span.contains_iff.1 (hfoundAll call hc owner haround)
    rcases eq_or_inside h hother hc hfoundAround.toIsOf haround.toIsOf
      (hfoundAround.holds hinner) (haround.holds hinner) with rfl | hin | hin
    · rfl
    · exact absurd hin.1 (Nat.not_lt.2 h1.1)
    · exact absurd hin.1 (Nat.not_lt.2 h2.1)

end Owner

namespace Marker

variable {options : Options} {file : ParsedFile} {m : Marker}

/-- A marker call is owned by the innermost definition around it, if there is one: the functions
around the call lie inside each other, the later in the text the further inside, and the owner's is
the one that all others hold. -/
theorem owner_innermost (hf : file.Read) (hs : file.source.content.Short)
    (hm : m ∈ all options file) :
    (file.outline.calls.Pairwise fun c d => ∀ a b,
      Owner.IsAround options.componentFunction m.callSpan c a →
      Owner.IsAround options.componentFunction m.callSpan d b →
        b.functionSpan.Inside a.functionSpan) ∧
    (m.owner = none ↔ ∀ call ∈ file.outline.calls, ∀ owner,
      ¬Owner.IsAround options.componentFunction m.callSpan call owner) ∧
    ∀ owner, m.owner = some owner ↔
      Owner.Innermost file.outline options.componentFunction m.callSpan owner := by
  obtain ⟨-, call, hc, hof⟩ := exists_call_of_mem_all hm
  have hheld := hf.held hs
  have hinner : m.callSpan.start < m.callSpan.stop := by
    rw [hof.callSpan]
    exact (hheld.within _ (Outline.piece_mem_of_call hc)).2.1
  rw [hof.owner, ← hof.callSpan]
  refine ⟨?_, Owner.around?_eq_none_iff, fun owner => Owner.around?_eq_some_iff hheld hinner⟩
  exact (hheld.owners_nested _).imp fun hnested a b ha hb =>
    hnested a b ha.toIsOf hb.toIsOf m.callSpan.start (ha.holds hinner) (hb.holds hinner)

/-- A definition inside another one. -/
def twiceOwnedSource : Source :=
  ⟨utf8 "a.tsx", utf8 "component$((a) => component$((b) => isComponentPresent(X)))"⟩

def twiceOwnedFile : ParsedFile where
  path := utf8 "/proj/a.tsx"
  source := twiceOwnedSource
  outline :=
    match Outline.parse twiceOwnedSource with
    | .ok o => o
    | .error _ => .empty

def innerOwner : Owner where
  callSpan := ⟨18, 58⟩
  functionSpan := ⟨29, 57⟩
  params :=
    { hasParens := true
      openParenEnd := 30
      count := 1
      first := .identifier
      firstName := utf8 "b"
      patternBraceEnd := 0
      span := ⟨29, 32⟩ }

def twiceOwnedMarker : Marker where
  target := utf8 "X"
  callSpan := ⟨36, 57⟩
  argumentSpan := ⟨55, 56⟩
  argumentText := utf8 "X"
  argumentCount := 1
  owner := some innerOwner

theorem owner_innermost_twiceOwned :
    twiceOwnedFile.Read ∧ twiceOwnedMarker ∈ all {} twiceOwnedFile ∧
      Owner.Innermost twiceOwnedFile.outline (utf8 "component$") ⟨36, 57⟩ innerOwner ∧
      ∃ c ∈ twiceOwnedFile.outline.calls, ∃ outer,
        Owner.IsAround (utf8 "component$") ⟨36, 57⟩ c outer ∧
          innerOwner.functionSpan.Inside outer.functionSpan := by
  have hread : twiceOwnedFile.Read := by
    unfold ParsedFile.Read
    decide +kernel
  have hshort : twiceOwnedFile.source.content.Short := by
    unfold Bytes.Short
    decide +kernel
  have hm : twiceOwnedMarker ∈ all {} twiceOwnedFile := by decide +kernel
  obtain ⟨-, -, howner⟩ := owner_innermost hread hshort hm
  refine ⟨hread, hm, (howner innerOwner).1 rfl, ?_⟩
  have houter : (twiceOwnedFile.outline.calls.any fun c =>
      (Owner.ofCall? (utf8 "component$") ⟨36, 57⟩ c).any fun outer =>
        outer.functionSpan = ⟨11, 58⟩) = true := by
    decide +kernel
  obtain ⟨c, hc, hany⟩ := List.any_eq_true.1 houter
  obtain ⟨outer, hof, hspan⟩ := (Option.any_eq_true _ _).1 hany
  refine ⟨c, hc, outer, Owner.ofCall?_eq_some_iff.1 hof, ?_⟩
  rw [of_decide_eq_true hspan]
  exact ⟨by decide, by decide⟩

def soloText : Bytes := utf8 "component$(()=>isComponentPresent(X));"

def outlineOf (text : Bytes) : Outline :=
  match Outline.parse ⟨utf8 "a.ts", text⟩ with
  | .ok o => o
  | .error _ => .empty

/-- A definition, and more of the file behind the offsets that are recorded. -/
def soloThen (back : Bytes) : ParsedFile where
  path := utf8 "/proj/a.ts"
  source := ⟨utf8 "a.ts", Bytes.apart soloText back⟩
  outline := outlineOf soloText ++ outlineOf back

/-- Where the reader of the file stands when the definition is read. -/
def soloEnd (back : Bytes) : Reader (Bytes.apart soloText back) where
  lexer := ⟨.ofPos 38, true, false, [], []⟩
  current := ⟨.semicolon, utf8 ";", ⟨37, 38⟩, false⟩
  previous := some ⟨.closeParen, utf8 ")", ⟨36, 37⟩, false⟩
  lastEnd := 37

theorem length_soloText : soloText.length = 38 := by decide +kernel

theorem soloText_le : soloText.length ≤ offsetLimit := by decide +kernel

theorem soloThen_read {back : Bytes} (bound : Nat)
    (hbound : 2 * (offsetLimit + back.length) + 8 = bound + 1) (hback : back.StartsBare)
    (hstart : (Reader.start (Bytes.apart soloText back)).checked =
      .ok (Reader.start (Bytes.apart soloText back)))
    (he : (Reader.start (Bytes.apart soloText back)).atEnd = false)
    (hitem : (Reader.start (Bytes.apart soloText back)).walkItem (Reader.walk false (bound + 1))
      bound = .ok (outlineOf soloText, soloEnd back))
    (hrest : (Reader.walkItems (Reader.walk false (bound + 1)) bound
      { soloEnd back with lexer := (soloEnd back).lexer.leap soloText_le }).map
        (fun x => (x.1, x.2.lexer.errors)) = .ok (outlineOf back, [])) :
    (soloThen back).Read := by
  have hdialect : (soloThen back).source.dialect.allowsElements = false := by
    change (Dialect.ofPath (utf8 "a.ts")).allowsElements = false
    decide +kernel
  have hk : (soloEnd back).current.kind = .semicolon := rfl
  have hpos : (soloEnd back).lexer.pos = soloText.length := by
    rw [length_soloText]
    rfl
  have hread : Outline.read false (soloThen back).source.content =
      .ok (outlineOf soloText ++ outlineOf back, []) :=
    Outline.read_apart soloText_le ((Bytes.stepBound_apart soloText_le).trans hbound) hstart he
      hitem hk hpos hback hrest
  rw [ParsedFile.Read, Outline.parse, hdialect, hread]
  rfl

def crossingText : Bytes := utf8 "0;component$(()=>0+isComponentPresent(Y))"

def soloOwner : Owner where
  callSpan := ⟨0, 37⟩
  functionSpan := ⟨11, 36⟩
  params :=
    { hasParens := true
      openParenEnd := 12
      count := 0
      first := .none
      firstName := []
      patternBraceEnd := 0
      span := ⟨11, 13⟩ }

def soloMarker : Marker where
  target := utf8 "X"
  callSpan := ⟨15, 36⟩
  argumentSpan := ⟨34, 35⟩
  argumentText := utf8 "X"
  argumentCount := 1
  owner := some soloOwner

/-- In a text that is too long two functions around a marker call can be recorded across each
other. -/
theorem owner_innermost_crossing :
    (soloThen crossingText).Read ∧ soloMarker ∈ all {} (soloThen crossingText) ∧
      soloMarker.owner = some soloOwner ∧
      ∃ call ∈ (soloThen crossingText).outline.calls, ∃ other,
        Owner.IsAround (utf8 "component$") soloMarker.callSpan call other ∧
          other.functionSpan.contains soloOwner.functionSpan = false ∧
          soloOwner.functionSpan.contains other.functionSpan = false := by
  have hread : (soloThen crossingText).Read :=
    soloThen_read 8589934681 (by decide +kernel) (by decide +kernel) (by decide +kernel)
      (by decide +kernel) (by decide +kernel) (by decide +kernel)
  have hother : ((soloThen crossingText).outline.calls.any fun c =>
      (Owner.ofCall? (utf8 "component$") soloMarker.callSpan c).any fun other =>
        other.functionSpan = ⟨13, 40⟩) = true := by
    decide +kernel
  obtain ⟨call, hc, hany⟩ := List.any_eq_true.1 hother
  obtain ⟨other, hof, hspan⟩ := (Option.any_eq_true _ _).1 hany
  refine ⟨hread, by decide +kernel, rfl, call, hc, other, Owner.ofCall?_eq_some_iff.1 hof, ?_⟩
  rw [of_decide_eq_true hspan]
  exact ⟨by decide, by decide⟩

end Marker

end JsxPresence
