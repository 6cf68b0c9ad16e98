import JsxPresence.Outline.Parse
import JsxPresence.Proofs.Token.Place

namespace JsxPresence

namespace Bytes

/-- Two pieces of text with blanks between them. The second one starts at the first offset that is
not recorded any more, so offsets are counted from there as from the start of the text. -/
def apart (front back : Bytes) : Bytes :=
  front ++ (List.replicate (offsetLimit - front.length) (byte ' ') ++ back)

variable {front back : Bytes} (h : front.length ≤ offsetLimit)
include h

theorem length_apart : (apart front back).length = offsetLimit + back.length := by
  simp only [apart, List.length_append, List.length_replicate]
  omega

theorem drop_offsetLimit_apart : (apart front back).drop offsetLimit = back := by
  rw [apart, ← List.append_assoc]
  refine List.drop_left' ?_
  rw [List.length_append, List.length_replicate]
  omega

theorem stepBound_apart :
    Outline.stepBound (apart front back) = 2 * (offsetLimit + back.length) + 8 := by
  rw [Outline.stepBound, length_apart h]

end Bytes

namespace Lexer

variable {text : Bytes} {lx other : Lexer text}

theorem ahead_of_scan {n : Nat} (h : Trivia.scan lx.rest = ⟨n, false, none⟩) :
    lx.ahead = { lx with cursor := lx.cursor.advance n, newlinePending := false } := by
  have hrest : ({ lx with newlinePending := false } : Lexer text).rest = lx.rest := rfl
  simp [ahead, skipTrivia, hrest, h]

theorem next_of_ahead (h : lx.ahead = other.ahead) : lx.next = other.next := by
  unfold ahead at h
  simp only [next, h]

end Lexer

section gap

variable {front back : Bytes} (h : front.length ≤ offsetLimit)

/-- The lexer put behind the blanks. -/
def Lexer.leap (lx : Lexer (Bytes.apart front back)) : Lexer (Bytes.apart front back) :=
  { lx with cursor := ⟨offsetLimit, back, (Bytes.drop_offsetLimit_apart h).symm⟩ }

/-- A lexer right before the blanks goes on behind them. -/
theorem Lexer.next_leap {lx : Lexer (Bytes.apart front back)} (hpos : lx.pos = front.length)
    (hback : back.StartsBare) : lx.next = (lx.leap h).next := by
  have hblanks : ∀ b ∈ List.replicate (offsetLimit - front.length) (byte ' '),
      Trivia.isBlank b = true := fun b hb => by
    rw [List.eq_of_mem_replicate hb]
    decide
  have hscan : Trivia.scan lx.rest = ⟨offsetLimit - front.length, false, none⟩ := by
    rw [lx.rest_eq, hpos, Bytes.apart, List.drop_left, Trivia.scan,
      Trivia.scanFrom_blanks hblanks hback, List.length_replicate, Nat.zero_add]
  have hscan' : Trivia.scan (lx.leap h).rest = ⟨0, false, none⟩ :=
    @Trivia.scanFrom_blanks [] back (by simp) hback 0 false
  apply next_of_ahead
  rw [ahead_of_scan hscan, ahead_of_scan hscan']
  have hcursor : lx.cursor.advance (offsetLimit - front.length) =
      (lx.leap h).cursor.advance 0 := by
    apply Cursor.ext_pos
    change lx.pos + (offsetLimit - front.length) = offsetLimit + 0
    omega
  rw [hcursor]
  rfl

namespace Reader

/-- A semicolon is an item of its own. -/
theorem walkItem_semicolon {text : Bytes} {r : Reader text} (hk : r.current.kind = .semicolon)
    (elements : Bool) (fuel fuel' : Nat) :
    r.walkItem (walk elements (fuel + 1)) fuel' = walkToken r := by
  simp [walkItem, atImport, atDeclaration, atVariableKeyword, atFunctionOrClass, isKeyword, isWord,
    Token.isKeyword, Token.isWord, hk, walk, walkUnit]

variable {r : Reader (Bytes.apart front back)} (hk : r.current.kind = .semicolon)
  (hpos : r.lexer.pos = front.length) (hback : back.StartsBare)
include hk hpos hback

theorem walkItem_leap (elements : Bool) (fuel fuel' : Nat) :
    r.walkItem (walk elements (fuel + 1)) fuel' =
      walkToken { r with lexer := r.lexer.leap h } := by
  have he : r.atEnd = false := by simp [atEnd, is, hk]
  have he' : ({ r with lexer := r.lexer.leap h } : Reader _).atEnd = false := he
  have hstep : r.step = ({ r with lexer := r.lexer.leap h } : Reader _).step := by
    simp only [step, he, he', Bool.false_eq_true, if_false]
    rw [Lexer.next_leap h hpos hback]
  rw [walkItem_semicolon hk, walkToken, walkToken, advance, advance, hstep]

/-- What stands behind the blanks is read as if it followed at once. -/
theorem walkItems_leap (elements : Bool) (fuel fuel' : Nat) :
    walkItems (walk elements (fuel + 1)) fuel' r =
      walkItems (walk elements (fuel + 1)) fuel' { r with lexer := r.lexer.leap h } := by
  cases fuel' with
  | zero => rfl
  | succ fuel' =>
    have he : r.atEnd = false := by simp [atEnd, is, hk]
    have he' : ({ r with lexer := r.lexer.leap h } : Reader _).atEnd = false := he
    have hk' : ({ r with lexer := r.lexer.leap h } : Reader _).current.kind = .semicolon := hk
    have hitem := walkItem_leap h hk hpos hback elements fuel fuel'
    rw [← walkItem_semicolon hk' elements fuel fuel'] at hitem
    simp only [walkItems, he, he', hitem, Bool.false_eq_true, if_false]

end Reader

/-- A text of one item and, behind the blanks, more of them is read piece by piece, if a semicolon
ends the item. -/
theorem Outline.read_apart {elements : Bool} {bound : Nat} {head tail : Outline}
    {r : Reader (Bytes.apart front back)} {errors : List LexicalError}
    (hbound : stepBound (Bytes.apart front back) = bound + 1)
    (hstart : (Reader.start (Bytes.apart front back)).checked =
      .ok (Reader.start (Bytes.apart front back)))
    (he : (Reader.start (Bytes.apart front back)).atEnd = false)
    (hitem : (Reader.start (Bytes.apart front back)).walkItem (Reader.walk elements (bound + 1))
      bound = .ok (head, r))
    (hk : r.current.kind = .semicolon) (hpos : r.lexer.pos = front.length)
    (hback : back.StartsBare)
    (hrest : (Reader.walkItems (Reader.walk elements (bound + 1)) bound
      { r with lexer := r.lexer.leap h }).map (fun x => (x.1, x.2.lexer.errors)) =
        .ok (tail, errors)) :
    read elements (Bytes.apart front back) = .ok (head ++ tail, errors) := by
  rw [← Reader.walkItems_leap h hk hpos hback] at hrest
  cases hitems : Reader.walkItems (Reader.walk elements (bound + 1)) bound r with
  | error e =>
    rw [hitems] at hrest
    cases hrest
  | ok x =>
    rw [hitems] at hrest
    cases hrest
    unfold read
    rw [hstart, hbound]
    change (Reader.walkItems _ (bound + 1) _ >>= _) = _
    rw [Reader.walkItems, he]
    simp only [Bool.false_eq_true, if_false, hitem]
    change ((Reader.walkItems _ bound r >>= _) >>= _) = _
    rw [hitems]
    rfl

end gap

end JsxPresence
