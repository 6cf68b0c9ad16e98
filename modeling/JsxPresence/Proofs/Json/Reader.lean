import Mathlib.Data.List.TakeWhile
import JsxPresence.Proofs.Bytes
import JsxPresence.Proofs.Json.Grammar

namespace JsxPresence.Json

def skipBlanks (t : Bytes) : Bytes := t.dropWhile isBlank

def readNatural? (t : Bytes) : Option (Nat × Bytes) :=
  let digits := t.takeWhile isDigit
  if digits.isEmpty || (digits.head? = some (byte '0') && digits.length ≠ 1) then none
  else some (natural digits, t.dropWhile isDigit)

def readInteger? (t : Bytes) : Option (Int × Bytes) :=
  match Bytes.strip? [byte '-'] t with
  | some t => (readNatural? t).map fun x => (-x.1, x.2)
  | none => (readNatural? t).map fun x => (x.1, x.2)

def readUnit? : Bytes → Option (Piece × Bytes)
  | a :: b :: c :: d :: t => (codeUnit? a b c d).map fun n => (.unit n, t)
  | _ => none

/-- What stands behind a backslash. -/
def readEscape? : Bytes → Option (Piece × Bytes)
  | [] => none
  | e :: t =>
    match letter? e with
    | some b => some (.plain b, t)
    | none => if e = byte 'u' then readUnit? t else none

def readPiece? : Bytes → Option (Piece × Bytes)
  | [] => none
  | b :: t =>
    if b = backslash then readEscape? t
    else if b = doubleQuote || isControl b then none
    else some (.plain b, t)

/-- Less than `n` pieces, up to the closing quote. -/
def readPieces? : Nat → Bytes → Option (List Piece × Bytes)
  | 0, _ => none
  | n + 1, t =>
    match Bytes.strip? [doubleQuote] t with
    | some t => some ([], t)
    | none => do
      let x ← readPiece? t
      let y ← readPieces? n x.2
      return (x.1 :: y.1, y.2)

def readString? (t : Bytes) : Option (Bytes × Bytes) := do
  let t ← Bytes.strip? [doubleQuote] t
  let x ← readPieces? t.length t
  return (Piece.text x.1, x.2)

section

variable {α : Type} (item? : Bytes → Option (α × Bytes)) (close : UInt8)

/-- One thing or more, with commas between them, up to a closing byte; at most `n`. -/
def readSequence? : Nat → Bytes → Option (List α × Bytes)
  | 0, _ => none
  | n + 1, t => do
    let x ← item? t
    match x.2 with
    | [] => none
    | b :: t =>
      if b = close then return ([x.1], t)
      else if b = comma then
        let y ← readSequence? n t
        return (x.1 :: y.1, y.2)
      else none

/-- As many things as there are up to a closing byte. -/
def readEnclosed? (t : Bytes) : Option (List α × Bytes) :=
  match Bytes.strip? [close] (skipBlanks t) with
  | some t => some ([], t)
  | none => readSequence? item? close t.length t

end

section

variable (value? : Bytes → Option (Value × Bytes))

def readSpaced? (t : Bytes) : Option (Value × Bytes) :=
  (value? (skipBlanks t)).map fun x => (x.1, skipBlanks x.2)

def readMember? (t : Bytes) : Option ((Bytes × Value) × Bytes) := do
  let key ← readString? (skipBlanks t)
  let t ← Bytes.strip? [byte ':'] (skipBlanks key.2)
  let v ← readSpaced? value? t
  return ((key.1, v.1), v.2)

end

def readWord? (t : Bytes) : Option (Value × Bytes) :=
  words.findSome? fun w => (Bytes.strip? w.1 t).map fun r => (w.2, r)

/-- The first byte of an integer. -/
def startsInteger (b : UInt8) : Bool := isDigit b || b = byte '-'

/-- A value that is nested less than so many times. What it is shows in its first byte. -/
def readValue? : Nat → Bytes → Option (Value × Bytes)
  | 0, _ => none
  | _ + 1, [] => none
  | depth + 1, b :: t =>
    if b = doubleQuote then (readString? (b :: t)).map fun x => (.string x.1, x.2)
    else if b = openBracket then
      (readEnclosed? (readSpaced? (readValue? depth)) closeBracket t).map fun x => (.array x.1, x.2)
    else if b = openBrace then
      (readEnclosed? (readMember? (readValue? depth)) closeBrace t).map fun x =>
        (.ofMembers x.1, x.2)
    else if startsInteger b then (readInteger? (b :: t)).map fun x => (.integer x.1, x.2)
    else readWord? (b :: t)

/-- The value of a whole text. -/
def read (t : Bytes) : Option Value := do
  let x ← readSpaced? (readValue? t.length) t
  if x.2 = [] then return x.1 else none

/-- What a reader takes from the front of a text is as the predicate says. -/
def Takes {α : Type} (read? : Bytes → Option (α × Bytes)) (P : α → Bytes → Prop) : Prop :=
  ∀ t x r, read? t = some (x, r) → ∃ s, t = s ++ r ∧ P x s

theorem exists_blank (t : Bytes) : ∃ w, t = w ++ skipBlanks t ∧ Blank w :=
  ⟨t.takeWhile isBlank, List.takeWhile_append_dropWhile.symm, fun _ hb => List.mem_takeWhile_imp hb⟩

theorem skipBlanks_append {w : Bytes} (hw : Blank w) (t : Bytes) :
    skipBlanks (w ++ t) = skipBlanks t := List.dropWhile_append_of_pos hw

theorem skipBlanks_cons {b : UInt8} (h : isBlank b = false) (t : Bytes) :
    skipBlanks (b :: t) = b :: t := List.dropWhile_cons_of_neg (by simp [h])

/-- No digit comes first. -/
def Ends (r : Bytes) : Prop := ∀ b ∈ r.head?, isDigit b = false

theorem readNatural?_takes : Takes readNatural? IsNatural := by
  intro t n r h
  unfold readNatural? at h
  dsimp only at h
  split at h
  · cases h
  · rename_i hd
    cases h
    simp only [Bool.or_eq_true, List.isEmpty_iff, Bool.and_eq_true, decide_eq_true_eq, not_or,
      not_and, not_not] at hd
    exact ⟨_, List.takeWhile_append_dropWhile.symm, hd.1, fun b hb => List.mem_takeWhile_imp hb,
      hd.2, rfl⟩

theorem readNatural?_append {n : Nat} {t r : Bytes} (h : IsNatural n t) (hr : Ends r) :
    readNatural? (t ++ r) = some (n, r) := by
  have hnone : r.takeWhile isDigit = [] ∧ r.dropWhile isDigit = r := by
    cases r with
    | nil => simp
    | cons b r =>
      have hb : isDigit b = false := hr b rfl
      simp [hb]
  have htake : (t ++ r).takeWhile isDigit = t := by
    rw [List.takeWhile_append_of_pos h.digits, hnone.1, List.append_nil]
  have hdrop : (t ++ r).dropWhile isDigit = r := by
    rw [List.dropWhile_append_of_pos h.digits, hnone.2]
  simpa [readNatural?, htake, hdrop, h.ne_nil, h.value] using h.zero

theorem readInteger?_takes : Takes readInteger? IsInteger := by
  intro t n r h
  unfold readInteger? at h
  split at h
  · rename_i u hu
    obtain ⟨x, hx, he⟩ := Option.map_eq_some_iff.1 h
    cases he
    obtain ⟨s, rfl, hs⟩ := readNatural?_takes _ _ _ hx
    have ht := Bytes.strip?_eq_some_iff.1 hu
    exact ⟨byte '-' :: s, ht, .minus hs⟩
  · obtain ⟨x, hx, he⟩ := Option.map_eq_some_iff.1 h
    cases he
    obtain ⟨s, rfl, hs⟩ := readNatural?_takes _ _ _ hx
    exact ⟨s, rfl, .plain hs⟩

theorem IsNatural.exists_cons {n : Nat} {t : Bytes} (h : IsNatural n t) :
    ∃ b u, t = b :: u ∧ isDigit b = true := by
  obtain ⟨b, u, rfl⟩ := List.exists_cons_of_ne_nil h.ne_nil
  exact ⟨b, u, rfl, h.digits b List.mem_cons_self⟩

theorem readInteger?_append {n : Int} {t r : Bytes} (h : IsInteger n t) (hr : Ends r) :
    readInteger? (t ++ r) = some (n, r) := by
  unfold readInteger?
  cases h with
  | plain h =>
    obtain ⟨b, u, rfl, hb⟩ := h.exists_cons
    have hne : b ≠ byte '-' := by
      rintro rfl
      exact absurd hb (by decide)
    rw [List.cons_append, Bytes.strip?_ne hne [], ← List.cons_append, readNatural?_append h hr]
    rfl
  | @minus n t h =>
    have hstrip : Bytes.strip? [byte '-'] (byte '-' :: (t ++ r)) = some (t ++ r) :=
      Bytes.strip?_append [byte '-'] (t ++ r)
    simp [hstrip, readNatural?_append h hr]

theorem readEscape?_takes {t r : Bytes} {p : Piece} (h : readEscape? t = some (p, r)) :
    ∃ s, t = s ++ r ∧ IsPiece p (backslash :: s) := by
  fun_cases readEscape? t with
  | case1 => cases h
  | case2 e t b he =>
    rw [readEscape?, he] at h
    cases h
    exact ⟨[e], rfl, .letter he⟩
  | case3 t he =>
    rw [readEscape?, he, if_pos rfl] at h
    fun_cases readUnit? t with
    | case1 a b c d t =>
      obtain ⟨n, hn, hx⟩ := Option.map_eq_some_iff.1 h
      cases hx
      exact ⟨[byte 'u', a, b, c, d], rfl, .number hn⟩
    | case2 t hshort =>
      rw [readUnit?] at h
      · cases h
      · exact hshort
  | case4 e t he hu =>
    rw [readEscape?, he, if_neg hu] at h
    cases h

theorem readPiece?_takes : Takes readPiece? IsPiece := by
  intro t p r h
  fun_cases readPiece? t with
  | case1 => cases h
  | case2 t =>
    rw [readPiece?, if_pos rfl] at h
    obtain ⟨s, rfl, hs⟩ := readEscape?_takes h
    exact ⟨backslash :: s, rfl, hs⟩
  | case3 b t hb hc =>
    rw [readPiece?, if_neg hb, if_pos hc] at h
    cases h
  | case4 b t hb hc =>
    rw [readPiece?, if_neg hb, if_neg hc] at h
    cases h
    simp only [Bool.or_eq_true, decide_eq_true_eq, not_or, Bool.not_eq_true] at hc
    exact ⟨[b], rfl, .plain hc.2 hc.1 hb⟩

theorem readPiece?_append {p : Piece} {s : Bytes} (h : IsPiece p s) (r : Bytes) :
    readPiece? (s ++ r) = some (p, r) := by
  cases h with
  | plain hc hq hb => simp [readPiece?, hc, hq, hb]
  | letter he => simp [readPiece?, readEscape?, he]
  | number hn =>
    have hu : letter? (byte 'u') = none := by decide
    simp [readPiece?, readEscape?, readUnit?, hu, hn]

theorem IsPiece.exists_cons {p : Piece} {s : Bytes} (h : IsPiece p s) :
    ∃ b u, s = b :: u ∧ b ≠ doubleQuote := by
  cases h with
  | plain _ hq _ => exact ⟨_, _, rfl, hq⟩
  | letter _ => exact ⟨_, _, rfl, by decide⟩
  | number _ => exact ⟨_, _, rfl, by decide⟩

theorem Pieces.length_le {ps : List Piece} {t : Bytes} (h : Pieces ps t) :
    ps.length ≤ t.length := by
  induction h with
  | nil => exact Nat.le_refl _
  | cons h _ ih =>
    obtain ⟨b, u, rfl, -⟩ := h.exists_cons
    simp only [List.length_cons, List.length_append]
    omega

theorem readPieces?_takes {n : Nat} {t r : Bytes} {ps : List Piece}
    (h : readPieces? n t = some (ps, r)) :
    ∃ body, t = body ++ doubleQuote :: r ∧ Pieces ps body := by
  induction n generalizing t ps with
  | zero => cases h
  | succ n ih =>
    unfold readPieces? at h
    split at h
    · rename_i u hu
      cases h
      have ht := Bytes.strip?_eq_some_iff.1 hu
      exact ⟨[], ht, .nil⟩
    · obtain ⟨x, hx, h⟩ := Option.bind_eq_some_iff.1 h
      obtain ⟨y, hy, h⟩ := Option.bind_eq_some_iff.1 h
      cases h
      obtain ⟨s, rfl, hs⟩ := readPiece?_takes _ _ _ hx
      obtain ⟨body, hbody, hps⟩ := ih hy
      exact ⟨s ++ body, by rw [hbody, List.append_assoc], .cons hs hps⟩

theorem readPieces?_append {ps : List Piece} {body : Bytes} (h : Pieces ps body) {n : Nat}
    (hn : ps.length < n) (r : Bytes) :
    readPieces? n (body ++ doubleQuote :: r) = some (ps, r) := by
  induction h generalizing n with
  | nil =>
    obtain ⟨n, rfl⟩ := Nat.exists_eq_add_one_of_ne_zero (Nat.ne_of_gt hn)
    simp [readPieces?, Bytes.strip?]
  | @cons p ps s t h hs ih =>
    obtain ⟨n, rfl⟩ := Nat.exists_eq_add_one_of_ne_zero (Nat.ne_of_gt (Nat.zero_lt_of_lt hn))
    have hpiece := readPiece?_append h (t ++ doubleQuote :: r)
    obtain ⟨b, u, rfl, hb⟩ := h.exists_cons
    have hnone := Bytes.strip?_ne hb [] (u ++ (t ++ doubleQuote :: r))
    rw [← List.cons_append] at hnone
    rw [List.append_assoc, readPieces?, hnone, hpiece]
    simp [ih (Nat.lt_of_succ_lt_succ hn)]

theorem readString?_takes : Takes readString? IsString := by
  intro t s r h
  obtain ⟨u, hu, h⟩ := Option.bind_eq_some_iff.1 h
  obtain ⟨x, hx, h⟩ := Option.bind_eq_some_iff.1 h
  cases h
  obtain ⟨body, rfl, hps⟩ := readPieces?_takes hx
  have ht := Bytes.strip?_eq_some_iff.1 hu
  exact ⟨doubleQuote :: body ++ [doubleQuote], by simpa using ht, _, _, hps, rfl, rfl⟩

theorem readString?_append {s t : Bytes} (h : IsString s t) (r : Bytes) :
    readString? (t ++ r) = some (s, r) := by
  obtain ⟨ps, body, hps, rfl, rfl⟩ := h
  have hlt : ps.length < (body ++ doubleQuote :: r).length := by
    have := hps.length_le
    simp only [List.length_append, List.length_cons]
    omega
  have hstrip : Bytes.strip? [doubleQuote] (doubleQuote :: body ++ [doubleQuote] ++ r) =
      some (body ++ doubleQuote :: r) := Bytes.strip?_eq_some_iff.2 (by simp)
  simp only [readString?, hstrip, Option.bind_eq_bind, Option.bind_some, readPieces?_append hps hlt]
  rfl

section

variable {α : Type} {item? : Bytes → Option (α × Bytes)} {close : UInt8}

variable {P : α → Bytes → Prop} {Q : List α → Bytes → Prop} (hitem : Takes item? P)
  (hone : ∀ x s, P x s → Q [x] s)
  (hmore : ∀ x xs s u, P x s → Q xs u → Q (x :: xs) (s ++ comma :: u))
include hitem hone hmore

theorem readSequence?_takes {n : Nat} {t r : Bytes} {xs : List α}
    (h : readSequence? item? close n t = some (xs, r)) : ∃ s, t = s ++ close :: r ∧ Q xs s := by
  induction n generalizing t xs with
  | zero => cases h
  | succ n ih =>
    rw [readSequence?, Option.bind_eq_bind, Option.bind_eq_some_iff] at h
    obtain ⟨⟨x, u⟩, hx, h⟩ := h
    obtain ⟨s, rfl, hs⟩ := hitem _ _ _ hx
    cases u with
    | nil => cases h
    | cons b u =>
      by_cases hb : b = close
      · simp only [if_pos hb] at h
        cases h
        exact ⟨s, by rw [hb], hone x s hs⟩
      · by_cases hc : b = comma
        · simp only [if_neg hb, if_pos hc, Option.bind_eq_bind, Option.bind_eq_some_iff] at h
          obtain ⟨⟨ys, v⟩, hy, h⟩ := h
          cases h
          obtain ⟨w, rfl, hw⟩ := ih hy
          exact ⟨s ++ comma :: w, by simp [hc], hmore x ys s w hs hw⟩
        · simp only [if_neg hb, if_neg hc] at h
          cases h

theorem readEnclosed?_takes {t r : Bytes} {xs : List α}
    (h : readEnclosed? item? close t = some (xs, r)) :
    (∃ w, t = w ++ close :: r ∧ Blank w ∧ xs = []) ∨ ∃ s, t = s ++ close :: r ∧ Q xs s := by
  unfold readEnclosed? at h
  split at h
  · rename_i u hu
    cases h
    obtain ⟨w, ht, hw⟩ := exists_blank t
    rw [Bytes.strip?_eq_some_iff.1 hu] at ht
    exact .inl ⟨w, ht, hw, rfl⟩
  · exact .inr (readSequence?_takes hitem hone hmore h)

omit hitem hone hmore

theorem readSequence?_one {n : Nat} {t r : Bytes} {x : α} (h : item? t = some (x, close :: r)) :
    readSequence? item? close (n + 1) t = some ([x], r) := by
  simp [readSequence?, h]

theorem readSequence?_more (hc : comma ≠ close) {n : Nat} {t u r : Bytes} {x : α} {xs : List α}
    (h : item? t = some (x, comma :: u)) (hs : readSequence? item? close n u = some (xs, r)) :
    readSequence? item? close (n + 1) t = some (x :: xs, r) := by
  simp [readSequence?, h, hc, hs]

theorem readEnclosed?_empty (hc : isBlank close = false) {w : Bytes} (hw : Blank w) (r : Bytes) :
    readEnclosed? item? close (w ++ close :: r) = some ([], r) := by
  have hstrip : Bytes.strip? [close] (close :: r) = some r := Bytes.strip?_append [close] r
  simp [readEnclosed?, skipBlanks_append hw, skipBlanks_cons hc, hstrip]

end

section

variable {value? : Bytes → Option (Value × Bytes)}
  (hvalue : Takes value? fun v => Says (.value v))
include hvalue

theorem readSpaced?_takes : Takes (readSpaced? value?) fun v => Says (.spaced v) := by
  intro t v r h
  obtain ⟨⟨w, u⟩, hx, he⟩ := Option.map_eq_some_iff.1 h
  cases he
  obtain ⟨a, ht, ha⟩ := exists_blank t
  obtain ⟨b, hu, hb⟩ := exists_blank u
  obtain ⟨s, hs, hv⟩ := hvalue _ _ _ hx
  refine ⟨a ++ s ++ b, ?_, .spaced ha hv hb⟩
  calc
    t = a ++ (s ++ u) := by rw [← hs, ← ht]
    _ = a ++ (s ++ (b ++ skipBlanks u)) := by rw [← hu]
    _ = a ++ s ++ b ++ skipBlanks u := by simp

theorem readMember?_takes : Takes (readMember? value?) fun m => Says (.member m) := by
  intro t m r h
  simp only [readMember?, Option.bind_eq_bind, Option.bind_eq_some_iff] at h
  obtain ⟨⟨key, u⟩, hkey, t', ht', ⟨v, r⟩, hv, h⟩ := h
  cases h
  obtain ⟨a, ht, ha⟩ := exists_blank t
  obtain ⟨k, hk, hs⟩ := readString?_takes _ _ _ hkey
  obtain ⟨b, hu, hb⟩ := exists_blank u
  obtain ⟨s, rfl, hsv⟩ := readSpaced?_takes hvalue _ _ _ hv
  refine ⟨a ++ k ++ b ++ byte ':' :: s, ?_, .member ha hs hb hsv⟩
  calc
    t = a ++ (k ++ u) := by rw [← hk, ← ht]
    _ = a ++ (k ++ (b ++ skipBlanks u)) := by rw [← hu]
    _ = a ++ k ++ b ++ byte ':' :: s ++ r := by simp [Bytes.strip?_eq_some_iff.1 ht']

end

theorem readWord?_takes : Takes readWord? fun v => Says (.value v) := by
  intro t v r h
  obtain ⟨w, hw, h⟩ := List.exists_of_findSome?_eq_some h
  obtain ⟨u, hu, he⟩ := Option.map_eq_some_iff.1 h
  cases he
  exact ⟨w.1, Bytes.strip?_eq_some_iff.1 hu, .word hw⟩

/-- A value that is read was said. -/
theorem readValue?_takes (depth : Nat) : Takes (readValue? depth) fun v => Says (.value v) := by
  induction depth with
  | zero =>
    intro t v r h
    cases h
  | succ depth ih =>
    intro t v r h
    cases t with
    | nil => cases h
    | cons b t =>
      rw [readValue?] at h
      by_cases hq : b = doubleQuote
      · rw [if_pos hq] at h
        obtain ⟨x, hx, he⟩ := Option.map_eq_some_iff.1 h
        cases he
        obtain ⟨s, hs, hstring⟩ := readString?_takes _ _ _ hx
        exact ⟨s, hs, .string hstring⟩
      rw [if_neg hq] at h
      by_cases hb : b = openBracket
      · rw [if_pos hb] at h
        obtain ⟨x, hx, he⟩ := Option.map_eq_some_iff.1 h
        cases he
        rcases readEnclosed?_takes (readSpaced?_takes ih) (Q := fun vs => Says (.items vs))
          (fun _ _ => .item) (fun _ _ _ _ => .moreItems) hx with ⟨w, rfl, hw, hnil⟩ | ⟨s, rfl, hs⟩
        · exact ⟨openBracket :: w ++ [closeBracket], by simp [hb], hnil ▸ .emptyArray hw⟩
        · exact ⟨openBracket :: s ++ [closeBracket], by simp [hb], .array hs⟩
      rw [if_neg hb] at h
      by_cases ho : b = openBrace
      · rw [if_pos ho] at h
        obtain ⟨x, hx, he⟩ := Option.map_eq_some_iff.1 h
        cases he
        rcases readEnclosed?_takes (readMember?_takes ih) (Q := fun ms => Says (.members ms))
          (fun _ _ => .oneMember) (fun _ _ _ _ => .moreMembers) hx with
          ⟨w, rfl, hw, hnil⟩ | ⟨s, rfl, hs⟩
        · exact ⟨openBrace :: w ++ [closeBrace], by simp [ho], hnil ▸ .emptyObject hw⟩
        · exact ⟨openBrace :: s ++ [closeBrace], by simp [ho], .object hs⟩
      rw [if_neg ho] at h
      by_cases hi : startsInteger b = true
      · rw [if_pos hi] at h
        obtain ⟨x, hx, he⟩ := Option.map_eq_some_iff.1 h
        cases he
        obtain ⟨s, hs, hn⟩ := readInteger?_takes _ _ _ hx
        exact ⟨s, hs, .integer hn⟩
      · rw [if_neg hi] at h
        exact readWord?_takes _ _ _ h

/-- A byte that a value can start with. -/
def Starts (b : UInt8) : Prop := isBlank b = false ∧ b ≠ closeBracket ∧ b ≠ closeBrace

instance (b : UInt8) : Decidable (Starts b) := inferInstanceAs (Decidable (_ ∧ _))

theorem ne_of_startsInteger {b c : UInt8} (h : startsInteger b = true)
    (hc : startsInteger c = false) : b ≠ c := by
  rintro rfl
  rw [h] at hc
  cases hc

theorem starts_of_startsInteger {b : UInt8} (h : startsInteger b = true) : Starts b := by
  have hne {c : UInt8} (hc : startsInteger c = false) : b ≠ c := ne_of_startsInteger h hc
  refine ⟨?_, hne (by decide), hne (by decide)⟩
  simp [isBlank, hne (c := 0x20) (by decide), hne (c := 0x09) (by decide),
    hne (c := 0x0a) (by decide), hne (c := 0x0d) (by decide)]

theorem IsInteger.exists_cons {n : Int} {t : Bytes} (h : IsInteger n t) :
    ∃ b u, t = b :: u ∧ startsInteger b = true := by
  cases h with
  | plain h =>
    obtain ⟨b, u, rfl, hb⟩ := h.exists_cons
    exact ⟨b, u, rfl, by simp [startsInteger, hb]⟩
  | minus h => exact ⟨_, _, rfl, by decide⟩

/-- A byte that a word can start with. -/
def StartsWord (b : UInt8) : Prop :=
  Starts b ∧ b ≠ doubleQuote ∧ b ≠ openBracket ∧ b ≠ openBrace ∧ startsInteger b = false

instance (b : UInt8) : Decidable (StartsWord b) := inferInstanceAs (Decidable (_ ∧ _))

/-- A word starts with a letter of its own. -/
theorem exists_cons_of_mem_words {w : Bytes × Value} (h : w ∈ words) :
    ∃ b u, w.1 = b :: u ∧ StartsWord b ∧ ∀ t, readWord? (w.1 ++ t) = some (w.2, t) := by
  have hn : utf8 "null" = byte 'n' :: utf8 "ull" := by decide
  have ht : utf8 "true" = byte 't' :: utf8 "rue" := by decide
  have hf : utf8 "false" = byte 'f' :: utf8 "alse" := by decide
  simp only [words, List.mem_cons, List.not_mem_nil, or_false] at h
  rcases h with rfl | rfl | rfl
  · refine ⟨byte 'n', utf8 "ull", hn, by decide, fun t => ?_⟩
    simp [readWord?, words, Bytes.strip?_append]
  · refine ⟨byte 't', utf8 "rue", ht, by decide, fun t => ?_⟩
    have hnull : Bytes.strip? (utf8 "null") (utf8 "true" ++ t) = none := by
      rw [hn, ht]
      exact Bytes.strip?_ne (by decide) _ _
    simp [readWord?, words, Bytes.strip?_append, hnull]
  · refine ⟨byte 'f', utf8 "alse", hf, by decide, fun t => ?_⟩
    have hnull : Bytes.strip? (utf8 "null") (utf8 "false" ++ t) = none := by
      rw [hn, hf]
      exact Bytes.strip?_ne (by decide) _ _
    have htrue : Bytes.strip? (utf8 "true") (utf8 "false" ++ t) = none := by
      rw [ht, hf]
      exact Bytes.strip?_ne (by decide) _ _
    simp [readWord?, words, Bytes.strip?_append, hnull, htrue]

theorem Says.exists_cons {v : Value} {t : Bytes} (h : Says (.value v) t) :
    ∃ b u, t = b :: u ∧ Starts b := by
  cases h with
  | word h =>
    obtain ⟨b, u, rfl, hb, -⟩ := exists_cons_of_mem_words h
    exact ⟨b, u, rfl, hb.1⟩
  | integer h =>
    obtain ⟨b, u, rfl, hb⟩ := h.exists_cons
    exact ⟨b, u, rfl, starts_of_startsInteger hb⟩
  | string h =>
    obtain ⟨_, body, _, _, rfl⟩ := h
    exact ⟨doubleQuote, body ++ [doubleQuote], rfl, by decide⟩
  | emptyArray _ => exact ⟨_, _, rfl, by decide⟩
  | array _ => exact ⟨_, _, rfl, by decide⟩
  | emptyObject _ => exact ⟨_, _, rfl, by decide⟩
  | object _ => exact ⟨_, _, rfl, by decide⟩

/-- Behind blanks, something starts that is neither a blank nor a closing byte. -/
def Opens (t : Bytes) : Prop := ∃ w b u, t = w ++ b :: u ∧ Blank w ∧ Starts b

theorem Opens.append {t : Bytes} (h : Opens t) (r : Bytes) : Opens (t ++ r) := by
  obtain ⟨w, b, u, rfl, hw, hb⟩ := h
  exact ⟨w, b, u ++ r, by simp, hw, hb⟩

theorem Says.opens_spaced {v : Value} {t : Bytes} (h : Says (.spaced v) t) : Opens t := by
  cases h with
  | @spaced _ a t b ha h hb =>
    obtain ⟨c, u, rfl, hc⟩ := h.exists_cons
    exact ⟨a, c, u ++ b, by simp, ha, hc⟩

theorem Says.opens_items {vs : List Value} {t : Bytes} (h : Says (.items vs) t) : Opens t := by
  cases h with
  | item h => exact h.opens_spaced
  | moreItems h _ => exact h.opens_spaced.append _

theorem Says.opens_member {m : Bytes × Value} {t : Bytes} (h : Says (.member m) t) : Opens t := by
  cases h with
  | @member _ _ a k b t ha hk _ _ =>
    obtain ⟨_, body, _, _, rfl⟩ := hk
    exact ⟨a, doubleQuote, body ++ [doubleQuote] ++ b ++ byte ':' :: t, by simp, ha, by decide⟩

theorem Says.opens_members {ms : List (Bytes × Value)} {t : Bytes} (h : Says (.members ms) t) :
    Opens t := by
  cases h with
  | oneMember h => exact h.opens_member
  | moreMembers h _ => exact h.opens_member.append _

theorem readEnclosed?_of_opens {α : Type} {item? : Bytes → Option (α × Bytes)} {close : UInt8}
    {t : Bytes} (h : Opens t) (hclose : ∀ b, Starts b → b ≠ close) (r : Bytes) :
    readEnclosed? item? close (t ++ close :: r) =
      readSequence? item? close (t ++ close :: r).length (t ++ close :: r) := by
  obtain ⟨w, b, u, rfl, hw, hb⟩ := h
  have hskip : skipBlanks (w ++ b :: u ++ close :: r) = b :: (u ++ close :: r) := by
    rw [List.append_assoc, skipBlanks_append hw, List.cons_append, skipBlanks_cons hb.1]
  rw [readEnclosed?, hskip, Bytes.strip?_ne (hclose b hb) []]

/-- Neither a digit nor a blank comes first. -/
def Closes (r : Bytes) : Prop := Ends r ∧ skipBlanks r = r

theorem closes_cons {b : UInt8} (hd : isDigit b = false) (hb : isBlank b = false) (r : Bytes) :
    Closes (b :: r) := ⟨fun _ h => Option.some.inj h ▸ hd, skipBlanks_cons hb r⟩

theorem closes_nil : Closes [] := And.intro (fun _ h => nomatch h) rfl

/-- Blanks end a number. -/
theorem Closes.ends_append {r : Bytes} (h : Closes r) {w : Bytes} (hw : Blank w) :
    Ends (w ++ r) := by
  cases w with
  | nil => exact h.1
  | cons b w =>
    have hb := hw b List.mem_cons_self
    intro c hc
    obtain rfl : b = c := Option.some.inj hc
    by_contra hd
    rw [(starts_of_startsInteger (by simp [startsInteger, hd])).1] at hb
    cases hb

section

variable (depth : Nat)

theorem readValue?_word {w : Bytes × Value} (h : w ∈ words) (r : Bytes) :
    readValue? (depth + 1) (w.1 ++ r) = some (w.2, r) := by
  obtain ⟨b, u, hw, ⟨-, hq, hl, ho, hi⟩, hread⟩ := exists_cons_of_mem_words h
  rw [← hread r, hw, List.cons_append, readValue?, if_neg hq, if_neg hl, if_neg ho,
    if_neg (Bool.eq_false_iff.1 hi)]

theorem readValue?_integer {n : Int} {t r : Bytes} (h : IsInteger n t) (hr : Ends r) :
    readValue? (depth + 1) (t ++ r) = some (.integer n, r) := by
  have hread := readInteger?_append h hr
  obtain ⟨b, u, rfl, hb⟩ := h.exists_cons
  have hne {c : UInt8} (hc : startsInteger c = false) : b ≠ c := ne_of_startsInteger hb hc
  rw [List.cons_append] at hread ⊢
  rw [readValue?, if_neg (hne (by decide)), if_neg (hne (by decide)), if_neg (hne (by decide)),
    if_pos hb, hread]
  rfl

theorem readValue?_string {s t : Bytes} (h : IsString s t) (r : Bytes) :
    readValue? (depth + 1) (t ++ r) = some (.string s, r) := by
  have hread := readString?_append h r
  obtain ⟨ps, body, _, _, rfl⟩ := h
  rw [List.cons_append, List.cons_append] at hread ⊢
  rw [readValue?, if_pos rfl, hread]
  rfl

theorem readValue?_array (t : Bytes) :
    readValue? (depth + 1) (openBracket :: t) =
      (readEnclosed? (readSpaced? (readValue? depth)) closeBracket t).map
        fun x => (.array x.1, x.2) := by
  rw [readValue?, if_neg (by decide), if_pos rfl]

theorem readValue?_object (t : Bytes) :
    readValue? (depth + 1) (openBrace :: t) =
      (readEnclosed? (readMember? (readValue? depth)) closeBrace t).map
        fun x => (.ofMembers x.1, x.2) := by
  rw [readValue?, if_neg (by decide), if_neg (by decide), if_pos rfl]

end

theorem readSpaced?_append {value? : Bytes → Option (Value × Bytes)} {v : Value}
    {a t b r : Bytes} (ha : Blank a) (ht : ∃ c u, t = c :: u ∧ Starts c) (hb : Blank b)
    (hr : Closes r) (hread : value? (t ++ (b ++ r)) = some (v, b ++ r)) :
    readSpaced? value? (a ++ t ++ b ++ r) = some (v, r) := by
  obtain ⟨c, u, rfl, hc⟩ := ht
  have hskip : skipBlanks (a ++ (c :: u) ++ b ++ r) = c :: u ++ (b ++ r) := by
    simp [skipBlanks_append ha, skipBlanks_cons hc.1]
  simp only [readSpaced?, hskip, hread, Option.map_some, skipBlanks_append hb, hr.2]

theorem readMember?_append {value? : Bytes → Option (Value × Bytes)} {key : Bytes} {v : Value}
    {a k b t r : Bytes} (ha : Blank a) (hk : IsString key k) (hb : Blank b)
    (hread : readSpaced? value? (t ++ r) = some (v, r)) :
    readMember? value? (a ++ k ++ b ++ byte ':' :: t ++ r) = some ((key, v), r) := by
  have hkey := readString?_append hk (b ++ byte ':' :: (t ++ r))
  have hcolon : skipBlanks (b ++ byte ':' :: (t ++ r)) = byte ':' :: (t ++ r) := by
    rw [skipBlanks_append hb, skipBlanks_cons (by decide)]
  have hstrip : Bytes.strip? [byte ':'] (byte ':' :: (t ++ r)) = some (t ++ r) :=
    Bytes.strip?_append [byte ':'] (t ++ r)
  have hskip : skipBlanks (a ++ (k ++ (b ++ byte ':' :: (t ++ r)))) =
      k ++ (b ++ byte ':' :: (t ++ r)) := by
    obtain ⟨_, body, _, _, rfl⟩ := hk
    have hquote : isBlank doubleQuote = false := by decide
    simp [skipBlanks_append ha, skipBlanks_cons hquote]
  simp [readMember?, hskip, hkey, hcolon, hstrip, hread]

section

variable {α : Type} {item? : Nat → Bytes → Option (α × Bytes)} {close : UInt8}

/-- Given as many levels as it has bytes, the text is read as one thing of a list. -/
def IsItem (item? : Nat → Bytes → Option (α × Bytes)) (x : α) (t : Bytes) : Prop :=
  ∀ depth r, t.length ≤ depth → Closes r → item? depth (t ++ r) = some (x, r)

/-- Up to a closing byte, the text is read as the things of a list. -/
def IsSequence (item? : Nat → Bytes → Option (α × Bytes)) (close : UInt8) (xs : List α)
    (t : Bytes) : Prop :=
  ∀ depth n r, t.length ≤ depth → t.length < n →
    readSequence? (item? depth) close n (t ++ close :: r) = some (xs, r)

theorem IsItem.one {x : α} {t : Bytes} (h : IsItem item? x t)
    (hclose : ∀ r, Closes (close :: r)) : IsSequence item? close [x] t := by
  intro depth n r hd hn
  obtain ⟨n, rfl⟩ := Nat.exists_eq_add_one_of_ne_zero (Nat.ne_of_gt (Nat.zero_lt_of_lt hn))
  exact readSequence?_one (h depth _ hd (hclose r))

theorem IsItem.more {x : α} {xs : List α} {t u : Bytes} (h : IsItem item? x t)
    (hs : IsSequence item? close xs u) (hclose : comma ≠ close) :
    IsSequence item? close (x :: xs) (t ++ comma :: u) := by
  intro depth n r hd hn
  obtain ⟨n, rfl⟩ := Nat.exists_eq_add_one_of_ne_zero (Nat.ne_of_gt (Nat.zero_lt_of_lt hn))
  simp only [List.length_append, List.length_cons] at hd hn
  rw [List.append_assoc, List.cons_append]
  exact readSequence?_more hclose
    (h depth _ (by omega) (closes_cons (by decide) (by decide) _))
    (hs depth n r (by omega) (by omega))

/-- A list between its brackets. -/
theorem IsSequence.enclosed {xs : List α} {t r : Bytes} {depth : Nat}
    (h : IsSequence item? close xs t) (hopens : Opens t) (hclose : ∀ b, Starts b → b ≠ close)
    (hd : t.length ≤ depth) :
    readEnclosed? (item? depth) close (t ++ close :: r) = some (xs, r) := by
  rw [readEnclosed?_of_opens hopens hclose]
  exact h depth _ r hd (by simp)

end

/-- What the reader makes of the text of a phrase, whatever comes behind it. -/
def Phrase.IsRead : Phrase → Bytes → Prop
  | .value v, t => ∀ depth r, t.length ≤ depth → Ends r →
      readValue? depth (t ++ r) = some (v, r)
  | .spaced v, t => IsItem (fun depth => readSpaced? (readValue? depth)) v t
  | .items vs, t => IsSequence (fun depth => readSpaced? (readValue? depth)) closeBracket vs t
  | .member m, t => IsItem (fun depth => readMember? (readValue? depth)) m t
  | .members ms, t => IsSequence (fun depth => readMember? (readValue? depth)) closeBrace ms t

/-- A text of some length is read with at least one level. -/
theorem exists_depth {b : UInt8} {t : Bytes} {depth : Nat} (h : (b :: t).length ≤ depth) :
    ∃ d, depth = d + 1 := Nat.exists_eq_add_one_of_ne_zero (Nat.ne_of_gt (Nat.zero_lt_of_lt h))

/-- What is said is read. -/
theorem Says.isRead {p : Phrase} {t : Bytes} (h : Says p t) : p.IsRead t := by
  have hbracket : ∀ r, Closes (closeBracket :: r) := closes_cons (by decide) (by decide)
  have hbrace : ∀ r, Closes (closeBrace :: r) := closes_cons (by decide) (by decide)
  induction h with
  | word h =>
    intro depth r hd _
    obtain ⟨b, u, rfl, -⟩ := exists_cons_of_mem_words h
    obtain ⟨d, rfl⟩ := exists_depth hd
    exact readValue?_word d h r
  | integer h =>
    intro depth r hd hr
    obtain ⟨b, u, rfl, -⟩ := h.exists_cons
    obtain ⟨d, rfl⟩ := exists_depth hd
    exact readValue?_integer d h hr
  | string h =>
    intro depth r hd _
    obtain ⟨_, body, _, _, rfl⟩ := id h
    obtain ⟨d, rfl⟩ := exists_depth hd
    exact readValue?_string d h r
  | @emptyArray w hw =>
    intro depth r hd _
    obtain ⟨d, rfl⟩ := exists_depth hd
    have hread : readEnclosed? (readSpaced? (readValue? d)) closeBracket (w ++ closeBracket :: r) =
        some ([], r) := readEnclosed?_empty (by decide) hw r
    simp [readValue?_array, hread]
  | @array vs t h ih =>
    intro depth r hd _
    obtain ⟨d, rfl⟩ := exists_depth hd
    simp only [List.cons_append, List.length_cons, List.length_append] at hd
    have hread : readEnclosed? (readSpaced? (readValue? d)) closeBracket (t ++ closeBracket :: r) =
        some (vs, r) := ih.enclosed h.opens_items (fun b hb => hb.2.1) (by omega)
    simp [readValue?_array, hread]
  | @emptyObject w hw =>
    intro depth r hd _
    obtain ⟨d, rfl⟩ := exists_depth hd
    have hread : readEnclosed? (readMember? (readValue? d)) closeBrace (w ++ closeBrace :: r) =
        some ([], r) := readEnclosed?_empty (by decide) hw r
    simp [readValue?_object, hread, Value.ofMembers]
  | @object ms t h ih =>
    intro depth r hd _
    obtain ⟨d, rfl⟩ := exists_depth hd
    simp only [List.cons_append, List.length_cons, List.length_append] at hd
    have hread : readEnclosed? (readMember? (readValue? d)) closeBrace (t ++ closeBrace :: r) =
        some (ms, r) := ih.enclosed h.opens_members (fun b hb => hb.2.2) (by omega)
    simp [readValue?_object, hread]
  | spaced ha h hb ih =>
    intro depth r hd hr
    simp only [List.length_append] at hd
    exact readSpaced?_append ha h.exists_cons hb hr (ih depth _ (by omega) (hr.ends_append hb))
  | item h ih => exact ih.one hbracket
  | moreItems h hs ih ihs => exact ih.more ihs (by decide)
  | member ha hk hb h ih =>
    intro depth r hd hr
    simp only [List.length_append, List.length_cons] at hd
    exact readMember?_append ha hk hb (ih depth r (by omega) hr)
  | oneMember h ih => exact ih.one hbrace
  | moreMembers h hs ih ihs => exact ih.more ihs (by decide)

/-- Reading a text gives a value exactly if the grammar says that it is one for the value. -/
theorem read_eq_some_iff {t : Bytes} {v : Value} : read t = some v ↔ Says (.spaced v) t := by
  unfold read
  constructor
  · intro h
    rw [Option.bind_eq_bind, Option.bind_eq_some_iff] at h
    obtain ⟨⟨w, r⟩, hx, h⟩ := h
    obtain ⟨s, rfl, hs⟩ := readSpaced?_takes (readValue?_takes _) _ _ _ hx
    by_cases hr : r = []
    · simp only [if_pos hr] at h
      cases h
      rw [hr, List.append_nil]
      exact hs
    · simp only [if_neg hr] at h
      cases h
  · intro h
    have hread := h.isRead t.length [] (Nat.le_refl _) closes_nil
    rw [List.append_nil] at hread
    simp [hread]

end JsxPresence.Json
