import JsxPresence.Json.Printer
import JsxPresence.Proofs.Json.Quoting
import JsxPresence.Proofs.Json.Reader

namespace JsxPresence

/-- The last digit stands at the end. -/
theorem decimal_eq (n : Nat) :
    decimal n = (if n < 10 then [] else decimal (n / 10)) ++ [Json.hexDigit (n % 10)] := by
  unfold decimal
  rw [Nat.toDigits_eq_if (by decide)]
  split
  · rename_i hn
    simp [Json.hexDigit, Nat.mod_eq_of_lt hn]
  · simp [Json.hexDigit]

namespace Json

theorem hexDigit_digit : ∀ n < 10, isDigit (hexDigit n) = true ∧ (hexDigit n).toNat - 48 = n := by
  decide

theorem isNatural_digit {d : Nat} (h : d < 10) : IsNatural d [hexDigit d] where
  ne_nil := List.cons_ne_nil _ _
  digits := by simpa using (hexDigit_digit d h).1
  zero := fun _ => rfl
  value := by simpa [natural] using (hexDigit_digit d h).2

theorem IsNatural.snoc {n d : Nat} {t : Bytes} (h : IsNatural n t) (hn : 0 < n) (hd : d < 10) :
    IsNatural (10 * n + d) (t ++ [hexDigit d]) where
  ne_nil := by simp
  digits := by simpa [or_imp, forall_and] using ⟨h.digits, (hexDigit_digit d hd).1⟩
  zero := by
    intro hz
    obtain ⟨b, u, rfl⟩ := List.exists_cons_of_ne_nil h.ne_nil
    have hlen := h.zero hz
    obtain rfl : u = [] := by simpa using hlen
    obtain rfl : b = byte '0' := by simpa using hz
    have hvalue : 0 = n := h.value
    omega
  value := by
    have hvalue := h.value
    simp only [natural] at hvalue
    simp [natural, hvalue, (hexDigit_digit d hd).2]

theorem isNatural_decimal (n : Nat) : IsNatural n (decimal n) := by
  induction n using Nat.strongRecOn with
  | ind n ih =>
    rw [decimal_eq]
    split
    · rename_i hn
      rw [Nat.mod_eq_of_lt hn]
      exact isNatural_digit hn
    · have hsnoc := (ih (n / 10) (by omega)).snoc (by omega) (Nat.mod_lt n (by decide : 0 < 10))
      rwa [Nat.div_add_mod] at hsnoc

theorem isInteger_decimalInt (n : Int) : IsInteger n (decimalInt n) := by
  cases n with
  | ofNat n => exact .plain (isNatural_decimal n)
  | negSucc n => exact .minus (isNatural_decimal (n + 1))

theorem pieces_flatMap {f : UInt8 → Bytes} {g : UInt8 → Piece} {s : Bytes}
    (h : ∀ b ∈ s, IsPiece (g b) (f b)) : Pieces (s.map g) (s.flatMap f) := by
  induction s with
  | nil => exact .nil
  | cons b s ih =>
    obtain ⟨hb, hs⟩ := List.forall_mem_cons.1 h
    exact .cons hb (ih hs)

/-- What an escaped byte is read as: those without a letter are code units. -/
def piece (b : UInt8) : Piece :=
  if (shortEscape? b).isNone && isControl b then .unit b.toNat else .plain b

theorem letter?_of_shortEscape? {b e : UInt8} (h : shortEscape? b = some e) :
    letter? e = some b := by
  unfold shortEscape? at h
  split_ifs at h with hself
  · cases h
    simp only [Bool.or_eq_true, decide_eq_true_eq] at hself
    rcases hself with rfl | rfl <;> decide
  all_goals
    subst b
    cases h
    decide

theorem isPiece_escapeByte (b : UInt8) : IsPiece (piece b) (escapeByte b) := by
  unfold piece escapeByte
  cases hs : shortEscape? b with
  | some e => exact .letter (letter?_of_shortEscape? hs)
  | none =>
    by_cases hc : isControl b = true
    · have hlt : b < 0x20 := by simpa [isControl] using hc
      have hnumber : codeUnit? (byte '0') (byte '0') (hexDigit (b.toNat / 16))
          (hexDigit (b.toNat % 16)) = some b.toNat :=
        forall_isControl (P := fun b => codeUnit? (byte '0') (byte '0') (hexDigit (b.toNat / 16))
          (hexDigit (b.toNat % 16)) = some b.toNat) (by decide) hc
      have hhead : utf8 "\\u00" = [backslash, byte 'u', byte '0', byte '0'] := by decide
      simpa [hc, hlt, hhead] using IsPiece.number hnumber
    · have hle : ¬b < 0x20 := by simpa [isControl] using hc
      have hself : b ≠ doubleQuote ∧ b ≠ backslash := by
        constructor
        · rintro rfl
          exact absurd hs (by decide)
        · rintro rfl
          exact absurd hs (by decide)
      simpa [hc, hle] using IsPiece.plain (Bool.eq_false_iff.2 hc) hself.1 hself.2

theorem text_unit {n : Nat} (h : isHigh n = false) (ps : List Piece) :
    Piece.text (.unit n :: ps) = encode n ++ Piece.text ps := by
  cases ps with
  | nil => rfl
  | cons p ps =>
    cases p with
    | plain b => rfl
    | unit m => simp [Piece.text, h]

theorem text_piece (b : UInt8) (ps : List Piece) :
    Piece.text (piece b :: ps) = b :: Piece.text ps := by
  unfold piece
  split
  · rename_i h
    have hc : isControl b = true := by simp_all
    have hunit : isHigh b.toNat = false ∧ encode b.toNat = [b] :=
      forall_isControl (P := fun b => isHigh b.toNat = false ∧ encode b.toNat = [b]) (by decide) hc
    rw [text_unit hunit.1, hunit.2]
    rfl
  · rfl

theorem text_map_piece (s : Bytes) : Piece.text (s.map piece) = s := by
  induction s with
  | nil => rfl
  | cons b s ih => rw [List.map_cons, text_piece, ih]

theorem isString_quote (s : Bytes) : IsString s (quote s) :=
  ⟨s.map piece, escape s, pieces_flatMap fun b _ => isPiece_escapeByte b, (text_map_piece s).symm,
    rfl⟩

theorem blank_newline (indent depth : Nat) : Blank (newline indent depth) := by
  unfold newline
  split
  · exact blank_nil
  · intro b hb
    rcases List.mem_cons.1 hb with rfl | hb
    · decide
    · rw [List.eq_of_mem_replicate hb]
      decide

namespace Value

/-- The members of every object stand in the order of their keys, each key once. -/
inductive Ordered : Value → Prop
  | null : Ordered null
  | bool (b : Bool) : Ordered (bool b)
  | integer (n : Int) : Ordered (integer n)
  | string (s : Bytes) : Ordered (string s)
  | array {items : List Value} (h : ∀ v ∈ items, Ordered v) : Ordered (array items)
  | object {members : List (Bytes × Value)}
      (hkeys : members.Pairwise fun m n => Bytes.less m.1 n.1 = true)
      (h : ∀ m ∈ members, Ordered m.2) : Ordered (object members)

theorem mem_insertMember {key : Bytes} {v : Value} {m : Bytes × Value} {ms : List (Bytes × Value)}
    (h : m ∈ insertMember key v ms) : m = (key, v) ∨ m ∈ ms := by
  fun_induction insertMember key v ms <;> grind

theorem pairwise_insertMember (key : Bytes) (v : Value) {ms : List (Bytes × Value)}
    (h : ms.Pairwise fun m n => Bytes.less m.1 n.1 = true) :
    (insertMember key v ms).Pairwise fun m n => Bytes.less m.1 n.1 = true := by
  fun_induction insertMember key v ms with
  | case1 => exact List.pairwise_singleton _ _
  | case2 k w rest hlt =>
    obtain ⟨hk, -⟩ := List.pairwise_cons.1 h
    refine List.pairwise_cons.2 ⟨List.forall_mem_cons.2 ⟨hlt, fun m hm => ?_⟩, h⟩
    exact Bytes.less_trans hlt (hk m hm)
  | case3 w rest hlt =>
    obtain ⟨hk, hrest⟩ := List.pairwise_cons.1 h
    exact List.pairwise_cons.2 ⟨hk, hrest⟩
  | case4 k w rest hlt hne ih =>
    obtain ⟨hk, hrest⟩ := List.pairwise_cons.1 h
    refine List.pairwise_cons.2 ⟨fun m hm => ?_, ih hrest⟩
    rcases mem_insertMember hm with rfl | hm
    · exact Bytes.less_of_not_less hlt hne
    · exact hk m hm

theorem ordered_insertMember {ms : List (Bytes × Value)} {key : Bytes} {v : Value}
    (h : (object ms).Ordered) (hv : v.Ordered) : (object (insertMember key v ms)).Ordered := by
  cases h with
  | object hkeys h =>
    refine .object (pairwise_insertMember key v hkeys) fun m hm => ?_
    rcases mem_insertMember hm with rfl | hm
    · exact hv
    · exact h m hm

/-- An ordered value stays so when a member is set. -/
theorem Ordered.set {v w u : Value} {key : Bytes} (hv : v.Ordered) (hw : w.Ordered)
    (h : v.set key w = .ok u) : u.Ordered := by
  cases v with
  | object ms =>
    cases h
    exact ordered_insertMember hv hw
  | _ => cases h

/-- An ordered value stays so when an item is added. -/
theorem Ordered.push {v w u : Value} (hv : v.Ordered) (hw : w.Ordered) (h : v.push w = .ok u) :
    u.Ordered := by
  cases hv with
  | array hitems =>
    cases h
    exact .array (List.forall_mem_append.2 ⟨hitems, by simpa using hw⟩)
  | _ => cases h

theorem ordered_ofMembers {ms : List (Bytes × Value)} (h : ∀ m ∈ ms, m.2.Ordered) :
    (ofMembers ms).Ordered := by
  have hfold : ∀ acc, (object acc).Ordered →
      (object (ms.foldl (fun ms m => insertMember m.1 m.2 ms) acc)).Ordered := by
    induction ms with
    | nil => exact fun acc hacc => hacc
    | cons m ms ih =>
      obtain ⟨hm, hms⟩ := List.forall_mem_cons.1 h
      exact fun acc hacc => ih hms _ (ordered_insertMember hacc hm)
  exact hfold [] (.object .nil (by simp))

/-- A member whose key comes last goes to the end. -/
theorem insertMember_last {key : Bytes} {v : Value} {ms : List (Bytes × Value)}
    (h : ∀ m ∈ ms, Bytes.less m.1 key = true) : insertMember key v ms = ms ++ [(key, v)] := by
  induction ms with
  | nil => rfl
  | cons m ms ih =>
    obtain ⟨hm, hms⟩ := List.forall_mem_cons.1 h
    have hne : key ≠ m.1 := by
      rintro rfl
      simp [Bytes.less_irrefl] at hm
    have hlt : ¬Bytes.less key m.1 = true := by
      intro hlt
      simpa [Bytes.less_irrefl] using Bytes.less_trans hlt hm
    rw [insertMember, if_neg hlt, if_neg hne, ih hms, List.cons_append]

theorem ofMembers_of_pairwise {ms : List (Bytes × Value)}
    (h : ms.Pairwise fun m n => Bytes.less m.1 n.1 = true) : ofMembers ms = object ms := by
  have hfold : ∀ acc, (acc ++ ms).Pairwise (fun m n => Bytes.less m.1 n.1 = true) →
      ms.foldl (fun ms m => insertMember m.1 m.2 ms) acc = acc ++ ms := by
    clear h
    induction ms with
    | nil => simp
    | cons m ms ih =>
      intro acc hacc
      have hlast : ∀ n ∈ acc, Bytes.less n.1 m.1 = true := fun n hn =>
        (List.pairwise_append.1 hacc).2.2 n hn m List.mem_cons_self
      have hrest := ih (acc ++ [m]) (by simpa using hacc)
      simpa [insertMember_last hlast] using hrest
  exact congrArg object (hfold [] h)

end Value

/-- What was said is in order. -/
def Phrase.Ordered : Phrase → Prop
  | .value v => v.Ordered
  | .spaced v => v.Ordered
  | .items vs => ∀ v ∈ vs, v.Ordered
  | .member m => m.2.Ordered
  | .members ms => ∀ m ∈ ms, m.2.Ordered

theorem Says.ordered {p : Phrase} {t : Bytes} (h : Says p t) : p.Ordered := by
  induction h with
  | @word v t h =>
    have hwords : ∀ w ∈ words, w.2.Ordered := by
      simp only [words, List.forall_mem_cons]
      exact ⟨.null, .bool true, .bool false, by simp⟩
    exact hwords _ h
  | integer _ => exact .integer _
  | string _ => exact .string _
  | emptyArray _ => exact .array (by simp)
  | array _ ih => exact .array ih
  | emptyObject _ => exact .object .nil (by simp)
  | object _ ih => exact Value.ordered_ofMembers ih
  | spaced _ _ _ ih => exact ih
  | item _ ih => exact List.forall_mem_singleton.2 ih
  | moreItems _ _ ih ihs => exact List.forall_mem_cons.2 ⟨ih, ihs⟩
  | member _ _ _ _ ih => exact ih
  | oneMember _ ih => exact List.forall_mem_singleton.2 ih
  | moreMembers _ _ ih ihs => exact List.forall_mem_cons.2 ⟨ih, ihs⟩

/-- One thing or more with commas between them, written one after the other and with blanks at the
end. -/
theorem sequence_flatMap {α : Type} {P : α → Bytes → Prop} {Q : List α → Bytes → Prop}
    (hone : ∀ x s, P x s → Q [x] s)
    (hmore : ∀ x xs s u, P x s → Q xs u → Q (x :: xs) (s ++ comma :: u)) {f : α → Bytes}
    {w : Bytes} {x : α} {xs : List α} (h : ∀ y ∈ x :: xs, P y (f y) ∧ P y (f y ++ w)) :
    Q (x :: xs) (f x ++ xs.flatMap (fun y => comma :: f y) ++ w) := by
  induction xs generalizing x with
  | nil =>
    have hx := (h x List.mem_cons_self).2
    simpa using hone x _ hx
  | cons y ys ih =>
    obtain ⟨hx, hys⟩ := List.forall_mem_cons.1 h
    simpa using hmore x _ _ _ hx.1 (ih hys)

namespace Value

section

variable (indent depth : Nat)

theorem writeItems_eq (vs : List Value) :
    writeItems indent depth vs =
      vs.flatMap fun v => comma :: (newline indent depth ++ v.write indent depth) := by
  have hcomma : utf8 "," = [comma] := by decide
  induction vs with
  | nil => rfl
  | cons v vs ih => simp [writeItems, hcomma, ih]

theorem writeMembers_eq (ms : List (Bytes × Value)) :
    writeMembers indent depth ms =
      ms.flatMap fun m => comma :: (newline indent depth ++ quote m.1 ++ colon indent ++
        m.2.write indent depth) := by
  have hcomma : utf8 "," = [comma] := by decide
  induction ms with
  | nil => rfl
  | cons m ms ih => simp [writeMembers, hcomma, ih]

variable {indent depth}

theorem says_spaced_newline {v : Value} (h : Says (.value v) (v.write indent depth)) {w : Bytes}
    (hw : Blank w) : Says (.spaced v) (newline indent depth ++ v.write indent depth ++ w) :=
  .spaced (blank_newline indent depth) h hw

theorem says_member_newline {m : Bytes × Value} (h : Says (.value m.2) (m.2.write indent depth))
    {w : Bytes} (hw : Blank w) :
    Says (.member m) (newline indent depth ++ quote m.1 ++ colon indent ++
      m.2.write indent depth ++ w) := by
  have hcolon : ∃ a, Blank a ∧ colon indent = byte ':' :: a := by
    unfold colon
    split
    · exact ⟨[], blank_nil, by decide⟩
    · exact ⟨[byte ' '], by simp [Blank, isBlank]; decide, by decide⟩
  obtain ⟨a, ha, hc⟩ := hcolon
  have hmember := Says.member (blank_newline indent depth) (isString_quote m.1) blank_nil
    (.spaced ha h hw)
  simpa [hc] using hmember

end

/-- The text of an ordered value, wherever it starts and whatever the indent. -/
theorem Ordered.says_write {v : Value} (hv : v.Ordered) (indent depth : Nat) :
    Says (.value v) (v.write indent depth) := by
  induction hv generalizing depth with
  | null => exact .word (by simp [words, write])
  | bool b => cases b <;> exact .word (by simp [words, write])
  | integer n => exact .integer (isInteger_decimalInt n)
  | string s => exact .string (isString_quote s)
  | @array items h ih =>
    have hopen : utf8 "[" = [openBracket] := by decide
    have hclose : utf8 "]" = [closeBracket] := by decide
    cases items with
    | nil => exact .emptyArray blank_nil
    | cons v vs =>
      have hspaced : ∀ w ∈ v :: vs, Says (.spaced w) (newline indent (depth + 1) ++
          w.write indent (depth + 1)) ∧ Says (.spaced w) (newline indent (depth + 1) ++
          w.write indent (depth + 1) ++ newline indent depth) := by
        intro w hw
        have hplain := says_spaced_newline (ih w hw (depth + 1)) blank_nil
        rw [List.append_nil] at hplain
        exact ⟨hplain, says_spaced_newline (ih w hw (depth + 1)) (blank_newline indent depth)⟩
      have hitems := Says.array (sequence_flatMap (Q := fun vs => Says (.items vs))
        (fun _ _ => .item) (fun _ _ _ _ => .moreItems) hspaced)
      simpa [write, writeItems_eq, hopen, hclose] using hitems
  | @object members hkeys h ih =>
    cases members with
    | nil => exact .emptyObject blank_nil
    | cons m ms =>
      have hspaced : ∀ n ∈ m :: ms, Says (.member n) (newline indent (depth + 1) ++ quote n.1 ++
          colon indent ++ n.2.write indent (depth + 1)) ∧ Says (.member n)
          (newline indent (depth + 1) ++ quote n.1 ++ colon indent ++
            n.2.write indent (depth + 1) ++ newline indent depth) := by
        intro n hn
        have hplain := says_member_newline (ih n hn (depth + 1)) blank_nil
        rw [List.append_nil] at hplain
        exact ⟨hplain, says_member_newline (ih n hn (depth + 1)) (blank_newline indent depth)⟩
      have hmembers := Says.object (sequence_flatMap (Q := fun ms => Says (.members ms))
        (fun _ _ => .oneMember) (fun _ _ _ _ => .moreMembers) hspaced)
      rw [ofMembers_of_pairwise hkeys] at hmembers
      simpa [write, writeMembers_eq] using hmembers

theorem Ordered.says_spaced {v : Value} (hv : v.Ordered) (indent : Nat) :
    Says (.spaced v) (v.write indent 0) := (hv.says_write indent 0).unspaced

theorem Ordered.read_write {v : Value} (hv : v.Ordered) (indent : Nat) :
    read (v.write indent 0) = some v := read_eq_some_iff.2 (hv.says_spaced indent)

/-- The values that can be read back are those in order. -/
theorem read_compact_iff {v : Value} : read v.compact = some v ↔ v.Ordered := by
  constructor
  · intro h
    exact (read_eq_some_iff.1 h).ordered
  · intro hv
    exact hv.read_write 0

mutual

theorem equal_iff (v w : Value) : v.equal w = true ↔ v = w := by
  cases v <;> cases w <;> simp [equal, equalItems_iff, equalMembers_iff]

theorem equalItems_iff (vs ws : List Value) : equalItems vs ws = true ↔ vs = ws := by
  cases vs <;> cases ws <;> simp [equalItems, equal_iff, equalItems_iff]

theorem equalMembers_iff (ms ns : List (Bytes × Value)) :
    equalMembers ms ns = true ↔ ms = ns := by
  cases ms with
  | nil => cases ns <;> simp [equalMembers]
  | cons m ms =>
    cases ns with
    | nil => simp [equalMembers]
    | cons n ns => simp [equalMembers, equal_iff m.2, equalMembers_iff ms, Prod.ext_iff]

end

/-- A value is read back from its texts, and from no other value's text. Control bytes stand between
the parts of a text only. -/
theorem Ordered.read_written {v : Value} (hv : v.Ordered) (indent : Int) :
    read v.compact = some v ∧ read (v.pretty indent) = some v ∧
      (∀ w : Value, w.Ordered → (v.compact = w.compact ↔ v.equal w = true)) ∧
      ControlsOutside v.compact ∧ ControlsOutside (v.pretty indent) := by
  have hcontrols (n : Nat) : ControlsOutside (v.write n 0) := (hv.says_spaced n).controlsOutside
  refine ⟨hv.read_write 0, hv.read_write _, fun w hw => ?_, hcontrols 0, hcontrols _⟩
  rw [equal_iff]
  constructor
  · intro heq
    have hsome : some v = some w := by
      rw [← hv.read_write 0, ← hw.read_write 0]
      exact congrArg read heq
    exact Option.some.inj hsome
  · rintro rfl
    rfl

/-- An object with an array, a number below zero and a text that needs all kinds of escapes. -/
def nested : Value :=
  object [([], array [integer (-10), string [0x01, doubleQuote, 0x0a, 0xff]]), (utf8 "a", null)]

theorem read_written_nested :
    nested.Ordered ∧ read nested.compact = some nested ∧ read (nested.pretty 4) = some nested := by
  have hitems : ∀ v ∈ [integer (-10), string [0x01, doubleQuote, 0x0a, 0xff]], v.Ordered := by
    simpa using And.intro (Ordered.integer (-10)) (Ordered.string _)
  have hordered : nested.Ordered := by
    refine .object (by decide) ?_
    simpa using And.intro (Ordered.array hitems) Ordered.null
  obtain ⟨hcompact, hpretty, -⟩ := hordered.read_written 4
  exact ⟨hordered, hcompact, hpretty⟩

end Value

end Json

end JsxPresence
