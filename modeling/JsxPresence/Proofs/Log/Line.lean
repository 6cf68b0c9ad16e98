import JsxPresence.Log.Record
import JsxPresence.Proofs.Json.RoundTrip

namespace JsxPresence.Log

open Json (Says IsPiece IsString Quoting comma isControl)

/-- Line feed, carriage return and tab: the control bytes that are escaped. -/
def isEscaped (b : UInt8) : Bool := b = byte '\n' || b = byte '\r' || b = byte '\t'

/-- A text without control bytes that would not be escaped. -/
def Escapable (s : Bytes) : Prop := ∀ b ∈ s, isControl b = true → isEscaped b = true

instance (s : Bytes) : Decidable (Escapable s) := List.decidableBAll _ s

theorem isPiece_escapeByte {b : UInt8} (h : isControl b = true → isEscaped b = true) :
    IsPiece (.plain b) (escapeByte b) := by
  unfold escapeByte
  split_ifs with hself hfeed hreturn htab
  · simp only [Bool.or_eq_true, decide_eq_true_eq] at hself
    rcases hself with rfl | rfl <;> exact .letter (by decide)
  · subst hfeed
    exact .letter (by decide)
  · subst hreturn
    exact .letter (by decide)
  · subst htab
    exact .letter (by decide)
  · simp only [Bool.or_eq_true, decide_eq_true_eq, not_or] at hself
    have hc : isControl b = false := by
      rw [Bool.eq_false_iff]
      intro hc
      simpa [isEscaped, hfeed, hreturn, htab] using h hc
    exact .plain hc hself.1 hself.2

/-- The other control bytes are written as they are. -/
theorem escapeByte_of_isControl {b : UInt8} (hc : isControl b = true) (hb : ¬isEscaped b = true) :
    escapeByte b = [b] := by
  have hne {c : UInt8} (h : isControl c = false) : b ≠ c := by
    rintro rfl
    simp [hc] at h
  have hplain : ¬b = byte '\n' ∧ ¬b = byte '\r' ∧ ¬b = byte '\t' := by
    simpa [isEscaped, and_assoc] using hb
  simp [escapeByte, hplain, hne (c := doubleQuote) (by decide), hne (c := backslash) (by decide)]

/-- A text that stays on one line. -/
def Unbroken (t : Bytes) : Prop := ∀ b ∈ t, b ≠ byte '\n' ∧ b ≠ byte '\r'

instance (t : Bytes) : Decidable (Unbroken t) := List.decidableBAll _ t

/-- An escaped byte has no line break, and a string goes on behind it. -/
theorem escapeByte_inside (b : UInt8) :
    Unbroken (escapeByte b) ∧ (escapeByte b).foldl Quoting.next .inside = .inside := by
  unfold escapeByte
  split_ifs with hself hfeed hreturn htab
  · simp only [Bool.or_eq_true, decide_eq_true_eq] at hself
    rcases hself with rfl | rfl <;> decide
  · decide
  · decide
  · decide
  · simp only [Bool.or_eq_true, decide_eq_true_eq, not_or] at hself
    simp [Unbroken, Quoting.next, hself, hfeed, hreturn]

theorem foldl_escapeText (s : Bytes) : (escapeText s).foldl Quoting.next .inside = .inside := by
  induction s with
  | nil => rfl
  | cons b s ih =>
    have hcons : escapeText (b :: s) = escapeByte b ++ escapeText s := rfl
    rw [hcons, List.foldl_append, (escapeByte_inside b).2, ih]

theorem unbroken_append {s t : Bytes} (hs : Unbroken s) (ht : Unbroken t) : Unbroken (s ++ t) :=
  List.forall_mem_append.2 ⟨hs, ht⟩

theorem unbroken_cons {b : UInt8} {t : Bytes} (hb : Unbroken [b]) (ht : Unbroken t) :
    Unbroken (b :: t) := unbroken_append hb ht

theorem unbroken_escapeText (s : Bytes) : Unbroken (escapeText s) := by
  intro c hc
  obtain ⟨b, -, hb⟩ := List.mem_flatMap.1 hc
  exact (escapeByte_inside b).1 c hb

theorem unbroken_decimalInt (n : Int) : Unbroken (decimalInt n) := by
  have hdigits (n : Nat) : Unbroken (decimal n) := by
    intro b hb
    have hdigit := (Json.isNatural_decimal n).digits b hb
    constructor
    · rintro rfl
      exact absurd hdigit (by decide)
    · rintro rfl
      exact absurd hdigit (by decide)
  cases n with
  | ofNat n => exact hdigits n
  | negSucc n => exact unbroken_cons (by decide) (hdigits (n + 1))

/-- A text between quotes. -/
def quoted (s : Bytes) : Bytes := doubleQuote :: escapeText s ++ [doubleQuote]

theorem isString_quoted {s : Bytes} (h : Escapable s) : IsString s (quoted s) := by
  have htext : ∀ s : Bytes, Json.Piece.text (s.map .plain) = s := by
    intro s
    induction s with
    | nil => rfl
    | cons b s ih => rw [List.map_cons, Json.Piece.text, ih]
  exact ⟨s.map .plain, escapeText s, Json.pieces_flatMap fun b hb => isPiece_escapeByte (h b hb),
    (htext s).symm, rfl⟩

theorem unbroken_quoted (s : Bytes) : Unbroken (quoted s) :=
  unbroken_append (unbroken_cons (by decide) (unbroken_escapeText s)) (by decide)

theorem foldl_quoted (s : Bytes) : (quoted s).foldl Quoting.next .outside = .outside := by
  have hopen : Quoting.next .outside doubleQuote = .inside := rfl
  have hclose : Quoting.next .inside doubleQuote = .outside := rfl
  simp [quoted, hopen, hclose, foldl_escapeText]

/-- A member of an object. -/
def member (key : String) (t : Bytes) : Bytes := Json.quote (utf8 key) ++ byte ':' :: t

theorem says_member {v : Json.Value} {t : Bytes} (key : String) (h : Says (.value v) t) :
    Says (.member (utf8 key, v)) (member key t) := by
  have hmember := Says.member Json.blank_nil (Json.isString_quote (utf8 key)) Json.blank_nil
    h.unspaced
  simpa [member] using hmember

theorem foldl_member (key : String) (t : Bytes) :
    (member key t).foldl Quoting.next .outside = t.foldl Quoting.next .outside := by
  rw [member, List.foldl_append, (Json.isString_quote (utf8 key)).leads.foldl_eq]
  rfl

theorem foldl_decimalInt (n : Int) :
    (decimalInt n).foldl Quoting.next .outside = .outside :=
  (Json.isInteger_decimalInt n).leads.foldl_eq

theorem next_openBrace : Quoting.next .outside openBrace = .outside := rfl

theorem next_comma : Quoting.next .outside comma = .outside := rfl

/-- A control byte that is not escaped stands inside a string, so the text cannot be read. -/
theorem read_of_unescaped {before s : Bytes} (hbefore : Quoting.behind before = .outside)
    (hs : ¬Escapable s) (key : String) (rest : Bytes) :
    Json.read (before ++ member key (quoted s) ++ rest) = none := by
  simp only [Escapable, not_forall] at hs
  obtain ⟨b, hmem, hcontrol, hb⟩ := hs
  obtain ⟨a, u, rfl⟩ := List.append_of_mem hmem
  have hescape : escapeText (a ++ b :: u) = escapeText a ++ b :: escapeText u := by
    simp [escapeText, escapeByte_of_isControl hcontrol hb]
  have hinside : Quoting.behind (before ++ member key (doubleQuote :: escapeText a)) = .inside := by
    have hopen : Quoting.next .outside doubleQuote = .inside := rfl
    rw [Quoting.behind, List.foldl_append]
    rw [Quoting.behind] at hbefore
    rw [hbefore, foldl_member, List.foldl_cons, hopen, foldl_escapeText]
  rw [Option.eq_none_iff_forall_ne_some]
  intro v hv
  have hsplit : before ++ member key (quoted (a ++ b :: u)) ++ rest =
      (before ++ member key (doubleQuote :: escapeText a)) ++
        b :: (escapeText u ++ doubleQuote :: rest) := by simp [member, quoted, hescape]
  have houtside := (Json.read_eq_some_iff.1 hv).controlsOutside _ b _ hsplit hcontrol
  rw [hinside] at houtside
  cases houtside

theorem escapeText_name (l : Level) : escapeText l.name = l.name := by
  cases l <;> decide

theorem escapable_name (l : Level) : Escapable l.name := by
  cases l <;> decide

namespace Record

variable (r : Record)

/-- The text of a record as an object. -/
def object : Bytes :=
  openBrace :: (member "ts" (decimalInt r.time) ++ comma ::
    (member "level" (quoted r.entry.level.name) ++ comma ::
      (member "module" (quoted r.entry.module) ++ comma ::
        member "msg" (quoted r.entry.message)))) ++ [closeBrace]

theorem jsonLine_eq : r.jsonLine = r.object ++ [byte '\n'] := by
  have hts : utf8 "\x7b\"ts\":" = openBrace :: Json.quote (utf8 "ts") ++ [byte ':'] := by decide
  have hlevel : utf8 ",\"level\":\"" =
      comma :: Json.quote (utf8 "level") ++ [byte ':', doubleQuote] := by decide
  have hmodule : utf8 "\",\"module\":\"" =
      doubleQuote :: comma :: Json.quote (utf8 "module") ++ [byte ':', doubleQuote] := by decide
  have hmsg : utf8 "\",\"msg\":\"" =
      doubleQuote :: comma :: Json.quote (utf8 "msg") ++ [byte ':', doubleQuote] := by decide
  have hend : utf8 "\"\x7d\n" = [doubleQuote, closeBrace, byte '\n'] := by decide
  simp [jsonLine, object, member, quoted, escapeText_name, hts, hlevel, hmodule, hmsg, hend]

theorem unbroken_object : Unbroken r.object := by
  have hkeys : ∀ key ∈ ["ts", "level", "module", "msg"], Unbroken (member key []) := by decide
  have hmember {t : Bytes} (ht : Unbroken t) (key : String)
      (hkey : key ∈ ["ts", "level", "module", "msg"]) : Unbroken (member key t) := by
    have hsplit : member key t = member key [] ++ t := by simp [member]
    rw [hsplit]
    exact unbroken_append (hkeys key hkey) ht
  have htime := hmember (unbroken_decimalInt r.time) "ts" (by decide)
  have hlevel := hmember (unbroken_quoted r.entry.level.name) "level" (by decide)
  have hmodule := hmember (unbroken_quoted r.entry.module) "module" (by decide)
  have hmessage := hmember (unbroken_quoted r.entry.message) "msg" (by decide)
  have hcomma : Unbroken [comma] := by decide
  refine unbroken_append (unbroken_cons (by decide) ?_) (by decide)
  exact unbroken_append htime (unbroken_cons hcomma (unbroken_append hlevel (unbroken_cons hcomma
    (unbroken_append hmodule (unbroken_cons hcomma hmessage)))))

/-- A value carries the record if its members are what the record says. -/
structure CarriedBy (v : Json.Value) : Prop where
  time : v.get? (utf8 "ts") = some (.integer r.time)
  level : v.get? (utf8 "level") = some (.string r.entry.level.name)
  module : v.get? (utf8 "module") = some (.string r.entry.module)
  message : v.get? (utf8 "msg") = some (.string r.entry.message)

variable {r}

theorem read_object (hmodule : Escapable r.entry.module) (hmessage : Escapable r.entry.message) :
    ∃ v, Json.read r.object = some v ∧ r.CarriedBy v := by
  have htime := says_member "ts" (.integer (Json.isInteger_decimalInt r.time))
  have hlevel := says_member "level" (.string (isString_quoted (escapable_name r.entry.level)))
  have hmod := says_member "module" (.string (isString_quoted hmodule))
  have hmsg := says_member "msg" (.string (isString_quoted hmessage))
  have hobject := Says.object (.moreMembers htime (.moreMembers hlevel (.moreMembers hmod
    (.oneMember hmsg))))
  have hread : Json.read r.object = some _ := Json.read_eq_some_iff.2 hobject.unspaced
  exact ⟨_, hread, rfl, rfl, rfl, rfl⟩

theorem read_object_of_module (h : ¬Escapable r.entry.module) : Json.read r.object = none := by
  have hpre : Quoting.behind (openBrace :: (member "ts" (decimalInt r.time) ++ comma ::
      (member "level" (quoted r.entry.level.name) ++ [comma]))) = .outside := by
    simp [Quoting.behind, next_openBrace, next_comma, foldl_member, foldl_quoted, foldl_decimalInt]
  have hread := read_of_unescaped hpre h "module"
    (comma :: (member "msg" (quoted r.entry.message) ++ [closeBrace]))
  simpa [object] using hread

theorem read_object_of_message (h : ¬Escapable r.entry.message) : Json.read r.object = none := by
  have hpre : Quoting.behind (openBrace :: (member "ts" (decimalInt r.time) ++ comma ::
      (member "level" (quoted r.entry.level.name) ++ comma ::
        (member "module" (quoted r.entry.module) ++ [comma])))) = .outside := by
    simp [Quoting.behind, next_openBrace, next_comma, foldl_member, foldl_quoted, foldl_decimalInt]
  have hread := read_of_unescaped hpre h "msg" [closeBrace]
  simpa [object] using hread

/-- The JSON line of a record is on one line. It can be read, and then carries the record, exactly
if all control bytes of the module and the message are line breaks or tabs. -/
theorem line_json (r : Record) (colors : Bool) :
    ∃ text, r.line .json colors = text ++ [byte '\n'] ∧ byte '\n' ∉ text ∧ byte '\r' ∉ text ∧
      (Escapable r.entry.module ∧ Escapable r.entry.message →
        ∃ v, Json.read text = some v ∧ r.CarriedBy v) ∧
      (¬(Escapable r.entry.module ∧ Escapable r.entry.message) → Json.read text = none) := by
  refine ⟨r.object, r.jsonLine_eq, fun h => (r.unbroken_object _ h).1 rfl,
    fun h => (r.unbroken_object _ h).2 rfl, fun h => read_object h.1 h.2, fun h => ?_⟩
  by_cases hmodule : Escapable r.entry.module
  · exact read_object_of_message fun hmessage => h ⟨hmodule, hmessage⟩
  · exact read_object_of_module hmodule

/-- A message with a control byte that has no letter. -/
def unreadable : Record := ⟨⟨.warn, utf8 "parse", [byte 'a', 0x01, byte 'b']⟩, 0⟩

theorem line_unreadable :
    unreadable.line .json false = utf8 "\x7b\"ts\":0,\"level\":\"WARN\",\"module\":\"parse\"," ++
        utf8 "\"msg\":\"a" ++ 0x01 :: utf8 "b\"\x7d" ++ [byte '\n'] ∧
      ¬∃ text v, unreadable.line .json false = text ++ [byte '\n'] ∧ Json.read text = some v ∧
        unreadable.CarriedBy v := by
  refine ⟨by decide +kernel, ?_⟩
  rintro ⟨text, v, hline, hread, -⟩
  have htext : unreadable.object = text :=
    List.append_cancel_right ((jsonLine_eq unreadable).symm.trans hline)
  rw [← htext, read_object_of_message (by decide)] at hread
  cases hread

end Record

end JsxPresence.Log
