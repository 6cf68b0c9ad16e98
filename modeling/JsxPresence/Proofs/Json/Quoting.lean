import JsxPresence.Proofs.Json.Grammar

namespace JsxPresence.Json

/-- Where the next byte of a text stands: outside of strings, inside of one, or behind a backslash
in one. -/
inductive Quoting where
  | outside
  | inside
  | escaped
deriving DecidableEq

namespace Quoting

def next : Quoting → UInt8 → Quoting
  | outside, b => if b = doubleQuote then inside else outside
  | inside, b => if b = backslash then escaped else if b = doubleQuote then outside else inside
  | escaped, _ => inside

/-- Where the byte behind a text stands. -/
def behind (t : Bytes) : Quoting := t.foldl next outside

/-- A text leads from one place to another, and all its control bytes stand outside of strings. -/
def Leads : Quoting → Bytes → Quoting → Prop
  | q, [], r => q = r
  | q, b :: t, r => (isControl b = true → q = outside) ∧ Leads (q.next b) t r

variable {p q r : Quoting} {s t : Bytes}

theorem leads_append (h : Leads p s q) (k : Leads q t r) : Leads p (s ++ t) r := by
  induction s generalizing p with
  | nil =>
    obtain rfl : p = q := h
    exact k
  | cons b s ih => exact ⟨h.1, ih h.2⟩

theorem Leads.foldl_eq (h : Leads q t r) : t.foldl next q = r := by
  induction t generalizing q with
  | nil => exact h
  | cons b t ih => exact ih h.2

/-- A control byte of such a text stands outside. -/
theorem Leads.outside_of_isControl {b : UInt8} (h : Leads q (s ++ b :: t) r)
    (hb : isControl b = true) : s.foldl next q = outside := by
  induction s generalizing q with
  | nil => exact h.1 hb
  | cons c s ih => exact ih h.2

/-- Outside of strings everything but a quote may stand. -/
theorem leads_outside (h : doubleQuote ∉ t) : Leads outside t outside := by
  induction t with
  | nil => rfl
  | cons b t ih =>
    obtain ⟨hb, ht⟩ := List.ne_and_not_mem_of_not_mem_cons h
    exact ⟨fun _ => rfl, by simpa [next, Ne.symm hb] using ih ht⟩

end Quoting

open Quoting

/-- A byte that stands for itself in a string. -/
def IsLiteral (b : UInt8) : Prop := isControl b = false ∧ b ≠ doubleQuote ∧ b ≠ backslash

theorem leads_literal {b : UInt8} {t : Bytes} (hb : IsLiteral b) (h : Leads inside t inside) :
    Leads inside (b :: t) inside :=
  And.intro (fun hc => absurd hc (by simp [hb.1])) (by simpa [next, hb.2.1, hb.2.2] using h)

theorem leads_escaped {b : UInt8} {t : Bytes} (hb : isControl b = false)
    (h : Leads inside t inside) : Leads inside (backslash :: b :: t) inside :=
  And.intro (fun hc => absurd hc (by decide))
    (And.intro (fun hc => absurd hc (by simp [hb])) h)

/-- There are few control bytes, so each of them can be looked at. -/
theorem forall_isControl {P : UInt8 → Prop} (h : ∀ n < 32, P (UInt8.ofNat n)) {b : UInt8}
    (hb : isControl b = true) : P b := by
  have hlt : b < 0x20 := by simpa [isControl] using hb
  simpa using h b.toNat hlt

theorem isControl_of_letter? {e b : UInt8} (h : letter? e = some b) : isControl e = false := by
  rw [Bool.eq_false_iff]
  intro hc
  have hnone : letter? e = none := forall_isControl (P := fun e => letter? e = none) (by decide) hc
  rw [hnone] at h
  cases h

theorem isLiteral_of_hexValue? {b : UInt8} {n : Nat} (h : hexValue? b = some n) :
    IsLiteral b := by
  have hsome : hexValue? b ≠ none := by simp [h]
  refine ⟨Bool.eq_false_iff.2 fun hc => ?_, ?_, ?_⟩
  · exact hsome (forall_isControl (P := fun b => hexValue? b = none) (by decide) hc)
  · rintro rfl
    exact hsome (by decide)
  · rintro rfl
    exact hsome (by decide)

theorem IsPiece.leads {p : Piece} {s : Bytes} (h : IsPiece p s) : Leads inside s inside := by
  cases h with
  | plain hc hq hb => exact leads_literal ⟨hc, hq, hb⟩ rfl
  | letter he => exact leads_escaped (isControl_of_letter? he) rfl
  | @number a b c d n hn =>
    simp only [codeUnit?, Option.bind_eq_bind, Option.bind_eq_some_iff] at hn
    obtain ⟨a', ha, b', hb, c', hc, d', hd, -⟩ := hn
    refine leads_escaped (by decide) ?_
    apply leads_literal (isLiteral_of_hexValue? ha)
    apply leads_literal (isLiteral_of_hexValue? hb)
    apply leads_literal (isLiteral_of_hexValue? hc)
    exact leads_literal (isLiteral_of_hexValue? hd) rfl

theorem Pieces.leads {ps : List Piece} {t : Bytes} (h : Pieces ps t) : Leads inside t inside := by
  induction h with
  | nil => rfl
  | cons h _ ih => exact leads_append h.leads ih

theorem IsString.leads {s t : Bytes} (h : IsString s t) : Leads outside t outside := by
  obtain ⟨ps, body, hps, -, rfl⟩ := h
  have hopen : Leads outside [doubleQuote] inside := ⟨fun _ => rfl, rfl⟩
  have hclose : Leads inside [doubleQuote] outside := ⟨fun hc => absurd hc (by decide), rfl⟩
  exact leads_append (leads_append hopen hps.leads) hclose

theorem Blank.leads {w : Bytes} (h : Blank w) : Leads outside w outside := by
  apply leads_outside
  intro hmem
  exact absurd (h _ hmem) (by decide)

/-- One byte that is no quote stays outside. -/
theorem leads_cons {b : UInt8} {t : Bytes} (hb : b ≠ doubleQuote) (h : Leads outside t outside) :
    Leads outside (b :: t) outside := by
  have hbyte : Leads outside [b] outside := leads_outside (by simpa using Ne.symm hb)
  exact leads_append hbyte h

theorem IsInteger.leads {n : Int} {t : Bytes} (h : IsInteger n t) : Leads outside t outside := by
  have hdigits {n : Nat} {t : Bytes} (h : IsNatural n t) : Leads outside t outside := by
    apply leads_outside
    intro hmem
    exact absurd (h.digits _ hmem) (by decide)
  cases h with
  | plain h => exact hdigits h
  | minus h => exact leads_cons (by decide) (hdigits h)

/-- What is said has all control bytes outside of its strings. -/
theorem Says.leads {p : Phrase} {t : Bytes} (h : Says p t) : Leads outside t outside := by
  induction h with
  | word h =>
    simp only [words, List.mem_cons, Prod.mk.injEq, List.not_mem_nil, or_false] at h
    rcases h with ⟨rfl, -⟩ | ⟨rfl, -⟩ | ⟨rfl, -⟩ <;> exact leads_outside (by decide)
  | integer h => exact h.leads
  | string h => exact h.leads
  | emptyArray hw =>
    exact leads_append (leads_cons (by decide) hw.leads) (leads_cons (by decide) rfl)
  | array _ ih => exact leads_append (leads_cons (by decide) ih) (leads_cons (by decide) rfl)
  | emptyObject hw =>
    exact leads_append (leads_cons (by decide) hw.leads) (leads_cons (by decide) rfl)
  | object _ ih => exact leads_append (leads_cons (by decide) ih) (leads_cons (by decide) rfl)
  | spaced ha _ hb ih => exact leads_append (leads_append ha.leads ih) hb.leads
  | item _ ih => exact ih
  | moreItems _ _ ih ihs => exact leads_append ih (leads_cons (by decide) ihs)
  | member ha hk hb _ ih =>
    exact leads_append (leads_append (leads_append ha.leads hk.leads) hb.leads)
      (leads_cons (by decide) ih)
  | oneMember _ ih => exact ih
  | moreMembers _ _ ih ihs => exact leads_append ih (leads_cons (by decide) ihs)

/-- Every control byte of a text stands outside of its strings. -/
def ControlsOutside (t : Bytes) : Prop :=
  ∀ s b u, t = s ++ b :: u → isControl b = true → behind s = outside

theorem Says.controlsOutside {p : Phrase} {t : Bytes} (h : Says p t) : ControlsOutside t := by
  rintro s b u rfl hb
  exact h.leads.outside_of_isControl hb

end JsxPresence.Json
