import Mathlib.Logic.Function.Iterate
import JsxPresence.Proofs.Token.Outside

namespace JsxPresence

/-- What a token can open: a substitution of a template, or a brace. -/
inductive Layer where
  | substitution
  | brace
deriving DecidableEq

namespace Layer

/-- What is open behind a token, innermost first. -/
def after (opened : List Layer) (kind : Kind) : List Layer :=
  if kind = .templateHead then .substitution :: opened
  else if kind = .openBrace then .brace :: opened
  else if kind = .closeBrace then
    if opened.head? = some .brace then opened.tail else opened
  else if kind = .templateTail then
    if opened.head? = some .substitution then opened.tail else opened
  else opened

/-- What is open behind some tokens at the start of a text. -/
def behind (tokens : List Token) : List Layer := (tokens.map Token.kind).foldl after []

/-- A later part of a template goes on with a substitution that is innermost, and a brace closes
one, unless nothing is open. -/
def Admits (opened : List Layer) (kind : Kind) : Prop :=
  (kind = .templateMiddle ∨ kind = .templateTail → opened.head? = some .substitution) ∧
    (kind = .closeBrace → opened.head? = some .brace ∨ opened = [])

instance (opened : List Layer) (kind : Kind) : Decidable (Admits opened kind) :=
  inferInstanceAs (Decidable (_ ∧ _))

/-- The braces above each substitution, `n` more above the first; innermost first. -/
def countsFrom (n : Nat) : List Layer → List Nat
  | [] => []
  | .brace :: rest => countsFrom (n + 1) rest
  | .substitution :: rest => n :: countsFrom 0 rest

/-- The number of braces directly above each substitution, innermost first. -/
def counts (opened : List Layer) : List Nat := countsFrom 0 opened

theorem countsFrom_succ (n : Nat) (opened : List Layer) :
    countsFrom (n + 1) opened = (countsFrom n opened).modifyHead (· + 1) := by
  induction opened generalizing n with
  | nil => rfl
  | cons layer rest ih =>
    cases layer with
    | brace => exact ih (n + 1)
    | substitution => rfl

@[simp]
theorem counts_nil : counts [] = [] := rfl

@[simp]
theorem counts_substitution (rest : List Layer) :
    counts (.substitution :: rest) = 0 :: counts rest := rfl

@[simp]
theorem counts_brace (rest : List Layer) :
    counts (.brace :: rest) = (counts rest).modifyHead (· + 1) := countsFrom_succ 0 rest

/-- No brace above the innermost substitution: it is on top. -/
theorem of_counts_zero {opened : List Layer} {outer : List Nat} (h : counts opened = 0 :: outer) :
    ∃ rest, opened = .substitution :: rest ∧ counts rest = outer := by
  rcases opened with _ | ⟨_ | _, rest⟩
  · cases h
  · exact ⟨rest, rfl, (List.cons.inj h).2⟩
  · rw [counts_brace] at h
    cases hrest : counts rest <;> simp [hrest] at h

/-- Braces above the innermost substitution: one is on top. -/
theorem of_counts_succ {opened : List Layer} {d : Nat} {outer : List Nat}
    (h : counts opened = (d + 1) :: outer) :
    ∃ rest, opened = .brace :: rest ∧ counts rest = d :: outer := by
  rcases opened with _ | ⟨_ | _, rest⟩
  · cases h
  · simp at h
  · refine ⟨rest, rfl, ?_⟩
    rw [counts_brace] at h
    cases hrest : counts rest with
    | nil => simp [hrest] at h
    | cons e outer' => simpa [hrest] using h

/-- Outside of substitutions there are at most braces. -/
theorem of_counts_nil {opened : List Layer} (h : counts opened = []) :
    opened = [] ∨ ∃ rest, opened = .brace :: rest ∧ counts rest = [] := by
  rcases opened with _ | ⟨_ | _, rest⟩
  · exact .inl rfl
  · cases h
  · refine .inr ⟨rest, rfl, ?_⟩
    rw [counts_brace] at h
    cases hrest : counts rest with
    | nil => rfl
    | cons d outer => simp [hrest] at h

/-- A token that is neither a brace nor a part of a template around a substitution. -/
theorem after_of_loose {kind : Kind} (hp : kind.isPart = false) (ho : kind ≠ .openBrace)
    (hc : kind ≠ .closeBrace) (opened : List Layer) :
    Admits opened kind ∧ after opened kind = opened := by
  have hh : kind ≠ .templateHead := by
    rintro rfl
    cases hp
  have hm : kind ≠ .templateMiddle := by
    rintro rfl
    cases hp
  have ht : kind ≠ .templateTail := by
    rintro rfl
    cases hp
  simp [Admits, after, hh, hm, ht, ho, hc]

end Layer

namespace Lexer

/-- A token that was made out is one that what is open admits, and the counters are right behind
it. -/
def Scan.Layered (opened : List Layer) (s : Scan) : Prop :=
  s.kind ≠ .error →
    Layer.Admits opened s.kind ∧ s.depths = Layer.counts (Layer.after opened s.kind)

namespace Scan

open Layer

variable {opened : List Layer}

theorem layered_plain {kind : Kind} (n : Nat) (hp : kind.isPart = false) (ho : kind ≠ .openBrace)
    (hc : kind ≠ .closeBrace) : (plain (counts opened) kind n).Layered opened := by
  intro _
  obtain ⟨hadmits, hafter⟩ := after_of_loose hp ho hc opened
  exact ⟨hadmits, by rw [plain, hafter]⟩

theorem layered_of_error {s : Scan} (h : s.kind = .error) : s.Layered opened :=
  fun hne => absurd h hne

theorem layered_ofExtent {kind : Kind} (cause : LexicalCause) (opening : Nat) (e : Literal.Extent)
    (hp : kind.isPart = false) (ho : kind ≠ .openBrace) (hc : kind ≠ .closeBrace) :
    (ofExtent (counts opened) kind cause opening e).Layered opened :=
  of_ite (fun _ => layered_plain _ hp ho hc) fun _ => layered_of_error rfl

theorem layered_templateStart (r : Bytes) : (templateStart (counts opened) r).Layered opened := by
  unfold templateStart
  dsimp only
  split
  · intro _
    simp [Admits, after]
  · intro _
    simp [Admits, after]
  · exact layered_of_error rfl

theorem layered_templateRest {rest : List Layer} (r : Bytes) :
    (templateRest (counts rest) r).Layered (.substitution :: rest) := by
  unfold templateRest
  dsimp only
  split
  · intro _
    simp [Admits, after]
  · intro _
    simp [Admits, after]
  · exact layered_of_error rfl

theorem layered_openBrace (n : Nat) :
    (plain ((counts opened).modifyHead (· + 1)) .openBrace n).Layered opened := by
  intro _
  simp [plain, Admits, after]

/-- A brace closes the one on top, if there is one. -/
theorem layered_closeBrace {rest : List Layer} (n : Nat) :
    (plain (counts rest) .closeBrace n).Layered (.brace :: rest) := by
  intro _
  simp [plain, Admits, after]

theorem layered_punctuator (b : UInt8) (r : Bytes) :
    (punctuator (counts opened) b r).Layered opened := by
  unfold punctuator
  split
  · exact layered_of_error rfl
  · rename_i n _
    have hopen := @layered_openBrace opened n
    cases hd : counts opened with
    | nil => simpa [hd] using hopen
    | cons d outer => simpa [hd] using hopen
  · rename_i n _
    rcases hd : counts opened with _ | ⟨_ | d, outer⟩
    · obtain rfl | ⟨rest, rfl, hrest⟩ := of_counts_nil hd
      · intro _
        simp [plain, Admits, after]
      · have hclose := @layered_closeBrace rest n
        rwa [hrest] at hclose
    · obtain ⟨rest, rfl, rfl⟩ := of_counts_zero hd
      exact layered_templateRest r
    · obtain ⟨rest, rfl, hrest⟩ := of_counts_succ hd
      have hclose := @layered_closeBrace rest n
      rwa [hrest] at hclose
  · rename_i kind n ho hc hs
    exact layered_plain n (Punctuator.scan?_cases hs).not_isPart ho hc

theorem layered_token (regexAllowed : Bool) (b : UInt8) (r : Bytes) :
    (token regexAllowed (counts opened) b r).Layered opened := by
  unfold token
  split_ifs
  · unfold name
    dsimp only
    split <;> exact layered_plain _ rfl (by decide) (by decide)
  · exact layered_ofExtent _ _ _ rfl (by decide) (by decide)
  · exact layered_ofExtent _ _ _ rfl (by decide) (by decide)
  · exact layered_templateStart r
  · exact layered_ofExtent _ _ _ rfl (by decide) (by decide)
  · exact layered_punctuator b r

end Scan

variable {text : Bytes} {lx : Lexer text} {opened : List Layer}

/-- The counters of the lexer are those of the stack. -/
def Counts (lx : Lexer text) (opened : List Layer) : Prop := lx.depths = Layer.counts opened

/-- One token keeps the counters in step with the stack. -/
theorem Counts.next (h : lx.Counts opened) (he : lx.next.1.kind ≠ .error) :
    Layer.Admits opened lx.next.1.kind ∧
      lx.next.2.Counts (Layer.after opened lx.next.1.kind) := by
  have hdepths : lx.ahead.depths = Layer.counts opened := h
  cases hr : lx.ahead.rest with
  | nil =>
    obtain ⟨hadmits, hafter⟩ := @Layer.after_of_loose .eof rfl (by decide) (by decide) opened
    rw [next_of_rest_nil hr]
    refine ⟨hadmits, ?_⟩
    change lx.ahead.depths = Layer.counts (Layer.after opened .eof)
    rw [hafter, hdepths]
  | cons b r =>
    have hlayered := @Scan.layered_token opened lx.ahead.regexAllowed b r
    rw [(next_of_rest_cons hr).1, hdepths] at he ⊢
    obtain ⟨hadmits, hcounts⟩ := hlayered he
    refine ⟨hadmits, ?_⟩
    rw [Counts, next_depths_of_rest_cons hr, hdepths]
    exact hcounts

/-- The lexer behind its next `n` tokens. -/
def past (n : Nat) (lx : Lexer text) : Lexer text := (fun lx : Lexer text => lx.next.2)^[n] lx

/-- All tokens do, in a text without errors. -/
theorem Counts.stream (h : lx.Counts opened) (hclean : ∀ t ∈ lx.stream, t.kind ≠ .error)
    {front back : List Token} (hsplit : lx.stream = front ++ back) :
    (past front.length lx).Counts ((front.map Token.kind).foldl Layer.after opened) ∧
      ∀ t, back.head? = some t →
        Layer.Admits ((front.map Token.kind).foldl Layer.after opened) t.kind := by
  induction lx using stream_induction generalizing opened front with
  | last lx hk =>
    rw [stream_of_eof hk] at hclean hsplit
    have hnext := h.next (hclean _ List.mem_cons_self)
    rcases front with _ | ⟨t, front⟩
    · rw [List.nil_append] at hsplit
      exact ⟨h, fun t ht => Option.some.inj (hsplit ▸ ht) ▸ hnext.1⟩
    · obtain ⟨rfl, hnil⟩ := List.cons.inj hsplit
      obtain ⟨rfl, rfl⟩ := List.append_eq_nil_iff.1 hnil.symm
      exact ⟨hnext.2, by simp⟩
  | step lx hk ih =>
    rw [stream_of_token hk] at hclean hsplit
    have hnext := h.next (hclean _ List.mem_cons_self)
    rcases front with _ | ⟨t, front⟩
    · rw [List.nil_append] at hsplit
      exact ⟨h, fun t ht => Option.some.inj (hsplit ▸ ht) ▸ hnext.1⟩
    · obtain ⟨rfl, hrest⟩ := List.cons.inj hsplit
      exact ih hnext.2 (fun t ht => hclean t (List.mem_cons_of_mem _ ht)) hrest

/-- In a text without error tokens braces and substitutions lie in each other: a later part of a
template stands only where its substitution is innermost, a closing brace only where a brace is or
where nothing is open. All the while the lexer knows the number of braces directly above each open
substitution. -/
theorem tokens_layered (text : Bytes) (h : ∀ t ∈ (tokenize text).1, t.kind ≠ .error)
    (front back : List Token) (hsplit : (tokenize text).1 = front ++ back) :
    (past front.length (start text)).depths = Layer.counts (Layer.behind front) ∧
      ∀ t, back.head? = some t → Layer.Admits (Layer.behind front) t.kind := by
  rw [tokenize_eq] at h hsplit
  have hstart : (start text).Counts [] := rfl
  exact hstart.stream h hsplit

/-- A template in an object in a substitution, a stray brace, and a block. -/
def layeredText : Bytes := utf8 "`a$\x7bf(\x7bb:`$\x7bc\x7d`\x7d)\x7d`\x7d\x7bd\x7d"

theorem tokens_layered_layeredText :
    (∀ t ∈ (tokenize layeredText).1, t.kind ≠ .error) ∧
      Layer.behind ((tokenize layeredText).1.take 8) =
        [.substitution, .brace, .substitution] ∧
      (past 8 (start layeredText)).depths = [0, 1] ∧
      Layer.Admits [.substitution, .brace, .substitution] .templateTail := by
  have hclean : ∀ t ∈ (tokenize layeredText).1, t.kind ≠ .error := by decide +kernel
  have hsplit := (List.take_append_drop 8 (tokenize layeredText).1).symm
  have hlength : ((tokenize layeredText).1.take 8).length = 8 := by decide +kernel
  have hbehind : Layer.behind ((tokenize layeredText).1.take 8) =
    [.substitution, .brace, .substitution] := by decide +kernel
  obtain ⟨hdepths, hadmits⟩ := tokens_layered layeredText hclean _ _ hsplit
  rw [hlength, hbehind] at hdepths
  obtain ⟨t, ht, hkind⟩ : ∃ t, ((tokenize layeredText).1.drop 8).head? = some t ∧
      t.kind = .templateTail := ⟨_, rfl, by decide +kernel⟩
  have hadmits := hadmits t ht
  rw [hbehind, hkind] at hadmits
  exact ⟨hclean, hbehind, hdepths, hadmits⟩

end Lexer

end JsxPresence
