import JsxPresence.Proofs.Outline.Alike.Declaration

namespace JsxPresence

namespace Reader

variable {a b : Bytes} {r : Reader a} {s : Reader b} {n m fuel fuel' bound : Nat}
  {walk : Walk a} {walk' : Walk b}

theorem walkItem_alike (hw : walk.Alike bound walk') (h : r.Alike n s) (he : r.atEnd = false)
    (hb : n < bound) (hn : n ≤ fuel) (hn' : n ≤ fuel') :
    Agree (Same Outline.unplaced (n - 1)) (r.walkItem walk fuel) (s.walkItem walk' fuel') := by
  unfold walkItem
  apply Agree.ite (by rw [atImport_alike h]) fun _ => walkImport_alike hw h he hb.le hn hn'
  intro _
  apply Agree.ite (by rw [h.isKeyword]) fun _ => walkExport_alike hw h he hb.le hn hn'
  intro _
  apply Agree.ite (by rw [atDeclaration_alike h])
  · intro _
    exact walkDeclaration_alike hw h he hb.le hn hn' rfl
  · intro _
    exact hw n r s hb h

theorem walkItems_alike (hw : walk.Alike bound walk') (h : r.Alike n s) (hb : n < bound)
    (hn : n < fuel) (hn' : n < fuel') :
    Agree (Same Outline.unplaced n) (walkItems walk fuel r) (walkItems walk' fuel' s) := by
  induction n using Nat.strong_induction_on generalizing r s fuel fuel' with
  | _ n ih =>
    obtain ⟨fuel, rfl⟩ := Nat.exists_eq_add_one_of_ne_zero (n := fuel) (by omega)
    obtain ⟨fuel', rfl⟩ := Nat.exists_eq_add_one_of_ne_zero (n := fuel') (by omega)
    simp only [walkItems, ← h.atEnd]
    apply Agree.ite Iff.rfl fun _ => .pure (h.same rfl)
    intro hgo
    have he : r.atEnd = false := by simpa using hgo
    have hpos := h.pos he
    apply (walkItem_alike hw h he hb (by omega) (by omega)).bind
    intro x y hxy
    apply (ih (n - 1) (by omega) hxy.reader (by omega) (by omega) (by omega)).bind
    intro x' y' hxy'
    exact (hxy'.append hxy.value).mono (by omega)

/-- After as many steps as there are tokens behind the one at hand, the end is reached. -/
theorem atEnd_step_iterate {k : Nat} (h : r.upcoming.length ≤ k) : (step^[k] r).atEnd = true := by
  induction k generalizing r with
  | zero =>
    by_contra he
    rw [upcoming_of_not_atEnd (by simpa using he)] at h
    simp [tokens] at h
  | succ k ih =>
    apply ih
    cases he : r.atEnd with
    | true => simp [step_of_atEnd he, upcoming_of_atEnd he]
    | false =>
      rw [upcoming_of_not_atEnd he, tokens, List.length_cons] at h
      omega

/-- It is enough to look at the tokens before the end. -/
theorem followAlike_of_lt (h : ∀ k < r.upcoming.length, (step^[k] r).isWord (utf8 "async") = true →
    (step^[k] r).functionFollows = (step^[k] s).functionFollows) : FollowAlike r s := by
  intro k hasync
  by_cases hk : k < r.upcoming.length
  · exact h k hk hasync
  · have hend : (step^[k] r).current.kind = .eof :=
      of_decide_eq_true (atEnd_step_iterate (Nat.le_of_not_lt hk))
    simp [isWord, Token.isWord, hend] at hasync

theorem start_legible (h : (Lexer.tokenize a).2 = []) : (start a).Legible := by
  have hclean : (start a).allErrors = [] := by rw [start_allErrors, h]
  constructor
  · exact hclean
  · intro hk
    have herrors : (start a).lexer.errors ≠ [] := Lexer.next_errors_ne_nil hk
    have hpre := (start a).errors_prefix_allErrors
    rw [hclean] at hpre
    exact herrors (List.prefix_nil.1 hpre)

theorem start_alike (ha : (Lexer.tokenize a).2 = []) (hb : (Lexer.tokenize b).2 = [])
    (htokens : (Lexer.tokenize a).1.map Token.unplaced = (Lexer.tokenize b).1.map Token.unplaced)
    (hfollow : FollowAlike (start a) (start b)) :
    (start a).Alike (start a).upcoming.length (start b) := by
  rw [← start_tokens, ← start_tokens] at htokens
  simp only [tokens, List.map_cons, List.cons.injEq] at htokens
  exact {
    left := start_legible ha
    right := start_legible hb
    current := htokens.1
    previous := rfl
    upcoming := htokens.2
    length_le := le_refl _
    follow := hfollow }

theorem start_upcoming_lt (text : Bytes) :
    (start text).upcoming.length < Outline.stepBound text := by
  have hlength := Lexer.stream_length_le (start text).lexer
  unfold upcoming Outline.stepBound
  split_ifs
  · simp
  · omega

end Reader

namespace Outline

open Reader

theorem read_alike {a b : Bytes} (ha : (Lexer.tokenize a).2 = []) (hb : (Lexer.tokenize b).2 = [])
    (htokens : (Lexer.tokenize a).1.map Token.unplaced = (Lexer.tokenize b).1.map Token.unplaced)
    (hfollow : FollowAlike (start a) (start b)) :
    Agree (fun x y => x.1.unplaced = y.1.unplaced ∧ x.2 = [] ∧ y.2 = []) (read false a)
      (read false b) := by
  have h := start_alike ha hb htokens hfollow
  have hn := start_upcoming_lt a
  have hn' : (start a).upcoming.length < stepBound b := by
    have hlength := congrArg List.length h.upcoming
    rw [List.length_map, List.length_map] at hlength
    rw [hlength]
    exact start_upcoming_lt b
  have hw : Walk.Alike (min (stepBound a) (stepBound b)) (Reader.walk false (stepBound a) : Walk a)
      (Reader.walk false (stepBound b) : Walk b) := walk_alike _ _
  unfold read
  apply h.checked.bind
  intro r s hrs
  apply (walkItems_alike hw hrs (by omega) hn hn').bind
  intro x y hxy
  exact ⟨hxy.value, hxy.reader.left.errors, hxy.reader.right.errors⟩

/-- What reading a file gives, with all places left out: the outline, or the messages. -/
def reading (s : Source) : Except (List Bytes) Outline :=
  ((parse s).map Outline.unplaced).mapError (List.map SyntaxError.message)

theorem reading_of_ok {s : Source} {o : Outline}
    (h : read s.dialect.allowsElements s.content = .ok (o, [])) : reading s = .ok o.unplaced := by
  simp [reading, parse, h, Except.map, Except.mapError]

theorem reading_of_error {s : Source} {e : SyntaxError}
    (h : read s.dialect.allowsElements s.content = .error e) : reading s = .error [e.message] := by
  simp [reading, parse, h, Except.map, Except.mapError]

/-- Comments and spacing do not change what is read, as long as they do not hide from the raw look
behind a word `async` that a function follows. -/
theorem reading_of_tokens {s t : Source} (hname : s.filename = t.filename) (hts : s.dialect = .ts)
    (hs : (Lexer.tokenize s.content).2 = []) (ht : (Lexer.tokenize t.content).2 = [])
    (htokens : (Lexer.tokenize s.content).1.map Token.unplaced =
      (Lexer.tokenize t.content).1.map Token.unplaced)
    (hfollow : FollowAlike (start s.content) (start t.content)) : reading s = reading t := by
  have hts' : t.dialect = .ts := by rw [Source.dialect, ← hname, ← Source.dialect, hts]
  have hread := read_alike hs ht htokens hfollow
  cases hx : read false s.content with
  | error e =>
    cases hy : read false t.content with
    | error f =>
      rw [hx, hy] at hread
      have hcause : e.cause = f.cause := hread
      rw [reading_of_error (by rw [hts]; exact hx), reading_of_error (by rw [hts']; exact hy),
        SyntaxError.message, SyntaxError.message, hcause]
    | ok y =>
      rw [hx, hy] at hread
      cases hread
  | ok x =>
    cases hy : read false t.content with
    | error f =>
      rw [hx, hy] at hread
      cases hread
    | ok y =>
      rw [hx, hy] at hread
      obtain ⟨houtline, hxerrors, hyerrors⟩ := hread
      obtain ⟨o, errors⟩ := x
      obtain ⟨p, errors'⟩ := y
      dsimp only at houtline hxerrors hyerrors
      subst hxerrors hyerrors
      rw [reading_of_ok (by rw [hts]; exact hx), reading_of_ok (by rw [hts']; exact hy), houtline]

/-- An exported constant and an asynchronous function. -/
def tightText : Source :=
  ⟨utf8 "a.ts", utf8 "export const a=f((p)=>p);async function g()\x7b\x7d"⟩

/-- The same with comments, and with blanks and tabs. -/
def looseText : Source :=
  ⟨utf8 "a.ts", utf8 "export /* a */ const a = f( (p) => p ) ;async  \tfunction g() \x7b/**/\x7d"⟩

theorem reading_of_tokens_looseText :
    reading tightText = reading looseText ∧ tightText.content ≠ looseText.content := by
  refine ⟨reading_of_tokens rfl (by decide +kernel) (by decide +kernel) (by decide +kernel)
    (by decide +kernel) (followAlike_of_lt (by decide +kernel)), by decide +kernel⟩

/-- A comment between `async` and `function` hides a declaration, although the tokens are the
same. -/
theorem reading_hidden_function :
    ¬∀ s t : Source, s.filename = t.filename → s.dialect = .ts →
      (Lexer.tokenize s.content).2 = [] → (Lexer.tokenize t.content).2 = [] →
      (Lexer.tokenize s.content).1.map Token.unplaced =
        (Lexer.tokenize t.content).1.map Token.unplaced → reading s = reading t := by
  intro h
  have hsame := h ⟨utf8 "a.ts", utf8 "async function f() \x7b\x7d"⟩
    ⟨utf8 "a.ts", utf8 "async /**/ function f() \x7b\x7d"⟩ rfl (by decide +kernel)
    (by decide +kernel) (by decide +kernel) (by decide +kernel)
  exact absurd hsame (by decide +kernel)

end Outline

end JsxPresence
