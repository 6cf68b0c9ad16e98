import JsxPresence.Outline.Binding
import JsxPresence.Outline.Walk
import JsxPresence.Proofs.Outline.Parser

namespace JsxPresence

namespace Parser

variable {text : Bytes}

def skipClosers (closers : List Kind) : Nat → ParserM text Bool
  | 0 => return false
  | fuel + 1 => do
    let kind ← view (·.current.kind)
    if kind.isOpener then
      advance
      skipClosers (kind.closer :: closers) fuel
    else if kind.isCloser then
      match closers with
      | [] => return false
      | c :: outer =>
        if c = kind then
          advance
          if outer.isEmpty then return true else skipClosers outer fuel
        else return false
    else if kind = .eof || kind = .error then return false
    else
      advance
      if closers.isEmpty then return true else skipClosers closers fuel

theorem skipClosers_leads (fuel : Nat) (closers : List Kind) (p : Parser text) :
    Leads p (skipClosers closers fuel) fun done r =>
      p.reader.skipClosers closers fuel = ⟨done, r⟩ := by
  induction fuel generalizing closers p with
  | zero => exact .pure rfl
  | succ fuel ih =>
    have hnext (closers : List Kind) (q : Parser text) (hq : q.reader = p.reader.step) :
        Leads q (skipClosers closers fuel) fun done r =>
          p.reader.step.skipClosers closers fuel = ⟨done, r⟩ := by
      rw [← hq]
      exact ih closers q
    unfold skipClosers Reader.skipClosers
    refine .view_bind ?_
    dsimp only
    split
    · exact .advance_bind (hnext _)
    split
    · cases closers with
      | nil => exact .pure rfl
      | cons c outer =>
        dsimp only
        split
        · cases outer with
          | nil => exact .advance_bind fun q hq => .pure (by rw [hq])
          | cons => exact .advance_bind (hnext _)
        · exact .pure rfl
    split
    · exact .pure rfl
    cases closers with
    | nil => exact .advance_bind fun q hq => .pure (by rw [hq])
    | cons => exact .advance_bind (hnext _)

def skipGroup (fuel : Nat) : ParserM text Bool := skipClosers [] fuel

def skipAngles (depth : Int) : Nat → ParserM text Bool
  | 0 => return false
  | fuel + 1 => do
    let t ← view (·.current)
    if t.kind = .less then
      advance
      skipAngles (depth + 1) fuel
    else if t.kind = .greater then
      advance
      if depth = 1 then return true else skipAngles (depth - 1) fuel
    else if t.kind.isOpener then
      if ← skipGroup fuel then skipAngles depth fuel else return false
    else if t.kind = .operator then
      if t.lexeme = utf8 "|" || t.lexeme = utf8 "&" then
        advance
        skipAngles depth fuel
      else return false
    else if t.kind = .eof || t.kind = .error || t.kind = .semicolon || t.kind.isCloser then
      return false
    else
      advance
      skipAngles depth fuel

theorem skipAngles_leads (fuel : Nat) (depth : Int) (p : Parser text) :
    Leads p (skipAngles depth fuel) fun done r =>
      p.reader.skipAngles depth fuel = ⟨done, r⟩ := by
  induction fuel generalizing depth p with
  | zero => exact .pure rfl
  | succ fuel ih =>
    have hnext (depth : Int) (q : Parser text) (hq : q.reader = p.reader.step) :
        Leads q (skipAngles depth fuel) fun done r =>
          p.reader.step.skipAngles depth fuel = ⟨done, r⟩ := by
      rw [← hq]
      exact ih depth q
    unfold skipAngles Reader.skipAngles
    refine .view_bind ?_
    dsimp only
    split
    · exact .advance_bind (hnext _)
    split
    · refine .advance_bind fun q hq => ?_
      split
      · exact .pure (by rw [hq])
      · exact hnext _ q hq
    split
    · refine (skipClosers_leads fuel [] p).bind fun done q hq => ?_
      rw [Reader.skipGroup, hq]
      cases done with
      | false => exact .pure rfl
      | true => exact ih depth q
    split
    · split
      · exact .advance_bind (hnext _)
      · exact .pure rfl
    split
    · exact .pure rfl
    · exact .advance_bind (hnext _)

def skipTypeArguments (fuel : Nat) : ParserM text Bool := skipAngles 0 fuel

def passTypes (fuel : Nat) : ParserM text Bool := do
  if ← view (·.is .less) then skipTypeArguments fuel else return true

/-- The reader behind type arguments, if there are any. -/
def typesAhead (r : Reader text) (fuel : Nat) : Reader.Skip text :=
  if r.is .less then r.skipTypeArguments fuel else ⟨true, r⟩

theorem passTypes_leads (fuel : Nat) (p : Parser text) :
    Leads p (passTypes fuel) fun done r => typesAhead p.reader fuel = ⟨done, r⟩ := by
  unfold passTypes typesAhead
  refine .view_bind ?_
  split
  · exact skipAngles_leads fuel 0 p
  · exact .pure rfl

/-- Passes type arguments, if there are any, and looks for a parenthesis. -/
def parenBehindTypes (fuel : Nat) : ParserM text Bool := do
  let done ← passTypes fuel
  let paren ← view (·.is .openParen)
  return done && paren

theorem parenBehindTypes_leads (fuel : Nat) (p : Parser text) :
    Leads p (parenBehindTypes fuel) fun found r =>
      (typesAhead p.reader fuel).reader = r ∧
        ((typesAhead p.reader fuel).done && (typesAhead p.reader fuel).reader.is .openParen) =
          found := by
  refine (passTypes_leads fuel p).bind fun done q hq => .view_bind (.pure ?_)
  rw [hq]
  exact ⟨rfl, rfl⟩

def paramsRest (angle count : Nat) : Nat → ParserM text (Option Nat)
  | 0 => return none
  | fuel + 1 => do
    let kind ← view (·.current.kind)
    if kind = .closeParen then return some count
    else if kind = .eof || kind = .error || kind = .closeBracket || kind = .closeBrace then
      return none
    else if kind.isOpener then
      if ← skipGroup fuel then paramsRest angle count fuel else return none
    else if kind = .less then
      advance
      paramsRest (angle + 1) count fuel
    else if kind = .greater && 0 < angle then
      advance
      paramsRest (angle - 1) count fuel
    else if kind = .comma && angle = 0 then
      advance
      let last ← view (·.is .closeParen)
      paramsRest angle (if last then count else count + 1) fuel
    else
      advance
      paramsRest angle count fuel

theorem paramsRest_leads (fuel : Nat) (angle count : Nat) (p : Parser text) :
    Leads p (paramsRest angle count fuel) fun found r =>
      p.reader.paramsRest angle count fuel = found.map (·, r) := by
  induction fuel generalizing angle count p with
  | zero => exact .pure rfl
  | succ fuel ih =>
    have hnext (angle count : Nat) (q : Parser text) (hq : q.reader = p.reader.step) :
        Leads q (paramsRest angle count fuel) fun found r =>
          p.reader.step.paramsRest angle count fuel = found.map (·, r) := by
      rw [← hq]
      exact ih angle count q
    unfold paramsRest Reader.paramsRest
    refine .view_bind ?_
    dsimp only
    split
    · exact .pure rfl
    split
    · exact .pure rfl
    split
    · refine (skipClosers_leads fuel [] p).bind fun done q hq => ?_
      rw [Reader.skipGroup, hq]
      cases done with
      | false => exact .pure rfl
      | true => exact ih angle count q
    split
    · exact .advance_bind (hnext _ _)
    split
    · exact .advance_bind (hnext _ _)
    split
    · refine .advance_bind fun q hq => .view_bind ?_
      rw [hq]
      exact hnext _ _ q hq
    · exact .advance_bind (hnext _ _)

def params (fuel : Nat) : ParserM text (Option Params) := do
  let opening ← view (·.current)
  advance
  let first ← view Reader.firstParam
  match ← paramsRest 0 (if first.1 = .none then 0 else 1) fuel with
  | none => return none
  | some count =>
    let closing ← view (·.current)
    advance
    return some
      { hasParens := true
        openParenEnd := opening.span.stop
        count := count
        first := first.1
        firstName := first.2.1
        patternBraceEnd := first.2.2
        span := ⟨opening.span.start, closing.span.stop⟩ }

theorem params_leads (fuel : Nat) (p : Parser text) :
    Leads p (params fuel) fun found r => p.reader.params? fuel = found.map (·, r) := by
  unfold params Reader.params?
  refine .view_bind (.advance_bind fun q hq => .view_bind ?_)
  rw [← hq]
  dsimp only
  refine (paramsRest_leads fuel _ _ q).bind fun found s hs => ?_
  rw [hs]
  cases found with
  | none => exact .pure rfl
  | some count => exact .view_bind (.advance_bind fun t ht => .pure (by rw [ht]; rfl))

def typeThenArrow (angle : Nat) : Nat → ParserM text Bool
  | 0 => return false
  | fuel + 1 => do
    let kind ← view (·.current.kind)
    if kind = .arrow && angle = 0 then return true
    else if kind = .eof || kind = .error || kind = .comma || kind = .semicolon || kind.isCloser then
      return false
    else if kind.isOpener then
      if ← skipGroup fuel then typeThenArrow angle fuel else return false
    else if kind = .less then
      advance
      typeThenArrow (angle + 1) fuel
    else if kind = .greater && 0 < angle then
      advance
      typeThenArrow (angle - 1) fuel
    else
      advance
      typeThenArrow angle fuel

theorem typeThenArrow_leads (fuel : Nat) (angle : Nat) (p : Parser text) :
    Leads p (typeThenArrow angle fuel) fun found _ =>
      p.reader.typeThenArrow angle fuel = found := by
  induction fuel generalizing angle p with
  | zero => exact .pure rfl
  | succ fuel ih =>
    have hnext (angle : Nat) (q : Parser text) (hq : q.reader = p.reader.step) :
        Leads q (typeThenArrow angle fuel) fun found _ =>
          p.reader.step.typeThenArrow angle fuel = found := by
      rw [← hq]
      exact ih angle q
    unfold typeThenArrow Reader.typeThenArrow
    refine .view_bind ?_
    dsimp only
    split
    · exact .pure rfl
    split
    · exact .pure rfl
    split
    · refine (skipClosers_leads fuel [] p).bind fun done q hq => ?_
      rw [Reader.skipGroup, hq]
      cases done with
      | false => exact .pure rfl
      | true => exact ih angle q
    split
    · exact .advance_bind (hnext _)
    split
    · exact .advance_bind (hnext _)
    · exact .advance_bind (hnext _)

/-- The token after the one at hand. -/
def peek : ParserM text Token := lookAhead do
  advance
  view (·.current)

theorem peek_eq (p : Parser text) : peek p = (p.reader.peek, p) :=
  lookAhead_eq (.advance_bind fun _ hq => .view (congrArg Reader.current hq))

def atImport : ParserM text Bool := do
  if ← view (·.isKeyword (utf8 "import")) then
    let next ← peek
    return !(next.kind = .openParen || next.kind = .dot)
  else return false

theorem atImport_eq (p : Parser text) : atImport p = (p.reader.atImport, p) := by
  unfold atImport Reader.atImport
  rw [view_bind_apply]
  cases p.reader.isKeyword (utf8 "import") with
  | false => rfl
  | true =>
    rw [if_pos rfl, bind_apply_of_eq (peek_eq p)]
    rfl

def atElement (elements : Bool) : ParserM text Bool := do
  if ← view (fun r => elements && r.is .less && r.expressionAllowed) then
    lookAhead do
      advance
      if ← view (·.is .identifier) then
        advance
        view fun r => !(r.is .comma || r.isKeyword (utf8 "extends"))
      else return true
  else return false

theorem atElement_eq (elements : Bool) (p : Parser text) :
    atElement elements p = (p.reader.atElement elements, p) := by
  unfold atElement Reader.atElement
  rw [view_bind_apply]
  cases elements && p.reader.is .less && p.reader.expressionAllowed with
  | false => rfl
  | true =>
    rw [if_pos rfl]
    refine lookAhead_eq (.advance_bind fun q hq => .view_bind ?_)
    rw [hq]
    cases p.reader.step.is .identifier with
    | false => exact .pure rfl
    | true =>
      refine .advance_bind fun s hs => .view ?_
      rw [hs, hq]
      rfl

def afterAsync : ParserM text Unit := do
  if ← view (·.isWord (utf8 "async")) then
    let next ← peek
    if next.isKeyword (utf8 "function") || next.kind = .openParen || next.kind = .identifier ||
        next.kind = .less then
      advance

theorem afterAsync_leads (p : Parser text) :
    Leads p afterAsync fun _ r => p.reader.afterAsync = r := by
  unfold afterAsync Reader.afterAsync
  refine .view_bind ?_
  cases p.reader.isWord (utf8 "async") with
  | false => exact .pure rfl
  | true =>
    refine .of_eq (peek_eq p) ?_
    simp only [Bool.true_and]
    split
    · exact .advance rfl
    · exact .pure rfl

/-- Passes the token at hand if it is of this kind. -/
def passOver (kind : Kind) : ParserM text Unit := do
  if ← view (·.is kind) then advance

theorem passOver_leads (kind : Kind) (p : Parser text) :
    Leads p (passOver kind) fun _ r => (if p.reader.is kind then p.reader.step else p.reader) = r := by
  refine .view_bind ?_
  split
  · exact .advance rfl
  · exact .pure rfl

/-- The parameters behind type parameters, if there are any of these. -/
def paramsBehindTypes (fuel : Nat) : ParserM text (Option Params) := do
  if ← parenBehindTypes fuel then params fuel else return none

theorem paramsBehindTypes_leads (fuel : Nat) (p : Parser text) :
    Leads p (paramsBehindTypes fuel) fun found r =>
      (do
        guard ((typesAhead p.reader fuel).done && (typesAhead p.reader fuel).reader.is .openParen)
        (typesAhead p.reader fuel).reader.params? fuel) = found.map (·, r) := by
  refine (parenBehindTypes_leads fuel p).bind fun found q hq => ?_
  obtain ⟨hreader, hfound⟩ := hq
  rw [hfound, hreader]
  cases found with
  | false => exact .pure rfl
  | true => exact params_leads fuel q

def functionParams (fuel : Nat) : ParserM text (Option Params) := do
  advance
  passOver .star
  passOver .identifier
  paramsBehindTypes fuel

theorem functionParams_leads (fuel : Nat) (p : Parser text) :
    Leads p (functionParams fuel) fun found _ => p.reader.functionParams? fuel = found := by
  unfold functionParams Reader.functionParams?
  refine .advance_bind fun q hq => ?_
  refine (passOver_leads .star q).bind fun _ s hs => ?_
  refine (passOver_leads .identifier s).bind fun _ t ht => ?_
  rw [← hq]
  dsimp only
  rw [hs, ht]
  refine (paramsBehindTypes_leads fuel t).mono fun found r h => ?_
  unfold typesAhead at h
  rw [← bind_assoc, h]
  cases found <;> rfl

def bareParam : ParserM text (Option Params) := do
  let name ← view (·.current)
  advance
  if ← view (·.is .arrow) then
    return some
      { hasParens := false
        openParenEnd := name.span.start
        count := 1
        first := .identifier
        firstName := name.lexeme
        patternBraceEnd := 0
        span := name.span }
  else return none

theorem bareParam_leads (p : Parser text) :
    Leads p bareParam fun found _ => p.reader.bareParam? = found := by
  unfold bareParam Reader.bareParam?
  refine .view_bind (.advance_bind fun q hq => .view_bind ?_)
  rw [hq]
  split
  · exact .pure rfl
  · exact .pure rfl

/-- An arrow follows, perhaps behind a return type. -/
def arrowFollows (fuel : Nat) : ParserM text Bool := do
  if ← view (·.is .colon) then
    advance
    typeThenArrow 0 fuel
  else view (·.is .arrow)

theorem arrowFollows_leads (fuel : Nat) (p : Parser text) :
    Leads p (arrowFollows fuel) fun found _ =>
      (if p.reader.is .colon then p.reader.step.typeThenArrow 0 fuel else p.reader.is .arrow) =
        found := by
  refine .view_bind ?_
  split
  · refine .advance_bind fun q hq => ?_
    rw [← hq]
    exact typeThenArrow_leads fuel 0 q
  · exact .view rfl

def arrowParams (fuel : Nat) : ParserM text (Option Params) := do
  match ← paramsBehindTypes fuel with
  | none => return none
  | some params =>
    let found ← arrowFollows fuel
    return if found then some params else none

theorem arrowParams_leads (fuel : Nat) (p : Parser text) :
    Leads p (arrowParams fuel) fun found _ => p.reader.arrowParams? fuel = found := by
  unfold arrowParams Reader.arrowParams?
  refine (paramsBehindTypes_leads fuel p).bind fun found q hq => ?_
  unfold typesAhead at hq
  dsimp only
  rw [← bind_assoc, hq]
  cases found with
  | none => exact .pure rfl
  | some params =>
    refine (arrowFollows_leads fuel q).bind fun found s hs => .pure ?_
    rw [Option.map_some, Option.bind_eq_bind, Option.bind_some, hs]
    cases found <;> rfl

/-- The function literal that starts at the token at hand. -/
def functionLiteral (fuel : Nat) : ParserM text (Option (Bool × Params)) := lookAhead do
  afterAsync
  if ← view (·.isKeyword (utf8 "function")) then return (← functionParams fuel).map (false, ·)
  else if ← view (·.is .identifier) then return (← bareParam).map (true, ·)
  else if ← view (fun r => r.is .openParen || r.is .less) then
    return (← arrowParams fuel).map (true, ·)
  else return none

theorem functionLiteral_eq (fuel : Nat) (p : Parser text) :
    functionLiteral fuel p = (p.reader.functionLiteral? fuel, p) := by
  refine lookAhead_eq ((afterAsync_leads p).bind fun _ q hq => .view_bind ?_)
  unfold Reader.functionLiteral?
  dsimp only
  rw [hq]
  split
  · refine (functionParams_leads fuel q).bind fun found _ h => .pure ?_
    rw [h]
  refine .view_bind ?_
  split
  · refine (bareParam_leads q).bind fun found _ h => .pure ?_
    rw [h]
  refine .view_bind ?_
  split
  · refine (arrowParams_leads fuel q).bind fun found _ h => .pure ?_
    rw [h]
  · exact .pure rfl

def dottedTail : Nat → ParserM text (Option (List Bytes))
  | 0 => return none
  | fuel + 1 => do
    if ← view (·.is .dot) then
      advance
      let name ← view (·.current)
      if name.isName then
        advance
        return (← dottedTail fuel).map (name.lexeme :: ·)
      else return none
    else return some []

theorem dottedTail_leads (fuel : Nat) (p : Parser text) :
    Leads p (dottedTail fuel) fun path r => p.reader.dottedTail fuel = (path, r) := by
  induction fuel generalizing p with
  | zero => exact .pure rfl
  | succ fuel ih =>
    unfold dottedTail Reader.dottedTail
    refine .view_bind ?_
    split
    · refine .advance_bind fun q hq => .view_bind ?_
      rw [← hq]
      dsimp only
      split
      · refine .advance_bind fun s hs => (ih s).bind fun path t ht => .pure ?_
        rw [← hs, ht]
      · exact .pure rfl
    · exact .pure rfl

def dottedPath (fuel : Nat) : ParserM text (Option (List Bytes)) := do
  let first ← view (·.current)
  advance
  return (← dottedTail fuel).map (first.lexeme :: ·)

theorem dottedPath_leads (fuel : Nat) (p : Parser text) :
    Leads p (dottedPath fuel) fun path r => p.reader.dottedPath fuel = (path, r) := by
  refine .view_bind (.advance_bind fun q hq => (dottedTail_leads fuel q).bind fun path s hs => ?_)
  refine .pure ?_
  unfold Reader.dottedPath
  rw [← hq, hs]

/-- What a path is as an argument, if the argument ends behind it. -/
def ofPath : Option (List Bytes) → ArgumentKind
  | some [name] => .identifier name
  | some path => .member path
  | none => .other

/-- Tells the argument that starts at the token at hand. -/
def argumentKind (fuel : Nat) : ParserM text ArgumentKind := do
  match ← functionLiteral fuel with
  | some (arrow, params) => return .function arrow params
  | none =>
    if ← view (·.is .identifier) then
      lookAhead do
        let path ← dottedPath fuel
        let ends ← view Reader.endsArgument
        return if ends then ofPath path else .other
    else if ← view Reader.startsLiteral then
      lookAhead do
        advance
        let ends ← view Reader.endsArgument
        return if ends then .literal else .other
    else return .other

theorem argumentKind_eq (fuel : Nat) (p : Parser text) :
    argumentKind fuel p = (p.reader.argumentKind fuel, p) := by
  unfold argumentKind Reader.argumentKind
  rw [bind_apply_of_eq (functionLiteral_eq fuel p)]
  cases p.reader.functionLiteral? fuel with
  | some found => rfl
  | none =>
    dsimp only
    rw [view_bind_apply]
    split
    · refine lookAhead_eq ((dottedPath_leads fuel p).bind fun path q hq => .view_bind (.pure ?_))
      rw [hq]
      rcases path with _ | _ | ⟨name, _ | ⟨_, _⟩⟩
      · split <;> rfl
      · rfl
      · rfl
      · rfl
    rw [view_bind_apply]
    cases p.reader.startsLiteral with
    | false => rfl
    | true =>
      refine lookAhead_eq (.advance_bind fun q hq => .view_bind (.pure ?_))
      rw [hq, Bool.true_and]

/-- Goes to the parenthesis of a call. Type arguments before it are tried, and left again if there
is no parenthesis behind them. -/
def callParen (fuel : Nat) : ParserM text Bool := do
  if ← view (·.is .openParen) then return true
  else if ← view (·.is .less) then attempt (parenBehindTypes fuel)
  else return false

/-- Trying type arguments ends behind them, or leaves the parser as it was. -/
theorem callParen_eq (fuel : Nat) (p : Parser text) :
    (p.reader.callParen? fuel = none → callParen fuel p = (false, p)) ∧
      ∀ r, p.reader.callParen? fuel = some r →
        (callParen fuel p).1 = true ∧ (callParen fuel p).2.reader = r := by
  unfold callParen Reader.callParen?
  rw [view_bind_apply]
  split
  · exact ⟨nofun, fun r h => ⟨rfl, Option.some.inj h⟩⟩
  rw [view_bind_apply]
  split
  next hless =>
    have htypes := parenBehindTypes_leads fuel p
    unfold typesAhead at htypes
    rw [if_pos hless] at htypes
    dsimp only
    split
    next hfound =>
      rw [hfound] at htypes
      refine ⟨nofun, fun r h => attempt_of_true (htypes.mono fun b s hb => ⟨hb.2.symm, ?_⟩)⟩
      rw [← hb.1, Option.some.inj h]
    next hfound =>
      rw [Bool.not_eq_true] at hfound
      rw [hfound] at htypes
      exact ⟨fun _ => attempt_of_false (htypes.mono fun b s hb => hb.2.symm), fun _ h => nomatch h⟩
  next => exact ⟨fun _ => rfl, fun _ h => nomatch h⟩

/-- No look-ahead leaves a trace: in any state of a parser, the answer is what the reader finds on a
copy of itself, and the parser is as before, lexer and errors included. Type arguments that no
parenthesis follows are left again in the same way. -/
theorem lookAheads_restore (p : Parser text) (elements : Bool) (fuel : Nat) :
    peek p = (p.reader.peek, p) ∧
    atImport p = (p.reader.atImport, p) ∧
    atElement elements p = (p.reader.atElement elements, p) ∧
    functionLiteral fuel p = (p.reader.functionLiteral? fuel, p) ∧
    argumentKind fuel p = (p.reader.argumentKind fuel, p) ∧
    (p.reader.callParen? fuel = none → callParen fuel p = (false, p)) ∧
    ∀ r, p.reader.callParen? fuel = some r →
      (callParen fuel p).1 = true ∧ (callParen fuel p).2.reader = r :=
  ⟨peek_eq p, atImport_eq p, atElement_eq elements p, functionLiteral_eq fuel p,
    argumentKind_eq fuel p, callParen_eq fuel p⟩

/-- A parser before type arguments that break off in a string. -/
def brokenTypes : Parser (utf8 "<a 'b") := ⟨.start (utf8 "<a 'b"), [], false, .empty⟩

/-- The attempt meets an error, and stops for good until it is rewound. -/
theorem lookAheads_restore_brokenTypes :
    (parenBehindTypes 9 brokenTypes).2.aborted = true ∧
    brokenTypes.reader.callParen? 9 = none ∧ callParen 9 brokenTypes = (false, brokenTypes) := by
  have hnone : brokenTypes.reader.callParen? 9 = none := by
    rw [← Option.isNone_iff_eq_none]
    decide +kernel
  exact ⟨by decide +kernel, hnone,
    (lookAheads_restore brokenTypes false 9).2.2.2.2.2.1 hnone⟩

end Parser

end JsxPresence
