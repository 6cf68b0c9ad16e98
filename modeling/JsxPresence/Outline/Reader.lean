import JsxPresence.Outline.SyntaxError

namespace JsxPresence

/-- The token at hand, the one before it, and the lexer behind both. Looking ahead steps a copy, so
it leaves no trace. -/
structure Reader (text : Bytes) where
  lexer : Lexer text
  current : Token
  previous : Option Token
  /-- Where the last token or element that was passed ends. -/
  lastEnd : Nat
deriving DecidableEq

namespace Reader

variable {text : Bytes}

def start (text : Bytes) : Reader text :=
  let (t, lexer) := (Lexer.start text).next
  ⟨lexer, t, none, 0⟩

def is (r : Reader text) (kind : Kind) : Bool := r.current.kind = kind

def isKeyword (r : Reader text) (word : Bytes) : Bool := r.current.isKeyword word

def isWord (r : Reader text) (word : Bytes) : Bool := r.current.isWord word

def atEnd (r : Reader text) : Bool := r.is .eof

/-- The next token, whatever it is; the end token stays. -/
def step (r : Reader text) : Reader text :=
  if r.atEnd then r
  else
    let (t, lexer) := r.lexer.next
    ⟨lexer, t, some r.current, r.current.span.stop⟩

/-- An error at the token at hand. -/
def failAt (r : Reader text) (cause : SyntaxCause) : SyntaxError := ⟨cause, r.current.span⟩

/-- Refuses a token that the lexer could not make out. -/
def checked (r : Reader text) : Except SyntaxError (Reader text) :=
  if r.is .error then
    match r.lexer.errors.getLast? with
    | some e => .error (r.failAt (.lexical e.cause))
    | none => .error (r.failAt .invalidToken)
  else .ok r

def advance (r : Reader text) : Except SyntaxError (Reader text) := r.step.checked

/-- Passes over the token at hand if it is of this kind. -/
def passOver (r : Reader text) (kind : Kind) : Except SyntaxError (Reader text) :=
  if r.is kind then r.advance else .ok r

def peek (r : Reader text) : Token := r.step.current

def expressionAllowed (r : Reader text) : Bool := expressionAllowedAfter r.previous

/-- The outcome of skipping ahead: where it stopped, and whether it got through. -/
structure Skip (text : Bytes) where
  done : Bool
  reader : Reader text

/-- Skips until the closers in `closers` are used up; `fuel` bounds the tokens. -/
def skipClosers (r : Reader text) (closers : List Kind) : Nat → Skip text
  | 0 => ⟨false, r⟩
  | fuel + 1 =>
    let kind := r.current.kind
    if kind.isOpener then r.step.skipClosers (kind.closer :: closers) fuel
    else if kind.isCloser then
      match closers with
      | [] => ⟨false, r⟩
      | c :: outer =>
        if c = kind then
          match outer with
          | [] => ⟨true, r.step⟩
          | _ :: _ => r.step.skipClosers outer fuel
        else ⟨false, r⟩
    else if kind = .eof || kind = .error then ⟨false, r⟩
    else
      match closers with
      | [] => ⟨true, r.step⟩
      | _ :: _ => r.step.skipClosers closers fuel

/-- Skips the bracket group that opens at the token at hand. -/
def skipGroup (r : Reader text) (fuel : Nat) : Skip text := r.skipClosers [] fuel

/-- Skips type arguments. Operators other than `|` and `&` cannot stand in them. Angles are counted
without a bound, here and in the other skips; a signed counter of 32 bits is the same for fewer than
`2 ^ 31` open angles. -/
def skipAngles (r : Reader text) (depth : Int) : Nat → Skip text
  | 0 => ⟨false, r⟩
  | fuel + 1 =>
    let kind := r.current.kind
    if kind = .less then r.step.skipAngles (depth + 1) fuel
    else if kind = .greater then
      if depth = 1 then ⟨true, r.step⟩ else r.step.skipAngles (depth - 1) fuel
    else if kind.isOpener then
      let group := r.skipGroup fuel
      if group.done then group.reader.skipAngles depth fuel else ⟨false, group.reader⟩
    else if kind = .operator then
      if r.current.lexeme = utf8 "|" || r.current.lexeme = utf8 "&" then
        r.step.skipAngles depth fuel
      else ⟨false, r⟩
    else if kind = .eof || kind = .error || kind = .semicolon || kind.isCloser then ⟨false, r⟩
    else r.step.skipAngles depth fuel

def skipTypeArguments (r : Reader text) (fuel : Nat) : Skip text := r.skipAngles 0 fuel

/-- Skips a group for good: a token the lexer could not make out is an error here. -/
def passGroup (r : Reader text) (fuel : Nat) (unbalanced : Reader text → SyntaxError) :
    Except SyntaxError (Reader text) := do
  let group := r.skipGroup fuel
  let after ← group.reader.checked
  if group.done then return after else throw (unbalanced after)

/-- A dotted path that goes on from the token at hand; `none` if a dot has no name after it. -/
def dottedTail (r : Reader text) : Nat → Option (List Bytes) × Reader text
  | 0 => (none, r)
  | fuel + 1 =>
    if r.is .dot then
      let after := r.step
      if after.current.isName then
        let (path, last) := after.step.dottedTail fuel
        (path.map (after.current.lexeme :: ·), last)
      else (none, after)
    else (some [], r)

/-- A dotted path that starts with the identifier at hand. -/
def dottedPath (r : Reader text) (fuel : Nat) : Option (List Bytes) × Reader text :=
  let (path, last) := r.step.dottedTail fuel
  (path.map (r.current.lexeme :: ·), last)

end Reader

end JsxPresence
