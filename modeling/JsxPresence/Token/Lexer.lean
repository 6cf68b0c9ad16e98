import JsxPresence.Token
import JsxPresence.Token.Literal
import JsxPresence.Token.Punctuator
import JsxPresence.Token.Trivia

namespace JsxPresence

/-- Why a piece of text is not a token. -/
inductive LexicalCause where
  | unterminatedComment
  | unterminatedString
  | unterminatedTemplate
  | unterminatedRegex
  | nameAfterNumber
  | unexpectedByte (b : UInt8)
  | missingElementName
  | unterminatedElementString
deriving DecidableEq

def LexicalCause.message : LexicalCause → Bytes
  | unterminatedComment => utf8 "unterminated block comment"
  | unterminatedString => utf8 "unterminated string literal"
  | unterminatedTemplate => utf8 "unterminated template literal"
  | unterminatedRegex => utf8 "unterminated regular expression"
  | nameAfterNumber => utf8 "identifier starts immediately after numeric literal"
  | unexpectedByte b => utf8 "unexpected character '" ++ [b] ++ utf8 "'"
  | missingElementName => utf8 "expected JSX tag or attribute name"
  | unterminatedElementString => utf8 "unterminated JSX attribute string"

structure LexicalError where
  cause : LexicalCause
  span : Span
deriving DecidableEq

/-- A place in a text, with the text from there on. Places past the end are allowed. -/
structure Cursor (text : Bytes) where
  pos : Nat
  rest : Bytes
  rest_eq : rest = text.drop pos

namespace Cursor

variable {text : Bytes}

@[ext]
theorem ext_pos {c d : Cursor text} (h : c.pos = d.pos) : c = d := by
  obtain ⟨p, r, hr⟩ := c
  obtain ⟨q, s, hs⟩ := d
  simp only at h
  subst h hr hs
  rfl

instance : DecidableEq (Cursor text) := fun c d =>
  decidable_of_iff (c.pos = d.pos) ⟨ext_pos, congrArg pos⟩

def ofPos (pos : Nat) : Cursor text := ⟨pos, text.drop pos, rfl⟩

def advance (c : Cursor text) (n : Nat) : Cursor text :=
  ⟨c.pos + n, c.rest.drop n, by rw [c.rest_eq, List.drop_drop]⟩

/-- Moves to a place; forward moves start from the text at hand. -/
def seek (c : Cursor text) (pos : Nat) : Cursor text :=
  if c.pos ≤ pos then c.advance (pos - c.pos) else ofPos pos

theorem seek_eq (c : Cursor text) (pos : Nat) : c.seek pos = ofPos pos := by
  apply ext_pos
  by_cases h : c.pos ≤ pos <;> simp [seek, h, advance, ofPos]

end Cursor

/-- A place in a text, with what the text before it decides about the next token: whether an
expression may start, and how deep the braces are inside each open template substitution. Inside an
element the grammar is by characters, so the element scanners start wherever the lexer stands. -/
structure Lexer (text : Bytes) where
  cursor : Cursor text
  /-- An expression may start here, so a slash opens a regular expression. -/
  regexAllowed : Bool
  /-- A newline was passed since the last token of the plain grammar began. -/
  newlinePending : Bool
  /-- Open braces inside each open template substitution, innermost first. They are counted without
  a bound; a signed counter of 32 bits is the same for fewer than `2 ^ 31` open braces. -/
  depths : List Nat
  /-- Oldest first. -/
  errors : List LexicalError
deriving DecidableEq

namespace Lexer

variable {text : Bytes}

def pos (lx : Lexer text) : Nat := lx.cursor.pos

def rest (lx : Lexer text) : Bytes := lx.cursor.rest

/-- The byte `n` places ahead, zero past the end. -/
def peek (lx : Lexer text) (n : Nat) : UInt8 := lx.rest.byteAt n

/-- Where tokens start: after a byte order mark and after a leading `#!` line. -/
def startOffset (text : Bytes) : Nat :=
  let mark := if [0xef, 0xbb, 0xbf].isPrefixOf text then 3 else 0
  let rest := text.drop mark
  if (utf8 "#!").isPrefixOf rest then mark + Bytes.run (· != byte '\n') rest else mark

def start (text : Bytes) : Lexer text where
  cursor := .ofPos (startOffset text)
  regexAllowed := true
  newlinePending := false
  depths := []
  errors := []

/-- What a lexer remembers of a moment, with errors by their number. -/
structure Mark where
  pos : Nat
  regexAllowed : Bool
  newlinePending : Bool
  depths : List Nat
  errorCount : Nat
deriving DecidableEq

def mark (lx : Lexer text) : Mark :=
  ⟨lx.pos, lx.regexAllowed, lx.newlinePending, lx.depths, lx.errors.length⟩

/-- Goes back to a mark; errors recorded since are dropped. -/
def restore (lx : Lexer text) (m : Mark) : Lexer text where
  cursor := lx.cursor.seek m.pos
  regexAllowed := m.regexAllowed
  newlinePending := m.newlinePending
  depths := m.depths
  errors := lx.errors.take m.errorCount

/-- Moves to an offset, stating whether an expression may start there. -/
def reset (lx : Lexer text) (pos : Nat) (regexAllowed : Bool) : Lexer text :=
  { lx with cursor := lx.cursor.seek pos, regexAllowed := regexAllowed }

/-- Moves one byte on, also past the end. -/
def skipByte (lx : Lexer text) : Lexer text := { lx with cursor := lx.cursor.advance 1 }

/-- Passes over blanks and comments. -/
def skipTrivia (lx : Lexer text) : Lexer text :=
  let t := Trivia.scan lx.rest
  { lx with
    cursor := lx.cursor.advance t.length
    newlinePending := lx.newlinePending || t.newline
    errors :=
      match t.openComment with
      | none => lx.errors
      | some start =>
        lx.errors ++
          [⟨.unterminatedComment, .ofOffsets (lx.pos + start) (lx.pos + t.length)⟩] }

/-- A token as its scanner finds it, before it is placed in the text. -/
structure Scan where
  kind : Kind
  length : Nat
  newline : Bool
  depths : List Nat
  cause : Option LexicalCause
deriving DecidableEq

namespace Scan

def plain (depths : List Nat) (kind : Kind) (length : Nat) : Scan :=
  ⟨kind, length, false, depths, none⟩

def failed (depths : List Nat) (cause : LexicalCause) (length : Nat) : Scan :=
  ⟨.error, length, false, depths, some cause⟩

def ofExtent (depths : List Nat) (kind : Kind) (cause : LexicalCause) (opening : Nat)
    (e : Literal.Extent) : Scan :=
  if e.closed then plain depths kind (opening + e.length)
  else failed depths cause (opening + e.length)

/-- The first part of a template; a substitution opens a new depth. -/
def templateStart (depths : List Nat) (s : Bytes) : Scan :=
  let part := Literal.template s
  match part.ending with
  | .closed => ⟨.template, 1 + part.length, part.newline, depths, none⟩
  | .substitution => ⟨.templateHead, 1 + part.length, part.newline, 0 :: depths, none⟩
  | .unterminated =>
    ⟨.error, 1 + part.length, part.newline, depths, some .unterminatedTemplate⟩

/-- A later part of the template whose substitution the brace closes; `outer` are the depths
without that substitution. -/
def templateRest (outer : List Nat) (s : Bytes) : Scan :=
  let part := Literal.template s
  match part.ending with
  | .closed => ⟨.templateTail, 1 + part.length, part.newline, outer, none⟩
  | .substitution => ⟨.templateMiddle, 1 + part.length, part.newline, 0 :: outer, none⟩
  | .unterminated =>
    ⟨.error, 1 + part.length, part.newline, outer, some .unterminatedTemplate⟩

/-- Brackets and operators. Inside a substitution braces are counted, and the brace that finds no
open one goes on with the template. -/
def punctuator (depths : List Nat) (b : UInt8) (r : Bytes) : Scan :=
  match Punctuator.scan? (b :: r) with
  | none => failed depths (.unexpectedByte b) 1
  | some (.openBrace, n) =>
    match depths with
    | [] => plain [] .openBrace n
    | d :: outer => plain ((d + 1) :: outer) .openBrace n
  | some (.closeBrace, n) =>
    match depths with
    | [] => plain [] .closeBrace n
    | 0 :: outer => templateRest outer r
    | (d + 1) :: outer => plain (d :: outer) .closeBrace n
  | some (kind, n) => plain depths kind n

/-- A name, a private `#` name or a reserved word. -/
def name (depths : List Nat) (b : UInt8) (r : Bytes) : Scan :=
  let n := Bytes.run isNameByte r
  plain depths (if isReservedWord (b :: r.take n) then .keyword else .identifier) (1 + n)

/-- The token at the front of a text that starts with `b`. -/
def token (regexAllowed : Bool) (depths : List Nat) (b : UInt8) (r : Bytes) : Scan :=
  if isNameStart b || (b = byte '#' && isNameStart (r.headD 0)) then name depths b r
  else if isDigit b || (b = byte '.' && isDigit (r.headD 0)) then
    ofExtent depths .number .nameAfterNumber 0 (Literal.number (b :: r))
  else if b = doubleQuote || b = singleQuote then
    ofExtent depths .string .unterminatedString 1 (Literal.quoted b r)
  else if b = backquote then templateStart depths r
  else if b = byte '/' && regexAllowed then
    ofExtent depths .regex .unterminatedRegex 1 (Literal.regex r)
  else punctuator depths b r

end Scan

/-- Records what a scanner found here as a token and moves behind it. -/
def emit (lx : Lexer text) (s : Scan) : Token × Lexer text :=
  let span := Span.ofOffsets lx.pos (lx.pos + s.length)
  let newline := lx.newlinePending || s.newline
  (⟨s.kind, lx.rest.take s.length, span, newline⟩,
   { lx with
     cursor := lx.cursor.advance s.length
     newlinePending := newline
     depths := s.depths
     errors :=
       match s.cause with
       | none => lx.errors
       | some cause => lx.errors ++ [⟨cause, span⟩] })

/-- The next token of the plain grammar; at the end of the text, the end token. -/
def next (lx : Lexer text) : Token × Lexer text :=
  let lx := { lx with newlinePending := false }.skipTrivia
  match lx.rest with
  | [] => lx.emit (Scan.plain lx.depths .eof 0)
  | b :: r =>
    let (t, lx) := lx.emit (Scan.token lx.regexAllowed lx.depths b r)
    (t, { lx with regexAllowed := t.kind.allowsExpression t.lexeme })

/-- All tokens from here on; `fuel` bounds their number. -/
def tokensWithin (lx : Lexer text) : Nat → List Token × Lexer text
  | 0 => ([], lx)
  | fuel + 1 =>
    let (t, lx) := lx.next
    if t.kind = .eof then ([t], lx)
    else
      let (ts, lx) := lx.tokensWithin fuel
      (t :: ts, lx)

/-- All tokens of the text in the plain grammar, the end token included. -/
def tokenize (text : Bytes) : List Token × List LexicalError :=
  let (ts, lx) := (start text).tokensWithin (text.length + 1)
  (ts, lx.errors)

/-- A name in a tag, which may also hold dashes. -/
def elementName (lx : Lexer text) : Token × Lexer text :=
  if isNameStart (lx.peek 0) then
    lx.emit (Scan.plain lx.depths .identifier
      (Bytes.run (fun b => isNameByte b || b = byte '-') lx.rest))
  else lx.emit (Scan.failed lx.depths .missingElementName 0)

/-- A quoted attribute value, without escapes. Whatever byte stands here is the quote. -/
def elementString (lx : Lexer text) : Token × Lexer text :=
  let quote := lx.peek 0
  let n := Bytes.run (· != quote) (lx.rest.drop 1)
  if (lx.rest.drop (1 + n)).isEmpty then
    lx.emit (Scan.failed lx.depths .unterminatedElementString (1 + n))
  else lx.emit (Scan.plain lx.depths .string (2 + n))

/-- Text between tags. -/
def elementText (lx : Lexer text) : Token × Lexer text :=
  lx.emit (Scan.plain lx.depths .elementText
    (Bytes.run (fun b => b != byte '<' && b != openBrace) lx.rest))

end Lexer

end JsxPresence
