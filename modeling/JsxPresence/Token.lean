import JsxPresence.Bytes
import JsxPresence.Span

namespace JsxPresence

/-- The kinds are coarse: operators that never shape a file share one, and reserved words share
another. `<` and `>` always stand alone, so nested type arguments close one bracket at a time. -/
inductive Kind where
  | eof
  | error
  | identifier
  | keyword
  | number
  | string
  | template
  | templateHead
  | templateMiddle
  | templateTail
  | regex
  | elementText
  | openParen
  | closeParen
  | openBrace
  | closeBrace
  | openBracket
  | closeBracket
  | semicolon
  | comma
  | dot
  | ellipsis
  | optionalDot
  | colon
  | question
  | arrow
  | assign
  | less
  | greater
  | slash
  | star
  | bang
  | atSign
  | operator
deriving DecidableEq, Inhabited

namespace Kind

/-- How messages name a kind. -/
def describe : Kind → Bytes
  | eof => utf8 "end of input"
  | error => utf8 "error"
  | identifier => utf8 "identifier"
  | keyword => utf8 "keyword"
  | number => utf8 "number"
  | string => utf8 "string"
  | template | templateHead | templateMiddle | templateTail => utf8 "template literal"
  | regex => utf8 "regular expression"
  | elementText => utf8 "JSX text"
  | openParen => utf8 "`(`"
  | closeParen => utf8 "`)`"
  | openBrace => utf8 "`\x7b`"
  | closeBrace => utf8 "`\x7d`"
  | openBracket => utf8 "`[`"
  | closeBracket => utf8 "`]`"
  | semicolon => utf8 "`;`"
  | comma => utf8 "`,`"
  | dot => utf8 "`.`"
  | ellipsis => utf8 "`...`"
  | optionalDot => utf8 "`?.`"
  | colon => utf8 "`:`"
  | question => utf8 "`?`"
  | arrow => utf8 "`=>`"
  | assign => utf8 "`=`"
  | less => utf8 "`<`"
  | greater => utf8 "`>`"
  | slash => utf8 "`/`"
  | star => utf8 "`*`"
  | bang => utf8 "`!`"
  | atSign => utf8 "`@`"
  | operator => utf8 "operator"

def isOpener : Kind → Bool
  | openParen | openBracket | openBrace => true
  | _ => false

def isCloser : Kind → Bool
  | closeParen | closeBracket | closeBrace => true
  | _ => false

/-- The closing bracket of an opening one. -/
def closer : Kind → Kind
  | openParen => closeParen
  | openBracket => closeBracket
  | _ => closeBrace

end Kind

def reservedWords : List Bytes :=
  [utf8 "break", utf8 "case", utf8 "catch", utf8 "class", utf8 "const", utf8 "continue",
   utf8 "debugger", utf8 "default", utf8 "delete", utf8 "do", utf8 "else", utf8 "enum",
   utf8 "export", utf8 "extends", utf8 "false", utf8 "finally", utf8 "for", utf8 "function",
   utf8 "if", utf8 "import", utf8 "in", utf8 "instanceof", utf8 "new", utf8 "null",
   utf8 "return", utf8 "super", utf8 "switch", utf8 "this", utf8 "throw", utf8 "true",
   utf8 "try", utf8 "typeof", utf8 "var", utf8 "void", utf8 "while", utf8 "with", utf8 "let"]

def isReservedWord (word : Bytes) : Bool := reservedWords.contains word

structure Token where
  kind : Kind
  lexeme : Bytes
  span : Span
  /-- A newline was seen since the previous token ended. -/
  newlineBefore : Bool
deriving DecidableEq, Inhabited

namespace Token

def isKeyword (t : Token) (word : Bytes) : Bool := t.kind = .keyword && t.lexeme = word

/-- An identifier with this text: words that are reserved only in some places. -/
def isWord (t : Token) (word : Bytes) : Bool := t.kind = .identifier && t.lexeme = word

/-- Identifiers and reserved words both name things after a dot and in import lists. -/
def isName (t : Token) : Bool := t.kind = .identifier || t.kind = .keyword

end Token

/-- An expression may start after a token of this kind and text. It tells a regular expression
from a division and an element from a comparison. -/
def Kind.allowsExpression (kind : Kind) (lexeme : Bytes) : Bool :=
  match kind with
  | .identifier | .number | .string | .template | .templateTail | .regex | .elementText
  | .closeParen | .closeBracket | .dot | .optionalDot => false
  | .keyword =>
    !([utf8 "this", utf8 "super", utf8 "true", utf8 "false", utf8 "null"].contains lexeme)
  | _ => true

/-- An expression may start after the token, or at the start of the text. -/
def expressionAllowedAfter : Option Token → Bool
  | none => true
  | some t => t.kind.allowsExpression t.lexeme

end JsxPresence
