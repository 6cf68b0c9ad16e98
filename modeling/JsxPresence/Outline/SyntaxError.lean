import JsxPresence.Token.Lexer

namespace JsxPresence

/-- The two kinds of brace list that name bindings. -/
inductive BindingList where
  | imports
  | exports
deriving DecidableEq

inductive SyntaxCause where
  | lexical (cause : LexicalCause)
  | invalidToken
  | unexpectedCloser (kind : Kind)
  | unclosed (opener : Kind)
  | unclosedArguments
  | unclosedObject
  | unclosedList (list : BindingList) (found : Kind)
  | unbalancedType
  | unterminatedAttributes
  | missingAs
  | missingModuleName
  | missingFrom
  | missingSpecifier
  | missingFromAfterStar
  | missingName (found : Kind)
  | missingString
  | missingElementName
  | missingNameAfterColon
  | missingNameAfterDot
  | unterminatedTag (name : Bytes)
  | unterminatedElement (name : Bytes)
  | unterminatedAttributeString
  | unclosedContainer
  | missingCloseAfterSlash
  | missingCloseOfClosingTag
  | invalidAttribute (element : Bytes)
  | invalidNamespacedAttribute
  | missingAttributeValue (name : Bytes)
  | mismatchedClosingTag (expected found : Bytes)
  /-- The step bound was used up. -/
  | exhausted
deriving DecidableEq

namespace SyntaxCause

def closingTag (name : Bytes) : Bytes := utf8 "</" ++ name ++ utf8 ">"

def message : SyntaxCause → Bytes
  | lexical cause => cause.message
  | invalidToken => utf8 "invalid token"
  | unexpectedCloser kind => utf8 "unexpected " ++ kind.describe
  | unclosed opener => utf8 "unclosed " ++ opener.describe
  | unclosedArguments => utf8 "unclosed `(` in call arguments"
  | unclosedObject => utf8 "unclosed `\x7b` in object literal"
  | unclosedList .imports found =>
    utf8 "expected `\x7d` to close import list, found " ++ found.describe
  | unclosedList .exports found =>
    utf8 "expected `\x7d` to close export list, found " ++ found.describe
  | unbalancedType => utf8 "unbalanced brackets in type annotation"
  | unterminatedAttributes => utf8 "unterminated import attributes"
  | missingAs => utf8 "expected `as` after `*` in import"
  | missingModuleName => utf8 "expected namespace name in import"
  | missingFrom => utf8 "expected `from` in import declaration"
  | missingSpecifier => utf8 "expected module specifier string"
  | missingFromAfterStar => utf8 "expected `from` after `export *`"
  | missingName found => utf8 "expected a name, found " ++ found.describe
  | missingString => utf8 "expected a string literal"
  | missingElementName => utf8 "expected JSX element name"
  | missingNameAfterColon => utf8 "expected name after `:` in JSX element name"
  | missingNameAfterDot => utf8 "expected name after `.` in JSX element name"
  | unterminatedTag name => utf8 "unterminated JSX opening tag <" ++ name ++ utf8 ">"
  | unterminatedElement [] => utf8 "unterminated JSX fragment"
  | unterminatedElement name => utf8 "unterminated JSX element <" ++ name ++ utf8 ">"
  | unterminatedAttributeString => utf8 "unterminated JSX attribute string"
  | unclosedContainer => utf8 "unclosed `\x7b` in JSX"
  | missingCloseAfterSlash => utf8 "expected `>` after `/` in JSX tag"
  | missingCloseOfClosingTag => utf8 "expected `>` to end JSX closing tag"
  | invalidAttribute element => utf8 "invalid JSX attribute in <" ++ element ++ utf8 ">"
  | invalidNamespacedAttribute => utf8 "invalid namespaced JSX attribute"
  | missingAttributeValue name =>
    utf8 "expected JSX attribute value for `" ++ name ++ utf8 "`"
  | mismatchedClosingTag expected found =>
    utf8 "mismatched JSX closing tag: expected " ++ closingTag expected ++ utf8 ", found " ++
      closingTag found
  | exhausted => utf8 "step bound used up"

end SyntaxCause

structure SyntaxError where
  cause : SyntaxCause
  span : Span
deriving DecidableEq

namespace SyntaxError

def message (e : SyntaxError) : Bytes := e.cause.message

def ofLexical (e : LexicalError) : SyntaxError := ⟨.lexical e.cause, e.span⟩

end SyntaxError

end JsxPresence
