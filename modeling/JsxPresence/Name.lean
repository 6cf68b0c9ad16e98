import JsxPresence.Bytes

namespace JsxPresence.Name

/-- An ASCII identifier. -/
def isIdentifier : Bytes → Bool
  | [] => false
  | b :: r => (isAlpha b || b = byte '_' || b = byte '$') && r.all isWord

/-- The segments with dots between them. -/
def join (path : List Bytes) : Bytes := [byte '.'].intercalate path

/-- The segments of a dotted name. -/
def split (dotted : Bytes) : List Bytes := Bytes.fields (byte '.') dotted

theorem join_split (dotted : Bytes) : join (split dotted) = dotted :=
  Bytes.intercalate_fields (byte '.') dotted

/-- The outermost two segments stand for the whole path. -/
def canonical (path : List Bytes) : Bytes := join (path.take 2)

def lowerCase (name : Bytes) : Bytes := name.map toLower

/-- A word starts at `b`: it is a capital after a small letter or digit, or the last capital of a
run before a small letter. -/
def startsWord (before b : UInt8) (after : Bytes) : Bool :=
  isUpper b &&
    (isLower before || isDigit before || (isUpper before && isLower (after.headD 0)))

def kebabByte (b : UInt8) : UInt8 := if b = byte '_' then byte '-' else toLower b

/-- Spells the bytes that follow `before`. -/
def kebabFrom (before : UInt8) : Bytes → Bytes
  | [] => []
  | b :: r =>
    if startsWord before b r then byte '-' :: kebabByte b :: kebabFrom b r
    else kebabByte b :: kebabFrom b r

/-- Words in small letters with dashes between them: `HTMLInput` is `html-input`. -/
def kebabCase : Bytes → Bytes
  | [] => []
  | b :: r => kebabByte b :: kebabFrom b r

/-- The dotted name that a text with blanks spells: at least two identifiers with dots between. -/
def dottedReference? (text : Bytes) : Option Bytes :=
  let compact := text.filter (!isSpace ·)
  let segments := split compact
  if 1 < segments.length && segments.all isIdentifier then some compact else none

end JsxPresence.Name
