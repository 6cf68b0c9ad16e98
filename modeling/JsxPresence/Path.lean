import JsxPresence.Bytes

namespace JsxPresence.Path

def slash : UInt8 := byte '/'

def isAbsolute (p : Bytes) : Bool := p.head? = some slash

def endsInSlash (p : Bytes) : Bool := p.getLast? = some slash

/-- The names of a path; repeated slashes count once. -/
def names (p : Bytes) : List Bytes :=
  let ns := (Bytes.fields slash p).filter (!·.isEmpty)
  if !ns.isEmpty && endsInSlash p then ns ++ [[]] else ns

def same (p q : Bytes) : Bool := isAbsolute p = isAbsolute q && names p = names q

/-- Goes on from `p` with `q`; an absolute `q` starts anew. -/
def join (p q : Bytes) : Bytes :=
  if p.isEmpty || isAbsolute q then q
  else if endsInSlash p then p ++ q
  else p ++ slash :: q

def dropSlashes (p : Bytes) : Bytes := (p.reverse.dropWhile (· = slash)).reverse

/-- The path without its last name. The root is its own parent, a single name has an empty one. -/
def parent (p : Bytes) : Bytes :=
  if (names p).isEmpty then p
  else
    let rest :=
      if endsInSlash p then dropSlashes p
      else dropSlashes (p.reverse.dropWhile (· ≠ slash)).reverse
    if rest.isEmpty && isAbsolute p then [slash] else rest

/-- The ending of the last name from its last dot on. A dot at its start opens no ending. -/
def extension (p : Bytes) : Bytes :=
  let name := (names p).getLastD []
  if name.length ≤ 2 && name.head? = some (byte '.') then []
  else
    match Bytes.fromLast? (byte '.') name with
    | none => []
    | some ending => if ending.length = name.length then [] else ending

def dot : Bytes := utf8 "."

def dotDot : Bytes := utf8 ".."

/-- The names kept so far, innermost first, and whether a slash ends them. -/
structure Partial where
  kept : List Bytes
  trailing : Bool
deriving DecidableEq

/-- Takes in one more name: a dot keeps the place, a double dot leaves the last name unless there is
none to leave. -/
def Partial.take (rooted : Bool) (p : Partial) (name : Bytes) : Partial :=
  if name.isEmpty || name = dot then ⟨p.kept, true⟩
  else if name = dotDot then
    match p.kept with
    | [] => if rooted then ⟨[], true⟩ else ⟨[dotDot], false⟩
    | last :: before => if last = dotDot then ⟨dotDot :: last :: before, false⟩ else ⟨before, true⟩
  else ⟨name :: p.kept, false⟩

def Partial.text (rooted : Bool) (p : Partial) : Bytes :=
  let body := [slash].intercalate p.kept.reverse
  let root := if rooted then [slash] else []
  match p.kept with
  | [] => if rooted then root else dot
  | last :: _ => if p.trailing && last ≠ dotDot then root ++ body ++ [slash] else root ++ body

/-- The shortest text for the same place, told from the text alone. -/
def normal (p : Bytes) : Bytes :=
  if p.isEmpty then []
  else ((names p).foldl (Partial.take (isAbsolute p)) ⟨[], false⟩).text (isAbsolute p)

/-- The identity of a file: its normal absolute path. An empty path stays empty. -/
def normalize (cwd p : Bytes) : Bytes :=
  if p.isEmpty then [] else normal (join cwd p)

/-- A path and its parents, nearest first; at most `fuel` parents. -/
def ancestorsWithin (p : Bytes) : Nat → List Bytes
  | 0 => [p]
  | fuel + 1 =>
    let q := parent p
    if same q p || q.isEmpty then [p] else p :: ancestorsWithin q fuel

/-- A path and its parents, nearest first. Each parent is shorter. -/
def ancestors (p : Bytes) : List Bytes := ancestorsWithin p p.length

end JsxPresence.Path
