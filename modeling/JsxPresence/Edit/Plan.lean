import JsxPresence.Edit
import JsxPresence.Marker

namespace JsxPresence.Plan

/-- A marker call that can be given its answer. -/
structure Augmentation where
  marker : Marker
  owner : Owner
  prop : Bytes
  /-- The expression that reads the prop. -/
  reference : Bytes
deriving DecidableEq

/-- How a function with these parameters reads a prop. -/
def reference? (options : Options) (params : Params) (prop : Bytes) : Option Bytes :=
  match params.first with
  | .none => some (options.propsParam ++ byte '.' :: prop)
  | .identifier => some (params.firstName ++ byte '.' :: prop)
  | .objectPattern => some prop
  | .other => none

/-- Calls that have their answer, or no owner, or an owner whose parameters cannot be extended, are
left alone. -/
def Augmentation.ofMarker? (options : Options) (m : Marker) : Option Augmentation := do
  guard !m.isAugmented
  let owner ← m.owner
  let prop := options.propName m.target
  let reference ← reference? options owner.params prop
  return ⟨m, owner, prop, reference⟩

def Augmentation.edit (options : Options) (r : Augmentation) : Edit :=
  .replace r.marker.callSpan
    (Marker.callText options (r.marker.argumentText ++ utf8 ", " ++ r.reference))

/-- The edits of the calls; before its first call, a function without parameters gets one. Functions
are told apart by where they start; `given` are the starts of those that have got their parameter. -/
def callEdits (options : Options) (given : List Nat) : List Augmentation → List Edit
  | [] => []
  | r :: rest =>
    if r.owner.params.first = .none && !given.contains r.owner.functionSpan.start then
      .insertion r.owner.params.openParenEnd options.propsParam :: r.edit options ::
        callEdits options (r.owner.functionSpan.start :: given) rest
    else r.edit options :: callEdits options given rest

/-- The word stands in the text as a whole; `before` is the byte in front of the text. -/
def hasWord (word : Bytes) (before : UInt8) : Bytes → Bool
  | [] => false
  | b :: r =>
    (!isWord before && word.isPrefixOf (b :: r) &&
      !isWord (Bytes.byteAt (b :: r) word.length)) || hasWord word b r

/-- Where the functions start that have a pattern for their first parameter, in ascending order. -/
def patternStarts (calls : List Augmentation) : List Nat :=
  ((calls.filter (·.owner.params.first = .objectPattern)).map
    (·.owner.functionSpan.start)).eraseDups.mergeSort (· ≤ ·)

/-- The props that the pattern of the function at `start` has to bind besides those it names. -/
def missingProps (source : Source) (start : Nat) (calls : List Augmentation) : List Bytes :=
  ((calls.filter fun r => r.owner.functionSpan.start = start &&
    r.owner.params.first = .objectPattern &&
      !hasWord r.prop 0 (source.text r.owner.params.span)).map (·.prop)).eraseDups

/-- The function at `start`, as the last call says that lacks its answer. -/
def ownerAt? (markers : List Marker) (start : Nat) : Option Owner :=
  ((markers.filter (!·.isAugmented)).filterMap (·.owner)).reverse.find? (·.functionSpan.start = start)

def patternEdit? (source : Source) (markers : List Marker) (calls : List Augmentation)
    (start : Nat) : Option Edit :=
  let props := missingProps source start calls
  if props.isEmpty then none
  else
    (ownerAt? markers start).map fun owner =>
      .insertion owner.params.patternBraceEnd
        (utf8 " " ++ (utf8 ", ").intercalate props ++ utf8 ",")

/-- The edits for the markers of a file. -/
def markerEdits (options : Options) (source : Source) (markers : List Marker) : List Edit :=
  let calls := markers.filterMap (Augmentation.ofMarker? options)
  callEdits options [] calls ++
    (patternStarts calls).filterMap (patternEdit? source markers calls)

/-- Says why a marker call is left as it is, if there is anything wrong with it. -/
def report (options : Options) (file : Bytes) (m : Marker) : SessionM Unit := do
  let call := Marker.callText options m.target
  if m.isAugmented then return
  match m.owner with
  | none =>
    Session.note .debug (utf8 "patch")
      (file ++ utf8 ": " ++ call ++ utf8 " is outside " ++ options.componentFunction)
    Session.diagnose .missingOwner file
      (call ++ utf8 " is not inside " ++ options.componentFunction ++ utf8 "()")
  | some owner =>
    if owner.params.first = .other then
      Session.note .warn (utf8 "patch")
        (file ++ utf8 ": cannot pass props to " ++ call ++ utf8 ": unsupported parameter list")
      Session.diagnose .unsupportedParams file (utf8 "unsupported parameter list for " ++ call)

/-- An answer for the element with the given place among the usages of a file. -/
structure Injection where
  usage : Nat
  prop : Bytes
  present : Bool
deriving DecidableEq

/-- The attribute that carries an answer. -/
def attributeText (i : Injection) : Bytes :=
  i.prop ++ utf8 "=" ++ openBrace :: utf8 (if i.present then "true" else "false") ++ [closeBrace]

/-- The injections to be made, each with its element: none for an element that has the attribute,
none twice, and answers that are false only on demand. -/
def accepted (options : Options) (symbols : Symbols) (made : List (Nat × Bytes)) :
    List Injection → List (Usage × Injection)
  | [] => []
  | i :: rest =>
    match symbols.usages[i.usage]? with
    | none => accepted options symbols made rest
    | some usage =>
      if (!i.present && !options.injectFalse) || usage.hasAttribute i.prop ||
          made.contains (i.usage, i.prop) then
        accepted options symbols made rest
      else (usage, i) :: accepted options symbols ((i.usage, i.prop) :: made) rest

def injectionEdit (usage : Usage) (i : Injection) : Edit :=
  .insertion usage.insertAt (utf8 " " ++ attributeText i)

/-- All edits of a file, in the order of their starts. -/
def edits (options : Options) (source : Source) (symbols : Symbols) (markers : List Marker)
    (injections : List Injection) : List Edit :=
  Edit.sort (markerEdits options source markers ++
    (accepted options symbols [] injections).map fun (usage, i) => injectionEdit usage i)

/-- All edits of a file, with notes and diagnostics on them. -/
def make (options : Options) (file : ParsedFile) (symbols : Symbols) (markers : List Marker)
    (injections : List Injection) : SessionM (List Edit) := do
  markers.forM (report options file.path)
  (accepted options symbols [] injections).forM fun (usage, i) =>
    Session.note .trace (utf8 "patch")
      (utf8 "<" ++ usage.fullName ++ utf8 "> " ++ attributeText i)
  let made := edits options file.source symbols markers injections
  Session.note .debug (utf8 "patch")
    (file.path ++ utf8 ": " ++ decimal made.length ++ utf8 " patches")
  return made

end JsxPresence.Plan
