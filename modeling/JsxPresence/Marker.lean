import JsxPresence.Session

namespace JsxPresence

/-- A component definition: a call of the component function with a function as its only
argument. -/
structure Owner where
  callSpan : Span
  functionSpan : Span
  params : Params
deriving DecidableEq

namespace Owner

/-- The definition that a call makes, if its function holds the inner span. -/
def ofCall? (name : Bytes) (inner : Span) (call : Call) : Option Owner :=
  match call.arguments with
  | [⟨.function _ params, span⟩] =>
    if call.isTo name && span.contains inner then some ⟨call.span, span, params⟩ else none
  | _ => none

/-- The shorter of two definitions; the first one if they are equally long. -/
def closer (a b : Owner) : Owner :=
  if b.functionSpan.length < a.functionSpan.length then b else a

def innermost? : List Owner → Option Owner
  | [] => none
  | owner :: rest => some (rest.foldl closer owner)

/-- The innermost definition around a span. -/
def around? (o : Outline) (name : Bytes) (inner : Span) : Option Owner :=
  innermost? (o.calls.filterMap (ofCall? name inner))

end Owner

structure Marker where
  target : Bytes
  callSpan : Span
  /-- The first argument. -/
  argumentSpan : Span
  argumentText : Bytes
  argumentCount : Nat
  owner : Option Owner
deriving DecidableEq

namespace Marker

/-- The call has its answer as a second argument already. -/
def isAugmented (m : Marker) : Bool := 2 ≤ m.argumentCount

/-- If markers must come from a module, the file imports them from there. -/
def isImported (options : Options) (o : Outline) : Bool :=
  match options.moduleSpecifier with
  | none => true
  | some specifier =>
    o.imports.any fun i =>
      i.specifier = specifier && i.items.any (·.localName = options.markerFunction)

/-- The component that an argument names. -/
def target? (argument : Argument) (text : Bytes) : Option Bytes :=
  match argument.kind with
  | .identifier name => some name
  | .member path => some (Name.join path)
  | _ => Name.dottedReference? text

/-- What a call of the marker function turns out to be. -/
inductive Finding where
  | marker (m : Marker)
  | malformed (text : Bytes) (call : Span)
deriving DecidableEq

def Finding.marker? : Finding → Option Marker
  | marker m => some m
  | malformed _ _ => none

/-- A call of the marker function without arguments asks nothing. -/
def ofCall? (options : Options) (file : ParsedFile) (call : Call) : Option Finding :=
  match call.arguments with
  | [] => none
  | first :: _ =>
    if call.isTo options.markerFunction then
      let text := file.source.text first.span
      match target? first text with
      | none => some (.malformed text call.span)
      | some target =>
        some (.marker
          { target := target
            callSpan := call.span
            argumentSpan := first.span
            argumentText := text
            argumentCount := call.arguments.length
            owner := Owner.around? file.outline options.componentFunction call.span })
    else none

/-- The marker calls of a file, in the order of the text. -/
def scan (options : Options) (file : ParsedFile) : List Finding :=
  if isImported options file.outline then file.outline.calls.filterMap (ofCall? options file)
  else []

/-- The well-formed marker calls of a file. -/
def all (options : Options) (file : ParsedFile) : List Marker :=
  (scan options file).filterMap Finding.marker?

def malformedMessage (text : Bytes) : Bytes :=
  utf8 "argument `" ++ text ++ utf8 "` is not a component reference"

/-- How a call of the marker function with an argument is shown. -/
def callText (options : Options) (argument : Bytes) : Bytes :=
  options.markerFunction ++ utf8 "(" ++ argument ++ utf8 ")"

def noteFinding (options : Options) (file : ParsedFile) : Finding → SessionM Unit
  | .malformed text call =>
    let place := file.source.location call.start
    Session.note .warn (utf8 "marker")
      (file.path ++ utf8 ":" ++ decimal place.line ++ utf8 ":" ++ decimal place.column ++
        utf8 ": " ++ callText options [] ++ utf8 " " ++ malformedMessage text)
  | .marker m =>
    Session.note .debug (utf8 "marker")
      (file.path ++ utf8 ": " ++ callText options m.target ++
        (if m.isAugmented then utf8 " [augmented]" else []))

/-- The markers of a file, with a note on each. -/
def find (options : Options) (file : ParsedFile) : SessionM (List Marker) := do
  (scan options file).forM (noteFinding options file)
  return all options file

/-- Reports the malformed marker calls of a file. -/
def diagnose (options : Options) (file : ParsedFile) : SessionM Unit :=
  (scan options file).forM fun
    | .malformed text _ => Session.diagnose .malformedMarker file.path (malformedMessage text)
    | .marker _ => pure ()

end Marker

end JsxPresence
