import JsxPresence.Edit.Plan
import JsxPresence.Presence

namespace JsxPresence

structure Analysis where
  /-- Some question asked of this file has the answer yes. -/
  hasComponent : Bool
  file : Bytes
  /-- In the order of their starts. -/
  edits : List Edit
  /-- The other files that were read, sorted. -/
  dependencies : List Bytes
  diagnostics : List Diagnostic
deriving DecidableEq

namespace Analysis

inductive FailureKind where
  | unreadable
  | unparseable
  | badEdits
deriving DecidableEq

/-- Why there is no analysis of a file. -/
structure Failure where
  kind : FailureKind
  file : Bytes
  message : Bytes
deriving DecidableEq

/-- What is known while the usages of a file are gone through. -/
structure Progress where
  /-- The markers of the files seen so far. -/
  markers : Table (List Marker)
  /-- Answers by asking file and target. -/
  verdicts : Table Bool
  injections : List Plan.Injection
  hasComponent : Bool

def Progress.start : Progress := ⟨.empty, .empty, [], false⟩

def verdictKey (file target : Bytes) : Bytes := file ++ byte '\n' :: target

/-- Answers the question of a marker in the file of `definition`, by a search below `path`. -/
def decideMarker (env : Environment) (path : Bytes) (definition : ParsedFile) (asker : Bytes)
    (target : Bytes) : SessionM Bool := do
  let id ← Reference.usage env definition (Name.split target)
  let found ← Presence.hasComponent env path ⟨target, id⟩
  Session.note .info (utf8 "analyzer")
    (path ++ utf8 ": " ++ target ++ utf8 " asked by " ++ asker ++
      (if found then utf8 " is present" else utf8 " is absent"))
  return found

/-- Passes the answer for a marker to the usage with the given place. -/
def answerMarker (env : Environment) (path : Bytes) (definition : ParsedFile) (asker : Bytes)
    (place : Nat) (p : Progress) (m : Marker) : SessionM Progress := do
  let key := verdictKey asker m.target
  let verdict ←
    match p.verdicts.get? key with
    | some verdict => pure verdict
    | none => decideMarker env path definition asker m.target
  return { p with
    verdicts := p.verdicts.insert key verdict
    injections := p.injections ++ [⟨place, env.options.propName m.target, verdict⟩]
    hasComponent := p.hasComponent || verdict }

/-- The markers of a file, scanned on first use. -/
def markersOf (env : Environment) (definition : ParsedFile) (asker : Bytes) (p : Progress) :
    SessionM (List Marker × Progress) := do
  match p.markers.get? asker with
  | some markers => return (markers, p)
  | none =>
    let markers ← Marker.find env.options definition
    return (markers, { p with markers := p.markers.insert asker markers })

/-- Answers all questions of the file that defines a usage, unless that is the file itself. -/
def answerUsage (env : Environment) (file : ParsedFile) (p : Progress) (u : Usage × Nat) :
    SessionM Progress := do
  match ← Reference.usage env file u.1.path with
  | none => return p
  | some id =>
    if id.external || id.file = file.path then return p
    match ← Session.load env id.file with
    | .error _ => return p
    | .ok definition =>
      let (markers, p) ← markersOf env definition id.file p
      markers.foldlM (answerMarker env file.path definition id.file u.2) p

def summary (a : Analysis) (visits parsed : Nat) : Bytes :=
  a.file ++ utf8 ": " ++ decimal a.edits.length ++ utf8 " transformations, " ++ decimal visits ++
    utf8 " presence queries, " ++ decimal parsed ++ utf8 " files parsed"

/-- Analyzes a file that is parsed. -/
def ofFile (env : Environment) (file : ParsedFile) : SessionM (Except Failure Analysis) := do
  let symbols ← Session.symbolsOf file
  let markers ← Marker.find env.options file
  Marker.diagnose env.options file
  let p ← symbols.usages.zipIdx.foldlM (answerUsage env file) .start
  let edits ← Plan.make env.options file symbols markers p.injections
  match Edit.check file.source.length edits with
  | some error =>
    Session.note .error (utf8 "analyzer") (file.path ++ utf8 ": " ++ error.message)
    return .error ⟨.badEdits, file.path, error.message⟩
  | none =>
    let s ← get
    let a : Analysis := ⟨p.hasComponent, file.path, edits, s.readFiles, s.diagnostics⟩
    Session.note .debug (utf8 "analyzer") (a.summary s.visits s.files.size)
    return .ok a

/-- Analyzes a text as the file at a path. -/
def ofText (env : Environment) (path text : Bytes) : SessionM (Except Failure Analysis) := do
  match ← Session.insert path text with
  | .error message =>
    Session.note .warn (utf8 "analyzer") message
    return .error ⟨.unparseable, path, message⟩
  | .ok file => ofFile env file

/-- Analyzes a file, as it is on disk or with the text given, and gives the text back too. -/
def run (env : Environment) (path : Bytes) (text? : Option Bytes) (w : Workspace) :
    Except Failure (Analysis × Bytes) × Workspace :=
  let file := env.normalize path
  match text?.or (env.files.read? file) with
  | none =>
    let message := Session.cannotOpen file
    (.error ⟨.unreadable, file, message⟩, w.note .error (utf8 "analyzer") message)
  | some text =>
    let (answer, session) := (ofText env file text).run (Session.start w)
    (answer.map (·, text), session.workspace)

/-- Analyzes a file. -/
def analyze (env : Environment) (path : Bytes) (text? : Option Bytes) (w : Workspace) :
    Except Failure Analysis × Workspace :=
  let (answer, w) := run env path text? w
  (answer.map (·.1), w)

/-- The text with the edits of its analysis made. -/
def applied (a : Analysis) (text : Bytes) : Except Failure Bytes :=
  (Edit.apply text a.edits).mapError fun error => ⟨.badEdits, a.file, error.message⟩

/-- Analyzes a file and makes the edits. -/
def transform (env : Environment) (path : Bytes) (text? : Option Bytes) (w : Workspace) :
    Except Failure Bytes × Workspace :=
  let (answer, w) := run env path text? w
  (answer.bind fun (a, text) => a.applied text, w)

end Analysis

end JsxPresence
