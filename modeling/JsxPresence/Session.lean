import JsxPresence.Diagnostic
import JsxPresence.Outline.Parse
import JsxPresence.Symbols
import JsxPresence.Workspace

namespace JsxPresence

/-- A file together with its outline. -/
structure ParsedFile where
  path : Bytes
  source : Source
  outline : Outline
deriving DecidableEq

/-- What makes a component the same component: where it is defined and under which name. For a
component of a package the file is the package's specifier. -/
structure ComponentId where
  file : Bytes
  name : Bytes
  external : Bool
deriving DecidableEq

def ComponentId.text (id : ComponentId) : Bytes :=
  (if id.external then utf8 "external:" else []) ++ id.file ++ byte '#' :: id.name

structure Session where
  workspace : Workspace
  files : Table ParsedFile
  /-- Why files could not be read. -/
  failures : Table Bytes
  /-- The files read from disk, in order. -/
  readFiles : List Bytes
  diagnostics : List Diagnostic
  symbols : Table Symbols
  usages : Table (Option ComponentId)
  /-- Settled presence answers. -/
  verdicts : Table Bool
  /-- The presence questions that are being asked. -/
  active : List Bytes
  visits : Nat

abbrev SessionM := StateM Session

namespace Session

def start (workspace : Workspace) : Session where
  workspace := workspace
  files := .empty
  failures := .empty
  readFiles := []
  diagnostics := []
  symbols := .empty
  usages := .empty
  verdicts := .empty
  active := []
  visits := 0

def note (level : Log.Level) (module message : Bytes) : SessionM Unit :=
  modify fun s => { s with workspace := s.workspace.note level module message }

def diagnose (kind : DiagnosticKind) (file message : Bytes) : SessionM Unit :=
  modify fun s => { s with diagnostics := addDiagnostic ⟨kind, file, message⟩ s.diagnostics }

def resolve (env : Environment) (specifier importer : Bytes) :
    SessionM (Except Specifier.Failure Bytes) :=
  modifyGet fun s =>
    let (answer, workspace) := s.workspace.resolve env specifier importer
    (answer, { s with workspace := workspace })

/-- What is said about a file that cannot be read as a program. -/
def syntaxMessage (source : Source) (errors : List SyntaxError) : Bytes :=
  match errors with
  | [] => source.filename ++ utf8 ": parse error"
  | e :: _ =>
    let place := source.location e.span.start
    source.filename ++ utf8 ":" ++ decimal place.line ++ utf8 ":" ++ decimal place.column ++
      utf8 ": " ++ e.message

def summary (path : Bytes) (o : Outline) : Bytes :=
  path ++ utf8 ": " ++ decimal o.imports.length ++ utf8 " imports, " ++
    decimal o.elements.length ++ utf8 " JSX elements, " ++ decimal o.calls.length ++ utf8 " calls"

def fail (path message : Bytes) : SessionM (Except Bytes ParsedFile) := do
  note .debug (utf8 "parse") message
  modify fun s => { s with failures := s.failures.insert path message }
  return .error message

/-- Parses a text as the file at a path. -/
def store (path text : Bytes) : SessionM (Except Bytes ParsedFile) := do
  let source : Source := ⟨path, text⟩
  match Outline.parse source with
  | .error errors => fail path (syntaxMessage source errors)
  | .ok outline =>
    let file : ParsedFile := ⟨path, source, outline⟩
    note .trace (utf8 "parse") (summary path outline)
    modify fun s => { s with files := s.files.insert path file }
    return .ok file

def cannotOpen (path : Bytes) : Bytes := utf8 "Failed to open file: " ++ path

/-- The file at a path, read on first use. -/
def load (env : Environment) (path : Bytes) : SessionM (Except Bytes ParsedFile) := do
  let s ← get
  match s.files.get? path, s.failures.get? path with
  | some file, _ => return .ok file
  | none, some message => return .error message
  | none, none =>
    match env.files.read? path with
    | none => fail path (cannotOpen path)
    | some text =>
      modify fun s => { s with readFiles := Bytes.insertSorted path s.readFiles }
      store path text

/-- Takes a text as the file at a path, which then is not read from disk. -/
def insert (path text : Bytes) : SessionM (Except Bytes ParsedFile) := do
  modify fun s => { s with files := s.files.erase path, failures := s.failures.erase path }
  store path text

/-- The symbols of a file, worked out on first use. -/
def symbolsOf (file : ParsedFile) : SessionM Symbols := do
  match (← get).symbols.get? file.path with
  | some symbols => return symbols
  | none =>
    let symbols := Symbols.ofOutline file.outline
    modify fun s => { s with symbols := s.symbols.insert file.path symbols }
    return symbols

end Session

end JsxPresence
