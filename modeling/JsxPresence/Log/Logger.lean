import JsxPresence.FileSystem
import JsxPresence.Log.Filter
import JsxPresence.Log.Record

namespace JsxPresence.Log

/-- Entries kept in memory, oldest first, behind a gate. -/
structure Journal where
  gate : Gate
  entries : Array Entry

namespace Journal

def ofLevel (level : Level) : Journal := ⟨.ofLevel level, #[]⟩

def add (j : Journal) (level : Level) (module message : Bytes) : Journal :=
  if j.gate.admits level module then { j with entries := j.entries.push ⟨level, module, message⟩ }
  else j

def clear (j : Journal) : Journal := { j with entries := #[] }

/-- An entry of the module has `needle` in its message. -/
def mentions (entries : Array Entry) (module needle : Bytes) : Bool :=
  entries.any fun e => e.module = module && Bytes.hasInfix needle e.message

def count (entries : Array Entry) (level : Level) : Nat :=
  (entries.filter (·.level = level)).size

end Journal

structure Config where
  level : Level := .warn
  format : Format := .text
  /-- Empty if every module uses `level`. -/
  filterSpec : Bytes := []
  /-- Empty if no file is written. -/
  file : Bytes := []
  console : Bool := true
  colors : Bool := true
deriving DecidableEq

/-- What the error output is connected to. -/
structure Terminal where
  isTerminal : Bool
  /-- The terminal's kind, if it is known. -/
  kind : Option Bytes

/-- Colors are shown on a terminal that is known and not dumb. -/
def Terminal.showsColors (t : Terminal) : Bool :=
  t.isTerminal &&
    match t.kind with
    | none => false
    | some kind => kind ≠ utf8 "dumb"

/-- Where records go. -/
inductive Sink where
  | memory (entries : Array Entry)
  | console (format : Format) (colors : Bool)
  | file (path : Bytes) (format : Format)

structure Logger where
  gate : Gate
  sinks : List Sink

namespace Logger

/-- The message if a log file cannot be opened. -/
def cannotOpen (path : Bytes) : Bytes :=
  utf8 "qwik-analyzer: cannot open log file " ++ path ++ utf8 "\n"

/-- A logger as configured, what it says on the error output, and the files with a log file that is
opened for more. -/
def configure (config : Config) (terminal : Terminal) (fs : FileSystem) :
    Logger × Bytes × FileSystem :=
  let gate := Gate.configured config.level config.filterSpec
  let console :=
    if config.console then
      [Sink.console config.format (config.colors && terminal.showsColors)]
    else []
  if config.file.isEmpty then (⟨gate, console⟩, [], fs)
  else
    match fs.append? config.file [] with
    | none => (⟨gate, console⟩, cannotOpen config.file, fs)
    | some fs => (⟨gate, console ++ [.file config.file config.format]⟩, [], fs)

/-- Hands a record to every sink; gives what goes to the error output. -/
def write (l : Logger) (r : Record) (fs : FileSystem) : Logger × Bytes × FileSystem :=
  let (sinks, shown, fs) :=
    l.sinks.foldl
      (fun (sinks, shown, fs) sink =>
        match sink with
        | .memory entries => (sinks ++ [.memory (entries.push r.entry)], shown, fs)
        | .console format colors => (sinks ++ [sink], shown ++ r.line format colors, fs)
        | .file path format =>
          (sinks ++ [sink], shown, (fs.append? path (r.line format false)).getD fs))
      ([], [], fs)
  ({ l with sinks := sinks }, shown, fs)

/-- The entries of the memory sink, if there is one. -/
def entries? (l : Logger) : Option (Array Entry) :=
  l.sinks.findSome? fun
    | .memory entries => some entries
    | _ => none

def clear (l : Logger) : Logger :=
  { l with
    sinks := l.sinks.map fun
      | .memory _ => .memory #[]
      | sink => sink }

end Logger

end JsxPresence.Log
