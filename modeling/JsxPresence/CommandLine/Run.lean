import JsxPresence.Analysis.Report
import JsxPresence.CommandLine

namespace JsxPresence.CommandLine

/-- What a run finds besides its arguments and files. -/
structure Surroundings where
  /-- The setting for logging. -/
  logSetting : Option Bytes
  terminal : Log.Terminal
  /-- Milliseconds since the epoch. -/
  time : Int

structure Outcome where
  exitCode : Nat
  stdout : Bytes
  stderr : Bytes
  files : FileSystem

def title : Bytes := utf8 "qwik-analyzer 0.3.0\n"

def usageLines : List String :=
  ["",
   "Usage: qwik-analyzer <command> <file> [options]",
   "",
   "Commands:",
   "  analyze <file>      Print the analysis result as JSON",
   "  transform <file>    Print the transformed source",
   "  deps <file>         Print the files the analysis depends on",
   "",
   "Options:",
   "  --pretty                Indent JSON output",
   "  --output=<path>         Write transformed source to a file",
   "  --marker=<name>         Marker function (default: isComponentPresent)",
   "  --component=<name>      Component wrapper (default: component$)",
   "  --prop-prefix=<prefix>  Synthetic prop prefix (default: __qwik_analyzer_has)",
   "  --props-param=<name>    Inserted parameter name (default: props)",
   "  --module=<specifier>    Only recognize markers imported from this module",
   "  --source-dir=<dir>      Directory the ~/ alias maps to (default: src)",
   "  --max-depth=<n>         Presence search depth limit (default: 32)",
   "  --inject-false          Also inject props whose value is false",
   "  --no-heuristic          Disable filename lookup for unresolved members",
   "",
   "Logging:",
   "  -v, -vv, -vvv           Increase verbosity (info, debug, trace)",
   "  -q, --quiet             Errors only",
   "  --log-level=<level>     trace|debug|info|warn|error|off",
   "  --log-filter=<spec>     e.g. presence=trace,*=warn",
   "  --log-file=<path>       Also write logs to a file",
   "  --log-format=<fmt>      text|json",
   "  QWA_LOG=<spec>          Environment fallback for --log-filter"]

def usageText : Bytes := title ++ usageLines.flatMap fun l => utf8 l ++ utf8 "\n"

def errorText (message : Bytes) : Bytes := utf8 "error: " ++ message ++ utf8 "\n"

/-- What a command comes to, before its log is written out. -/
structure Step where
  exitCode : Nat
  stdout : Bytes := []
  /-- What follows the log on the error output. -/
  stderr : Bytes := []
  files : FileSystem
  workspace : Workspace

def Step.failure (files : FileSystem) (workspace : Workspace) (message : Bytes) : Step :=
  { exitCode := 1, stderr := errorText message, files := files, workspace := workspace }

def Step.success (files : FileSystem) (workspace : Workspace) (stdout : Bytes) : Step :=
  { exitCode := 0, stdout := stdout, files := files, workspace := workspace }

def analysisText (c : CommandLine) (a : Analysis) : Bytes :=
  if c.command = utf8 "deps" then a.dependencies.flatMap (· ++ utf8 "\n")
  else (if c.pretty then a.toJson.pretty 2 else a.toJson.compact) ++ utf8 "\n"

/-- Prints an analysis or the files it depends on. -/
def runAnalyze (c : CommandLine) (files : FileSystem) (w : Workspace) : Step :=
  match Analysis.analyze ⟨c.options, files⟩ c.file none w with
  | (.error failure, w) => .failure files w failure.message
  | (.ok a, w) => .success files w (analysisText c a)

/-- Prints the transformed text or writes it to a file. -/
def runTransform (c : CommandLine) (files : FileSystem) (w : Workspace) : Step :=
  match Analysis.transform ⟨c.options, files⟩ c.file none w with
  | (.error failure, w) => .failure files w failure.message
  | (.ok text, w) =>
    match c.output with
    | none => .success files w text
    | some path =>
      let w := w.note .debug (utf8 "cli") (utf8 "writing " ++ path)
      match files.write? path text with
      | none => .failure files w (utf8 "cannot write " ++ path)
      | some files => .success files w []

def runCommand (c : CommandLine) (files : FileSystem) (w : Workspace) : Step :=
  let w := w.note .info (utf8 "cli") (c.command ++ utf8 " " ++ c.file)
  if c.command = utf8 "analyze" || c.command = utf8 "deps" then runAnalyze c files w
  else if c.command = utf8 "transform" then runTransform c files w
  else
    { Step.failure files w (utf8 "unknown command '" ++ c.command ++ utf8 "'") with
      stdout := usageText }

/-- Hands entries to a logger; gives what goes to the error output. -/
def writeLog (logger : Log.Logger) (time : Int) (entries : List Log.Entry) (files : FileSystem) :
    Bytes × FileSystem :=
  match entries with
  | [] => ([], files)
  | entry :: rest =>
    let (logger, shown, files) := logger.write ⟨entry, time⟩ files
    let (more, files) := writeLog logger time rest files
    (shown ++ more, files)

/-- Sets logging up and carries a command out. -/
def runLogged (args : List Bytes) (around : Surroundings) (files : FileSystem) : Outcome :=
  let config := Log.Arguments.parse args around.logSetting
  let (logger, complaint, files) := Log.Logger.configure config around.terminal files
  match parse args with
  | .error error => ⟨1, [], complaint ++ errorText error.message, files⟩
  | .ok c =>
    let step := runCommand c files (.start ⟨logger.gate, #[]⟩)
    let (shown, files) :=
      writeLog logger around.time step.workspace.journal.entries.toList step.files
    ⟨step.exitCode, step.stdout, complaint ++ shown ++ step.stderr, files⟩

/-- Runs the program on the arguments after its name. -/
def run (args : List Bytes) (around : Surroundings) (files : FileSystem) : Outcome :=
  match args with
  | [] => ⟨0, usageText, [], files⟩
  | first :: _ =>
    if first = utf8 "--help" || first = utf8 "-h" then ⟨0, usageText, [], files⟩
    else if first = utf8 "--version" || first = utf8 "-V" then ⟨0, title, [], files⟩
    else runLogged args around files

end JsxPresence.CommandLine
