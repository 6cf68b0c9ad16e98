import JsxPresence.CommandLine.Run
import JsxPresence.CommandLine.Survey
import Std.Data.HashSet
import Std.Time.DateTime.Timestamp

namespace JsxPresence.Main

def toText? (b : Bytes) : Option String := String.fromUTF8? ⟨b.toArray⟩

/-- What stands at a path. -/
def look (path : String) : IO (Option Node) := do
  try
    return some (.file (← IO.FS.readBinFile path).data.toList)
  catch
    | .inappropriateType .. => return some .directory
    | _ => return none

/-- Takes what stands at a path into the files at hand. -/
def take (files : FileSystem) (path : Bytes) : IO FileSystem := do
  match toText? (Path.normalize files.cwd path) with
  | none => return files
  | some text =>
    match ← look text with
    | none => return files
    | some .directory => return files.installDirectory path
    | some (.file content) => return files.install path content

/-- Takes wanted files in until there are no new ones; `rounds` bounds the chain of imports. -/
def survey (options : Options) (asked : Std.HashSet Bytes) :
    Nat → FileSystem → IO FileSystem
  | 0, files => return files
  | rounds + 1, files => do
    let paths := ((Survey.wanted ⟨options, files⟩).filter (!asked.contains ·)).eraseDups
    if paths.isEmpty then return files
    let files ← paths.foldlM take files
    survey options (asked.insertMany paths) rounds files

def maxRounds : Nat := 10000

/-- The files that a run with these arguments may ask for. -/
def filesFor (cwd : Bytes) (args : List Bytes) (setting : Option Bytes) : IO FileSystem := do
  let logFile := (Log.Arguments.parse args setting).file
  let files ← [Path.parent logFile, logFile].foldlM take (.bare cwd)
  match CommandLine.parse args with
  | .error _ => return files
  | .ok c =>
    let output := c.output.getD []
    let files ← [Path.parent output, output, c.file].foldlM take files
    survey c.options ∅ maxRounds files

/-- Writes the files that have changed. -/
def writeBack (before after : FileSystem) : IO Unit := do
  for (place, node) in after.nodes do
    if before.nodeAt place ≠ some node then
      match node, toText? (place.flatMap (Path.slash :: ·)) with
      | .file content, some path => IO.FS.writeBinFile path ⟨content.toArray⟩
      | _, _ => pure ()

end JsxPresence.Main

open JsxPresence in
def main (args : List String) : IO UInt32 := do
  let args := args.map utf8
  let setting := (← IO.getEnv "QWA_LOG").map utf8
  let stderr ← IO.getStderr
  let terminal : Log.Terminal := ⟨← stderr.isTty, (← IO.getEnv "TERM").map utf8⟩
  let now := (← Std.Time.Timestamp.now).toMillisecondsSinceUnixEpoch.val
  let files ← JsxPresence.Main.filesFor (utf8 (toString (← IO.currentDir))) args setting
  let outcome := CommandLine.run args ⟨setting, terminal, now⟩ files
  JsxPresence.Main.writeBack files outcome.files
  (← IO.getStdout).write ⟨outcome.stdout.toArray⟩
  stderr.write ⟨outcome.stderr.toArray⟩
  return outcome.exitCode.toUInt32
