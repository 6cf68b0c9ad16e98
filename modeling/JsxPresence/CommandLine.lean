import JsxPresence.Log.Arguments
import JsxPresence.Options

namespace JsxPresence

structure CommandLine where
  command : Bytes
  file : Bytes := []
  /-- Write reports with indentation. -/
  pretty : Bool := false
  /-- Where transformed text goes, if not to the standard output. -/
  output : Option Bytes := none
  options : Options := {}
deriving DecidableEq

namespace CommandLine

inductive UsageError where
  | missingCommand
  | invalidDepth (value : Bytes)
  | unknownOption (arg : Bytes)
  | unexpectedArgument (arg : Bytes)
  | missingFile (command : Bytes)
deriving DecidableEq

def UsageError.message : UsageError → Bytes
  | missingCommand => utf8 "missing command"
  | invalidDepth value => utf8 "invalid --max-depth value: " ++ value
  | unknownOption arg => utf8 "unknown option: " ++ arg
  | unexpectedArgument arg => utf8 "unexpected argument: " ++ arg
  | missingFile command => utf8 "missing <file> for '" ++ command ++ utf8 "'"

/-- The depth that a text of digits stands for; a number that is no depth stands for none. -/
def depth? (text : Bytes) : Option Depth :=
  let n := text.foldl (fun n b => 10 * n + (b.toNat - 48)) 0
  if !text.isEmpty && text.all isDigit && n < UInt32.size then some (.ofNat n) else none

/-- The options that carry a value, and what they set. -/
def setters : List (Bytes × (CommandLine → Bytes → Except UsageError CommandLine)) :=
  [(utf8 "--output=", fun c v => .ok { c with output := some v }),
   (utf8 "--marker=", fun c v => .ok { c with options := { c.options with markerFunction := v } }),
   (utf8 "--component=",
    fun c v => .ok { c with options := { c.options with componentFunction := v } }),
   (utf8 "--prop-prefix=", fun c v => .ok { c with options := { c.options with propPrefix := v } }),
   (utf8 "--props-param=", fun c v => .ok { c with options := { c.options with propsParam := v } }),
   (utf8 "--module=",
    fun c v => .ok { c with options := { c.options with moduleSpecifier := some v } }),
   (utf8 "--source-dir=", fun c v => .ok { c with options := { c.options with sourceDir := v } }),
   (utf8 "--max-depth=", fun c v =>
    match depth? v with
    | some n => .ok { c with options := { c.options with maxDepth := n } }
    | none => .error (.invalidDepth v))]

/-- Applies an option that carries a value. -/
def setValue? (c : CommandLine) (arg : Bytes) : Option (Except UsageError CommandLine) :=
  setters.findSome? fun (option, set) => (Bytes.strip? option arg).map (set c)

/-- Takes in one more argument. -/
def take (c : CommandLine) (arg : Bytes) : Except UsageError CommandLine :=
  if arg = utf8 "--pretty" then .ok { c with pretty := true }
  else if arg = utf8 "--inject-false" then
    .ok { c with options := { c.options with injectFalse := true } }
  else if arg = utf8 "--no-heuristic" then
    .ok { c with options := { c.options with heuristicLookup := false } }
  else
    match setValue? c arg with
    | some result => result
    | none =>
      if arg.head? = some (byte '-') then .error (.unknownOption arg)
      else if c.file.isEmpty then .ok { c with file := arg }
      else .error (.unexpectedArgument arg)

/-- Takes in one more argument if it is not about logging. -/
def step (c : CommandLine) (arg : Bytes) : Except UsageError CommandLine :=
  if Log.Arguments.isLogOption arg then .ok c else c.take arg

/-- Reads the arguments after the program's name. -/
def parse (args : List Bytes) : Except UsageError CommandLine :=
  match args with
  | [] => .error .missingCommand
  | command :: rest => do
    let c ← rest.foldlM step { command := command }
    if c.file.isEmpty then throw (.missingFile command)
    return c

end CommandLine

end JsxPresence
