import JsxPresence.Log.Logger

namespace JsxPresence.Log.Arguments

def levelOption : Bytes := utf8 "--log-level="

def filterOption : Bytes := utf8 "--log-filter="

def fileOption : Bytes := utf8 "--log-file="

def formatOption : Bytes := utf8 "--log-format="

/-- The number of letters in `-v`, `-vv` and so on; zero for anything else. -/
def verbosity : Bytes → Nat
  | [] => 0
  | b :: flags => if b = byte '-' && flags.all (· = byte 'v') then flags.length else 0

def isQuiet (arg : Bytes) : Bool := arg = utf8 "-q" || arg = utf8 "--quiet"

/-- An argument that is about logging. -/
def isLogOption (arg : Bytes) : Bool :=
  [levelOption, filterOption, fileOption, formatOption].any (·.isPrefixOf arg) || isQuiet arg ||
    arg = utf8 "--verbose" || 0 < verbosity arg

/-- What the arguments read so far ask for. -/
structure Request where
  config : Config := {}
  level : Option Level := none
  verbose : Nat := 0

/-- Takes in one more argument; the last of its kind counts, and the highest verbosity. -/
def Request.take (r : Request) (arg : Bytes) : Request :=
  match Bytes.strip? levelOption arg with
  | some value => { r with level := some (Level.ofText value) }
  | none =>
  match Bytes.strip? filterOption arg with
  | some value => { r with config := { r.config with filterSpec := value } }
  | none =>
  match Bytes.strip? fileOption arg with
  | some value => { r with config := { r.config with file := value } }
  | none =>
  match Bytes.strip? formatOption arg with
  | some value =>
    let format := if value = utf8 "json" || value = utf8 "JSON" then .json else .text
    { r with config := { r.config with format := format } }
  | none =>
    if isQuiet arg then { r with level := some .error }
    else if arg = utf8 "--verbose" then { r with verbose := max r.verbose 1 }
    else { r with verbose := max r.verbose (verbosity arg) }

def levelOfVerbosity : Nat → Level
  | 1 => .info
  | 2 => .debug
  | _ => .trace

/-- The environment's setting: a filter if it has `=` or `,` in it, else a level. -/
def applySetting (setting : Bytes) (config : Config) : Config :=
  if setting.any (fun b => b = byte '=' || b = byte ',') then { config with filterSpec := setting }
  else if setting.isEmpty then config
  else { config with level := Level.ofText setting }

/-- The configuration that the arguments after the program's name ask for. A stated level counts
first, then verbosity; the environment's setting counts only without either and without a filter. -/
def parse (args : List Bytes) (setting : Option Bytes) : Config :=
  let r := args.foldl Request.take {}
  match r.level with
  | some level => { r.config with level := level }
  | none =>
    if 0 < r.verbose then { r.config with level := levelOfVerbosity r.verbose }
    else if !r.config.filterSpec.isEmpty then r.config
    else applySetting (setting.getD []) r.config

end JsxPresence.Log.Arguments
