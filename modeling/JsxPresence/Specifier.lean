import JsxPresence.FileSystem
import JsxPresence.Options

namespace JsxPresence

/-- What an analysis looks at and how. -/
structure Environment where
  options : Options
  files : FileSystem

namespace Environment

def normalize (env : Environment) (path : Bytes) : Bytes := Path.normalize env.files.cwd path

end Environment

namespace Specifier

def isRelative (s : Bytes) : Bool :=
  s = Path.dot || s = Path.dotDot || (utf8 "./").isPrefixOf s || (utf8 "../").isPrefixOf s

def isAlias (o : Options) (s : Bytes) : Bool :=
  !o.aliasPrefix.isEmpty && o.aliasPrefix.isPrefixOf s

def isExternal (o : Options) (s : Bytes) : Bool := !isRelative s && !isAlias o s

def hasSourceExtension (o : Options) (path : Bytes) : Bool :=
  o.extensions.contains (Path.extension path)

/-- The first of the paths that is a file, in its normal form. -/
def firstFile? (env : Environment) (paths : List Bytes) : Option Bytes :=
  (paths.find? env.files.isFile).map env.normalize

def indexCandidates (o : Options) (directory : Bytes) : List Bytes :=
  o.extensions.map fun e => Path.join directory (utf8 "index" ++ e)

/-- A file itself, or the index file of a directory. -/
def directoryIndex? (env : Environment) (path : Bytes) : Option Bytes :=
  if env.files.isFile path then some (env.normalize path)
  else if env.files.isDirectory path then firstFile? env (indexCandidates env.options path)
  else none

/-- The file that a path without ending stands for: itself, with an extension, or an index. -/
def probe? (env : Environment) (base : Bytes) : Option Bytes :=
  match firstFile? env (base :: env.options.extensions.map (base ++ ·)) with
  | some file => some file
  | none => directoryIndex? env base

/-- The nearest directory at or above a path that holds the root marker. -/
def projectRoot? (env : Environment) (path : Bytes) : Option Bytes :=
  let start := env.normalize path
  let directory := if env.files.isFile start then Path.parent start else start
  (Path.ancestors directory).find? fun d => env.files.isFile (Path.join d env.options.rootMarker)

/-- Where the search for a specifier starts; `none` if an alias has no project root. -/
def base? (env : Environment) (s directory : Bytes) : Option Bytes :=
  if isRelative s then some (Path.normal (Path.join directory s))
  else do
    let root ← projectRoot? env directory
    let rest := s.drop env.options.aliasPrefix.length
    let source := Path.join root env.options.sourceDir
    return Path.normal (if rest.isEmpty then source else Path.join source rest)

/-- The file that a specifier means in a directory. -/
def find? (env : Environment) (s directory : Bytes) : Option Bytes := do
  probe? env (← base? env s directory)

/-- Why a specifier gives no file. -/
inductive Failure where
  | external
  | notFound (directory : Bytes)
deriving DecidableEq

def Failure.message (s : Bytes) : Failure → Bytes
  | external => utf8 "external module '" ++ s ++ utf8 "'"
  | notFound directory => utf8 "cannot resolve '" ++ s ++ utf8 "' from " ++ directory

end Specifier

end JsxPresence
