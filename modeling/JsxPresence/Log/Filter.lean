import JsxPresence.Log.Level
import JsxPresence.Table

namespace JsxPresence.Log

structure Filter where
  /-- The threshold of modules that are not listed. -/
  fallback : Level := .info
  modules : Table Level := .empty

namespace Filter

/-- One item of a specification: the module, and its level; a bare name asks for everything. -/
def item (text : Bytes) : Bytes × Level :=
  match text.dropWhile (· ≠ byte '=') with
  | [] => (text, .trace)
  | _ :: level => (text.takeWhile (· ≠ byte '='), Level.ofText level)

/-- A star sets the threshold of unlisted modules. -/
def add (f : Filter) (text : Bytes) : Filter :=
  let (module, level) := item text
  if module = utf8 "*" then { f with fallback := level }
  else { f with modules := f.modules.insert module level }

/-- Replaces the thresholds of listed modules; that of the others changes only by a star. -/
def parse (f : Filter) (spec : Bytes) : Filter :=
  ((Bytes.fields (byte ',') spec).filter (!·.isEmpty)).foldl add { f with modules := .empty }

def threshold (f : Filter) (module : Bytes) : Level := (f.modules.get? module).getD f.fallback

def admits (f : Filter) (level : Level) (module : Bytes) : Bool :=
  level.passes (f.threshold module)

/-- The most talkative threshold. -/
def lowest (f : Filter) : Level :=
  f.modules.entries.foldl (fun l e => l.lower e.2) f.fallback

end Filter

/-- What lets records through: a global level in front of a filter. -/
structure Gate where
  level : Level
  filter : Filter

namespace Gate

def ofLevel (level : Level) : Gate := ⟨level, { fallback := level }⟩

def admits (g : Gate) (level : Level) (module : Bytes) : Bool :=
  level.passes g.level && g.filter.admits level module

def setLevel (g : Gate) (level : Level) : Gate :=
  ⟨level, { g.filter with fallback := level }⟩

/-- Applies a filter; the global level gives way to a module that asks for more. -/
def setFilter (g : Gate) (spec : Bytes) : Gate :=
  let filter := g.filter.parse spec
  ⟨g.level.lower filter.lowest, filter⟩

/-- The gate of a level and a filter specification, which may be empty. -/
def configured (level : Level) (spec : Bytes) : Gate :=
  if spec.isEmpty then ofLevel level
  else
    let parsed := Filter.parse { fallback := level } spec
    let filter := { parsed with fallback := parsed.fallback.lower level }
    ⟨filter.lowest, filter⟩

end Gate

end JsxPresence.Log
