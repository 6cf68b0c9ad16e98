import JsxPresence.Log.Logger
import JsxPresence.Specifier
import JsxPresence.Table

namespace JsxPresence

/-- What outlives a single analysis: where specifiers led, and the journal. -/
structure Workspace where
  /-- Answers by importing directory and specifier; `none` if nothing was found. -/
  resolved : Table (Option Bytes)
  journal : Log.Journal

namespace Workspace

def start (journal : Log.Journal) : Workspace := ⟨.empty, journal⟩

def note (w : Workspace) (level : Log.Level) (module message : Bytes) : Workspace :=
  { w with journal := w.journal.add level module message }

def key (directory specifier : Bytes) : Bytes := directory ++ byte '\n' :: specifier

/-- Says so if an alias is used outside a project. -/
def noteMissingRoot (env : Environment) (specifier directory : Bytes) (w : Workspace) : Workspace :=
  if !Specifier.isRelative specifier && (Specifier.projectRoot? env directory).isNone then
    w.note .debug (utf8 "resolve")
      (utf8 "no " ++ env.options.rootMarker ++ utf8 " above " ++ directory ++
        utf8 " for alias '" ++ specifier ++ utf8 "'")
  else w

/-- Looks a specifier up and remembers the answer. -/
def lookUp (env : Environment) (specifier directory : Bytes) (w : Workspace) :
    Option Bytes × Workspace :=
  let w := w.noteMissingRoot env specifier directory
  let found := Specifier.find? env specifier directory
  let w := { w with resolved := w.resolved.insert (key directory specifier) found }
  let message :=
    match found with
    | some file => utf8 "'" ++ specifier ++ utf8 "' -> " ++ file
    | none => (Specifier.Failure.notFound directory).message specifier
  (found, w.note (if found.isSome then .trace else .debug) (utf8 "resolve") message)

/-- The file that a specifier in an importing file means. -/
def resolve (env : Environment) (specifier importer : Bytes) (w : Workspace) :
    Except Specifier.Failure Bytes × Workspace :=
  if Specifier.isExternal env.options specifier then
    (.error .external,
      w.note .trace (utf8 "resolve") (utf8 "external import '" ++ specifier ++ utf8 "'"))
  else
    let directory := Path.parent (env.normalize importer)
    let (found, w) :=
      match w.resolved.get? (key directory specifier) with
      | some found => (found, w)
      | none => w.lookUp env specifier directory
    match found with
    | some file => (.ok file, w)
    | none => (.error (.notFound directory), w)

/-- Forgets where specifiers led. -/
def invalidate (w : Workspace) : Workspace :=
  let w :=
    w.note .debug (utf8 "resolve")
      (utf8 "invalidating " ++ decimal w.resolved.size ++ utf8 " cached resolutions")
  { w with resolved := .empty }

end Workspace

end JsxPresence
