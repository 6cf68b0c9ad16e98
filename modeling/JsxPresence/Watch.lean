import JsxPresence.Workspace

namespace JsxPresence

inductive FileEvent where
  | create
  | update
  | delete
  | rename
deriving DecidableEq

namespace FileEvent

def all : List FileEvent := [create, update, delete, rename]

def name : FileEvent → Bytes
  | create => utf8 "create"
  | update => utf8 "update"
  | delete => utf8 "delete"
  | rename => utf8 "rename"

def ofName? (name : Bytes) : Option FileEvent := all.find? (·.name = name)

end FileEvent

/-- Takes note of a change. A new content leaves every file where it was; any other change may
change where specifiers lead. -/
def Workspace.fileChanged (w : Workspace) (path : Bytes) (event : FileEvent) : Workspace :=
  match event with
  | .update => w.note .debug (utf8 "analyzer") (utf8 "update " ++ path)
  | _ =>
    (w.note .info (utf8 "analyzer")
      (event.name ++ utf8 " " ++ path ++ utf8 ": clearing resolver cache")).invalidate

/-- A module id, with or without a query, is that of a source file outside of packages. -/
def Options.shouldTransform (o : Options) (id : Bytes) : Bool :=
  let path := id.takeWhile (· ≠ byte '?')
  !Bytes.hasInfix (utf8 "node_modules") path &&
    o.extensions.any fun e => e.length < path.length && e.isSuffixOf path

end JsxPresence
