import JsxPresence.Analysis
import JsxPresence.Json.Printer

namespace JsxPresence

open Json (Value)

def Edit.toJson (e : Edit) : Value :=
  .ofMembers
    [(utf8 "start", .integer e.start), (utf8 "end", .integer e.stop),
     (utf8 "replacement", .string e.replacement)]

def Diagnostic.toJson (d : Diagnostic) : Value :=
  .ofMembers
    [(utf8 "kind", .string d.kind.name), (utf8 "file", .string d.file),
     (utf8 "message", .string d.message)]

namespace Analysis

def toJson (a : Analysis) : Value :=
  .ofMembers
    [(utf8 "has_component", .bool a.hasComponent), (utf8 "file_path", .string a.file),
     (utf8 "transformations", .array (a.edits.map Edit.toJson)),
     (utf8 "dependencies", .array (a.dependencies.map .string)),
     (utf8 "diagnostics", .array (a.diagnostics.map Diagnostic.toJson))]

def FailureKind.name : FailureKind → Bytes
  | unreadable => utf8 "io"
  | unparseable => utf8 "parse"
  | badEdits => utf8 "patch"

def Failure.toJson (f : Failure) : Value :=
  .ofMembers
    [(utf8 "error", .string f.kind.name), (utf8 "file", .string f.file),
     (utf8 "message", .string f.message)]

end Analysis

end JsxPresence
