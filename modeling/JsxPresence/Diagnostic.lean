import JsxPresence.Bytes

namespace JsxPresence

inductive DiagnosticKind where
  | heuristicLookup
  | cycleCut
  | depthLimit
  | malformedMarker
  | unsupportedParams
  | missingOwner
  | unresolved
  | unparseable
deriving DecidableEq

namespace DiagnosticKind

def all : List DiagnosticKind :=
  [heuristicLookup, cycleCut, depthLimit, malformedMarker, unsupportedParams, missingOwner,
   unresolved, unparseable]

def name : DiagnosticKind → Bytes
  | heuristicLookup => utf8 "heuristic-lookup"
  | cycleCut => utf8 "cycle"
  | depthLimit => utf8 "depth-limit"
  | malformedMarker => utf8 "malformed-marker"
  | unsupportedParams => utf8 "unsupported-params"
  | missingOwner => utf8 "missing-owner"
  | unresolved => utf8 "unresolved"
  | unparseable => utf8 "unparseable"

def ofName? (name : Bytes) : Option DiagnosticKind := all.find? (·.name = name)

end DiagnosticKind

structure Diagnostic where
  kind : DiagnosticKind
  file : Bytes
  message : Bytes
deriving DecidableEq

/-- Adds a diagnostic at the end, unless it is there. -/
def addDiagnostic (d : Diagnostic) (ds : List Diagnostic) : List Diagnostic :=
  if ds.contains d then ds else ds ++ [d]

end JsxPresence
