import JsxPresence.Bytes
import JsxPresence.Span

namespace JsxPresence

/-- What an import binding takes from the other file. -/
inductive ImportKind where
  | named
  | default
  | wholeModule
deriving DecidableEq

/-- One name that an import brings into scope. -/
structure ImportItem where
  kind : ImportKind
  /-- The name in the other file; `default` and `*` for the kinds without one. -/
  imported : Bytes
  localName : Bytes
  typeOnly : Bool
  span : Span
deriving DecidableEq

structure Import where
  specifier : Bytes
  specifierSpan : Span
  items : List ImportItem
  typeOnly : Bool
  span : Span
deriving DecidableEq

/-- Where an exported name comes from. -/
inductive ExportKind where
  /-- A name of this file; empty for an expression exported by default. -/
  | fromHere (localName exported : Bytes)
  | fromFile (imported exported specifier : Bytes)
  | allFrom (specifier : Bytes)
  | moduleFrom (exported specifier : Bytes)
deriving DecidableEq

structure Export where
  kind : ExportKind
  typeOnly : Bool
  span : Span
deriving DecidableEq

inductive DeclarationKind where
  | const
  | let
  | var
  | function
  | classDef
deriving DecidableEq

/-- A member of an object literal. The path is the dotted name it is bound to, empty for any other
value. -/
structure Property where
  key : Bytes
  path : List Bytes
  span : Span
deriving DecidableEq

structure Declaration where
  name : Bytes
  kind : DeclarationKind
  span : Span
  /-- The members, if the declaration is initialised with an object literal. -/
  properties : Option (List Property)
deriving DecidableEq

inductive Callee where
  | identifier (name : Bytes)
  | member (path : List Bytes)
deriving DecidableEq

inductive ParamShape where
  | none
  | identifier
  | objectPattern
  | other
deriving DecidableEq

/-- The parameter list of a function literal, as far as its first parameter matters. -/
structure Params where
  hasParens : Bool
  /-- Right after the opening parenthesis; for a bare parameter, where it starts. -/
  openParenEnd : Nat
  count : Nat
  first : ParamShape
  firstName : Bytes
  /-- Right after the brace of a pattern that is the first parameter. -/
  patternBraceEnd : Nat
  span : Span
deriving DecidableEq

inductive ArgumentKind where
  | identifier (name : Bytes)
  | member (path : List Bytes)
  | function (arrow : Bool) (params : Params)
  | literal
  | other
deriving DecidableEq

structure Argument where
  kind : ArgumentKind
  span : Span
deriving DecidableEq

structure Call where
  callee : Callee
  arguments : List Argument
  span : Span
  calleeSpan : Span
deriving DecidableEq

def Call.isTo (c : Call) (name : Bytes) : Bool := c.callee = .identifier name

inductive ElementName where
  | identifier (name : Bytes)
  | member (path : List Bytes)
  | namespaced (space name : Bytes)
  | fragment
deriving DecidableEq

/-- An opening tag. -/
structure Element where
  name : ElementName
  span : Span
  nameSpan : Span
  /-- Attribute names in order, without spreads. -/
  attributes : List Bytes
  hasSpread : Bool
  selfClosing : Bool
  /-- Where a new attribute goes: at the `/` of `/>` or at the final `>`. -/
  insertAt : Nat
deriving DecidableEq

@[ext]
structure Outline where
  imports : List Import
  exports : List Export
  declarations : List Declaration
  calls : List Call
  elements : List Element
deriving DecidableEq

namespace Outline

def empty : Outline := ⟨[], [], [], [], []⟩

def append (a b : Outline) : Outline :=
  ⟨a.imports ++ b.imports, a.exports ++ b.exports, a.declarations ++ b.declarations,
   a.calls ++ b.calls, a.elements ++ b.elements⟩

instance : Append Outline := ⟨append⟩

theorem append_def (a b : Outline) :
    a ++ b = ⟨a.imports ++ b.imports, a.exports ++ b.exports, a.declarations ++ b.declarations,
      a.calls ++ b.calls, a.elements ++ b.elements⟩ := rfl

theorem append_assoc (a b c : Outline) : a ++ b ++ c = a ++ (b ++ c) := by
  simp [append_def]

@[simp]
theorem append_empty (a : Outline) : a ++ empty = a := by simp [append_def, empty]

def ofImport (i : Import) : Outline := { empty with imports := [i] }

def ofExport (e : Export) : Outline := { empty with exports := [e] }

def ofExports (es : List Export) : Outline := { empty with exports := es }

def ofDeclaration (d : Declaration) : Outline := { empty with declarations := [d] }

def ofCall (c : Call) : Outline := { empty with calls := [c] }

def ofElement (e : Element) : Outline := { empty with elements := [e] }

/-- The first declaration of a name. -/
def declaration? (o : Outline) (name : Bytes) : Option Declaration :=
  o.declarations.find? (·.name = name)

end Outline

end JsxPresence
