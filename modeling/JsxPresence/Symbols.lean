import JsxPresence.Name.Markup
import JsxPresence.Outline

namespace JsxPresence

/-- One name that an import brings into scope. -/
structure Binding where
  localName : Bytes
  imported : Bytes
  kind : ImportKind
  specifier : Bytes
  typeOnly : Bool
deriving DecidableEq

/-- An opening tag that may name a component. -/
structure Usage where
  path : List Bytes
  span : Span
  insertAt : Nat
  attributes : List Bytes
  selfClosing : Bool
deriving DecidableEq

namespace Usage

def canonical (u : Usage) : Bytes := Name.canonical u.path

def fullName (u : Usage) : Bytes := Name.join u.path

def isMember (u : Usage) : Bool := 1 < u.path.length

def hasAttribute (u : Usage) (name : Bytes) : Bool := u.attributes.contains name

/-- Members are always usages if their first name is an identifier; other elements only if their
name is a component's. -/
def path? : ElementName → Option (List Bytes)
  | .identifier name => if Name.isComponent name then some [name] else none
  | .member path => if Name.isIdentifier (path.headD []) then some path else none
  | .namespaced _ _ | .fragment => none

def ofElement? (e : Element) : Option Usage :=
  (path? e.name).map fun path => ⟨path, e.span, e.insertAt, e.attributes, e.selfClosing⟩

end Usage

structure Symbols where
  imports : List Binding
  /-- In the order of the text. -/
  usages : List Usage
deriving DecidableEq

namespace Symbols

def bindings (i : Import) : List Binding :=
  i.items.map fun item =>
    ⟨item.localName, item.imported, item.kind, i.specifier, i.typeOnly || item.typeOnly⟩

def ofOutline (o : Outline) : Symbols :=
  ⟨o.imports.flatMap bindings, o.elements.filterMap Usage.ofElement?⟩

/-- The first binding of a name. -/
def import? (s : Symbols) (localName : Bytes) : Option Binding :=
  s.imports.find? (·.localName = localName)

/-- Canonical names in the order of first use. -/
def components (s : Symbols) : List Bytes :=
  s.usages.foldl
    (fun names u => if names.contains u.canonical then names else names ++ [u.canonical]) []

end Symbols

end JsxPresence
