import JsxPresence.Outline.Parse

namespace JsxPresence

def Span.nowhere : Span := ⟨0, 0⟩

def Token.unplaced (t : Token) : Token := { t with span := .nowhere }

def ImportItem.unplaced (i : ImportItem) : ImportItem := { i with span := .nowhere }

def Import.unplaced (i : Import) : Import :=
  { i with
    specifierSpan := .nowhere
    items := i.items.map ImportItem.unplaced
    span := .nowhere }

def Export.unplaced (e : Export) : Export := { e with span := .nowhere }

def Property.unplaced (p : Property) : Property := { p with span := .nowhere }

def Declaration.unplaced (d : Declaration) : Declaration :=
  { d with span := .nowhere, properties := d.properties.map (·.map Property.unplaced) }

def Params.unplaced (p : Params) : Params :=
  { p with openParenEnd := 0, patternBraceEnd := 0, span := .nowhere }

def ArgumentKind.unplaced : ArgumentKind → ArgumentKind
  | .function arrow params => .function arrow params.unplaced
  | kind => kind

def Argument.unplaced (a : Argument) : Argument := ⟨a.kind.unplaced, .nowhere⟩

def Call.unplaced (c : Call) : Call :=
  { c with
    arguments := c.arguments.map Argument.unplaced
    span := .nowhere
    calleeSpan := .nowhere }

def Element.unplaced (e : Element) : Element :=
  { e with span := .nowhere, nameSpan := .nowhere, insertAt := 0 }

namespace Outline

def unplaced (o : Outline) : Outline :=
  ⟨o.imports.map Import.unplaced, o.exports.map Export.unplaced,
   o.declarations.map Declaration.unplaced, o.calls.map Call.unplaced,
   o.elements.map Element.unplaced⟩

@[simp]
theorem unplaced_append (a b : Outline) : (a ++ b).unplaced = a.unplaced ++ b.unplaced := by
  simp [unplaced, append_def]

end Outline

end JsxPresence
