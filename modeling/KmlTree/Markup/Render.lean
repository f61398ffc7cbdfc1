import KmlTree.Markup.Writer
import KmlTree.Tree.Walk

/-!
# Elements as text

The one text that is written for an element. Declared attributes come in the order of the schema and
all others after them; known children come in the order of their places and unknown content after
them. So the text does not depend on the order in which a tree was built.
-/
namespace KmlTree.Markup

structure RenderOptions where
  /-- Whether each element stands on a line of its own, indented by its level. -/
  pretty : Bool := false
  /-- The number of spaces for each level of indentation. -/
  indent : Nat := 2
  declaration : Bool := false
  deriving DecidableEq, Repr, Inhabited

def RenderOptions.writer (options : RenderOptions) : Writer :=
  { indent? := if options.pretty then some options.indent else none }

namespace Writer

/-- Writes the text of an element or field: as a literal section where references would be needed
and a section can hold it, and as plain text otherwise. -/
def writeContent (w : Writer) (text : String) : Except WriteError Writer :=
  if text.isEmpty then .ok w
  else if text.toList.any (fun c => c == '<' || c == '&') && !hasLiteralEnd text.toList then
    w.writeLiteral text
  else w.writeText text

def writeAttributes (w : Writer) : List (String × String) → Except WriteError Writer
  | [] => .ok w
  | (name, value) :: rest => do (← w.writeAttribute name value).writeAttributes rest

end Writer

end KmlTree.Markup

namespace KmlTree

open Markup

/-- The attributes of an element in the order in which they are written. -/
def Element.writtenAttributes (e : Element) : List (String × String) :=
  (e.kind.attributes.filterMap fun a => (e.attribute? a).map (a.key, ·)) ++
    e.otherAttributes.entries

def Markup.renderer : Visitor (StateT Writer (Except WriteError)) where
  order := .schema
  element _ e := fun w => do
    let w ← (w.start e.name).writeAttributes e.writtenAttributes
    return (.descend, ← w.writeContent e.text)
  leave _ _ := fun w => do return ((), ← w.endElement)
  field _ f := fun w => do
    let w ← (w.start f.kind.tag).writeContent f.text
    return (.descend, ← w.endElement)

/-- The text of an element and all below it. -/
def Element.render (root : Element) (options : RenderOptions) : Except WriteError String := do
  let w ←
    if options.declaration then options.writer.writeDeclaration else .ok options.writer
  let (_, w) ← (renderer.walk root).run w
  return w.finish

end KmlTree
