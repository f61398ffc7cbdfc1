import KmlTree.Tree.Edit

/-!
# Views of elements

A view is an element together with the fact that it belongs to a group, and gives access to what the
elements of that group hold: the features of a container, the style selectors of a feature, the
pairs of a style map.
-/
namespace KmlTree

/-- An element that belongs to a group. -/
structure View (group : Kind) where
  element : Element
  isA : element.isA group = true

/-- The element as a member of a group, if it belongs to it. -/
def Element.view? (e : Element) (group : Kind) : Option (View group) :=
  if h : e.isA group = true then some ⟨e, h⟩ else none

section View

variable {e : Element} {group : Kind} {view : View group}

theorem Element.element_of_view? (h : e.view? group = some view) : view.element = e := by
  unfold view? at h
  split at h <;> cases h
  rfl

theorem Element.isA_of_view? (h : e.view? group = some view) : e.isA group = true :=
  element_of_view? h ▸ view.isA

theorem Element.isA_eq_false_of_view? (h : e.view? group = none) : e.isA group = false := by
  simpa [view?] using h

end View

/-- The elements among the children that belong to a group. -/
def Element.viewsOf (e : Element) (group : Kind) : List (View group) :=
  e.elements.filterMap (·.view? group)

abbrev Object := View .object

/-- An element that is shown to the user. -/
abbrev Feature := View .feature

abbrev Container := View .container

abbrev Geometry := View .geometry

abbrev Style := View .style

/-- Alternative style selectors, keyed by the state of a feature. -/
abbrev StyleMap := View .styleMap

/-- One alternative of a style map. -/
abbrev Pair := View .pair

/-- Either a bundle of sub-styles or alternatives to choose from. -/
inductive StyleSelector
  | style (element : Element)
  | styleMap (element : Element)
  deriving DecidableEq

namespace StyleSelector

/-- A member of the group of style selectors, told apart by its kind. -/
def ofView (view : View .styleSelector) : StyleSelector :=
  if view.element.kind = .styleMap then .styleMap view.element else .style view.element

def element : StyleSelector → Element
  | .style e | .styleMap e => e

@[simp] theorem element_ofView (view : View .styleSelector) :
    (ofView view).element = view.element := by
  unfold ofView
  split <;> rfl

end StyleSelector

namespace Element

def styleUrl? (e : Element) : Option String := e.fieldText? .styleUrl

/-- The style selectors that an element holds itself. -/
def styleSelectors (e : Element) : List StyleSelector :=
  (e.viewsOf .styleSelector).map StyleSelector.ofView

def pairs (e : Element) : List Pair := e.viewsOf .pair

def pairFor? (e : Element) (state : StyleState) : Option Pair :=
  e.pairs.find? fun pair => pair.element.field? StyleState .key = some state

end Element

namespace Object

def id? (view : Object) : Option String := view.element.objectId?

/-- The identifier of the object that this one updates. -/
def targetId? (view : Object) : Option String := view.element.attribute? .targetId

end Object

namespace Feature

def name? (view : Feature) : Option String := view.element.fieldText? .name

def visibility? (view : Feature) : Option Bool := view.element.field? Bool .visibility

def styleUrl? (view : Feature) : Option String := view.element.styleUrl?

def styleSelectors (view : Feature) : List StyleSelector := view.element.styleSelectors

end Feature

namespace Container

def features (view : Container) : List Feature := view.element.viewsOf .feature

end Container

/-- The kinds of sub-styles that a style bundles, in the order in which they are written. -/
def subStyleKinds : List Kind :=
  [.iconStyle, .labelStyle, .lineStyle, .polyStyle, .balloonStyle, .listStyle]

namespace Style

def subStyle? (view : Style) (kind : Kind) : Option Element := view.element.find? kind

def subStyles (view : Style) : List Element := view.element.childrenOf .subStyle

end Style

namespace StyleMap

def pairs (view : StyleMap) : List Pair := view.element.pairs

def pairFor? (view : StyleMap) (state : StyleState) : Option Pair := view.element.pairFor? state

end StyleMap

namespace Pair

/-- The state that the pair applies to. -/
def key? (view : Pair) : Option StyleState := view.element.field? StyleState .key

def styleUrl? (view : Pair) : Option String := view.element.styleUrl?

def styleSelector? (view : Pair) : Option StyleSelector := view.element.styleSelectors.head?

end Pair

end KmlTree
