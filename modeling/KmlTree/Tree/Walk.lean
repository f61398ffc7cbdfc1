import KmlTree.Tree.Flow
import KmlTree.Tree.SlotOrder

/-!
# Walking a tree

A visitor is called for every element and field of a tree, parents before children, and says for
each element how the walk goes on. The order of the children is the stored one or that of their
places; unknown content follows in either case. The effects of a visitor are those of any monad, so
a walk may build a text, collect elements or fail.
-/
namespace KmlTree

/-- The order in which known children are walked. -/
inductive Order
  | document
  | schema
  deriving DecidableEq, Repr, Inhabited

/-- Visits with the places of the visited children, in the order of the walk. -/
def Order.arrange {α : Type} (order : Order) (visits : List (Nat × α)) : List α :=
  match order with
  | .document => visits.map Prod.snd
  | .schema => (sortByKey Prod.fst visits).map Prod.snd

/-- Where a node stands in the tree. -/
structure Context where
  depth : Nat := 0
  /-- The positions of the node and the elements around it, from the root on. A position counts the
  stored children, or the unknown ones if the node is one of these. -/
  path : List Nat := []
  withinUnknown : Bool := false
  deriving DecidableEq, Repr, Inhabited

namespace Context

def child (context : Context) (i : Nat) : Context :=
  { context with depth := context.depth + 1, path := context.path ++ [i] }

def unknownChild (context : Context) (i : Nat) : Context :=
  { context.child i with withinUnknown := true }

end Context

/-- What to do at the nodes of a tree. -/
structure Visitor (m : Type → Type) where
  order : Order := .document
  element : Context → Element → m Flow
  /-- The call for an element that was not rejected, after its children. -/
  leave : Context → Element → m Unit
  /-- The call for a field. Of its answers only `stop` has an effect. -/
  field : Context → Field → m Flow

namespace Visitor

variable {m : Type → Type} [Monad m]

/-- Visits in their order, up to and including the first that stops the walk. The answer tells
whether one did. -/
def inTurn : List (m Bool) → m Bool
  | [] => pure false
  | visit :: rest => do
    if ← visit then pure true else inTurn rest

def visitField (v : Visitor m) (context : Context) (f : Field) : m Bool := do
  return (← v.field context f) == .stop

mutual

/-- The visit of an element and all below it. The answer tells whether the walk was stopped. -/
def visit (v : Visitor m) (context : Context) : Element → m Bool
  | e@⟨_, children, unknown⟩ => do
    match ← v.element context e with
    | .stop => pure true
    | .reject => pure false
    | .skipChildren =>
      v.leave context e
      pure false
    | .descend =>
      let known := v.order.arrange (v.visitChildren context 0 children)
      if ← inTurn (known ++ v.visitUnknown context 0 unknown) then pure true
      else
        v.leave context e
        pure false

/-- The visits of known children, the first of them at a position, with their places. -/
def visitChildren (v : Visitor m) (context : Context) (i : Nat) : List Child → List (Nat × m Bool)
  | [] => []
  | .field slot f :: rest =>
    (slot, v.visitField (context.child i) f) :: v.visitChildren context (i + 1) rest
  | .element slot e :: rest =>
    (slot, v.visit (context.child i) e) :: v.visitChildren context (i + 1) rest

def visitUnknown (v : Visitor m) (context : Context) (i : Nat) : List Element → List (m Bool)
  | [] => []
  | e :: rest => v.visit (context.unknownChild i) e :: v.visitUnknown context (i + 1) rest

end

def walk (v : Visitor m) (root : Element) : m Bool := v.visit {} root

end Visitor

end KmlTree
