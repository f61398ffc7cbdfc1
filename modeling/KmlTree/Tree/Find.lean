import KmlTree.Tree.Walk

/-!
# Finding elements

The elements of a kind or group in a tree, in document order. Unknown content is not searched, and a
search with a limit ends with the element that reaches it.
-/
namespace KmlTree

namespace Element

/-- The visitor that collects the elements of a kind, the latest first. -/
def finder (kind : Kind) (limit? : Option Nat) : Visitor (StateM (List Element)) where
  element context e := do
    if context.withinUnknown then return .reject
    if e.isA kind then
      modify (e :: ·)
      if (← get).length == limit? then return .stop
    return .descend
  leave _ _ := pure ()
  field _ _ := pure .descend

/-- The elements of a kind or group, the element itself among them, up to a limit. -/
def findAll (root : Element) (kind : Kind) (limit? : Option Nat) : List Element :=
  if limit? = some 0 then []
  else (((finder kind limit?).walk root).run []).2.reverse

end Element

end KmlTree
