/-!
# How to go on

The answers with which a reader of a tree, or of a document that is still being read, decides what
becomes of an element.
-/
namespace KmlTree

/-- How to go on after an element. -/
inductive Flow
  | descend
  | skipChildren
  /-- As if it was not there. -/
  | reject
  | stop
  deriving DecidableEq, Repr, Inhabited

end KmlTree
