import KmlTree.Schema.Vocabulary

/-!
# Contents of elements

What an element of a kind may contain, and the types of the values that fields hold.
-/
namespace KmlTree

inductive ValueType
  | text
  | boolean
  | double
  | integer
  | color
  | keyword (vocabulary : Vocabulary)
  deriving DecidableEq, Repr, Inhabited

/-- What an element may contain. -/
inductive Content
  /-- The kind is a group, which no document holds an element of. -/
  | abstract
  /-- Other elements; text is dropped. -/
  | complex
  /-- Text and no elements. -/
  | text
  /-- A value; the element is a field of its parent. -/
  | simple (type : ValueType)
  deriving DecidableEq, Repr, Inhabited

end KmlTree
