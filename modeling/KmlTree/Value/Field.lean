import KmlTree.Number.Numeral
import KmlTree.Schema.Content
import KmlTree.Value.Color
import KmlTree.Value.Keyword

/-!
# Typed values of fields

A field is kept as text, so that whatever a document says is written back as it was. Values of a
type are read from that text and written as such text.
-/
namespace KmlTree

/-- A type of values that fields hold. -/
class FieldValue (α : Type) where
  /-- The type that a field must be declared with to hold these values. -/
  type : ValueType
  accepts : ValueType → Bool := fun declared => declared == type
  read? : String → Option α
  write : α → String

namespace FieldValue

open Text

/-- A text is a value as it stands, and every field can hold one. -/
instance : FieldValue String where
  type := .text
  accepts _ := true
  read? := some
  write := id

def readBool? (s : String) : Option Bool :=
  let word := trim s
  if word = "1" ∨ word = "true" then some true
  else if word = "0" ∨ word = "false" then some false
  else none

instance : FieldValue Bool where
  type := .boolean
  read? := readBool?
  write b := if b then "1" else "0"

instance : FieldValue Float where
  type := .double
  read? s := Number.readFloat? (trimChars s.toList)
  write := Number.writeFloat

instance : FieldValue Int64 where
  type := .integer
  read? s := Number.readInt64? (trimChars s.toList)
  write := Number.writeInt64

instance : FieldValue Color where
  type := .color
  read? := Color.read?
  write := Color.write

instance (v : Vocabulary) : FieldValue (Keyword v) where
  type := .keyword v
  read? := Keyword.read? v
  write k := k.word

end FieldValue

def ValueType.isValid : ValueType → String → Bool
  | .text, _ => true
  | .boolean, s => (FieldValue.read? s : Option Bool).isSome
  | .double, s => (FieldValue.read? s : Option Float).isSome
  | .integer, s => (FieldValue.read? s : Option Int64).isSome
  | .color, s => (FieldValue.read? s : Option Color).isSome
  | .keyword v, s => (FieldValue.read? s : Option (Keyword v)).isSome

end KmlTree
