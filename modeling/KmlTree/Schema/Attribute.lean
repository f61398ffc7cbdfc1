/-!
# Attributes

The attributes that some kind of element declares. All others, namespace declarations among them,
are kept with an element by their names alone.
-/
namespace KmlTree

inductive Attribute
  | id | targetId | name | type | schemaUrl | hint | maxLines | x | y | xunits | yunits
  deriving DecidableEq, Repr, Inhabited

namespace Attribute

def all : List Attribute :=
  [.id, .targetId, .name, .type, .schemaUrl, .hint, .maxLines, .x, .y, .xunits, .yunits]

def key : Attribute → String
  | .id => "id"
  | .targetId => "targetId"
  | .name => "name"
  | .type => "type"
  | .schemaUrl => "schemaUrl"
  | .hint => "hint"
  | .maxLines => "maxLines"
  | .x => "x"
  | .y => "y"
  | .xunits => "xunits"
  | .yunits => "yunits"

def ofKey? (key : String) : Option Attribute :=
  all.find? fun a => a.key == key

theorem mem_all (a : Attribute) : a ∈ all := by
  cases a <;> simp [all]

@[simp] theorem ofKey?_key (a : Attribute) : ofKey? a.key = some a := by
  cases a <;> rfl

theorem key_of_ofKey? {key : String} {a : Attribute} (h : ofKey? key = some a) : a.key = key := by
  simpa using List.find?_some h

end Attribute

end KmlTree
