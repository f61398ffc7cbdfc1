import KmlTree.Text.Quoted
import KmlTree.Tree.Element
import KmlTree.Value.Field

/-!
# Changing elements

Children are added where the schema has a place for them, and fields are set to values of the types
that the schema declares for them. What the schema forbids is refused with a reason, and the element
stays as it was.
-/
namespace KmlTree

structure Rejected where
  parent : Kind
  child : Element
  deriving DecidableEq

def Rejected.message (r : Rejected) : String :=
  s!"`<{r.child.name}>` is not permitted within `<{r.parent.tag}>`"

inductive FieldError
  | notAField (kind : Kind)
  | notPermitted (parent field : Kind)
  | typeMismatch (field : Kind) (expected : ValueType)
  deriving DecidableEq, Repr

def ValueType.describe : ValueType → String
  | .text => "String"
  | .boolean => "Bool"
  | .double => "Double"
  | .integer => "Int"
  | .color => "Color"
  | .keyword v => "Enum([" ++ ", ".intercalate (v.words.map Text.quoted) ++ "])"

def FieldError.message : FieldError → String
  | .notAField kind => s!"`<{kind.tag}>` is not a simple field"
  | .notPermitted parent field => s!"`<{field.tag}>` is not a field of `<{parent.tag}>`"
  | .typeMismatch field expected =>
    s!"`<{field.tag}>` holds a value of type {expected.describe}"

/-- What became of a child that an element took in. -/
structure Attached where
  parent : Element
  index? : Option Nat
  replaced? : Option Child

namespace Element

/-- The element with a child in its place: instead of the child that is there, if there is room for
one only, and after all other children otherwise. -/
def place (e : Element) (repeats : Bool) (child : Child) : Attached :=
  let occupied? := e.children.findIdx? fun c => c.slot == child.slot
  match if repeats then none else occupied? with
  | some i => ⟨{ e with children := e.children.set i child }, some i, e.children[i]?⟩
  | none => ⟨{ e with children := e.children ++ [child] }, some e.children.length, none⟩

/-- The element with a child added to its unknown content, whatever the schema says. -/
def addUnknown (e child : Element) : Element := { e with unknown := e.unknown ++ [child] }

/-- A child as a parent keeps it: of a field nothing but the text. -/
def toChild (slot : Nat) (e : Element) : Child :=
  if e.kind.isSimple then .field slot ⟨e.kind, e.text⟩ else .element slot e

/-- The element with a child taken in. A child that the schema does not know, and any child of such
an element, becomes unknown content. -/
def attach (e child : Element) : Except Rejected Attached :=
  if e.kind = .unknown ∨ child.kind = .unknown then .ok ⟨e.addUnknown child, none, none⟩
  else
    match e.kind.slotFor? child.kind with
    | none => .error ⟨e.kind, child⟩
    | some (position, slot) => .ok (e.place slot.repeats (child.toChild position))

def addChild (e child : Element) : Except Rejected Element :=
  (e.attach child).map Attached.parent

/-- The place for a field and the type of its values, if the element's kind has one. -/
def fieldSlot (e : Element) (kind : Kind) : Except FieldError (Nat × Slot × ValueType) :=
  match kind.valueType? with
  | none => .error (.notAField kind)
  | some type =>
    match e.kind.slotFor? kind with
    | none => .error (.notPermitted e.kind kind)
    | some (position, slot) => .ok (position, slot, type)

/-- The element with a field set to a text, which need not be a value of the field's type. -/
def setFieldText (e : Element) (kind : Kind) (text : String) : Except FieldError Element :=
  match e.fieldSlot kind with
  | .error error => .error error
  | .ok (position, slot, _) => .ok (e.place slot.repeats (.field position ⟨kind, text⟩)).parent

/-- The element with a field set to a value, which must be of a type that the field holds. -/
def setField {α : Type} [FieldValue α] (e : Element) (kind : Kind) (value : α) :
    Except FieldError Element :=
  match e.fieldSlot kind with
  | .error error => .error error
  | .ok (position, slot, expected) =>
    if FieldValue.accepts α expected then
      .ok (e.place slot.repeats (.field position ⟨kind, FieldValue.write value⟩)).parent
    else .error (.typeMismatch kind expected)

/-- The value of a field, if the field is present and its text stands for one. -/
def field? (α : Type) [FieldValue α] (e : Element) (kind : Kind) : Option α :=
  (e.fieldText? kind).bind FieldValue.read?

def clearField (e : Element) (kind : Kind) : Element :=
  { e with children := e.children.filter fun c => !(c.field?.any fun f => f.kind == kind) }

/-- Whether a child went when a field was removed, and the element without the field. -/
def removeField (e : Element) (kind : Kind) : Bool × Element :=
  let cleared := e.clearField kind
  (cleared.children.length != e.children.length, cleared)

end Element

end KmlTree
