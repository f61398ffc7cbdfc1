import KmlTree.Schema.Basic
import KmlTree.Tree.AttributeMap

/-!
# Elements

A document is a tree of elements. The children that the schema has a place for are kept as fields or
elements, each with the position of its place. Everything else is kept as unknown content, so that
it is written back as it was read.
-/
namespace KmlTree

/-- A field of an element: a kind that holds a single value, and the text of the value. -/
structure Field where
  kind : Kind
  text : String
  deriving DecidableEq, Repr, Inhabited

/-- What an element is apart from its children. -/
structure Head where
  kind : Kind
  /-- The name in the document, kept where the kind does not tell it. -/
  writtenName? : Option String := none
  attributes : AttributeMap Attribute := ∅
  otherAttributes : AttributeMap String := ∅
  text : String := ""
  deriving DecidableEq, Repr, Inhabited

mutual

/-- A node of a document. -/
structure Element extends Head where
  /-- The children that the schema has a place for, in the order in which they were added. -/
  children : List Child := []
  unknown : List Element := []

/-- A child together with the position of its place among the places of its parent. -/
inductive Child
  /-- A field, of which the text is all that is kept. -/
  | field (slot : Nat) (field : Field)
  | element (slot : Nat) (element : Element)

end

instance : Inhabited Element := ⟨{ kind := .unknown }⟩

instance : Inhabited Child := ⟨.field 0 default⟩

namespace Child

/-- The position of the child's place among the places of its parent. -/
def slot : Child → Nat
  | .field slot _ | .element slot _ => slot

def kind : Child → Kind
  | .field _ f => f.kind
  | .element _ e => e.kind

def field? : Child → Option Field
  | .field _ f => some f
  | .element .. => none

def element? : Child → Option Element
  | .field .. => none
  | .element _ e => some e

end Child

namespace Element

/-- The element of a kind that holds nothing. -/
def ofKind (kind : Kind) : Element := { kind }

/-- The element with a name that the schema does not know. -/
def unnamed (name : String) : Element := { kind := .unknown, writtenName? := some name }

def ofName (name : String) : Element :=
  match Kind.ofTag name with
  | .unknown => unnamed name
  | kind => ofKind kind

def name (e : Element) : String := e.writtenName?.getD e.kind.tag

/-- Whether the element's kind is the given one or extends it. -/
def isA (e : Element) (kind : Kind) : Bool := e.kind.isA kind

/-- The value of an attribute that some kind declares. -/
def attribute? (e : Element) (a : Attribute) : Option String :=
  e.attributes.get? a

def attributeNamed? (e : Element) (name : String) : Option String :=
  match e.kind.attribute? name with
  | some a => e.attributes.get? a
  | none => e.otherAttributes.get? name

def setAttribute (e : Element) (name value : String) : Element :=
  match e.kind.attribute? name with
  | some a => { e with attributes := e.attributes.insert a value }
  | none => { e with otherAttributes := e.otherAttributes.insert name value }

def eraseAttribute (e : Element) (name : String) : Element :=
  match e.kind.attribute? name with
  | some a => { e with attributes := e.attributes.erase a }
  | none => { e with otherAttributes := e.otherAttributes.erase name }

/-- The value of the attribute with a name, and the element without the attribute. -/
def removeAttribute (e : Element) (name : String) : Option String × Element :=
  match e.kind.attribute? name with
  | some a =>
    let (value?, attributes) := e.attributes.remove a
    (value?, { e with attributes })
  | none =>
    let (value?, otherAttributes) := e.otherAttributes.remove name
    (value?, { e with otherAttributes })

/-- The identifier of an object. Other elements have none, whatever their attributes say. -/
def objectId? (e : Element) : Option String :=
  if e.isA .object then e.attribute? .id else none

def appendText (e : Element) (text : String) : Element := { e with text := e.text ++ text }

def elements (e : Element) : List Element := e.children.filterMap Child.element?

def fields (e : Element) : List Field := e.children.filterMap Child.field?

/-- The elements among the children that are of a kind or group. -/
def childrenOf (e : Element) (kind : Kind) : List Element := e.elements.filter fun c => c.isA kind

/-- The first element among the children that is of a kind or group. -/
def find? (e : Element) (kind : Kind) : Option Element := e.elements.find? fun c => c.isA kind

def fieldText? (e : Element) (kind : Kind) : Option String :=
  (e.fields.find? fun f => f.kind == kind).map Field.text

/-- Whether the element has a field, whatever its text. -/
def hasField (e : Element) (kind : Kind) : Bool := (e.fieldText? kind).isSome

end Element

/-! ## Equality

Two elements are equal when all their parts are, the stored order of children included. -/

mutual

def Element.beq : Element → Element → Bool
  | ⟨h, cs, us⟩, ⟨h', cs', us'⟩ =>
    h = h' && Element.beqChildren cs cs' && Element.beqUnknown us us'

def Child.beq : Child → Child → Bool
  | .field s f, .field s' f' => s = s' && f = f'
  | .element s e, .element s' e' => s = s' && e.beq e'
  | .field .., .element .. | .element .., .field .. => false

def Element.beqChildren : List Child → List Child → Bool
  | [], [] => true
  | c :: cs, c' :: cs' => c.beq c' && Element.beqChildren cs cs'
  | [], _ :: _ | _ :: _, [] => false

def Element.beqUnknown : List Element → List Element → Bool
  | [], [] => true
  | e :: es, e' :: es' => e.beq e' && Element.beqUnknown es es'
  | [], _ :: _ | _ :: _, [] => false

end

mutual

theorem Element.beq_iff : ∀ e e' : Element, e.beq e' = true ↔ e = e'
  | ⟨h, cs, us⟩, ⟨h', cs', us'⟩ => by
    simp [Element.beq, Element.beqChildren_iff cs cs', Element.beqUnknown_iff us us', and_assoc]

theorem Child.beq_iff : ∀ c c' : Child, c.beq c' = true ↔ c = c'
  | .field _ _, .field _ _ => by simp [Child.beq]
  | .element _ e, .element _ e' => by simp [Child.beq, Element.beq_iff e e']
  | .field .., .element .. => by simp [Child.beq]
  | .element .., .field .. => by simp [Child.beq]

theorem Element.beqChildren_iff :
    ∀ cs cs' : List Child, Element.beqChildren cs cs' = true ↔ cs = cs'
  | [], [] => by simp [Element.beqChildren]
  | c :: cs, c' :: cs' => by
    simp [Element.beqChildren, Child.beq_iff c c', Element.beqChildren_iff cs cs']
  | [], _ :: _ => by simp [Element.beqChildren]
  | _ :: _, [] => by simp [Element.beqChildren]

theorem Element.beqUnknown_iff :
    ∀ es es' : List Element, Element.beqUnknown es es' = true ↔ es = es'
  | [], [] => by simp [Element.beqUnknown]
  | e :: es, e' :: es' => by
    simp [Element.beqUnknown, Element.beq_iff e e', Element.beqUnknown_iff es es']
  | [], _ :: _ => by simp [Element.beqUnknown]
  | _ :: _, [] => by simp [Element.beqUnknown]

end

instance : DecidableEq Element := fun e e' => decidable_of_iff _ (Element.beq_iff e e')

instance : DecidableEq Child := fun c c' => decidable_of_iff _ (Child.beq_iff c c')

end KmlTree
