import KmlTree.Tree.Edit

/-!
# Changes of an element in place

An element that is changed piece by piece, as its callers do it: each change looks at the element as it
stands, and what it did before it broke off stays done. Main statement: a change comes to what the
plain functions of the element give, and one that is refused has done nothing yet.
-/
namespace KmlTree

inductive Refusal
  | child (rejected : Rejected)
  | field (error : FieldError)
  deriving DecidableEq

/-- A change of an element in place. What it did to the element before it failed stays done. -/
abbrev Change (α : Type) := ExceptT Refusal (StateM Element) α

inductive Edit : Type 1
  | setAttribute (name value : String)
  | eraseAttribute (name : String)
  | setText (text : String)
  | appendText (text : String)
  | addChild (child : Element)
  | addUnknown (child : Element)
  | setFieldText (kind : Kind) (text : String)
  | setField {α : Type} [FieldValue α] (kind : Kind) (value : α)
  | clearField (kind : Kind)

namespace Edit

/-- Puts a child in its place: over the one that is there, if there is room for one only, and behind
all others else. -/
def place (repeats : Bool) (child : Child) : Change Unit := do
  if !repeats then
    if let some i := (← get).children.findIdx? fun c => c.slot == child.slot then
      modify fun e => { e with children := e.children.set i child }
      return
  modify fun e => { e with children := e.children ++ [child] }

def attach (child : Element) : Change Unit := do
  let kind := (← get).kind
  if kind = .unknown ∨ child.kind = .unknown then
    modify fun e => { e with unknown := e.unknown ++ [child] }
    return
  match kind.slotFor? child.kind with
  | none => throw (.child ⟨kind, child⟩)
  | some (position, slot) => place slot.repeats (child.toChild position)

def fieldSlot (field : Kind) : Change (Nat × Slot × ValueType) := do
  let some type := field.valueType? | throw (.field (.notAField field))
  let kind := (← get).kind
  let some (position, slot) := kind.slotFor? field | throw (.field (.notPermitted kind field))
  return (position, slot, type)

def run : Edit → Change Unit
  | .setAttribute name value => do
    match (← get).kind.attribute? name with
    | some a => modify fun e => { e with attributes := e.attributes.insert a value }
    | none => modify fun e => { e with otherAttributes := e.otherAttributes.insert name value }
  | .eraseAttribute name => do
    match (← get).kind.attribute? name with
    | some a => modify fun e => { e with attributes := e.attributes.erase a }
    | none => modify fun e => { e with otherAttributes := e.otherAttributes.erase name }
  | .setText text => modify ({ · with text })
  | .appendText text => modify fun e => { e with text := e.text ++ text }
  | .addChild child => attach child
  | .addUnknown child => modify fun e => { e with unknown := e.unknown ++ [child] }
  | .setFieldText kind text => do
    let (position, slot, _) ← fieldSlot kind
    place slot.repeats (.field position ⟨kind, text⟩)
  | @setField α _ kind value => do
    let (position, slot, expected) ← fieldSlot kind
    unless FieldValue.accepts α expected do
      throw (.field (.typeMismatch kind expected))
    place slot.repeats (.field position ⟨kind, FieldValue.write value⟩)
  | .clearField kind => modify fun e =>
    { e with children := e.children.filter fun c => !(c.field?.any fun f => f.kind == kind) }

/-- The function of the element that a change stands for. -/
def apply (e : Element) : Edit → Except Refusal Element
  | .setAttribute name value => .ok (e.setAttribute name value)
  | .eraseAttribute name => .ok (e.eraseAttribute name)
  | .setText text => .ok { e with text }
  | .appendText text => .ok (e.appendText text)
  | .addChild child => (e.addChild child).mapError .child
  | .addUnknown child => .ok (e.addUnknown child)
  | .setFieldText kind text => (e.setFieldText kind text).mapError .field
  | @setField _ _ kind value => (e.setField kind value).mapError .field
  | .clearField kind => .ok (e.clearField kind)

/-- The elements that become part of the changed one. -/
def parts : Edit → List Element
  | .addChild child | .addUnknown child => [child]
  | _ => []

variable (e : Element)

theorem run_get_bind {α : Type} (f : Element → Change α) : (get >>= f).run e = (f e).run e := rfl

theorem run_bind {α β : Type} (x : Change α) (f : α → Change β) :
    (x >>= f).run e = match x.run e with
      | (.ok a, e') => (f a).run e'
      | (.error refusal, e') => (.error refusal, e') := by
  have hbind : (x >>= f).run e = ((ExceptT.bindCont f (x.run e).1).run (x.run e).2) := rfl
  rw [hbind]
  rcases x.run e with ⟨_ | _, _⟩ <;> rfl

theorem run_place (repeats : Bool) (child : Child) :
    (place repeats child).run e = (.ok (), (e.place repeats child).parent) := by
  cases repeats with
  | true => rfl
  | false =>
    unfold place Element.place
    simp only [Bool.not_false, if_true, run_get_bind]
    cases e.children.findIdx? fun c => c.slot == child.slot <;> rfl

theorem run_fieldSlot (field : Kind) :
    (fieldSlot field).run e = ((e.fieldSlot field).mapError .field, e) := by
  unfold fieldSlot Element.fieldSlot
  cases field.valueType? with
  | none => rfl
  | some type =>
    simp only [run_get_bind]
    cases e.kind.slotFor? field <;> rfl

theorem run_attach (child : Element) : (attach child).run e = match e.addChild child with
    | .ok e' => (.ok (), e')
    | .error rejected => (.error (.child rejected), e) := by
  unfold attach Element.addChild Element.attach
  rw [run_get_bind]
  dsimp only
  by_cases hunknown : e.kind = .unknown ∨ child.kind = .unknown
  · rw [if_pos hunknown, if_pos hunknown]
    rfl
  · rw [if_neg hunknown, if_neg hunknown]
    cases e.kind.slotFor? child.kind with
    | none => rfl
    | some found => exact run_place ..

/-- The steps of a change come to what its function gives, and a change breaks off before its first
step that does something. -/
theorem run_eq (edit : Edit) : edit.run.run e = match edit.apply e with
    | .ok e' => (.ok (), e')
    | .error refusal => (.error refusal, e) := by
  cases edit with
  | setAttribute name value =>
    rw [run, apply, Element.setAttribute, run_get_bind]
    cases e.kind.attribute? name <;> rfl
  | eraseAttribute name =>
    rw [run, apply, Element.eraseAttribute, run_get_bind]
    cases e.kind.attribute? name <;> rfl
  | setText text => rfl
  | appendText text => rfl
  | addChild child =>
    rw [run, run_attach, apply]
    cases e.addChild child <;> rfl
  | addUnknown child => rfl
  | setFieldText kind text =>
    rw [run, run_bind, run_fieldSlot, apply, Element.setFieldText]
    cases e.fieldSlot kind with
    | error error => rfl
    | ok found => exact run_place ..
  | @setField α _ kind value =>
    rw [run, run_bind, run_fieldSlot, apply, Element.setField]
    cases e.fieldSlot kind with
    | error error => rfl
    | ok found =>
      obtain ⟨position, slot, expected⟩ := found
      dsimp only [Except.mapError]
      cases haccepts : FieldValue.accepts α expected with
      | true => exact run_place ..
      | false => rfl
  | clearField kind => rfl

variable {e} {e' : Element} {edit : Edit} {refusal : Refusal}

theorem run_of_apply (h : edit.apply e = .ok e') : edit.run.run e = (.ok (), e') := by
  rw [run_eq, h]

/-- A change that is refused leaves the element as it was. -/
theorem of_refused (h : edit.run.run e = (.error refusal, e')) :
    edit.apply e = .error refusal ∧ e' = e := by
  rw [run_eq] at h
  cases happly : edit.apply e <;> rw [happly] at h <;> cases h
  exact ⟨rfl, rfl⟩

end Edit

end KmlTree
