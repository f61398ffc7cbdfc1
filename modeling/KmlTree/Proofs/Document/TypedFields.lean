import KmlTree.Proofs.Document.Obtained
import KmlTree.Proofs.Reading.Nested
import KmlTree.Proofs.Value.ReadBack

/-!
# Fields with values

A field is set in the place that the schema has for it and found again by its kind. The two agree in
every element that can be obtained, since no place for a field takes anything else. Main statement:
what is set is what is read, nothing else changes, and only the last value that was set counts.
-/
namespace KmlTree

open Text

/-! ## Places for fields -/

namespace Kind

theorem eq_of_isA_of_isSimple {k f a : Kind} (hf : f.isSimple = true) (hfa : f.isA a = true)
    (hka : k.isA a = true) : k = f := by
  have hfield := of_all (p := fun f => !f.isSimple || f.ancestry == [f]) (by decide +kernel) f
  have hkind := of_all (p := fun k => k.ancestry.all fun a => !a.isSimple || a == k)
    (by decide +kernel) k
  have hself : f.ancestry = [f] := by simpa [hf] using hfield
  obtain rfl : a = f := List.mem_singleton.1 (hself ▸ isA_iff.1 hfa)
  have hmem := List.all_eq_true.1 hkind a (isA_iff.1 hka)
  rw [hf, Bool.not_true, Bool.false_or] at hmem
  exact (beq_iff_eq.1 hmem).symm

theorem getElem?_of_slotFor? {parent child : Kind} {position : Nat} {slot : Slot}
    (h : parent.slotFor? child = some (position, slot)) :
    parent.slots[position]? = some slot ∧ child.isA slot.target = true := by
  obtain ⟨entry, hfind, heq⟩ := Option.map_eq_some_iff.1 h
  cases heq
  have haccepts := List.find?_some hfind
  simp only [Slot.accepts, Bool.and_eq_true] at haccepts
  exact ⟨List.mk_mem_zipIdx_iff_getElem?.1 (List.mem_of_find?_eq_some hfind), haccepts.2⟩

theorem eq_of_slotFor?_of_isSimple {parent f k : Kind} {position : Nat} {slot slot' : Slot}
    (hf : f.isSimple = true) (hslot : parent.slotFor? f = some (position, slot))
    (hslot' : parent.slotFor? k = some (position, slot')) : k = f := by
  obtain ⟨hget, hfa⟩ := getElem?_of_slotFor? hslot
  obtain ⟨hget', hka⟩ := getElem?_of_slotFor? hslot'
  rw [hget] at hget'
  cases hget'
  exact eq_of_isA_of_isSimple hf hfa hka

end Kind

def Child.isField (f : Kind) (c : Child) : Bool := c.field?.any fun field => field.kind == f

theorem Child.isField_iff {c : Child} {f : Kind} :
    c.isField f = true ↔ ∃ position text, c = .field position ⟨f, text⟩ := by
  cases c with
  | field position field =>
    obtain ⟨k, text⟩ := field
    simp [isField, field?]
  | element position e => simp [isField, field?]

/-! ## One child in the place of another -/

section PutChild

variable {child child' : Child} {cs : List Child}

theorem putChild_putChild (h : child.slot = child'.slot) :
    putChild child' (putChild child cs) = putChild child' cs := by
  induction cs with
  | nil => simp [putChild, h]
  | cons c rest ih =>
    by_cases hc : c.slot = child'.slot
    · simp [putChild, h, hc]
    · simp [putChild, h, hc, ih]

variable {f : Kind} (hchild : child.isField f = true)
  (hplace : ∀ c ∈ cs, c.slot = child.slot ↔ c.isField f = true)

include hchild hplace

theorem find?_putChild : (putChild child cs).find? (Child.isField f) = some child := by
  induction cs with
  | nil => simp [putChild, hchild]
  | cons c rest ih =>
    obtain ⟨hc, hrest⟩ := List.forall_mem_cons.1 hplace
    rw [putChild]
    split
    · exact List.find?_cons_of_pos hchild
    · next hslot =>
      have hnot : ¬c.isField f = true := mt hc.2 hslot
      exact (List.find?_cons_of_neg hnot).trans (ih hrest)

theorem filter_putChild : (putChild child cs).filter (!·.isField f) = cs.filter (!·.isField f) := by
  induction cs with
  | nil => simp [putChild, hchild]
  | cons c rest ih =>
    obtain ⟨hc, hrest⟩ := List.forall_mem_cons.1 hplace
    rw [putChild]
    split
    · next hslot => simp [hchild, hc.1 hslot]
    · rw [List.filter_cons, List.filter_cons, ih hrest]

end PutChild

namespace Element

variable {e : Element} {f : Kind} {position : Nat} {text : String}

/-! ## What is set -/

/-- The element with a field in a place: instead of what is there, and after all other children if
nothing is. -/
def putField (e : Element) (position : Nat) (f : Kind) (text : String) : Element :=
  { e with children := putChild (.field position ⟨f, text⟩) e.children }

theorem place_one (e : Element) (child : Child) :
    (e.place false child).parent = { e with children := putChild child e.children } := by
  rw [place]
  cases hfind : e.children.findIdx? (fun c => c.slot == child.slot) with
  | none =>
    have hnone : ∀ c ∈ e.children, c.slot ≠ child.slot := by
      intro c hc
      simpa using List.findIdx?_eq_none_iff.1 hfind c hc
    rw [putChild_of_none hnone]
    rfl
  | some i =>
    obtain ⟨hlt, hi, hfirst⟩ := List.findIdx?_eq_some_iff_getElem.1 hfind
    have hslot : e.children[i].slot = child.slot := by simpa using hi
    have hput := putChild_of_first (List.getElem?_eq_getElem hlt) hslot fun j hj d hd => by
      obtain ⟨hjlt, rfl⟩ := List.getElem?_eq_some_iff.1 hd
      simpa using hfirst j hj
    rw [hput]
    rfl

theorem place_field {slot : Slot} (hf : f.isSimple = true)
    (hslot : e.kind.slotFor? f = some (position, slot)) (text : String) :
    (e.place slot.repeats (.field position ⟨f, text⟩)).parent = e.putField position f text := by
  have hone : slot.repeats = false :=
    (Kind.repeats_of_slotFor? hslot).symm.trans (Kind.repeats_of_isSimple hslot hf)
  rw [hone, place_one]
  rfl

theorem fieldSlot_eq_ok_iff {slot : Slot} {declared : ValueType} :
    e.fieldSlot f = .ok (position, slot, declared) ↔
      f.valueType? = some declared ∧ e.kind.slotFor? f = some (position, slot) := by
  unfold fieldSlot
  cases f.valueType? with
  | none => simp
  | some type =>
    cases e.kind.slotFor? f with
    | none => simp
    | some found =>
      obtain ⟨i, s⟩ := found
      simp [and_comm, and_assoc]

theorem setField_eq_ok_iff {α : Type} [FieldValue α] {value : α} {e' : Element} :
    e.setField f value = .ok e' ↔ ∃ position slot declared,
      (f.valueType? = some declared ∧ e.kind.slotFor? f = some (position, slot)) ∧
        FieldValue.accepts α declared = true ∧
          e' = e.putField position f (FieldValue.write value) := by
  simp only [← fieldSlot_eq_ok_iff]
  unfold setField
  constructor
  · intro h
    split at h
    · cases h
    next position slot declared hslot =>
    split at h
    · next haccepts =>
      obtain ⟨htype, hfound⟩ := fieldSlot_eq_ok_iff.1 hslot
      have hplace := place_field (Kind.isSimple_of_valueType? htype) hfound
        (FieldValue.write value)
      exact ⟨position, slot, declared, hslot, haccepts, (Except.ok.inj h).symm.trans hplace⟩
    · cases h
  · rintro ⟨position, slot, declared, hslot, haccepts, rfl⟩
    obtain ⟨htype, hfound⟩ := fieldSlot_eq_ok_iff.1 hslot
    have hplace := place_field (Kind.isSimple_of_valueType? htype) hfound (FieldValue.write value)
    simp only [hslot, haccepts, if_true, hplace]

theorem setFieldText_of_slot {slot : Slot} (hf : f.isSimple = true)
    (hslot : e.kind.slotFor? f = some (position, slot)) (text : String) :
    e.setFieldText f text = .ok (e.putField position f text) := by
  obtain ⟨declared, htype⟩ := Option.isSome_iff_exists.1 hf
  have hfield := fieldSlot_eq_ok_iff.2 ⟨htype, hslot⟩
  simp only [setFieldText, hfield, place_field hf hslot]

theorem putField_putField (e : Element) (position : Nat) (f : Kind) (text text' : String) :
    (e.putField position f text).putField position f text' = e.putField position f text' := by
  have hput : putChild (.field position ⟨f, text'⟩)
      (putChild (.field position ⟨f, text⟩) e.children) =
        putChild (.field position ⟨f, text'⟩) e.children := putChild_putChild rfl
  rw [putField, putField, putField, hput]

/-- Only the last value of a field counts. -/
theorem setField_putField {slot : Slot} (hslot : e.kind.slotFor? f = some (position, slot))
    {α : Type} [FieldValue α] (value : α) :
    (e.putField position f text).setField f value = e.setField f value := by
  have hsame : (e.putField position f text).fieldSlot f = e.fieldSlot f := rfl
  unfold setField
  rw [hsame]
  split
  · rfl
  · next position' slot' declared hfield =>
    obtain ⟨htype, hfound⟩ := fieldSlot_eq_ok_iff.1 hfield
    rw [hslot] at hfound
    cases hfound
    have hf := Kind.isSimple_of_valueType? htype
    rw [place_field hf hslot, place_field (e := e.putField position f text) hf hslot,
      putField_putField]

/-! ## What is read -/

/-- In its place, a field is the only thing that an element has. -/
theorem Seated.slot_eq_iff (h : Seated e) {slot : Slot} (hf : f.isSimple = true)
    (hslot : e.kind.slotFor? f = some (position, slot)) :
    ∀ c ∈ e.children, c.slot = position ↔ c.isField f = true := by
  intro c hc
  obtain ⟨slot', hslot'⟩ := h.placed c hc
  constructor
  · intro hposition
    rw [hposition] at hslot'
    have hkind := Kind.eq_of_slotFor?_of_isSimple hf hslot hslot'
    have hfield : c.field?.isSome = true := by
      rwa [← Child.isSimple_kind_iff (h.node c hc), hkind]
    cases c with
    | field i field => exact beq_iff_eq.2 hkind
    | element i e => cases hfield
  · intro hfield
    obtain ⟨i, text, rfl⟩ := Child.isField_iff.1 hfield
    have hsame : e.kind.slotFor? f = some (i, slot') := hslot'
    rw [hslot] at hsame
    exact (congrArg Prod.fst (Option.some.inj hsame)).symm

theorem fieldText?_eq (e : Element) (f : Kind) :
    e.fieldText? f = ((e.children.find? (Child.isField f)).bind Child.field?).map Field.text := by
  rw [fieldText?, fields, List.find?_filterMap]
  rfl

theorem hasField_iff : e.hasField f = true ↔ ∃ c ∈ e.children, c.isField f = true := by
  rw [hasField, fieldText?_eq, Option.isSome_map, ← List.find?_isSome]
  cases hfind : e.children.find? (Child.isField f) with
  | none => simp
  | some c =>
    obtain ⟨i, text, rfl⟩ := Child.isField_iff.1 (List.find?_some hfind)
    simp [Child.field?]

theorem removeField_eq (e : Element) (f : Kind) :
    e.removeField f = (e.hasField f, e.clearField f) := by
  have hlength : ((e.clearField f).children.length != e.children.length) = e.hasField f := by
    have hle := List.length_filter_le (fun c => !Child.isField f c) e.children
    have hlt := List.length_filter_lt_length_iff_exists (p := fun c => !Child.isField f c)
      (l := e.children)
    have hexists : (∃ c ∈ e.children, ¬(!Child.isField f c) = true) ↔ e.hasField f = true := by
      simp [hasField_iff]
    have hchildren : (e.clearField f).children =
        e.children.filter fun c => !Child.isField f c := rfl
    rw [Bool.eq_iff_iff, bne_iff_ne, ← hexists, ← hlt, hchildren]
    omega
  rw [removeField, hlength]

section Rest

variable {e' : Element}
  (h : (e'.children.filter fun c => !c.isField f) = e.children.filter fun c => !c.isField f)

include h

theorem fieldText?_congr {g : Kind} (hg : g ≠ f) : e'.fieldText? g = e.fieldText? g := by
  have hfind (cs : List Child) : cs.find? (Child.isField g) =
      (cs.filter fun c => !c.isField f).find? (Child.isField g) := by
    rw [List.find?_filter]
    congr 1
    funext c
    have himp : c.isField g = true → c.isField f = false := by
      intro hc
      obtain ⟨i, text, rfl⟩ := Child.isField_iff.1 hc
      exact beq_eq_false_iff_ne.2 hg
    cases hc : c.isField g with
    | false => simp
    | true => simp [himp hc]
  rw [fieldText?_eq, fieldText?_eq, hfind, h, ← hfind]

theorem elements_congr : e'.elements = e.elements := by
  have helements (cs : List Child) : cs.filterMap Child.element? =
      (cs.filter fun c => !c.isField f).filterMap Child.element? := by
    rw [List.filterMap_filter]
    congr 1
    funext c
    cases c with
    | field i field => simp [Child.element?]
    | element i e => rfl
  rw [elements, elements, helements, h, ← helements]

end Rest

/-! ## What is set and read -/

/-- A field that is set is read as its text, and everything else stays as it was. -/
theorem Seated.putField_spec (h : Seated e) {slot : Slot} (hf : f.isSimple = true)
    (hslot : e.kind.slotFor? f = some (position, slot)) (text : String) :
    (e.putField position f text).fieldText? f = some text ∧
      (e.putField position f text).clearField f = e.clearField f := by
  have hplace := h.slot_eq_iff hf hslot
  have hchild : (Child.field position ⟨f, text⟩).isField f = true :=
    Child.isField_iff.2 ⟨position, text, rfl⟩
  constructor
  · rw [fieldText?_eq, putField, find?_putChild hchild hplace]
    rfl
  · -- The field is the only thing that the two may differ in, and both are without it.
    have hfilter := filter_putChild hchild hplace
    rw [Element.clearField, Element.clearField]
    exact congrArg (fun children => ({ e with children } : Element)) hfilter

/-- What is set to a value is read as the value, also if blank characters are put around it; nothing
else changes; only the last value counts; and to remove the field is as if it never was set. A value
can be set in every field that the schema has a place for, if it is of the type of the field or a
text. -/
theorem Obtained.field_laws (h : e.Obtained) (f : Kind) {t : ValueType} (ht : t ≠ .double)
    (value : t.Value) :
    ((∃ e', e.setField f value = .ok e') ↔
      f.isSimple = true ∧ (e.kind.slotFor? f).isSome = true ∧
        (t = .text ∨ f.valueType? = some t)) ∧
    ∀ e', e.setField f value = .ok e' →
      e'.fieldText? f = some (FieldValue.write value) ∧ e'.field? t.Value f = some value ∧
      e'.hasField f = true ∧
      (t ≠ .text →
        (∀ declared, f.valueType? = some declared →
          declared.isValid (FieldValue.write value) = true) ∧
        ∀ before after : List Char, (∀ c ∈ before, isBlank c) → (∀ c ∈ after, isBlank c) →
          ∃ e'', e'.setFieldText f (String.ofList before ++ FieldValue.write value ++
            String.ofList after) = .ok e'' ∧ e''.field? t.Value f = some value) ∧
      (e'.toHead = e.toHead ∧ e'.unknown = e.unknown ∧ e'.elements = e.elements ∧
        (∀ g, g ≠ f → e'.fieldText? g = e.fieldText? g) ∧
        (e'.children.filter fun c => !c.isField f) = e.children.filter fun c => !c.isField f) ∧
      (∀ (u : ValueType) (last : u.Value), e'.setField f last = e.setField f last) ∧
      e'.removeField f = (true, e.clearField f) := by
  have hseated : Seated e := h.seated.self
  refine ⟨?_, fun e' hset => ?_⟩
  · simp only [setField_eq_ok_iff, FieldValue.accepts_iff]
    constructor
    · rintro ⟨_, position, slot, declared, ⟨htype, hslot⟩, haccepts, -⟩
      exact ⟨Kind.isSimple_of_valueType? htype, Option.isSome_of_eq_some hslot,
        haccepts.imp_right fun heq : declared = t => heq ▸ htype⟩
    · rintro ⟨hf, hplace, haccepts⟩
      obtain ⟨declared, htype⟩ := Option.isSome_iff_exists.1 hf
      obtain ⟨⟨position, slot⟩, hslot⟩ := Option.isSome_iff_exists.1 hplace
      refine ⟨_, position, slot, declared, ⟨htype, hslot⟩, haccepts.imp_right fun heq => ?_, rfl⟩
      exact Option.some.inj (htype.symm.trans heq)
  · obtain ⟨position, slot, declared, ⟨htype, hslot⟩, haccepts, rfl⟩ := setField_eq_ok_iff.1 hset
    have hf := Kind.isSimple_of_valueType? htype
    obtain ⟨htext, hclear⟩ := hseated.putField_spec hf hslot (FieldValue.write value)
    have hrest : ((e.putField position f (FieldValue.write value)).children.filter
        fun c => !c.isField f) = e.children.filter fun c => !c.isField f :=
      congrArg Element.children hclear
    have hhas : (e.putField position f (FieldValue.write value)).hasField f = true := by
      rw [hasField, htext]
      rfl
    refine ⟨htext, ?_, hhas, fun hne => ⟨fun declared' htype' => ?_, fun before after hb ha => ?_⟩,
      ⟨rfl, rfl, elements_congr hrest, fun g hg => fieldText?_congr hrest hg, hrest⟩,
      fun u last => setField_putField hslot last, ?_⟩
    · rw [field?, htext, Option.bind_some, FieldValue.read?_write ht]
    · rw [htype] at htype'
      cases htype'
      obtain rfl := (FieldValue.accepts_iff.1 haccepts).resolve_left hne
      exact ValueType.isValid_write ht value
    · have hspaced := setFieldText_of_slot (e := e.putField position f (FieldValue.write value)) hf
        hslot (String.ofList before ++ FieldValue.write value ++ String.ofList after)
      refine ⟨_, hspaced, ?_⟩
      rw [putField_putField, field?, (hseated.putField_spec hf hslot _).1, Option.bind_some,
        FieldValue.read?_between_blank hne ht value hb ha]
    · rw [removeField_eq, hhas, hclear]

/-- The placemark is hidden: it can be asked so, also with blank characters in the text, and is as
before when the field is removed. -/
theorem field_laws_campsite : campsite.Obtained ∧ ValueType.boolean ≠ .double ∧
    ∃ e', campsite.setField .visibility false = .ok e' ∧ e'.field? Bool .visibility = some false ∧
      (∃ e'', e'.setFieldText .visibility " 0\n" = .ok e'' ∧
        e''.field? Bool .visibility = some false) ∧
      e'.fieldText? .name = some "Camp" ∧ e'.removeField .visibility = (true, campsite) := by
  obtain ⟨hsets, hlaws⟩ := Obtained.field_laws obtained_campsite .visibility (t := .boolean)
    (by decide) false
  obtain ⟨e', hset⟩ := hsets.2 ⟨rfl, rfl, .inr rfl⟩
  obtain ⟨-, hvalue, -, htyped, ⟨-, -, -, hothers, -⟩, -, hremove⟩ := hlaws e' hset
  have hspaced := (htyped (by decide)).2 [' '] ['\n'] (List.forall_mem_singleton.2 rfl)
    (List.forall_mem_singleton.2 rfl)
  exact ⟨obtained_campsite, by decide, e', hset, hvalue, hspaced, hothers .name (by decide),
    hremove⟩

end Element

end KmlTree
