import KmlTree.Proofs.Tree.Edits

/-!
# Trees under the schema

What is true of every element, however it was put together: it holds what the schema allows, where
the schema allows it, and keeps its attributes where they belong. Main statements: no change breaks
this, and of a place for one child at most one is taken.
-/
namespace KmlTree

namespace Kind

theorem slotFor?_unknown (child : Kind) : unknown.slotFor? child = none := rfl

theorem repeats_of_isSimple {parent child : Kind} {position : Nat} {slot : Slot}
    (h : parent.slotFor? child = some (position, slot)) (hsimple : child.isSimple = true) :
    parent.repeats position = false := by
  have hall := of_all
    (p := fun p => all.all fun c => !c.isSimple || (p.slotFor? c).all fun found => !found.2.repeats)
    (by decide +kernel) parent
  have hchild := List.all_eq_true.1 hall child (mem_all child)
  rw [repeats_of_slotFor? h]
  simpa [h, hsimple] using hchild

end Kind

theorem Child.isSimple_kind_iff {c : Child} (h : c.node.toChild c.slot = c) :
    c.kind.isSimple = true ↔ c.field?.isSome = true := by
  have hnode : (c.node.toChild c.slot).field?.isSome = c.node.kind.isSimple := by
    unfold Element.toChild
    split
    · next hsimple => exact hsimple.symm
    · next hsimple => exact (by simpa using hsimple : c.node.kind.isSimple = false).symm
  rw [h, Child.kind_node] at hnode
  rw [hnode]

namespace Element

variable {e child : Element} {a : Attached}

/-! ## Attributes -/

theorem All.setAttribute {P : Element → Prop} (h : e.All P) {name value : String}
    (hself : P (e.setAttribute name value)) : (e.setAttribute name value).All P := by
  obtain ⟨known, others, heq⟩ := e.setAttribute_eq name value
  exact h.congr hself (by rw [heq]) (by rw [heq])

theorem All.eraseAttribute {P : Element → Prop} (h : e.All P) {name : String}
    (hself : P (e.eraseAttribute name)) : (e.eraseAttribute name).All P := by
  obtain ⟨known, others, heq⟩ := e.eraseAttribute_eq name
  exact h.congr hself (by rw [heq]) (by rw [heq])

/-! ## Taking in a child -/

theorem Attaches.stored (h : e.Attaches child a) (he : Stored e) : Stored a.parent := by
  have hnode : ∀ c ∈ a.parent.children, c.node.toChild c.slot = c :=
    h.forall_children he.node fun position _ _ _ => node_toChild position child
  cases h with
  | unknown _ => exact he.addUnknown child
  | placed => exact he.withChildren hnode
  | appended => exact he.withChildren hnode

/-! ## The invariant -/

/-- Attributes are stored where they belong, children are in the places that the schema has for
them, and where there is room for one child there is no other. -/
structure Seated (e : Element) : Prop extends Stored e where
  placed : ∀ c ∈ e.children, ∃ slot, e.kind.slotFor? c.kind = some (c.slot, slot)
  room : (e.children.map Child.slot).Pairwise fun i j => i = j → e.kind.repeats i = true

theorem Fitting.seated (h : Fitting e) : Seated e :=
  ⟨h.toStored, fun c hc => (h.placed c hc).2, h.room⟩

/-- What changes neither the kind nor the children leaves these in their places. -/
theorem Seated.congr (h : Seated e) {e' : Element} (hstored : Stored e') (hkind : e'.kind = e.kind)
    (hchildren : e'.children = e.children) : Seated e' where
  toStored := hstored
  placed := by
    rw [hkind, hchildren]
    exact h.placed
  room := by
    rw [hkind, hchildren]
    exact h.room

theorem Seated.setAttribute (h : Seated e) (name value : String) :
    Seated (e.setAttribute name value) := by
  obtain ⟨known, others, heq⟩ := e.setAttribute_eq name value
  exact h.congr (h.toStored.setAttribute name value) (by rw [heq]) (by rw [heq])

theorem Seated.eraseAttribute (h : Seated e) (name : String) : Seated (e.eraseAttribute name) := by
  obtain ⟨known, others, heq⟩ := e.eraseAttribute_eq name
  exact h.congr (h.toStored.eraseAttribute name) (by rw [heq]) (by rw [heq])

theorem Seated.withText (h : Seated e) (text : String) : Seated { e with text } :=
  h.congr (h.toStored.withText text) rfl rfl

theorem Seated.addUnknown (h : Seated e) (child : Element) : Seated (e.addUnknown child) :=
  h.congr (h.toStored.addUnknown child) rfl rfl

theorem Seated.attaches (h : Seated e) (ha : e.Attaches child a) : Seated a.parent where
  toStored := ha.stored h.toStored
  placed := by
    rw [ha.kind]
    refine ha.forall_children h.placed fun position slot _ hslot => ⟨slot, ?_⟩
    rw [kind_toChild, slot_toChild, hslot]
  room := by
    rw [ha.kind]
    exact ha.room h.room

theorem Seated.clearField (h : Seated e) (kind : Kind) : Seated (e.clearField kind) where
  toStored := h.toStored.withChildren fun c hc => h.node c (List.mem_filter.1 hc).1
  placed := fun c hc => h.placed c (List.mem_filter.1 hc).1
  room := h.room.sublist (List.filter_sublist.map Child.slot)

/-! ## The invariant for all of a tree -/

theorem all_seated_empty {head : Head} (hattributes : head.attributes = ∅)
    (hother : head.otherAttributes = ∅) : Element.All Seated ⟨head, [], []⟩ := by
  have hstored : Stored ⟨head, [], []⟩ := by
    refine ⟨?_, ?_, ?_, ?_, by simp⟩
    all_goals simp [hattributes, hother, AttributeMap.keys, EmptyCollection.emptyCollection]
  exact .intro ⟨hstored, by simp, .nil⟩ (by simp [elements]) (by simp)

theorem all_seated_ofName (name : String) : (Element.ofName name).All Seated := by
  obtain ⟨kind, writtenName?, heq⟩ := Element.ofName_eq name
  rw [heq]
  exact all_seated_empty rfl rfl

/-- Whatever holds of an element after it took in a child holds of all of it, if it held of all of
both before. -/
theorem All.attaches {P : Element → Prop} (h : e.All P) (hchild : child.All P)
    (ha : e.Attaches child a) (hself : P a.parent) : a.parent.All P := by
  refine .intro hself (fun x hx => ?_) fun u hu => ?_
  · obtain ⟨c, hc, hx⟩ := List.mem_filterMap.1 hx
    refine ha.forall_children (P := fun c => ∀ x ∈ c.element?, x.All P) (fun c hc x hx => ?_)
      (fun position slot _ _ x hx => ?_) c hc x hx
    · exact h.known x (List.mem_filterMap.2 ⟨c, hc, hx⟩)
    · unfold toChild at hx
      split at hx <;> cases hx
      exact hchild
  · cases ha with
    | unknown _ =>
      rcases List.mem_append.1 hu with hu | hu
      · exact h.unknown u hu
      · rw [List.mem_singleton.1 hu]
        exact hchild
    | placed => exact h.unknown u hu
    | appended => exact h.unknown u hu

theorem All.addUnknown {P : Element → Prop} (h : e.All P) (hchild : child.All P)
    (hself : P (e.addUnknown child)) : (e.addUnknown child).All P := by
  refine .intro hself h.known fun u hu => ?_
  rcases List.mem_append.1 hu with hu | hu
  · exact h.unknown u hu
  · rw [List.mem_singleton.1 hu]
    exact hchild

theorem attaches_of_addChild {e' : Element} (h : e.addChild child = .ok e') :
    ∃ a, e.Attaches child a ∧ a.parent = e' := by
  unfold Element.addChild at h
  cases hattach : e.attach child with
  | error rejected =>
    rw [hattach] at h
    cases h
  | ok a =>
    rw [hattach] at h
    cases h
    exact ⟨a, attach_cases hattach, rfl⟩

theorem all_seated_addChild (h : e.All Seated) (hchild : child.All Seated) {e' : Element}
    (ha : e.addChild child = .ok e') : e'.All Seated := by
  obtain ⟨a, hattaches, rfl⟩ := attaches_of_addChild ha
  exact h.attaches hchild hattaches (h.self.attaches hattaches)

theorem attaches_field {kind : Kind} {position : Nat} {slot : Slot} {type : ValueType}
    (h : e.fieldSlot kind = .ok (position, slot, type)) (text : String) :
    e.Attaches (Field.element ⟨kind, text⟩) (e.place slot.repeats (.field position ⟨kind, text⟩)) := by
  unfold fieldSlot at h
  split at h
  · cases h
  next htype =>
  split at h
  · cases h
  next hslot =>
  cases h
  have hsimple := Kind.isSimple_of_valueType? htype
  have hchild : (Field.element ⟨kind, text⟩).toChild position = .field position ⟨kind, text⟩ := by
    simp [toChild, Field.element, hsimple]
  rw [← hchild]
  refine attaches_place ?_ (Kind.of_slotFor? hslot).1 hslot
  intro hunknown
  rw [hunknown, Kind.slotFor?_unknown] at hslot
  cases hslot

theorem all_seated_field (h : e.All Seated) {kind : Kind} {position : Nat} {slot : Slot}
    {type : ValueType} (hslot : e.fieldSlot kind = .ok (position, slot, type)) (text : String) :
    (e.place slot.repeats (.field position ⟨kind, text⟩)).parent.All Seated :=
  have ha := attaches_field hslot text
  h.attaches (all_seated_empty rfl rfl) ha (h.self.attaches ha)

theorem all_seated_setFieldText (h : e.All Seated) {kind : Kind} {text : String} {e' : Element}
    (hs : e.setFieldText kind text = .ok e') : e'.All Seated := by
  unfold Element.setFieldText at hs
  split at hs
  · cases hs
  · next hslot =>
    cases hs
    exact all_seated_field h hslot text

theorem all_seated_setField {α : Type} [FieldValue α] (h : e.All Seated) {kind : Kind} {value : α}
    {e' : Element} (hs : e.setField kind value = .ok e') : e'.All Seated := by
  unfold Element.setField at hs
  split at hs
  · cases hs
  next hslot =>
  split at hs
  · cases hs
    exact all_seated_field h hslot _
  · cases hs

theorem all_seated_clearField (h : e.All Seated) (kind : Kind) :
    (e.clearField kind).All Seated := by
  refine .intro (h.self.clearField kind) (fun x hx => ?_) h.unknown
  obtain ⟨c, hc, hx⟩ := List.mem_filterMap.1 hx
  exact h.known x (List.mem_filterMap.2 ⟨c, (List.mem_filter.1 hc).1, hx⟩)

/-! ## What the invariant says -/

/-- An element as the schema wants it: what it does not know has no known children; every child is
of a kind that a document can hold, is in the place that there is for it, and is a field just when
its kind is one; of a place for one child at most one is taken, and no field occurs twice; attributes
are stored once, those that the kind declares apart from all others. -/
structure Schematic (e : Element) : Prop where
  childless : e.kind = .unknown → e.children = []
  placed : ∀ c ∈ e.children, c.kind ≠ .unknown ∧ c.kind.isAbstract = false ∧
    ∃ slot, e.kind.slotFor? c.kind = some (c.slot, slot)
  field_iff : ∀ c ∈ e.children, c.field?.isSome = true ↔ c.kind.isSimple = true
  single : ∀ position slot, e.kind.slots[position]? = some slot → slot.repeats = false →
    (e.children.filter fun c => c.slot == position).length ≤ 1
  fields_nodup : (e.fields.map Field.kind).Nodup
  declared : ∀ a ∈ e.attributes.keys, a ∈ e.kind.attributes
  declared_nodup : e.attributes.keys.Nodup
  other : ∀ key ∈ e.otherAttributes.keys, e.kind.attribute? key = none
  other_nodup : e.otherAttributes.keys.Nodup

theorem Seated.slot_unique (h : Seated e) :
    e.children.Pairwise fun c d => c.slot = d.slot → e.kind.repeats c.slot = true :=
  List.pairwise_map.1 h.room

theorem Seated.length_filter_le (h : Seated e) {position : Nat}
    (hone : e.kind.repeats position = false) :
    (e.children.filter fun c => c.slot == position).length ≤ 1 := by
  have hpairwise := h.slot_unique.sublist (List.filter_sublist (p := fun c => c.slot == position))
  have hslot : ∀ c ∈ e.children.filter (fun c => c.slot == position), c.slot = position := by
    intro c hc
    simpa using (List.mem_filter.1 hc).2
  generalize e.children.filter (fun c => c.slot == position) = cs at hpairwise hslot
  match cs with
  | [] => simp
  | [c] => simp
  | c :: d :: rest =>
    have hc := hslot c List.mem_cons_self
    have hd := hslot d (List.mem_cons_of_mem _ List.mem_cons_self)
    have hrepeats := (List.pairwise_cons.1 hpairwise).1 d List.mem_cons_self (hc.trans hd.symm)
    rw [hc, hone] at hrepeats
    cases hrepeats

/-- No field occurs twice, since fields of one kind are in one place. -/
theorem Seated.fields_nodup (h : Seated e) : (e.fields.map Field.kind).Nodup := by
  rw [fields, List.Nodup, List.pairwise_map, List.pairwise_filterMap]
  refine h.slot_unique.imp_of_mem fun {c d} hc hd hunique f hf g hg hkind => ?_
  have hck : c.kind = f.kind := by
    cases c <;> cases hf
    rfl
  have hdk : d.kind = g.kind := by
    cases d <;> cases hg
    rfl
  have hsimple : c.kind.isSimple = true :=
    (Child.isSimple_kind_iff (h.node c hc)).2 (Option.isSome_iff_exists.2 ⟨f, hf⟩)
  obtain ⟨slot, hslot⟩ := h.placed c hc
  obtain ⟨slot', hslot'⟩ := h.placed d hd
  have hsame : c.slot = d.slot := by
    rw [hdk, ← hkind, ← hck, hslot] at hslot'
    exact (Prod.mk.inj (Option.some.inj hslot')).1
  have hrepeats := hunique hsame
  rw [Kind.repeats_of_isSimple hslot hsimple] at hrepeats
  cases hrepeats

theorem Seated.toSchematic (h : Seated e) : Schematic e where
  childless := by
    intro hkind
    refine List.eq_nil_iff_forall_not_mem.2 fun c hc => ?_
    obtain ⟨slot, hslot⟩ := h.placed c hc
    rw [hkind, Kind.slotFor?_unknown] at hslot
    cases hslot
  placed := by
    intro c hc
    obtain ⟨slot, hslot⟩ := h.placed c hc
    obtain ⟨hknown, hconcrete⟩ := Kind.of_slotFor? hslot
    exact ⟨hknown, hconcrete, slot, hslot⟩
  field_iff := fun c hc => (Child.isSimple_kind_iff (h.node c hc)).symm
  single := by
    intro position slot hslot hone
    refine h.length_filter_le ?_
    simp [Kind.repeats, hslot, hone]
  fields_nodup := h.fields_nodup
  declared := h.declared
  declared_nodup := h.declared_nodup
  other := h.other
  other_nodup := h.other_nodup

end Element

end KmlTree
