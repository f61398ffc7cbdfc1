import KmlTree.Proofs.Tree.Attachment
import KmlTree.Proofs.Tree.Conforming

/-!
# Trees that are changed

What the changes of an element leave as it should be. Main statements: every change keeps attributes
and children where they are to be stored, and a child that is taken in where the schema has a place
for it fits there.
-/
namespace KmlTree

theorem Kind.mem_attributes_of_attribute? {k : Kind} {key : String} {a : Attribute}
    (h : k.attribute? key = some a) : a ∈ k.attributes := by
  have hfilter := (Option.filter_eq_some_iff.1 h).2
  exact List.contains_iff_mem.1 hfilter

theorem Kind.isSimple_of_valueType? {k : Kind} {type : ValueType} (h : k.valueType? = some type) :
    k.isSimple = true := by
  rw [isSimple, h]
  rfl

theorem Kind.ofTag_known {tag : String} (h : ofTag tag ≠ .unknown) :
    (ofTag tag).tag = tag ∧ (ofTag tag).isAbstract = false := by
  unfold ofTag at h ⊢
  cases hfind : all.find? (fun k => k.tag == tag && !k.isAbstract) with
  | none =>
    rw [hfind] at h
    exact absurd rfl h
  | some k =>
    have hfound := List.find?_some hfind
    simp only [Bool.and_eq_true, beq_iff_eq, Bool.not_eq_true'] at hfound
    exact hfound

namespace Element

variable {e child : Element} {a : Attached}

/-! ## Elements made from a name -/

theorem ofName_eq (name : String) : ∃ kind writtenName?,
    ofName name = ⟨{ kind, writtenName? }, [], []⟩ := by
  unfold ofName
  split <;> exact ⟨_, _, rfl⟩

theorem name_ofName (name : String) : (ofName name).name = name := by
  unfold ofName
  split
  · rfl
  · next hkind => exact (Kind.ofTag_known hkind).1

theorem kind_ofName (name : String) : (ofName name).kind = Kind.ofTag name := by
  unfold ofName
  split
  · next hkind => exact hkind.symm
  · rfl

/-! ## Attributes -/

/-- A value for an attribute changes nothing but attributes. -/
theorem setAttribute_eq (e : Element) (name value : String) : ∃ known others,
    e.setAttribute name value = { e with attributes := known, otherAttributes := others } := by
  unfold setAttribute
  split <;> exact ⟨_, _, rfl⟩

theorem foldl_setAttribute_eq (attributes : List (String × String)) (e : Element) :
    ∃ known others, attributes.foldl (fun e (key, value) => e.setAttribute key value) e =
      { e with attributes := known, otherAttributes := others } := by
  induction attributes generalizing e with
  | nil =>
    cases e
    exact ⟨_, _, rfl⟩
  | cons entry rest ih =>
    obtain ⟨known, others, hfirst⟩ := e.setAttribute_eq entry.1 entry.2
    obtain ⟨known', others', hrest⟩ := ih (e.setAttribute entry.1 entry.2)
    refine ⟨known', others', hrest.trans ?_⟩
    rw [hfirst]

theorem eraseAttribute_eq (e : Element) (name : String) : ∃ known others,
    e.eraseAttribute name = { e with attributes := known, otherAttributes := others } := by
  unfold eraseAttribute
  split <;> exact ⟨_, _, rfl⟩

theorem Stored.setAttribute (h : Stored e) (name value : String) :
    Stored (e.setAttribute name value) := by
  unfold Element.setAttribute
  split
  · next a ha =>
    have hdeclared : ∀ a' ∈ (e.attributes.insert a value).keys, a' ∈ e.kind.attributes := by
      intro a' ha'
      rcases AttributeMap.mem_keys_insert ha' with ha' | rfl
      · exact h.declared a' ha'
      · exact Kind.mem_attributes_of_attribute? ha
    exact ⟨hdeclared, AttributeMap.nodup_keys_insert h.declared_nodup a value, h.other,
      h.other_nodup, h.node⟩
  · next hnone =>
    have hother : ∀ key ∈ (e.otherAttributes.insert name value).keys, e.kind.attribute? key = none := by
      intro key hkey
      rcases AttributeMap.mem_keys_insert hkey with hkey | rfl
      · exact h.other key hkey
      · exact hnone
    exact ⟨h.declared, h.declared_nodup, hother,
      AttributeMap.nodup_keys_insert h.other_nodup name value, h.node⟩

theorem Stored.eraseAttribute (h : Stored e) (name : String) : Stored (e.eraseAttribute name) := by
  unfold Element.eraseAttribute
  split
  · next a ha =>
    have hsub := e.attributes.keys_erase_sublist a
    exact ⟨fun a' ha' => h.declared a' (hsub.subset ha'), hsub.nodup h.declared_nodup, h.other,
      h.other_nodup, h.node⟩
  · next hnone =>
    have hsub := e.otherAttributes.keys_erase_sublist name
    exact ⟨h.declared, h.declared_nodup, fun key hkey => h.other key (hsub.subset hkey),
      hsub.nodup h.other_nodup, h.node⟩

theorem Stored.setAttributes (h : Stored e) (attributes : List (String × String)) :
    Stored (attributes.foldl (fun e (key, value) => e.setAttribute key value) e) := by
  induction attributes generalizing e with
  | nil => exact h
  | cons entry rest ih => exact ih (h.setAttribute entry.1 entry.2)

/-! ## Text and children -/

theorem node_toChild (slot : Nat) (e : Element) :
    (e.toChild slot).node.toChild (e.toChild slot).slot = e.toChild slot := by
  rw [slot_toChild]
  cases hsimple : e.kind.isSimple with
  | false =>
    have hchild : e.toChild slot = .element slot e := by simp [toChild, hsimple]
    rw [hchild]
    exact hchild
  | true =>
    have hchild : e.toChild slot = .field slot ⟨e.kind, e.text⟩ := by simp [toChild, hsimple]
    rw [hchild]
    simp [toChild, Child.node, Field.element, hsimple]

theorem Stored.withText (h : Stored e) (text : String) : Stored { e with text } :=
  ⟨h.declared, h.declared_nodup, h.other, h.other_nodup, h.node⟩

theorem Stored.addUnknown (h : Stored e) (child : Element) : Stored (e.addUnknown child) :=
  ⟨h.declared, h.declared_nodup, h.other, h.other_nodup, h.node⟩

theorem Stored.withChildren (h : Stored e) {children : List Child}
    (hnode : ∀ c ∈ children, c.node.toChild c.slot = c) : Stored { e with children } :=
  ⟨h.declared, h.declared_nodup, h.other, h.other_nodup, hnode⟩

/-! ## Children that fit -/

theorem Fitting.addUnknown (h : Fitting e) (hsimple : e.kind.isSimple = false)
    (hunknown : e.kind = .unknown → child.kind = .unknown)
    (hkept : e.kind ≠ .unknown → (child.kind = .unknown ∧ Kind.ofTag child.name = .unknown) ∨
      (child.kind ≠ .unknown ∧ e.kind.slotFor? child.kind = none)) :
    Fitting (e.addUnknown child) where
  toStored := h.toStored.addUnknown child
  known := h.known
  unnamed := by
    intro hkind
    obtain ⟨hname, hchildren, hall⟩ := h.unnamed hkind
    refine ⟨hname, hchildren, fun u hu => ?_⟩
    rcases List.mem_append.1 hu with hu | hu
    · exact hall u hu
    · rw [List.mem_singleton.1 hu]
      exact hunknown hkind
  text := h.text
  simple := by
    intro h'
    have heq : e.kind.isSimple = true := h'
    rw [hsimple] at heq
    cases heq
  placed := h.placed
  room := h.room
  kept := by
    intro hkind u hu
    rcases List.mem_append.1 hu with hu | hu
    · exact h.kept hkind u hu
    · rw [List.mem_singleton.1 hu]
      exact hkept hkind

theorem Fitting.withChildren (h : Fitting e) {children : List Child}
    (hsimple : e.kind.isSimple = false) (hkind : e.kind ≠ .unknown)
    (hnode : ∀ c ∈ children, c.node.toChild c.slot = c)
    (hplaced : ∀ c ∈ children,
      c.kind ≠ .unknown ∧ ∃ slot, e.kind.slotFor? c.kind = some (c.slot, slot))
    (hroom : (children.map Child.slot).Pairwise fun i j => i = j → e.kind.repeats i = true) :
    Fitting { e with children } where
  toStored := h.toStored.withChildren hnode
  known := h.known
  unnamed := fun heq => absurd heq hkind
  text := h.text
  simple := by
    intro h'
    have heq : e.kind.isSimple = true := h'
    rw [hsimple] at heq
    cases heq
  placed := hplaced
  room := hroom
  kept := h.kept

theorem kind_toChild (slot : Nat) (e : Element) : (e.toChild slot).kind = e.kind := by
  unfold toChild
  split <;> rfl

/-- What holds of all children and of the new one holds of all children afterwards. -/
theorem Attaches.forall_children (h : e.Attaches child a) {P : Child → Prop}
    (hold : ∀ c ∈ e.children, P c)
    (hnew : ∀ position slot, child.kind ≠ .unknown →
      e.kind.slotFor? child.kind = some (position, slot) → P (child.toChild position)) :
    ∀ c ∈ a.parent.children, P c := by
  intro c hc
  cases h with
  | unknown _ => exact hold c hc
  | @placed position slot i _ _ hknown hslot _ _ _ _ =>
    rcases List.mem_or_eq_of_mem_set hc with hc | rfl
    · exact hold c hc
    · exact hnew position slot hknown hslot
  | @appended position slot _ hknown hslot _ =>
    rcases List.mem_append.1 hc with hc | hc
    · exact hold c hc
    · rw [List.mem_singleton.1 hc]
      exact hnew position slot hknown hslot

theorem Attaches.room (h : e.Attaches child a)
    (hroom : (e.children.map Child.slot).Pairwise fun i j => i = j → e.kind.repeats i = true) :
    (a.parent.children.map Child.slot).Pairwise fun i j => i = j → e.kind.repeats i = true := by
  cases h with
  | unknown _ => exact hroom
  | @placed position slot i c _ _ _ _ hi hc _ =>
    have hslots : (e.children.set i (child.toChild position)).map Child.slot =
        e.children.map Child.slot := by
      rw [List.map_set, slot_toChild, ← hc]
      obtain ⟨hlt, hget⟩ := List.getElem?_eq_some_iff.1 hi
      rw [← hget, ← List.getElem_map Child.slot, List.set_getElem_self]
      simpa using hlt
    rw [hslots]
    exact hroom
  | @appended position slot _ _ hslot hfree =>
    rw [List.map_append, List.pairwise_append]
    refine ⟨hroom, by simp, fun j hj k hk hjk => ?_⟩
    obtain ⟨d, hd, rfl⟩ := List.mem_map.1 hj
    have hk : k = position := by simpa using hk
    rw [hjk, hk, Kind.repeats_of_slotFor? hslot]
    exact hfree.resolve_right fun hfree => hfree d hd (hjk.trans hk)

theorem Fitting.attach (h : Fitting e) (hsimple : e.kind.isSimple = false) {e' : Element} {i : Nat}
    {replaced? : Option Child} (ha : e.Attaches child ⟨e', some i, replaced?⟩) : Fitting e' := by
  have hnode : ∀ c ∈ e'.children, c.node.toChild c.slot = c :=
    ha.forall_children h.node fun position _ _ _ => node_toChild position child
  have hplaced : ∀ c ∈ e'.children,
      c.kind ≠ .unknown ∧ ∃ slot, e.kind.slotFor? c.kind = some (c.slot, slot) := by
    refine ha.forall_children h.placed fun position slot hchild hslot => ?_
    rw [kind_toChild, slot_toChild]
    exact ⟨hchild, slot, hslot⟩
  have hroom := ha.room h.room
  cases ha with
  | placed hparent => exact h.withChildren hsimple hparent hnode hplaced hroom
  | appended hparent => exact h.withChildren hsimple hparent hnode hplaced hroom

end Element

end KmlTree
