import KmlTree.Proofs.Document.Declared

/-!
# Taking in a child

What an element can do with a child: keep it as unknown content, put it in the place of another
child, or put it after all others. From this follows what is declared in the element afterwards.
-/
namespace KmlTree

namespace Element

open Builder (lift)

@[simp] theorem slot_toChild (slot : Nat) (e : Element) : (e.toChild slot).slot = slot := by
  unfold toChild
  split <;> rfl

/-- What can become of a child. -/
inductive Attaches (parent child : Element) : Attached → Prop
  | unknown (h : parent.kind = .unknown ∨ child.kind = .unknown) :
      Attaches parent child ⟨parent.addUnknown child, none, none⟩
  | placed {position : Nat} {slot : Slot} {i : Nat} {c : Child} (hparent : parent.kind ≠ .unknown)
      (hchild : child.kind ≠ .unknown)
      (hslot : parent.kind.slotFor? child.kind = some (position, slot))
      (hone : slot.repeats = false) (hi : parent.children[i]? = some c) (hc : c.slot = position)
      (hfirst : ∀ j < i, ∀ d, parent.children[j]? = some d → d.slot ≠ position) :
      Attaches parent child
        ⟨{ parent with children := parent.children.set i (child.toChild position) }, some i, some c⟩
  | appended {position : Nat} {slot : Slot} (hparent : parent.kind ≠ .unknown)
      (hchild : child.kind ≠ .unknown)
      (hslot : parent.kind.slotFor? child.kind = some (position, slot))
      (hroom : slot.repeats = true ∨ ∀ c ∈ parent.children, c.slot ≠ position) :
      Attaches parent child
        ⟨{ parent with children := parent.children ++ [child.toChild position] },
          some parent.children.length, none⟩

variable {parent child : Element}

theorem attaches_place {position : Nat} {slot : Slot} (hparent : parent.kind ≠ .unknown)
    (hchild : child.kind ≠ .unknown)
    (hslot : parent.kind.slotFor? child.kind = some (position, slot)) :
    Attaches parent child (parent.place slot.repeats (child.toChild position)) := by
  unfold place
  simp only [slot_toChild]
  cases hrepeats : slot.repeats with
  | true => exact .appended hparent hchild hslot (Or.inl hrepeats)
  | false =>
    cases hfind : parent.children.findIdx? (fun c => c.slot == position) with
    | none =>
      refine .appended hparent hchild hslot (Or.inr fun c hc => ?_)
      simpa using List.findIdx?_eq_none_iff.1 hfind c hc
    | some i =>
      obtain ⟨hlt, hi, hfirst⟩ := List.findIdx?_eq_some_iff_getElem.1 hfind
      have hget : parent.children[i]? = some parent.children[i] := List.getElem?_eq_getElem hlt
      simp only [Bool.false_eq_true, if_false, hget]
      refine .placed hparent hchild hslot hrepeats hget (by simpa using hi) fun j hj d hd => ?_
      obtain ⟨hjlt, rfl⟩ := List.getElem?_eq_some_iff.1 hd
      simpa using hfirst j hj

theorem attach_cases {a : Attached} (h : parent.attach child = .ok a) : Attaches parent child a := by
  unfold attach at h
  split at h
  · next hunknown =>
    cases h
    exact .unknown hunknown
  next hknown =>
  simp only [not_or] at hknown
  split at h
  · cases h
  · next hslot =>
    cases h
    exact attaches_place hknown.1 hknown.2 hslot

/-- A child is refused if the schema knows both elements and has no place for the child. -/
theorem attach_eq_error_iff {rejected : Rejected} :
    parent.attach child = .error rejected ↔ parent.kind ≠ .unknown ∧ child.kind ≠ .unknown ∧
      parent.kind.slotFor? child.kind = none ∧ rejected = ⟨parent.kind, child⟩ := by
  unfold attach
  by_cases hunknown : parent.kind = .unknown ∨ child.kind = .unknown
  · simp only [hunknown, if_true, reduceCtorEq, false_iff]
    rintro ⟨hparent, hchild, -⟩
    exact hunknown.elim hparent hchild
  · have hknown := not_or.1 hunknown
    rw [if_neg hunknown]
    cases hslot : parent.kind.slotFor? child.kind with
    | none => simp [hknown.1, hknown.2, eq_comm]
    | some slot => simp

theorem Attaches.kind {a : Attached} (h : Attaches parent child a) : a.parent.kind = parent.kind := by
  cases h <;> rfl

theorem Attaches.name {a : Attached} (h : Attaches parent child a) : a.parent.name = parent.name := by
  cases h <;> rfl

theorem Attaches.attributes {a : Attached} (h : Attaches parent child a) :
    a.parent.attributes = parent.attributes := by
  cases h <;> rfl

theorem Attaches.getElem?_children {element : Element} {i : Nat} {replaced? : Option Child}
    (h : Attaches parent child ⟨element, some i, replaced?⟩) : ∃ position, ∀ j,
      element.children[j]? = if j = i then some (child.toChild position) else parent.children[j]? := by
  cases h with
  | @placed position _ _ _ _ _ _ _ hi _ _ =>
    obtain ⟨hlt, -⟩ := List.getElem?_eq_some_iff.1 hi
    refine ⟨position, fun j => ?_⟩
    split
    · next hj => rw [hj, List.getElem?_set_self hlt]
    · next hj => rw [List.getElem?_set_ne (Ne.symm hj)]
  | @appended position _ _ _ _ _ =>
    refine ⟨position, fun j => ?_⟩
    split
    · next hj => rw [hj, List.getElem?_concat_length]
    · next hj =>
      by_cases hlt : j < parent.children.length
      · rw [List.getElem?_append_left hlt]
      · have hlen : (parent.children ++ [child.toChild position]).length ≤ j := by
          rw [List.length_append, List.length_singleton]
          omega
        rw [List.getElem?_eq_none hlen, List.getElem?_eq_none (Nat.le_of_not_lt hlt)]

/-! ## What is declared afterwards -/

theorem objectId?_congr {e e' : Element} (hkind : e.kind = e'.kind)
    (hattributes : e.attributes = e'.attributes) : e.objectId? = e'.objectId? := by
  rw [objectId?, objectId?, isA, isA, attribute?, attribute?, hkind, hattributes]

theorem declared_congr {e e' : Element} (hkind : e.kind = e'.kind)
    (hattributes : e.attributes = e'.attributes) (hchildren : e.children = e'.children) :
    e.declared = e'.declared := by
  rw [declared_eq, declared_eq, ownId, ownId, objectId?_congr hkind hattributes, hchildren]

theorem not_isA_object_of_isSimple {k : Kind} (h : k.isSimple = true) :
    k.isA .object = false := by
  have hall := Kind.of_all (p := fun k => !(k.isSimple && k.isA .object)) (by decide +kernel) k
  simpa [h] using hall

theorem ownId_of_isSimple {e : Element} (h : e.kind.isSimple = true) : e.ownId = [] := by
  have hobject : e.isA .object = false := not_isA_object_of_isSimple h
  simp [ownId, objectId?, hobject]

/-- A child declares what its element declared, if a field had no children. -/
theorem declared_toChild {e : Element} (slot : Nat) (h : e.kind.isSimple = true → e.children = []) :
    (e.toChild slot).declared = e.declared := by
  unfold toChild
  split
  · next hsimple =>
    rw [declared_eq, ownId_of_isSimple hsimple, h hsimple]
    rfl
  · rfl

theorem filter_ownId (e : Element) (i : Nat) :
    e.ownId.filter (fun entry => entry.2.head? != some i) = e.ownId := by
  refine List.filter_eq_self.2 fun entry hentry => ?_
  obtain ⟨id, path⟩ := entry
  obtain ⟨-, rfl⟩ := mem_ownId.1 hentry
  rfl

/-- A child that is put in the place of another one displaces what was declared there. -/
theorem declared_set_perm (e : Element) {i : Nat} (c : Child) (hi : i < e.children.length) :
    ({ e with children := e.children.set i c } : Element).declared.Perm
      (e.declared.filter (fun entry => entry.2.head? != some i) ++ lift i c.declared) := by
  have hown : ({ e with children := e.children.set i c } : Element).ownId = e.ownId := rfl
  have hset := declaredFrom_set_perm 0 i e.children c hi
  rw [Nat.zero_add] at hset
  rw [declared_eq, declared_eq, hown, List.filter_append, filter_ownId, List.append_assoc]
  exact hset.append_left _

theorem declared_append (e : Element) (c : Child) :
    ({ e with children := e.children ++ [c] } : Element).declared =
      e.declared ++ lift e.children.length c.declared := by
  have hown : ({ e with children := e.children ++ [c] } : Element).ownId = e.ownId := rfl
  rw [declared_eq, declared_eq, hown, declaredFrom_append, Nat.zero_add, declaredFrom_cons,
    List.append_assoc]
  simp [declaredFrom]

theorem declared_filter_of_field (e : Element) {i : Nat} {c : Child} (hc : e.children[i]? = some c)
    (hfield : c.element? = none) :
    e.declared.filter (fun entry => entry.2.head? != some i) = e.declared := by
  have hfilter := filter_declaredFrom_of_field (i := 0) hc hfield
  rw [Nat.zero_add] at hfilter
  rw [declared_eq, List.filter_append, filter_ownId, hfilter]

end Element

end KmlTree
