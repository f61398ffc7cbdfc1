import KmlTree.Proofs.Tree.Arranged
import KmlTree.Text.Blank
import KmlTree.Tree.Edit

/-!
# Trees that conform to the schema

What is true of every tree that was read, in whatever order its children and attributes are stored.
Main statements: a conforming element is put together again from its name, its attributes and what
is in it, and it conforms still when it is arranged.
-/
namespace KmlTree

namespace Kind

def repeats (k : Kind) (position : Nat) : Bool := k.slots[position]?.any Slot.repeats

theorem repeats_of_slotFor? {parent child : Kind} {position : Nat} {slot : Slot}
    (h : parent.slotFor? child = some (position, slot)) : parent.repeats position = slot.repeats := by
  obtain ⟨entry, hfind, heq⟩ := Option.map_eq_some_iff.1 h
  cases heq
  have hmem := List.mem_of_find?_eq_some hfind
  have hget : parent.slots[entry.2]? = some entry.1 := List.mk_mem_zipIdx_iff_getElem?.1 hmem
  simp [repeats, hget]

theorem of_slotFor? {parent child : Kind} {position : Nat} {slot : Slot}
    (h : parent.slotFor? child = some (position, slot)) :
    child ≠ .unknown ∧ child.isAbstract = false := by
  obtain ⟨entry, hfind, -⟩ := Option.map_eq_some_iff.1 h
  have haccepts := List.find?_some hfind
  simp only [Slot.accepts, Bool.and_eq_true, bne_iff_ne, Bool.not_eq_true'] at haccepts
  exact haccepts.1

theorem ofTag_tag {k : Kind} (h : k.isAbstract = false) : ofTag k.tag = k := by
  have hall := of_all (p := fun k => k.isAbstract || ofTag k.tag == k) (by decide +kernel) k
  simpa [h] using hall

end Kind

namespace Element

open Text

/-- Each attribute of an element is stored once, among those that the kind declares or among the
others, and each child is stored as what it is. -/
structure Stored (e : Element) : Prop where
  declared : ∀ a ∈ e.attributes.keys, a ∈ e.kind.attributes
  declared_nodup : e.attributes.keys.Nodup
  other : ∀ key ∈ e.otherAttributes.keys, e.kind.attribute? key = none
  other_nodup : e.otherAttributes.keys.Nodup
  node : ∀ c ∈ e.children, c.node.toChild c.slot = c

/-- What is true of an element while it is read: it has a name and attributes of its kind, and holds
what the schema allows where it allows it. -/
structure Fitting (e : Element) : Prop extends Stored e where
  known : e.kind ≠ .unknown → e.writtenName? = none ∧ e.kind.isAbstract = false
  unnamed : e.kind = .unknown →
    e.writtenName? ≠ none ∧ e.children = [] ∧ ∀ u ∈ e.unknown, u.kind = .unknown
  text : e.kind ≠ .unknown → e.kind.hasText = false → e.text = ""
  simple : e.kind.isSimple = true → e.nodes = []
  placed : ∀ c ∈ e.children,
    c.kind ≠ .unknown ∧ ∃ slot, e.kind.slotFor? c.kind = some (c.slot, slot)
  room : (e.children.map Child.slot).Pairwise fun i j => i = j → e.kind.repeats i = true
  kept : e.kind ≠ .unknown → ∀ u ∈ e.unknown,
    (u.kind = .unknown ∧ Kind.ofTag u.name = .unknown) ∨
      (u.kind ≠ .unknown ∧ e.kind.slotFor? u.kind = none)

/-- What is true of an element once it is complete. -/
structure Conforms (e : Element) : Prop extends Fitting e where
  trimmed : e.nodes ≠ [] → trim e.text = e.text

variable {e : Element}

theorem Fitting.name_of_known (h : Fitting e) (hkind : e.kind ≠ .unknown) : e.name = e.kind.tag := by
  rw [name, (h.known hkind).1]
  rfl

theorem Fitting.name_of_unknown (h : Fitting e) (hkind : e.kind = .unknown) :
    e.writtenName? = some e.name := by
  obtain ⟨name, hname⟩ := Option.ne_none_iff_exists'.1 (h.unnamed hkind).1
  rw [Element.name, hname]
  rfl

/-! ## Putting an element together -/

theorem attach_placed {x : Element} {c : Child} {slot : Slot} (hx : x.kind ≠ .unknown)
    (hc : c.kind ≠ .unknown) (hslot : x.kind.slotFor? c.kind = some (c.slot, slot))
    (hnode : c.node.toChild c.slot = c)
    (hroom : ∀ d ∈ x.children, d.slot = c.slot → slot.repeats = true) :
    x.attach c.node = .ok ⟨{ x with children := x.children ++ [c] }, some x.children.length, none⟩ := by
  have hknown : ¬(x.kind = .unknown ∨ c.node.kind = .unknown) := by
    rw [Child.kind_node]
    exact not_or.2 ⟨hx, hc⟩
  rw [attach, if_neg hknown, Child.kind_node, hslot]
  simp only [hnode, place]
  cases hrepeats : slot.repeats with
  | true => rfl
  | false =>
    have hfree : x.children.findIdx? (fun d => d.slot == c.slot) = none := by
      refine List.findIdx?_eq_none_iff.2 fun d hd => ?_
      rw [hrepeats] at hroom
      simpa using fun heq : d.slot = c.slot => absurd (hroom d hd heq) (by decide)
    simp [hfree]

theorem Fitting.attach_child (h : Fitting e) (x : Element) {before after : List Child} {c : Child}
    (hkind : x.kind = e.kind) (hbefore : x.children = before)
    (hchildren : e.children = before ++ c :: after) :
    x.attach c.node = .ok ⟨{ x with children := before ++ [c] }, some before.length, none⟩ := by
  have hmem : c ∈ e.children := by simp [hchildren]
  obtain ⟨hc, slot, hslot⟩ := h.placed c hmem
  have hknown : e.kind ≠ .unknown := by
    intro heq
    rw [(h.unnamed heq).2.1] at hchildren
    simp at hchildren
  have hroom : ∀ d ∈ before, d.slot = c.slot → slot.repeats = true := by
    intro d hd heq
    have hpairwise := h.room
    rw [hchildren, List.map_append, List.map_cons, List.pairwise_append] at hpairwise
    have hrepeats := hpairwise.2.2 d.slot (List.mem_map_of_mem hd) c.slot List.mem_cons_self heq
    rwa [heq, Kind.repeats_of_slotFor? hslot] at hrepeats
  have hattach := attach_placed (x := x) (by rwa [hkind]) hc (by rwa [hkind]) (h.node c hmem)
    (by rwa [hbefore])
  rwa [hbefore] at hattach

def bare (e : Element) : Element := ⟨{ e.toHead with text := "" }, [], []⟩

theorem replaceOrAppend_of_not_mem {κ : Type} [DecidableEq κ] {key : κ} (value : String)
    {entries : List (κ × String)} (h : key ∉ entries.map Prod.fst) :
    AttributeMap.replaceOrAppend key value entries = entries ++ [(key, value)] := by
  induction entries with
  | nil => rfl
  | cons entry rest ih =>
    obtain ⟨k, v⟩ := entry
    simp only [List.map_cons, List.mem_cons, not_or] at h
    rw [AttributeMap.replaceOrAppend, if_neg (Ne.symm h.1), ih h.2]
    rfl

theorem foldl_declared (entries : List (Attribute × String)) (x : Element)
    (hkeys : ∀ entry ∈ entries, x.kind.attribute? entry.1.key = some entry.1)
    (hnodup : ((x.attributes.entries ++ entries).map Prod.fst).Nodup) :
    (entries.map fun entry => (entry.1.key, entry.2)).foldl
        (fun e (key, value) => e.setAttribute key value) x =
      { x with attributes := ⟨x.attributes.entries ++ entries⟩ } := by
  induction entries generalizing x with
  | nil =>
    cases x
    simp
  | cons entry rest ih =>
    obtain ⟨a, value⟩ := entry
    have hnew : a ∉ x.attributes.entries.map Prod.fst := by
      rw [List.map_append, List.nodup_append] at hnodup
      exact fun hmem => hnodup.2.2 a hmem a (by simp) rfl
    have hset : x.setAttribute a.key value =
        { x with attributes := ⟨x.attributes.entries ++ [(a, value)]⟩ } := by
      rw [setAttribute, hkeys (a, value) List.mem_cons_self]
      simp only [AttributeMap.insert, replaceOrAppend_of_not_mem value hnew]
    rw [List.map_cons, List.foldl_cons]
    change List.foldl _ (x.setAttribute a.key value) _ = _
    rw [hset, ih]
    · simp
    · exact fun entry hentry => hkeys entry (List.mem_cons_of_mem _ hentry)
    · simpa using hnodup

theorem foldl_other (entries : List (String × String)) (x : Element)
    (hkeys : ∀ entry ∈ entries, x.kind.attribute? entry.1 = none)
    (hnodup : ((x.otherAttributes.entries ++ entries).map Prod.fst).Nodup) :
    entries.foldl (fun e (key, value) => e.setAttribute key value) x =
      { x with otherAttributes := ⟨x.otherAttributes.entries ++ entries⟩ } := by
  induction entries generalizing x with
  | nil =>
    cases x
    simp
  | cons entry rest ih =>
    obtain ⟨key, value⟩ := entry
    have hnew : key ∉ x.otherAttributes.entries.map Prod.fst := by
      rw [List.map_append, List.nodup_append] at hnodup
      exact fun hmem => hnodup.2.2 key hmem key (by simp) rfl
    have hset : x.setAttribute key value =
        { x with otherAttributes := ⟨x.otherAttributes.entries ++ [(key, value)]⟩ } := by
      rw [setAttribute, hkeys (key, value) List.mem_cons_self]
      simp only [AttributeMap.insert, replaceOrAppend_of_not_mem value hnew]
    rw [List.foldl_cons]
    change List.foldl _ (x.setAttribute key value) _ = _
    rw [hset, ih]
    · simp
    · exact fun entry hentry => hkeys entry (List.mem_cons_of_mem _ hentry)
    · simpa using hnodup

/-- An element is put together from its name and its attributes. -/
theorem Fitting.foldl_stored (h : Fitting e) :
    e.storedAttributes.foldl (fun e (key, value) => e.setAttribute key value)
        ⟨{ kind := e.kind, writtenName? := e.writtenName? }, [], []⟩ = e.bare := by
  rw [storedAttributes, List.foldl_append, foldl_declared, foldl_other]
  · cases e
    rfl
  · exact fun entry hentry => h.other entry.1 (List.mem_map_of_mem hentry)
  · exact h.other_nodup
  · exact fun entry hentry => Kind.attribute?_key (h.declared entry.1 (List.mem_map_of_mem hentry))
  · exact h.declared_nodup

/-! ## Arranging -/

theorem isSimple_of_toChild {slot : Nat} (h : e.toChild slot = .element slot e) :
    e.kind.isSimple = false := by
  cases hsimple : e.kind.isSimple with
  | false => rfl
  | true =>
    rw [toChild, if_pos hsimple] at h
    cases h

theorem toChild_node_arrange (c : Child) (h : c.node.toChild c.slot = c) :
    c.arrange.node.toChild c.arrange.slot = c.arrange := by
  cases c with
  | field slot f => exact h
  | element slot e =>
    have hsimple : e.kind.isSimple = false := isSimple_of_toChild h
    rw [Child.arrange, Child.node, toChild, kind_arrange, hsimple]
    rfl

theorem kind_arrangeChild (c : Child) : c.arrange.kind = c.kind := by
  cases c with
  | field slot f => rfl
  | element slot e => exact e.kind_arrange

theorem Stored.arrange (h : Stored e) : Stored e.arrange where
  declared := by
    rw [kind_arrange]
    exact fun a ha => e.keys_arrange_sublist.subset ha
  declared_nodup := e.keys_arrange_sublist.nodup e.kind.nodup_attributes
  other := by
    rw [kind_arrange, otherAttributes_arrange]
    exact h.other
  other_nodup := by
    rw [otherAttributes_arrange]
    exact h.other_nodup
  node := by
    intro c hc
    obtain ⟨d, hd, rfl⟩ := mem_children_arrange.1 hc
    exact toChild_node_arrange d (h.node d hd)

theorem Fitting.arrange (h : Fitting e) : Fitting e.arrange where
  toStored := h.toStored.arrange
  known := by
    rw [kind_arrange, writtenName?_arrange]
    exact h.known
  unnamed := by
    rw [kind_arrange, writtenName?_arrange]
    intro hkind
    obtain ⟨hname, hchildren, hunknown⟩ := h.unnamed hkind
    refine ⟨hname, ?_, ?_⟩
    · rw [children_arrange, hchildren]
      rfl
    · rw [unknown_arrange]
      intro u hu
      obtain ⟨v, hv, rfl⟩ := List.mem_map.1 hu
      rw [kind_arrange]
      exact hunknown v hv
  text := by
    rw [kind_arrange, text_arrange]
    exact h.text
  simple := by
    rw [kind_arrange]
    exact fun hsimple => nodes_arrange_eq_nil_iff.2 (h.simple hsimple)
  placed := by
    intro c hc
    obtain ⟨d, hd, rfl⟩ := mem_children_arrange.1 hc
    rw [kind_arrange, kind_arrangeChild, Child.slot_arrange]
    exact h.placed d hd
  room := by
    have hslots : (e.arrange.children.map Child.slot).Perm (e.children.map Child.slot) := by
      have hperm := e.children_arrange_perm.map Child.slot
      rw [List.map_map] at hperm
      simpa [Function.comp_def] using hperm
    rw [kind_arrange]
    refine (hslots.pairwise_iff ?_).2 h.room
    rintro i j hij rfl
    exact hij rfl
  kept := by
    rw [kind_arrange, unknown_arrange]
    intro hkind u hu
    obtain ⟨v, hv, rfl⟩ := List.mem_map.1 hu
    rw [kind_arrange, name_arrange]
    exact h.kept hkind v hv

theorem Conforms.arrange (h : Conforms e) : Conforms e.arrange where
  toFitting := h.toFitting.arrange
  trimmed := by
    rw [text_arrange]
    exact fun hnodes => h.trimmed fun hnil => hnodes (nodes_arrange_eq_nil_iff.2 hnil)

end Element

end KmlTree
