import KmlTree.Proofs.Document.Written
import KmlTree.Proofs.Markup.Names
import KmlTree.Proofs.Reading.Conformance
import Mathlib.Tactic.MkIffOfInductiveProp

/-!
# Canonical trees

A tree is canonical when it is stored as a reading would store it: in the order of the schema, with
names that are read back, and without anything that only trees built by hand have. Main statement: a
canonical tree can be written and read again.
-/
namespace KmlTree

open Markup Text

namespace Kind

theorem isTagName_tag {k : Kind} (h : k ≠ .unknown) : IsTagName k.tag := by
  have hall := of_all (p := fun k => k == .unknown || decide (IsTagName k.tag)) (by decide +kernel) k
  simpa [h] using hall

end Kind

theorem Attribute.isKey_key (a : Attribute) : IsKey a.key := by
  cases a <;> decide

namespace Element

/-- What an element keeps under a name or key of its own is read back under this name or key. -/
structure Legible (e : Element) : Prop where
  name : e.kind = .unknown → NameReadsBack e.name
  keys : ∀ key ∈ e.otherAttributes.keys, KeyReadsBack key

/-- No prefix that an element declares stands for a namespace in which names are read without it. -/
def Unbound (e : Element) : Prop :=
  ∀ entry ∈ e.otherAttributes.entries, declaredPrefix? entry.1 ≠ none → entry.2 ∉ kmlNamespaces

instance (e : Element) : Decidable e.Unbound :=
  inferInstanceAs (Decidable (∀ entry ∈ e.otherAttributes.entries,
    declaredPrefix? entry.1 ≠ none → entry.2 ∉ kmlNamespaces))

/-- How an element of a canonical tree is stored. -/
structure Regular (e : Element) : Prop extends Ordered e, Legible e where
  known : e.kind ≠ .unknown → e.kind.isAbstract = false ∧ e.writtenName? = none
  notSimple : e.kind.isSimple = false
  placed : ∀ c ∈ e.children, ∃ slot, e.kind.slotFor? c.kind = some (c.slot, slot)
  room : (e.children.map Child.slot).Pairwise fun i j => i = j → e.kind.repeats i = true
  unnamed : ∀ u ∈ e.unknown, u.kind = .unknown
  childless : e.kind = .unknown → e.children = []
  unrecognised : e.kind ≠ .unknown → ∀ u ∈ e.unknown, Kind.ofTag u.name = .unknown
  text : e.kind ≠ .unknown → e.kind.hasText = false → e.text = ""
  trimmed : e.nodes ≠ [] → trim e.text = e.text
  unbound : Unbound e

/-! ## Deciding how an element is stored -/

attribute [mk_iff] Ordered Legible Regular

instance (name : String) : Decidable (NameReadsBack name) :=
  decidable_of_iff _ nameReadsBack_iff.symm

instance (key : String) : Decidable (KeyReadsBack key) :=
  decidable_of_iff _ keyReadsBack_iff.symm

/-- The number of a place tells whether a child is in its place. -/
theorem exists_slotFor?_iff {k : Kind} {c : Child} :
    (∃ slot, k.slotFor? c.kind = some (c.slot, slot)) ↔
      (k.slotFor? c.kind).map Prod.fst = some c.slot := by
  simp [Option.map_eq_some_iff]

instance (k : Kind) (c : Child) : Decidable (∃ slot, k.slotFor? c.kind = some (c.slot, slot)) :=
  decidable_of_iff _ exists_slotFor?_iff.symm

instance (e : Element) : Decidable e.Ordered := decidable_of_iff _ (ordered_iff e).symm

instance (e : Element) : Decidable e.Legible := decidable_of_iff _ (legible_iff e).symm

instance (e : Element) : Decidable e.Regular := decidable_of_iff _ (regular_iff e).symm

/-! ## Canonical trees -/

/-- The tree of a known root is stored as a reading would store it. -/
structure Canonical (root : Element) : Prop where
  known : root.kind ≠ .unknown
  regular : root.All Regular
  ids_nodup : root.ids.Nodup

variable {e : Element}

theorem Regular.conforms (h : Regular e) (hs : Stored e) : Conforms e where
  toStored := hs
  known := fun hkind => (h.known hkind).symm
  unnamed := by
    intro hkind
    refine ⟨fun hnone => ?_, h.childless hkind, h.unnamed⟩
    have hname : e.name = "" := by
      rw [Element.name, hnone, hkind]
      rfl
    have hempty := (nameReadsBack_iff.1 (h.name hkind)).ne_nil
    rw [hname] at hempty
    exact hempty rfl
  text := h.text
  simple := by
    intro hsimple
    rw [h.notSimple] at hsimple
    cases hsimple
  placed := by
    intro c hc
    obtain ⟨slot, hslot⟩ := h.placed c hc
    exact ⟨(Kind.of_slotFor? hslot).1, slot, hslot⟩
  room := h.room
  kept := fun hkind u hu => Or.inl ⟨h.unnamed u hu, h.unrecognised hkind u hu⟩
  trimmed := h.trimmed

/-! ## Attributes -/

theorem Stored.nodup_keys (h : Stored e) : (e.storedAttributes.map Prod.fst).Nodup := by
  have hkey {a b : Attribute} (heq : a.key = b.key) : a = b := by
    have hof := congrArg Attribute.ofKey? heq
    simpa using hof
  rw [storedAttributes, List.map_append, List.map_map]
  refine List.nodup_append.2 ⟨?_, h.other_nodup, ?_⟩
  · have hdeclared : (e.attributes.keys.map Attribute.key).Nodup :=
      List.Pairwise.map _ (fun a b hne heq => hne (hkey heq)) h.declared_nodup
    rwa [AttributeMap.keys, List.map_map] at hdeclared
  · intro key hdeclared other hother heq
    obtain ⟨entry, hentry, rfl⟩ := List.mem_map.1 hdeclared
    have hnone := h.other other hother
    have hsome := Kind.attribute?_key (h.declared entry.1 (List.mem_map_of_mem hentry))
    rw [← heq] at hnone
    change e.kind.attribute? entry.1.key = none at hnone
    rw [hsome] at hnone
    cases hnone

theorem Legible.readsBack (h : Legible e) (hf : Fitting e) : ReadsBack e where
  name := by
    by_cases hkind : e.kind = .unknown
    · exact nameReadsBack_iff.1 (h.name hkind)
    · rw [hf.name_of_known hkind]
      exact Kind.isTagName_tag hkind
  keys := by
    intro entry hentry
    rcases List.mem_append.1 hentry with hentry | hentry
    · obtain ⟨declared, -, rfl⟩ := List.mem_map.1 hentry
      exact declared.1.isKey_key
    · exact keyReadsBack_iff.1 (h.keys entry.1 (List.mem_map_of_mem hentry))
  nodup := hf.toStored.nodup_keys

theorem readsBack_element {f : Field} (h : f.kind ≠ .unknown) : ReadsBack f.element where
  name := Kind.isTagName_tag h
  keys := by
    intro entry hentry
    cases hentry
  nodup := .nil

theorem every_readsBack (hc : e.All Conforms) (hl : e.All Legible) : e.Every ReadsBack :=
  (hc.and hl).every (fun _ he => he.2.readsBack he.1.toFitting)
    fun _ he _ _ hf => readsBack_element (he.1.placed _ hf).1

/-! ## Names -/

/-- No prefix stands for a namespace in which names are read without it. -/
def Foreign (scope : List (List (String × Bool))) : Prop :=
  ∀ prefixes ∈ scope, ∀ entry ∈ prefixes, entry.2 = false

theorem Foreign.nameIn_eq {scope : List (List (String × Bool))} (h : Foreign scope) (name : String) :
    Builder.nameIn scope name = name := by
  unfold Builder.nameIn
  cases splitPrefix? name with
  | none => rfl
  | some parts =>
    have hnot : ((scope.findSome? (·.lookup parts.1)).getD false) = false := by
      cases hfind : scope.findSome? (·.lookup parts.1) with
      | none => rfl
      | some value =>
        obtain ⟨prefixes, hprefixes, hlookup⟩ := List.exists_of_findSome?_eq_some hfind
        obtain ⟨before, after, rfl, -⟩ := List.lookup_eq_some_iff.1 hlookup
        exact h _ hprefixes (parts.1, value) (by simp)
    simp only [hnot, Bool.false_eq_true, if_false]

theorem Foreign.cons {scope : List (List (String × Bool))} (h : Foreign scope) (he : Unbound e) :
    Foreign (Builder.prefixesOf e :: scope) := by
  intro prefixes hprefixes entry hentry
  rcases List.mem_cons.1 hprefixes with rfl | hprefixes
  · obtain ⟨⟨key, value⟩, hmem, heq⟩ := List.mem_filterMap.1 hentry
    obtain ⟨p, hp, rfl⟩ := Option.map_eq_some_iff.1 heq
    have hvalue := he (key, value) hmem (by simp [hp])
    simpa using hvalue
  · exact h prefixes hprefixes entry hentry

theorem unprefixed_of_foreign (h : e.All Unbound) {scope : List (List (String × Bool))}
    (hscope : Foreign scope) : e.Unprefixed scope := by
  induction h generalizing scope with
  | @intro e self _ unknown ihKnown ihUnknown =>
    have hown : Foreign (Builder.prefixesOf e :: scope) := hscope.cons self
    refine .intro (fun _ u hu _ => ?_) fun n hn => ?_
    · exact (hown.cons (unknown u hu).self).nameIn_eq u.name
    · rcases List.mem_append.1 hn with hn | hn
      · obtain ⟨c, hc, rfl⟩ := List.mem_map.1 hn
        cases c with
        | field slot f =>
          exact .intro (by simp [Child.node, Field.element]) (by simp [Child.node, nodes_element])
        | element slot c => exact ihKnown c (List.mem_filterMap.2 ⟨_, hc, rfl⟩) hown
      · exact ihUnknown n hn hown

/-! ## The whole tree -/

theorem isSimple_of_field {slot : Nat} {f : Field} (hs : Stored e)
    (h : .field slot f ∈ e.children) : f.kind.isSimple = true := by
  have hnode := hs.node _ h
  cases hsimple : f.kind.isSimple with
  | true => rfl
  | false => simp [Child.node, Child.slot, Field.element, toChild, hsimple] at hnode

theorem Canonical.conforms {root : Element} (h : root.Canonical) (hs : root.All Stored) :
    root.Every Conforms :=
  (h.regular.and hs).every (fun _ he => he.1.conforms he.2)
    fun _ he _ _ hf => conforms_element (isSimple_of_field he.2 hf)

theorem Canonical.neat {root : Element} (h : root.Canonical) : root.Neat :=
  h.regular.imp fun _ he _ => he.unnamed

/-- A canonical tree can be written and read again. -/
theorem Canonical.writable {root : Element} (h : root.Canonical) (hs : root.All Stored)
    {options : ReadOptions} (hnests : root.NestsWithin options.maxDepth) :
    root.Writable options where
  conforms := h.conforms hs
  readsBack := every_readsBack (h.conforms hs).all (h.regular.imp fun _ he => he.toLegible)
  known := h.known
  notSimple := h.regular.self.notSimple
  nests := hnests
  unprefixed := unprefixed_of_foreign (h.regular.imp fun _ he => he.unbound) (by simp [Foreign])
  lenient := fun _ => h.neat

end Element

end KmlTree
