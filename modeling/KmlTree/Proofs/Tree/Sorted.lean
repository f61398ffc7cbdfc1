import KmlTree.Proofs.Tree.Objects
import KmlTree.Proofs.Tree.Seated

/-!
# Trees with their children in the order of the schema

Sorting puts the known children of every element of a tree in the order of their places and leaves
all else as it is. Main statements: a sorted tree is arranged like the tree itself, holds the same
objects, and answers like the tree to whatever asks for children that share a place.
-/
namespace KmlTree

mutual

/-- The tree with the children of every element in the order of their places. -/
def Element.sorted : Element → Element
  | ⟨head, children, unknown⟩ =>
    ⟨head, sortByKey Child.slot (sortedChildren children), sortedAll unknown⟩

def sortedChildren : List Child → List Child
  | [] => []
  | .field slot f :: rest => .field slot f :: sortedChildren rest
  | .element slot e :: rest => .element slot e.sorted :: sortedChildren rest

def sortedAll : List Element → List Element
  | [] => []
  | e :: rest => e.sorted :: sortedAll rest

end

def Child.sorted : Child → Child
  | .field slot f => .field slot f
  | .element slot e => .element slot e.sorted

@[simp] theorem Child.slot_sorted (c : Child) : c.sorted.slot = c.slot := by
  cases c <;> rfl

@[simp] theorem Child.field?_sorted (c : Child) : c.sorted.field? = c.field? := by
  cases c <;> rfl

@[simp] theorem Child.element?_sorted (c : Child) :
    c.sorted.element? = c.element?.map Element.sorted := by
  cases c <;> rfl

theorem sortedChildren_eq (children : List Child) :
    sortedChildren children = children.map Child.sorted := by
  induction children with
  | nil => rfl
  | cons c rest ih => cases c <;> simp [sortedChildren, Child.sorted, ih]

theorem sortedAll_eq (es : List Element) : sortedAll es = es.map Element.sorted := by
  induction es with
  | nil => rfl
  | cons e rest ih => simp [sortedAll, ih]

namespace Element

/-- The element with its children sorted each for itself and left in the order in which they are. -/
def sortedBelow (e : Element) : Element :=
  { e with children := e.children.map Child.sorted, unknown := e.unknown.map sorted }

variable {e : Element} {kind : Kind}

@[simp] theorem toHead_sorted (e : Element) : e.sorted.toHead = e.toHead := by
  cases e
  rw [sorted]

@[simp] theorem isA_sorted (e : Element) (kind : Kind) : e.sorted.isA kind = e.isA kind := by
  rw [isA, isA, toHead_sorted]

@[simp] theorem objectId?_sorted (e : Element) : e.sorted.objectId? = e.objectId? := by
  rw [objectId?, objectId?, isA_sorted, attribute?, attribute?, toHead_sorted]

theorem children_sorted (e : Element) :
    e.sorted.children = (sortByKey Child.slot e.children).map Child.sorted := by
  have hkey : Child.slot ∘ Child.sorted = Child.slot := funext Child.slot_sorted
  have hmap := sortByKey_map Child.slot Child.sorted e.children
  rw [hkey, ← sortedChildren_eq] at hmap
  rw [← hmap]
  cases e
  rw [sorted]

theorem unknown_sorted (e : Element) : e.sorted.unknown = e.unknown.map sorted := by
  rw [← sortedAll_eq]
  cases e
  rw [sorted]

end Element

@[simp] theorem Child.kind_sorted (c : Child) : c.sorted.kind = c.kind := by
  cases c with
  | field slot f => rfl
  | element slot e => exact congrArg Head.kind e.toHead_sorted

theorem Child.sorted_toChild (slot : Nat) (e : Element) :
    (e.toChild slot).sorted = e.sorted.toChild slot := by
  unfold Element.toChild
  rw [Element.toHead_sorted]
  split <;> rfl

namespace Element

variable {e : Element} {kind : Kind}

theorem elements_sortedBelow (e : Element) : e.sortedBelow.elements = e.elements.map sorted := by
  have hcomp : Child.element? ∘ Child.sorted = fun c => c.element?.map sorted :=
    funext Child.element?_sorted
  rw [elements, elements, sortedBelow, List.filterMap_map, List.map_filterMap, hcomp]

theorem mem_elements_sorted {x : Element} :
    x ∈ e.sorted.elements ↔ ∃ c ∈ e.elements, c.sorted = x := by
  have hperm : (e.sorted.children.filterMap Child.element?).Perm
      ((e.children.map Child.sorted).filterMap Child.element?) := by
    rw [children_sorted]
    exact ((sortByKey_perm Child.slot e.children).map Child.sorted).filterMap Child.element?
  have helements : (e.children.map Child.sorted).filterMap Child.element? = e.elements.map sorted :=
    e.elements_sortedBelow
  rw [elements, hperm.mem_iff, helements, List.mem_map]

/-- What known children lead to in a sorted tree is what they lead to in the tree, sorted. -/
theorem within_sorted {x : Element} : Within e.sorted x ↔ ∃ y, Within e y ∧ y.sorted = x := by
  constructor
  · intro h
    induction h with
    | root => exact ⟨e, .root, rfl⟩
    | child _ hmem ih =>
      obtain ⟨y, hy, rfl⟩ := ih
      obtain ⟨c, hc, rfl⟩ := mem_elements_sorted.1 hmem
      exact ⟨c, hy.child hc, rfl⟩
  · rintro ⟨y, hy, rfl⟩
    induction hy with
    | root => exact .root
    | child _ hmem ih => exact ih.child (mem_elements_sorted.2 ⟨_, hmem, rfl⟩)

/-! ## Arranging -/

theorem arrange_ext {x y : Element} (hhead : x.toHead = y.toHead)
    (hchildren : x.arrange.children = y.arrange.children)
    (hunknown : x.arrange.unknown = y.arrange.unknown) : x.arrange = y.arrange := by
  cases x
  cases y
  cases hhead
  rw [arrange, arrange] at *
  exact congr (congrArg _ hchildren) hunknown

theorem arrange_eq_of_sorted {x : Element} (hhead : x.toHead = e.toHead)
    (hchildren : sortByKey Child.slot x.children = (sortByKey Child.slot e.children).map Child.sorted)
    (hunknown : x.unknown = e.unknown.map sorted)
    (known : ∀ c ∈ e.elements, c.sorted.arrange = c.arrange)
    (unknown : ∀ u ∈ e.unknown, u.sorted.arrange = u.arrange) : x.arrange = e.arrange := by
  refine arrange_ext hhead ?_ ?_
  · rw [children_arrange, children_arrange, hchildren, List.map_map]
    refine List.map_congr_left fun c hc => ?_
    cases c with
    | field slot f => rfl
    | element slot c =>
      have hmem := (sortByKey_perm Child.slot e.children).mem_iff.1 hc
      exact congrArg (Child.element slot) (known c (List.mem_filterMap.2 ⟨_, hmem, rfl⟩))
  · rw [unknown_arrange, unknown_arrange, hunknown, List.map_map]
    exact List.map_congr_left unknown

/-- Sorting does nothing that arranging does not. -/
theorem arrange_sorted (e : Element) : e.sorted.arrange = e.arrange := by
  induction e using inductionOn with
  | step e known unknown =>
  refine arrange_eq_of_sorted e.toHead_sorted ?_ e.unknown_sorted known unknown
  rw [children_sorted]
  refine sortByKey_eq_self Child.slot (List.pairwise_map.2 ?_)
  simpa using sortByKey_pairwise Child.slot e.children

theorem arrange_sortedBelow (e : Element) : e.sortedBelow.arrange = e.arrange := by
  refine arrange_eq_of_sorted rfl ?_ rfl (fun c _ => c.arrange_sorted) fun u _ => u.arrange_sorted
  have hkey : Child.slot ∘ Child.sorted = Child.slot := funext Child.slot_sorted
  rw [sortedBelow, sortByKey_map, hkey]

/-! ## Identifiers -/

theorem ids_sorted_perm (e : Element) : e.sorted.ids.Perm e.ids := by
  induction e using inductionOn with
  | step e known _ =>
    have hperm : e.sorted.children.Perm (e.children.map Child.sorted) := by
      rw [children_sorted]
      exact (sortByKey_perm Child.slot e.children).map Child.sorted
    refine ids_perm e.objectId?_sorted hperm fun c hc => ?_
    cases c with
    | field slot f => exact .refl _
    | element slot c => exact known c (List.mem_filterMap.2 ⟨_, hc, rfl⟩)

end Element

/-! ## Children that share a place -/

/-- In whatever parent, children of the kinds in question have one place. -/
def Kind.Together (q : Kind → Bool) : Prop :=
  ∀ ⦃parent c c' : Kind⦄ ⦃found found' : Nat × Slot⦄, q c = true → q c' = true →
    parent.slotFor? c = some found → parent.slotFor? c' = some found' → found.1 = found'.1

theorem Kind.together_of_eq {q : Kind → Bool} {kind : Kind} (h : ∀ c, q c = true → c = kind) :
    Together q := by
  intro parent c c' found found' hc hc' hfound hfound'
  rw [h c hc] at hfound
  rw [h c' hc', hfound] at hfound'
  rw [Option.some.inj hfound']

theorem Kind.together_pair : Together fun c => c.isA .pair := by
  have hpair (c : Kind) (hc : c.isA .pair = true) : c = .pair := by
    have hall := of_all (p := fun c => !c.isA .pair || c == .pair) (by decide +kernel) c
    simpa [hc] using hall
  exact together_of_eq hpair

theorem Kind.together_styleSelector : Together fun c => c.isA .styleSelector := by
  have hsame (parent : Kind) : parent.slotFor? .styleMap = parent.slotFor? .style := by
    simpa using of_all (p := fun p => p.slotFor? .styleMap == p.slotFor? .style)
      (by decide +kernel) parent
  have hstyle {parent c : Kind} {found : Nat × Slot} (hc : c.isA .styleSelector = true)
      (hfound : parent.slotFor? c = some found) : parent.slotFor? .style = some found := by
    have hmember := of_all (p := fun c => !c.isA .styleSelector || c.isAbstract || c == .style ||
      c == .styleMap) (by decide +kernel) c
    obtain ⟨-, hconcrete⟩ := of_slotFor? hfound
    simp only [hc, hconcrete, Bool.not_true, Bool.false_or, Bool.or_eq_true, beq_iff_eq] at hmember
    rcases hmember with rfl | rfl
    · exact hfound
    · rw [← hsame, hfound]
  intro parent c c' found found' hc hc' hfound hfound'
  have heq := (hstyle hc hfound).symm.trans (hstyle hc' hfound')
  rw [Option.some.inj heq]

namespace Element

variable {e : Element} {q : Kind → Bool}

theorem filter_elements (e : Element) (q : Kind → Bool) :
    (e.elements.filter fun c => q c.kind) =
      (e.children.filter fun c => q c.kind).filterMap Child.element? := by
  unfold elements
  rw [List.filter_filterMap, List.filterMap_filter]
  congr 1
  funext c
  cases c with
  | field slot f => exact (ite_self none).symm
  | element slot e => rfl

theorem filter_fields (e : Element) (q : Kind → Bool) :
    (e.fields.filter fun f => q f.kind) =
      (e.children.filter fun c => q c.kind).filterMap Child.field? := by
  unfold fields
  rw [List.filter_filterMap, List.filterMap_filter]
  congr 1
  funext c
  cases c with
  | field slot f => rfl
  | element slot e => exact (ite_self none).symm

/-- Children that share a place keep their order. -/
theorem Seated.filter_children_sorted (h : Seated e) (hq : Kind.Together q) :
    (e.sorted.children.filter fun c => q c.kind) =
      (e.children.filter fun c => q c.kind).map Child.sorted := by
  have hfilter : (sortByKey Child.slot e.children).filter (fun c => q c.kind) =
      e.children.filter fun c => q c.kind := by
    refine filter_sortByKey Child.slot fun c hc d hd hqc hqd => ?_
    obtain ⟨slot, hslot⟩ := h.placed c hc
    obtain ⟨slot', hslot'⟩ := h.placed d hd
    exact hq hqc hqd hslot hslot'
  rw [children_sorted, List.filter_map, ← hfilter]
  simp [Function.comp_def]

theorem Seated.filter_elements_sorted (h : Seated e) (hq : Kind.Together q) :
    (e.sorted.elements.filter fun c => q c.kind) =
      (e.elements.filter fun c => q c.kind).map sorted := by
  have hcomp : Child.element? ∘ Child.sorted = fun c => c.element?.map sorted :=
    funext Child.element?_sorted
  rw [filter_elements, filter_elements, h.filter_children_sorted hq, List.filterMap_map,
    List.map_filterMap, hcomp]

theorem Seated.fieldText?_sorted (h : Seated e) (kind : Kind) :
    e.sorted.fieldText? kind = e.fieldText? kind := by
  have hq : Kind.Together fun c => c == kind := Kind.together_of_eq fun c hc => eq_of_beq hc
  have hfields : (e.sorted.fields.filter fun f => f.kind == kind) =
      e.fields.filter fun f => f.kind == kind := by
    have hcomp : Child.field? ∘ Child.sorted = Child.field? := funext Child.field?_sorted
    rw [filter_fields e.sorted (· == kind), filter_fields e (· == kind),
      h.filter_children_sorted hq, List.filterMap_map, hcomp]
  rw [fieldText?, fieldText?, ← List.head?_filter, ← List.head?_filter, hfields]

theorem Seated.find?_sorted (h : Seated e) {kind : Kind}
    (hq : Kind.Together fun c => c.isA kind) :
    e.sorted.find? kind = (e.find? kind).map sorted := by
  have helements := h.filter_elements_sorted hq
  unfold find? isA
  rw [← List.head?_filter, ← List.head?_filter, helements, List.head?_map]

end Element

end KmlTree
