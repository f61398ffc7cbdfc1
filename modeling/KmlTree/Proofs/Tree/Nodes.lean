import KmlTree.Tree.Size

/-!
# Nodes of a tree

A tree is taken apart along its elements, known and unknown alike. An element is within another one
if known children lead to it, so nothing in unknown content is. Where it does not matter what a field
is, it is taken for an element that holds nothing but text.
-/
namespace KmlTree

theorem size_le_sizeOfUnknown {e : Element} {unknown : List Element} (h : e ∈ unknown) :
    e.size ≤ sizeOfUnknown unknown := by
  induction unknown with
  | nil => simp at h
  | cons u rest ih =>
    rw [sizeOfUnknown]
    rcases List.mem_cons.1 h with rfl | h
    · omega
    · have := ih h
      omega

namespace Element

theorem size_lt_of_mem_unknown {e parent : Element} (h : e ∈ parent.unknown) :
    e.size < parent.size := by
  obtain ⟨head, children, unknown⟩ := parent
  have : e.size ≤ sizeOfUnknown unknown := size_le_sizeOfUnknown h
  rw [size]
  omega

/-- What holds of an element as soon as it holds of the elements in it holds of all elements. -/
@[elab_as_elim]
theorem inductionOn {motive : Element → Prop} (e : Element)
    (step : ∀ e : Element, (∀ c ∈ e.elements, motive c) → (∀ u ∈ e.unknown, motive u) → motive e) :
    motive e :=
  step e
    (fun c hc =>
      have := size_lt_of_mem_elements hc
      inductionOn c step)
    (fun u hu =>
      have := size_lt_of_mem_unknown hu
      inductionOn u step)
termination_by e.size

/-- The elements that known children lead to. -/
inductive Within (root : Element) : Element → Prop
  | root : Within root root
  | child {parent e : Element} : Within root parent → e ∈ parent.elements → Within root e

theorem Within.trans {root parent e : Element} (h : Within root parent) (he : Within parent e) :
    Within root e := by
  induction he with
  | root => exact h
  | child _ hmem ih => exact ih.child hmem

theorem within_iff {root e : Element} :
    Within root e ↔ e = root ∨ ∃ c ∈ root.elements, Within c e := by
  constructor
  · intro h
    induction h with
    | root => exact Or.inl rfl
    | child _ hmem ih =>
      rcases ih with rfl | ⟨c, hc, hwithin⟩
      · exact Or.inr ⟨_, hmem, .root⟩
      · exact Or.inr ⟨c, hc, hwithin.child hmem⟩
  · rintro (rfl | ⟨c, hc, hwithin⟩)
    · exact .root
    · exact (Within.root.child hc).trans hwithin

/-- A property of every element of a tree, unknown content included. -/
inductive All (P : Element → Prop) : Element → Prop
  | intro {e : Element} (self : P e) (known : ∀ c ∈ e.elements, All P c)
    (unknown : ∀ u ∈ e.unknown, All P u) : All P e

namespace All

variable {P Q : Element → Prop} {e : Element}

theorem self (h : All P e) : P e := by
  cases h
  assumption

theorem known (h : All P e) : ∀ c ∈ e.elements, All P c := by
  cases h
  assumption

theorem unknown (h : All P e) : ∀ u ∈ e.unknown, All P u := by
  cases h
  assumption

theorem imp (hPQ : ∀ e, P e → Q e) (h : All P e) : All Q e := by
  induction h with
  | intro self _ _ known unknown => exact .intro (hPQ _ self) known unknown

theorem and (h : All P e) (h' : All Q e) : All (fun e => P e ∧ Q e) e := by
  induction h with
  | intro self _ _ known unknown =>
    exact .intro ⟨self, h'.self⟩ (fun c hc => known c hc (h'.known c hc))
      fun u hu => unknown u hu (h'.unknown u hu)

theorem congr {e' : Element} (h : All P e) (hself : P e') (hchildren : e'.children = e.children)
    (hunknown : e'.unknown = e.unknown) : All P e' := by
  refine .intro hself ?_ ?_
  · rw [elements, hchildren]
    exact h.known
  · rw [hunknown]
    exact h.unknown

end All

end Element

/-! ## Fields as elements -/

/-- The element that a field is written as. -/
def Field.element (f : Field) : Element := { kind := f.kind, text := f.text }

/-- A child as an element, be it a field or not. -/
def Child.node : Child → Element
  | .field _ f => f.element
  | .element _ e => e

@[simp] theorem Child.kind_node (c : Child) : c.node.kind = c.kind := by
  cases c <;> rfl

namespace Element

def nodes (e : Element) : List Element := e.children.map Child.node ++ e.unknown

theorem nodes_eq_nil_iff {e : Element} : e.nodes = [] ↔ e.children = [] ∧ e.unknown = [] := by
  simp [nodes]

theorem nodes_element (f : Field) : f.element.nodes = [] := rfl

@[elab_as_elim]
theorem inductionOnNodes {motive : Element → Prop} (e : Element)
    (step : ∀ e : Element, (∀ n ∈ e.nodes, motive n) → motive e) : motive e := by
  induction e using inductionOn with
  | step e known unknown =>
    refine step e fun n hn => ?_
    rcases List.mem_append.1 hn with hn | hn
    · obtain ⟨c, hc, rfl⟩ := List.mem_map.1 hn
      cases c with
      | field slot f => exact step f.element (by simp [nodes_element])
      | element slot c => exact known c (List.mem_filterMap.2 ⟨_, hc, rfl⟩)
    · exact unknown n hn

/-- A property of every element and field of a tree. -/
inductive Every (P : Element → Prop) : Element → Prop
  | intro {e : Element} (self : P e) (nodes : ∀ n ∈ e.nodes, Every P n) : Every P e

namespace Every

variable {P Q : Element → Prop} {e : Element}

theorem self (h : Every P e) : P e := by
  cases h
  assumption

theorem nodes (h : Every P e) : ∀ n ∈ e.nodes, Every P n := by
  cases h
  assumption

theorem all (h : Every P e) : All P e := by
  induction h with
  | intro self _ ih =>
    refine .intro self (fun c hc => ?_) fun u hu => ih u (List.mem_append_right _ hu)
    obtain ⟨child, hmem, hchild⟩ := List.mem_filterMap.1 hc
    cases child with
    | field slot f => cases hchild
    | element slot c' =>
      cases hchild
      exact ih c (List.mem_append_left _ (List.mem_map_of_mem hmem))

end Every

theorem All.every {P Q : Element → Prop} {e : Element} (h : All P e) (self : ∀ e, P e → Q e)
    (field : ∀ e, P e → ∀ slot f, .field slot f ∈ e.children → Q f.element) : Every Q e := by
  induction h with
  | @intro e hself _ _ known unknown =>
    refine .intro (self e hself) fun n hn => ?_
    rcases List.mem_append.1 hn with hn | hn
    · obtain ⟨c, hc, rfl⟩ := List.mem_map.1 hn
      cases c with
      | field slot f => exact .intro (field e hself slot f hc) (by simp [Child.node, nodes_element])
      | element slot c => exact known c (List.mem_filterMap.2 ⟨_, hc, rfl⟩)
    · exact unknown n hn

/-- There are no more than a number of levels of elements and fields. -/
inductive NestsWithin : Nat → Element → Prop
  | intro {room : Nat} {e : Element} (nodes : ∀ n ∈ e.nodes, NestsWithin room n) :
      NestsWithin (room + 1) e

theorem NestsWithin.pos {room : Nat} {e : Element} (h : NestsWithin room e) : 0 < room := by
  cases h
  exact Nat.succ_pos _

end Element

end KmlTree
