import KmlTree.Tree.Element

/-!
# Sizes of trees

The number of nodes of a tree, which bounds every way down from its root.
-/
namespace KmlTree

mutual

/-- The number of elements and fields in a tree, unknown content included. -/
def Element.size : Element → Nat
  | ⟨_, children, unknown⟩ => 1 + sizeOfChildren children + sizeOfUnknown unknown

def sizeOfChildren : List Child → Nat
  | [] => 0
  | .field .. :: rest => 1 + sizeOfChildren rest
  | .element _ e :: rest => e.size + sizeOfChildren rest

def sizeOfUnknown : List Element → Nat
  | [] => 0
  | e :: rest => e.size + sizeOfUnknown rest

end

namespace Element

theorem size_pos (e : Element) : 0 < e.size := by
  cases e
  rw [size]
  omega

theorem size_le_sizeOfChildren {e : Element} {children : List Child}
    (h : e ∈ children.filterMap Child.element?) : e.size ≤ sizeOfChildren children := by
  induction children with
  | nil => simp at h
  | cons c rest ih =>
    cases c with
    | field slot f =>
      have h : e ∈ rest.filterMap Child.element? := h
      have := ih h
      simp only [sizeOfChildren]
      omega
    | element slot e' =>
      have h : e ∈ e' :: rest.filterMap Child.element? := h
      simp only [sizeOfChildren]
      rcases List.mem_cons.1 h with rfl | h
      · omega
      · have := ih h
        omega

theorem size_lt_of_mem_elements {e parent : Element} (h : e ∈ parent.elements) :
    e.size < parent.size := by
  obtain ⟨head, children, unknown⟩ := parent
  have : e.size ≤ sizeOfChildren children := size_le_sizeOfChildren h
  rw [size]
  omega

end Element

end KmlTree
