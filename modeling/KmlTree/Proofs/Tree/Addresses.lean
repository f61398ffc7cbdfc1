import KmlTree.Proofs.Tree.Arranged
import KmlTree.Tree.Walk
import Mathlib.Data.List.Nodup

/-!
# Addresses

An address leads from a node of a tree to one below it, and tells of each step whether it goes to
a stored child or into unknown content. A path of positions does not tell this, so only an address
tells every two nodes apart. Main statements: the nodes of a tree in the order of a walk are those
that there is an address for, each of them once, and no node comes before one that is above it.
-/
namespace KmlTree

/-- A node of a tree. -/
inductive Part
  | element (e : Element)
  | field (f : Field)
  deriving DecidableEq

def Child.part : Child → Part
  | .field _ f => .field f
  | .element _ e => .element e

/-- A step from an element to a node that it holds, by the position of the node among the stored
children or the unknown ones. -/
inductive Edge
  | known (i : Nat)
  | unknown (i : Nat)
  deriving DecidableEq, Repr

namespace Edge

def index : Edge → Nat
  | .known i | .unknown i => i

def entersUnknown : Edge → Bool
  | .known _ => false
  | .unknown _ => true

end Edge

/-- The steps from a node to one below it. -/
abbrev Address := List Edge

theorem map_known_map_index {a : Address} (h : a.any Edge.entersUnknown = false) :
    (a.map Edge.index).map Edge.known = a := by
  rw [List.map_map]
  refine (List.map_congr_left fun edge hedge => ?_).trans (List.map_id a)
  have hknown := List.any_eq_false.1 h edge hedge
  cases edge with
  | known i => rfl
  | unknown i => exact absurd rfl hknown

theorem map_index_map_known (path : List Nat) : (path.map Edge.known).map Edge.index = path := by
  rw [List.map_map]
  exact List.map_id path

theorem any_map_known (path : List Nat) : (path.map Edge.known).any Edge.entersUnknown = false := by
  simp [Edge.entersUnknown]

def Element.follow? (e : Element) : Edge → Option Part
  | .known i => e.children[i]?.map Child.part
  | .unknown i => e.unknown[i]?.map Part.element

namespace Part

def element? : Part → Option Element
  | .element e => some e
  | .field _ => none

def at? (p : Part) : Address → Option Part
  | [] => some p
  | edge :: rest => (p.element?.bind (·.follow? edge)).bind (·.at? rest)

variable {p q : Part}

theorem at?_cons_eq_some_iff {edge : Edge} {rest : Address} :
    p.at? (edge :: rest) = some q ↔
      ∃ e c, p = .element e ∧ e.follow? edge = some c ∧ c.at? rest = some q := by
  cases p <;> simp [at?, element?, Option.bind_eq_some_iff]

theorem at?_append (p : Part) (a b : Address) : p.at? (a ++ b) = (p.at? a).bind (·.at? b) := by
  induction a generalizing p with
  | nil => rfl
  | cons edge rest ih =>
    rw [List.cons_append, at?, at?]
    cases p.element?.bind (·.follow? edge) with
    | none => rfl
    | some c => exact ih c

theorem exists_element_of_at?_append {a b : Address} (h : p.at? (a ++ b) = some q) (hb : b ≠ []) :
    ∃ e, p.at? a = some (.element e) := by
  rw [at?_append, Option.bind_eq_some_iff] at h
  obtain ⟨c, hc, hq⟩ := h
  obtain ⟨edge, rest, rfl⟩ := List.exists_cons_of_ne_nil hb
  obtain ⟨e, -, rfl, -, -⟩ := at?_cons_eq_some_iff.1 hq
  exact ⟨e, hc⟩

/-- A bound for the recursion over nodes. -/
def size : Part → Nat
  | .element e => e.size
  | .field _ => 0

end Part

/-! ## What an element holds -/

namespace Element

/-- What an element holds, in the order of a walk: the stored children in the order asked for, and
after them what is unknown. -/
def parts (order : Order) (e : Element) : List (Edge × Part) :=
  let known : List (Edge × Part) :=
    match order with
    | .document => e.children.zipIdx.map fun (c, i) => (.known i, c.part)
    | .schema => e.childrenBySlot.map fun (i, c) => (.known i, c.part)
  known ++ e.unknown.zipIdx.map fun (u, i) => (.unknown i, .element u)

variable {e : Element} {order : Order} {edge : Edge} {p : Part}

/-- The order of a walk changes the order of the stored children and nothing else. -/
theorem parts_perm (order : Order) (e : Element) : (e.parts order).Perm (e.parts .document) := by
  cases order with
  | document => exact .refl _
  | schema =>
    refine List.Perm.append_right _ ?_
    have hperm := (sortByKey_perm (fun entry : Child × Nat => entry.1.slot) e.children.zipIdx).map
      fun (c, i) => ((.known i, c.part) : Edge × Part)
    rw [childrenBySlot, List.map_map]
    exact hperm

theorem mem_parts : (edge, p) ∈ e.parts order ↔ e.follow? edge = some p := by
  rw [(parts_perm order e).mem_iff]
  cases edge <;> simp [parts, follow?, List.mem_zipIdx_iff_getElem?]

theorem nodup_edges (order : Order) (e : Element) : ((e.parts order).map Prod.fst).Nodup := by
  rw [((parts_perm order e).map Prod.fst).nodup_iff]
  have hindices {α : Type} (xs : List α) (f : Nat → Edge) (hf : Function.Injective f) :
      (xs.zipIdx.map fun entry => f entry.2).Nodup := by
    have hnodup : (xs.zipIdx.map Prod.snd).Nodup := by
      rw [List.zipIdx_map_snd]
      exact List.nodup_range'
    have hmap := hnodup.map hf
    rwa [List.map_map] at hmap
  rw [parts, List.map_append, List.map_map, List.map_map]
  refine List.nodup_append.2 ⟨hindices e.children .known fun i j h => by injection h,
    hindices e.unknown .unknown fun i j h => by injection h, ?_⟩
  intro a ha b hb heq
  obtain ⟨_, -, rfl⟩ := List.mem_map.1 ha
  obtain ⟨_, -, rfl⟩ := List.mem_map.1 hb
  cases heq

theorem size_lt_of_mem_parts (h : (edge, p) ∈ e.parts order) : p.size < e.size := by
  rw [mem_parts] at h
  cases edge with
  | known i =>
    obtain ⟨c, hc, rfl⟩ := Option.map_eq_some_iff.1 h
    cases c with
    | field slot f => exact e.size_pos
    | element slot c =>
      exact size_lt_of_mem_elements (List.mem_filterMap.2 ⟨_, List.mem_of_getElem? hc, rfl⟩)
  | unknown i =>
    obtain ⟨u, hu, rfl⟩ := Option.map_eq_some_iff.1 h
    exact size_lt_of_mem_unknown (List.mem_of_getElem? hu)

end Element

/-! ## The nodes of a tree -/

def under (a : Address) (nodes : List (Address × Part)) : List (Address × Part) :=
  nodes.map fun (b, p) => (a ++ b, p)

theorem under_nil (nodes : List (Address × Part)) : under [] nodes = nodes := by
  simp [under]

theorem mem_under {a c : Address} {p : Part} {nodes : List (Address × Part)} :
    (c, p) ∈ under a nodes ↔ ∃ b, c = a ++ b ∧ (b, p) ∈ nodes := by
  constructor
  · intro h
    obtain ⟨⟨b, q⟩, hmem, heq⟩ := List.mem_map.1 h
    cases heq
    exact ⟨b, rfl, hmem⟩
  · rintro ⟨b, rfl, hmem⟩
    exact List.mem_map.2 ⟨(b, p), hmem, rfl⟩

namespace Part

/-- A node and all below it in the order of a walk: first the node, and then, one after the other,
what it holds with all below that. -/
def preorder (order : Order) : Part → List (Address × Part)
  | .field f => [([], .field f)]
  | .element e =>
    ([], .element e) :: (e.parts order).attach.flatMap fun ⟨(edge, p), _⟩ =>
      under [edge] (p.preorder order)
termination_by p => p.size
decreasing_by exact Element.size_lt_of_mem_parts (by assumption)

theorem preorder_field (order : Order) (f : Field) :
    (Part.field f).preorder order = [([], .field f)] := by
  rw [preorder]

theorem preorder_element (order : Order) (e : Element) :
    (Part.element e).preorder order = ([], .element e) :: (e.parts order).flatMap fun (edge, p) =>
      under [edge] (p.preorder order) := by
  rw [preorder]
  congr 1
  conv_rhs => rw [← (e.parts order).attach_map_subtype_val, List.flatMap_map]

theorem under_preorder_element (a : Address) (order : Order) (e : Element) :
    under a ((Part.element e).preorder order) = (a, .element e) ::
      (e.parts order).flatMap fun (edge, p) => under (a ++ [edge]) (p.preorder order) := by
  simp [preorder_element, under, List.map_flatMap, Function.comp_def]

/-- What holds of fields, and of an element as soon as it holds of what the element holds, holds of
all nodes. -/
@[elab_as_elim]
theorem inductionOn {motive : Part → Prop} (p : Part) (field : ∀ f, motive (.field f))
    (element : ∀ e, (∀ edge p, e.follow? edge = some p → motive p) → motive (.element e)) :
    motive p :=
  match p with
  | .field f => field f
  | .element e => element e fun _ q h =>
      have hmem : (_, q) ∈ e.parts .document := Element.mem_parts.2 h
      have := Element.size_lt_of_mem_parts hmem
      inductionOn q field element
termination_by p.size

variable {p q : Part} {order : Order} {a : Address}

/-- The nodes below a node are those that an address leads to. -/
theorem mem_preorder : (a, q) ∈ p.preorder order ↔ p.at? a = some q := by
  induction p using inductionOn generalizing a with
  | field f =>
    rw [preorder_field]
    cases a <;> simp [at?, element?, eq_comm]
  | element e ih =>
    rw [preorder_element, List.mem_cons, List.mem_flatMap]
    cases a with
    | nil =>
      have hnot : ¬∃ entry ∈ e.parts order, ([], q) ∈ under [entry.1] (entry.2.preorder order) := by
        rintro ⟨entry, -, hmem⟩
        obtain ⟨b, hb, -⟩ := mem_under.1 hmem
        cases hb
      simp only [hnot, or_false, at?, Option.some.injEq, Prod.mk.injEq, true_and]
      exact eq_comm
    | cons edge rest =>
      rw [at?_cons_eq_some_iff]
      constructor
      · rintro (h | ⟨⟨edge', c⟩, hmem, hunder⟩)
        · cases h
        · obtain ⟨b, hb, hq⟩ := mem_under.1 hunder
          cases hb
          have hc := Element.mem_parts.1 hmem
          exact ⟨e, c, rfl, hc, (ih edge c hc).1 hq⟩
      · rintro ⟨_, c, ⟨⟩, hc, hq⟩
        exact Or.inr ⟨(edge, c), Element.mem_parts.2 hc,
          mem_under.2 ⟨rest, rfl, (ih edge c hc).2 hq⟩⟩

end Part

/-- Addresses of which neither leads on from the other. -/
def Apart (a b : Address) : Prop := ¬a <+: b ∧ ¬b <+: a

theorem apart_of_edge_ne (a : Address) {edge edge' : Edge} (h : edge ≠ edge') (b c : Address) :
    Apart (a ++ edge :: b) (a ++ edge' :: c) := by
  simp [Apart, List.prefix_append_right_inj, List.cons_prefix_cons, h, Ne.symm h]

/-- A node in an element, with all below it, is apart from the other nodes in it. -/
theorem Element.pairwise_apart_parts (order : Order) (e : Element) (a : Address) :
    (e.parts order).Pairwise fun x y => ∀ n ∈ under (a ++ [x.1]) (x.2.preorder order),
      ∀ n' ∈ under (a ++ [y.1]) (y.2.preorder order), Apart n.1 n'.1 := by
  refine (List.pairwise_map.1 (e.nodup_edges order)).imp ?_
  rintro ⟨edge, p⟩ ⟨edge', p'⟩ hne ⟨c, q⟩ hmem ⟨c', q'⟩ hmem'
  obtain ⟨b, rfl, -⟩ := mem_under.1 hmem
  obtain ⟨b', rfl, -⟩ := mem_under.1 hmem'
  rw [List.append_assoc, List.append_assoc]
  exact apart_of_edge_ne a hne b b'

theorem Part.pairwise_preorder (p : Part) (order : Order) :
    (p.preorder order).Pairwise fun x y => ¬y.1 <+: x.1 := by
  induction p using inductionOn with
  | field f => simp [preorder_field]
  | element e ih =>
    rw [preorder_element]
    refine List.pairwise_cons.2 ⟨?_, List.pairwise_flatMap.2 ⟨?_, ?_⟩⟩
    · rintro ⟨a, q⟩ hmem
      obtain ⟨entry, -, hunder⟩ := List.mem_flatMap.1 hmem
      obtain ⟨b, rfl, -⟩ := mem_under.1 hunder
      simp
    · rintro ⟨edge, c⟩ hmem
      refine List.pairwise_map.2 ((ih edge c (Element.mem_parts.1 hmem)).imp fun hnot => ?_)
      simpa using hnot
    · exact (e.pairwise_apart_parts order []).imp fun hapart x hx y hy => (hapart x hx y hy).2

theorem Part.nodup_preorder (p : Part) (order : Order) :
    ((p.preorder order).map Prod.fst).Nodup := by
  refine List.pairwise_map.2 ((p.pairwise_preorder order).imp fun hnot heq => hnot ?_)
  exact heq ▸ List.prefix_rfl

end KmlTree
