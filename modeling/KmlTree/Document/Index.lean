import KmlTree.Tree.Walk

/-!
# Index of objects

An index leads from the identifier of an object to its place in the tree, given by the positions of
the children that lead to it from the root. Its entries ascend by identifier, so two indexes that
give the same answers are equal.
-/
namespace KmlTree

/-- The way from an element to one below it: the positions of the stored children to follow. -/
abbrev Path := List Nat

/-- The element at the end of a path, if the path leads through elements only. -/
def Element.at? (e : Element) : Path → Option Element
  | [] => some e
  | i :: path => (e.children[i]?.bind Child.element?).bind fun child => child.at? path

def insertById (id : String) (path : Path) : List (String × Path) → List (String × Path)
  | [] => [(id, path)]
  | entry :: rest =>
    if id < entry.1 then (id, path) :: entry :: rest else entry :: insertById id path rest

theorem mem_insertById {id : String} {path : Path} {entries : List (String × Path)}
    {entry : String × Path} :
    entry ∈ insertById id path entries ↔ entry = (id, path) ∨ entry ∈ entries := by
  induction entries with
  | nil => simp [insertById]
  | cons e rest ih =>
    rw [insertById]
    split
    · simp
    · simp [ih, or_left_comm]

theorem pairwise_insertById {id : String} {path : Path} {entries : List (String × Path)}
    (h : entries.Pairwise fun a b => a.1 < b.1) (hid : entries.lookup id = none) :
    (insertById id path entries).Pairwise fun a b => a.1 < b.1 := by
  induction entries with
  | nil => simp [insertById]
  | cons e rest ih =>
    obtain ⟨k, p⟩ := e
    obtain ⟨hk, hrest⟩ := List.pairwise_cons.1 h
    have hne : (id == k) = false := by
      cases hik : id == k with
      | false => rfl
      | true => simp [List.lookup_cons, hik] at hid
    have hlookup : rest.lookup id = none := by simpa [List.lookup_cons, hne] using hid
    rw [insertById]
    split
    · next hlt =>
      refine List.pairwise_cons.2 ⟨fun b hb => ?_, h⟩
      rcases List.mem_cons.1 hb with rfl | hb
      · exact hlt
      · exact String.lt_trans hlt (hk b hb)
    · next hlt =>
      refine List.pairwise_cons.2 ⟨fun b hb => ?_, ih hrest hlookup⟩
      rcases mem_insertById.1 hb with rfl | hb
      · exact Std.lt_of_le_of_ne (String.not_lt.1 hlt) (beq_eq_false_iff_ne.1 hne).symm
      · exact hk b hb

/-- The places of the objects in a tree, by their identifiers. -/
structure ObjectIndex where
  entries : List (String × Path)
  /-- The entries ascend by identifier, so no identifier occurs twice. -/
  ascending : entries.Pairwise fun a b => a.1 < b.1
  deriving DecidableEq

namespace ObjectIndex

instance : EmptyCollection ObjectIndex := ⟨⟨[], .nil⟩⟩

instance : Inhabited ObjectIndex := ⟨∅⟩

def get? (index : ObjectIndex) (id : String) : Option Path := index.entries.lookup id

def size (index : ObjectIndex) : Nat := index.entries.length

def isEmpty (index : ObjectIndex) : Bool := index.entries.isEmpty

/-- The index with one more object, if no object has its identifier already. -/
def insert? (index : ObjectIndex) (id : String) (path : Path) : Option ObjectIndex :=
  match h : index.entries.lookup id with
  | some _ => none
  | none => some ⟨insertById id path index.entries, pairwise_insertById index.ascending h⟩

/-- The index of the given objects. Of objects with one identifier the first is kept. -/
def ofList (objects : List (String × Path)) : ObjectIndex :=
  objects.foldl (fun index (id, path) => (index.insert? id path).getD index) ∅

end ObjectIndex

end KmlTree
