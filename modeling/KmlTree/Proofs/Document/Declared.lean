import KmlTree.Proofs.Tree.Nodes
import KmlTree.Reading.Builder

/-!
# Objects of a tree

The objects outside of unknown content, listed with the paths that lead to them. Main statements:
the list holds exactly the objects that paths lead to, and changing a child changes it only below
the position of the child.
-/
namespace KmlTree

open Builder (lift)

def Element.ownId (e : Element) : Declared := (e.objectId?.map fun id => (id, [])).toList

mutual

/-- The identifiers declared by an element and within it, with the paths to their objects. -/
def Element.declared : Element → Declared
  | e@⟨_, children, _⟩ => e.ownId ++ declaredFrom 0 children

def declaredFrom (i : Nat) : List Child → Declared
  | [] => []
  | .field .. :: rest => declaredFrom (i + 1) rest
  | .element _ e :: rest => lift i e.declared ++ declaredFrom (i + 1) rest

end

def Child.declared (c : Child) : Declared := (c.element?.map Element.declared).getD []

theorem Element.declared_eq (e : Element) : e.declared = e.ownId ++ declaredFrom 0 e.children := by
  cases e
  rfl

theorem Element.mem_ownId {e : Element} {id : String} {path : Path} :
    (id, path) ∈ e.ownId ↔ e.objectId? = some id ∧ path = [] := by
  cases h : e.objectId? <;> simp [ownId, h, eq_comm]

theorem declaredFrom_cons (i : Nat) (c : Child) (rest : List Child) :
    declaredFrom i (c :: rest) = lift i c.declared ++ declaredFrom (i + 1) rest := by
  cases c <;> rfl

theorem declaredFrom_append (i : Nat) (xs ys : List Child) :
    declaredFrom i (xs ++ ys) = declaredFrom i xs ++ declaredFrom (i + xs.length) ys := by
  induction xs generalizing i with
  | nil => rfl
  | cons c xs ih =>
    have hlen : i + 1 + xs.length = i + (xs.length + 1) := by omega
    simp only [List.cons_append, declaredFrom_cons, ih, List.append_assoc, List.length_cons, hlen]

theorem mem_lift {i : Nat} {ids : Declared} {id : String} {path : Path} :
    (id, path) ∈ lift i ids ↔ ∃ p, (id, p) ∈ ids ∧ path = i :: p := by
  constructor
  · intro h
    obtain ⟨⟨a, p⟩, hmem, heq⟩ := List.mem_map.1 h
    cases heq
    exact ⟨p, hmem, rfl⟩
  · rintro ⟨p, hmem, rfl⟩
    exact List.mem_map.2 ⟨(id, p), hmem, rfl⟩

theorem map_fst_lift (i : Nat) (ids : Declared) : (lift i ids).map Prod.fst = ids.map Prod.fst := by
  simp [lift]

theorem mem_declaredFrom {i : Nat} {children : List Child} {id : String} {path : Path} :
    (id, path) ∈ declaredFrom i children ↔
      ∃ j c p, children[j]? = some c ∧ (id, p) ∈ c.declared ∧ path = (i + j) :: p := by
  induction children generalizing i with
  | nil => simp [declaredFrom]
  | cons c rest ih =>
    rw [declaredFrom_cons, List.mem_append, mem_lift, ih]
    constructor
    · rintro (⟨p, hp, rfl⟩ | ⟨j, d, p, hd, hp, rfl⟩)
      · exact ⟨0, c, p, rfl, hp, rfl⟩
      · exact ⟨j + 1, d, p, hd, hp, by rw [show i + 1 + j = i + (j + 1) by omega]⟩
    · rintro ⟨j, d, p, hd, hp, rfl⟩
      cases j with
      | zero =>
        cases hd
        exact Or.inl ⟨p, hp, rfl⟩
      | succ j => exact Or.inr ⟨j, d, p, hd, hp, by rw [show i + 1 + j = i + (j + 1) by omega]⟩

theorem Child.mem_declared {c : Child} {id : String} {path : Path} :
    (id, path) ∈ c.declared ↔ ∃ e, c.element? = some e ∧ (id, path) ∈ e.declared := by
  cases c <;> simp [declared, element?]

/-- An identifier is listed with a path exactly if the path leads to an object that has it. -/
theorem Element.mem_declared {root : Element} {id : String} {path : Path} :
    (id, path) ∈ root.declared ↔ ∃ e, root.at? path = some e ∧ e.objectId? = some id := by
  induction path generalizing root with
  | nil =>
    rw [declared_eq, List.mem_append, mem_ownId, mem_declaredFrom]
    simp [at?]
  | cons i path ih =>
    rw [declared_eq, List.mem_append, mem_ownId, mem_declaredFrom]
    constructor
    · rintro (⟨-, h⟩ | ⟨j, c, p, hc, hp, h⟩)
      · cases h
      · simp only [List.cons.injEq, Nat.zero_add] at h
        obtain ⟨rfl, rfl⟩ := h
        obtain ⟨child, hchild, hmem⟩ := Child.mem_declared.1 hp
        obtain ⟨e, he, hid⟩ := ih.1 hmem
        exact ⟨e, by simp [at?, hc, hchild, he], hid⟩
    · rintro ⟨e, he, hid⟩
      simp only [at?, Option.bind_eq_some_iff] at he
      obtain ⟨child, ⟨c, hc, hchild⟩, he⟩ := he
      exact Or.inr ⟨i, c, path, hc, Child.mem_declared.2 ⟨child, hchild, ih.2 ⟨e, he, hid⟩⟩,
        by rw [Nat.zero_add]⟩

theorem Element.within_iff_at? {root e : Element} : Within root e ↔ ∃ path, root.at? path = some e := by
  constructor
  · intro h
    induction root using inductionOn with
    | step root known _ =>
    rcases within_iff.1 h with rfl | ⟨c, hc, hwithin⟩
    · exact ⟨[], by simp [at?]⟩
    · obtain ⟨path, hpath⟩ := known c hc hwithin
      obtain ⟨child, hmem, hchild⟩ := List.mem_filterMap.1 hc
      obtain ⟨i, hi⟩ := List.mem_iff_getElem?.1 hmem
      exact ⟨i :: path, by simp [at?, hi, hchild, hpath]⟩
  · rintro ⟨path, hpath⟩
    induction path generalizing root with
    | nil =>
      cases hpath
      exact .root
    | cons i path ih =>
      simp only [at?, Option.bind_eq_some_iff] at hpath
      obtain ⟨child, ⟨c, hc, hchild⟩, he⟩ := hpath
      have hmem : child ∈ root.elements :=
        List.mem_filterMap.2 ⟨c, List.mem_of_getElem? hc, hchild⟩
      exact (Within.root.child hmem).trans (ih he)

/-! ## Changing a child -/

theorem head?_of_mem_declaredFrom {i : Nat} {children : List Child} {entry : String × Path}
    (h : entry ∈ declaredFrom i children) : ∃ j, entry.2.head? = some (i + j) := by
  obtain ⟨id, path⟩ := entry
  obtain ⟨j, -, -, -, -, rfl⟩ := mem_declaredFrom.1 h
  exact ⟨j, rfl⟩

theorem filter_declaredFrom_eq_self {i k : Nat} (children : List Child) (h : k < i) :
    (declaredFrom i children).filter (fun entry => entry.2.head? != some k) =
      declaredFrom i children := by
  apply List.filter_eq_self.2
  intro entry hentry
  obtain ⟨j, hj⟩ := head?_of_mem_declaredFrom hentry
  rw [hj]
  simp
  omega

theorem filter_lift (i k : Nat) (ids : Declared) :
    (lift i ids).filter (fun entry => entry.2.head? != some k) = if i = k then [] else lift i ids := by
  split
  · next h =>
    subst h
    exact List.filter_eq_nil_iff.2 fun entry hentry => by
      obtain ⟨p, -, hp⟩ := mem_lift.1 hentry
      simp [hp]
  · next h =>
    exact List.filter_eq_self.2 fun entry hentry => by
      obtain ⟨p, -, hp⟩ := mem_lift.1 hentry
      simp [hp, h]

/-- Changing the child at a position removes what was declared at it and adds what is declared
there now. -/
theorem declaredFrom_set_perm (i j : Nat) (children : List Child) (c : Child)
    (h : j < children.length) :
    (declaredFrom i (children.set j c)).Perm
      ((declaredFrom i children).filter (fun entry => entry.2.head? != some (i + j)) ++
        lift (i + j) c.declared) := by
  induction children generalizing i j with
  | nil => simp at h
  | cons d rest ih =>
    cases j with
    | zero =>
      rw [List.set_cons_zero, declaredFrom_cons, declaredFrom_cons, List.filter_append, Nat.add_zero i,
        filter_lift, if_pos rfl, filter_declaredFrom_eq_self _ (Nat.lt_succ_self i)]
      exact List.perm_append_comm
    | succ j =>
      have hrest := ih (i + 1) j (by simpa using h)
      rw [show i + 1 + j = i + (j + 1) by omega] at hrest
      rw [List.set_cons_succ, declaredFrom_cons, declaredFrom_cons, List.filter_append, filter_lift,
        if_neg (by omega), List.append_assoc]
      exact hrest.append_left _

theorem filter_declaredFrom_of_field {i j : Nat} {children : List Child} {c : Child}
    (hc : children[j]? = some c) (hfield : c.element? = none) :
    (declaredFrom i children).filter (fun entry => entry.2.head? != some (i + j)) =
      declaredFrom i children := by
  refine List.filter_eq_self.2 fun entry hentry => ?_
  obtain ⟨id, path⟩ := entry
  obtain ⟨k, d, p, hd, hp, rfl⟩ := mem_declaredFrom.1 hentry
  simp only [List.head?_cons, bne_iff_ne, ne_eq, Option.some.injEq]
  intro hk
  obtain rfl : k = j := by omega
  rw [hc] at hd
  cases hd
  obtain ⟨e, he, -⟩ := Child.mem_declared.1 hp
  rw [hfield] at he
  cases he

end KmlTree
