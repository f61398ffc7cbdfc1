import KmlTree.Tree.Element

/-!
# Children in the order of their places

Children are written in the order in which the schema lists the places of their parent. Children in
one place keep the order in which they were added. Main statements: arranging neither adds nor loses
anything, the result ascends, a list that ascends already is left as it is, and nothing but the order
of items with equal keys tells in the result.
-/
namespace KmlTree

variable {α : Type}

/-- A list with an item put before the first item that does not come earlier. -/
def insertByKey (key : α → Nat) (x : α) : List α → List α
  | [] => [x]
  | y :: ys => if key x ≤ key y then x :: y :: ys else y :: insertByKey key x ys

/-- A list in ascending order of a key, items with equal keys in the order of the list. -/
def sortByKey (key : α → Nat) (xs : List α) : List α := xs.foldr (insertByKey key) []

namespace Element

/-- The children with their positions among the stored children, in the order of their places. -/
def childrenBySlot (e : Element) : List (Nat × Child) :=
  (sortByKey (fun entry => entry.1.slot) e.children.zipIdx).map Prod.swap

end Element

theorem insertByKey_perm (key : α → Nat) (x : α) (xs : List α) :
    (insertByKey key x xs).Perm (x :: xs) := by
  induction xs with
  | nil => exact .refl _
  | cons y ys ih =>
    rw [insertByKey]
    split
    · exact .refl _
    · exact (ih.cons y).trans (.swap x y ys)

theorem sortByKey_perm (key : α → Nat) (xs : List α) : (sortByKey key xs).Perm xs := by
  induction xs with
  | nil => exact .refl _
  | cons x xs ih => exact (insertByKey_perm key x _).trans (ih.cons x)

theorem insertByKey_pairwise (key : α → Nat) (x : α) {xs : List α}
    (h : xs.Pairwise fun a b => key a ≤ key b) :
    (insertByKey key x xs).Pairwise fun a b => key a ≤ key b := by
  induction xs with
  | nil => simp [insertByKey]
  | cons y ys ih =>
    obtain ⟨hy, hys⟩ := List.pairwise_cons.1 h
    rw [insertByKey]
    split
    · next hxy =>
      refine List.pairwise_cons.2 ⟨fun b hb => ?_, h⟩
      rcases List.mem_cons.1 hb with rfl | hb
      · exact hxy
      · exact Nat.le_trans hxy (hy b hb)
    · next hxy =>
      refine List.pairwise_cons.2 ⟨fun b hb => ?_, ih hys⟩
      rcases List.mem_cons.1 ((insertByKey_perm key x ys).mem_iff.1 hb) with rfl | hb
      · exact Nat.le_of_lt (Nat.lt_of_not_le hxy)
      · exact hy b hb

theorem sortByKey_pairwise (key : α → Nat) (xs : List α) :
    (sortByKey key xs).Pairwise fun a b => key a ≤ key b := by
  induction xs with
  | nil => exact .nil
  | cons x xs ih => exact insertByKey_pairwise key x ih

theorem sortByKey_eq_self (key : α → Nat) {xs : List α}
    (h : xs.Pairwise fun a b => key a ≤ key b) : sortByKey key xs = xs := by
  induction xs with
  | nil => rfl
  | cons x xs ih =>
    obtain ⟨hx, hxs⟩ := List.pairwise_cons.1 h
    rw [sortByKey, List.foldr_cons]
    change insertByKey key x (sortByKey key xs) = x :: xs
    rw [ih hxs]
    cases xs with
    | nil => rfl
    | cons y ys => rw [insertByKey, if_pos (hx y (by simp))]

theorem filter_insertByKey (key : α → Nat) {p : α → Bool} (x : α) {xs : List α}
    (h : p x = true → ∀ y ∈ xs, p y = true → key y = key x) :
    (insertByKey key x xs).filter p = (x :: xs).filter p := by
  induction xs with
  | nil => rfl
  | cons y ys ih =>
    have htail := ih fun hx z hz => h hx z (List.mem_cons_of_mem _ hz)
    rw [insertByKey]
    split
    · rfl
    next hxy =>
    have hnotBoth : p x = true → p y = false := by
      intro hx
      cases hy : p y with
      | false => rfl
      | true => exact absurd (Nat.le_of_eq (h hx y List.mem_cons_self hy).symm) hxy
    rw [List.filter_cons, htail]
    cases hx : p x with
    | false => simp [List.filter_cons, hx]
    | true => simp [hx, hnotBoth hx]

theorem filter_sortByKey (key : α → Nat) {p : α → Bool} {xs : List α}
    (h : ∀ x ∈ xs, ∀ y ∈ xs, p x = true → p y = true → key x = key y) :
    (sortByKey key xs).filter p = xs.filter p := by
  induction xs with
  | nil => rfl
  | cons x xs ih =>
    have hsorted : (sortByKey key xs).filter p = xs.filter p :=
      ih fun y hy z hz => h y (List.mem_cons_of_mem _ hy) z (List.mem_cons_of_mem _ hz)
    have hinsert : (insertByKey key x (sortByKey key xs)).filter p =
        (x :: sortByKey key xs).filter p := by
      refine filter_insertByKey key x fun hx y hy hpy => ?_
      exact h y (List.mem_cons_of_mem _ ((sortByKey_perm key xs).mem_iff.1 hy)) x
        List.mem_cons_self hpy hx
    change (insertByKey key x (sortByKey key xs)).filter p = _
    rw [hinsert, List.filter_cons, List.filter_cons, hsorted]

theorem mem_iff_of_filter_key_eq (key : α → Nat) {xs ys : List α}
    (h : ∀ k, xs.filter (fun x => key x == k) = ys.filter fun x => key x == k) {a : α} :
    a ∈ xs ↔ a ∈ ys := by
  have hfilter (zs : List α) : a ∈ zs ↔ a ∈ zs.filter fun x => key x == key a := by
    simp [List.mem_filter]
  rw [hfilter xs, hfilter ys, h (key a)]

/-- Lists that ascend are equal if for each key they have the same items in the same order. -/
theorem eq_of_filter_key_eq (key : α → Nat) {xs ys : List α}
    (hxs : xs.Pairwise fun a b => key a ≤ key b) (hys : ys.Pairwise fun a b => key a ≤ key b)
    (h : ∀ k, xs.filter (fun x => key x == k) = ys.filter fun x => key x == k) : xs = ys := by
  have hmem {a : α} : a ∈ xs ↔ a ∈ ys := mem_iff_of_filter_key_eq key h
  induction xs generalizing ys with
  | nil => exact (List.eq_nil_iff_forall_not_mem.2 fun y hy => nomatch hmem.2 hy).symm
  | cons x xs ih =>
    cases ys with
    | nil => cases hmem.1 List.mem_cons_self
    | cons y ys =>
      obtain ⟨hx, hxs'⟩ := List.pairwise_cons.1 hxs
      obtain ⟨hy, hys'⟩ := List.pairwise_cons.1 hys
      have hle : key x ≤ key y := by
        rcases List.mem_cons.1 (hmem.2 List.mem_cons_self) with rfl | hmem
        · exact Nat.le_refl _
        · exact hx y hmem
      have hge : key y ≤ key x := by
        rcases List.mem_cons.1 (hmem.1 List.mem_cons_self) with rfl | hmem
        · exact Nat.le_refl _
        · exact hy x hmem
      -- both lists start with their first item of the least key
      have hfirst := h (key x)
      have hkey : key y = key x := Nat.le_antisymm hge hle
      simp only [List.filter_cons, beq_self_eq_true, hkey, if_true, List.cons.injEq] at hfirst
      obtain ⟨rfl, -⟩ := hfirst
      have hrest (k : Nat) : xs.filter (fun a => key a == k) = ys.filter fun a => key a == k := by
        have hk := h k
        rw [List.filter_cons, List.filter_cons] at hk
        split at hk
        · exact (List.cons.inj hk).2
        · exact hk
      rw [ih hxs' hys' hrest (mem_iff_of_filter_key_eq key hrest)]

/-- The order of items with equal keys is all that tells in the result. -/
theorem sortByKey_congr (key : α → Nat) {xs ys : List α}
    (h : ∀ k, xs.filter (fun x => key x == k) = ys.filter fun x => key x == k) :
    sortByKey key xs = sortByKey key ys := by
  have hfilter (zs : List α) (k : Nat) : (sortByKey key zs).filter (fun x => key x == k) =
      zs.filter fun x => key x == k := by
    refine filter_sortByKey key fun x _ y _ hx hy => ?_
    rw [eq_of_beq hx, eq_of_beq hy]
  refine eq_of_filter_key_eq key (sortByKey_pairwise key xs) (sortByKey_pairwise key ys) fun k => ?_
  rw [hfilter, hfilter, h k]

end KmlTree
