import KmlTree.Proofs.Tree.Traversal
import KmlTree.Tree.Find

/-!
# Search

A search takes up the elements of a kind as the walk meets them, and ends the walk with the one that
it was still short of. Main statement: without a limit it finds all of them outside of unknown
content in the order of their paths, and with a limit it finds the first of these.
-/
namespace KmlTree

/-! ## Up to a limit -/

/-- Elements that are taken up one after the other, the latest first, until there are as many as
asked for. The answer tells whether there are. -/
def takeUp (limit? : Option Nat) : List Element → List Element → Bool × List Element
  | [], found => (false, found)
  | e :: rest, found =>
    if (e :: found).length == limit? then (true, e :: found) else takeUp limit? rest (e :: found)

theorem takeUp_append (limit? : Option Nat) (xs ys found : List Element) :
    takeUp limit? (xs ++ ys) found =
      if (takeUp limit? xs found).1 then takeUp limit? xs found
      else takeUp limit? ys (takeUp limit? xs found).2 := by
  induction xs generalizing found with
  | nil => rfl
  | cons e xs ih =>
    rw [List.cons_append, takeUp, takeUp]
    split
    · rfl
    · exact ih _

theorem takeUp_none (xs found : List Element) :
    takeUp none xs found = (false, xs.reverse ++ found) := by
  induction xs generalizing found with
  | nil => rfl
  | cons e xs ih =>
    rw [takeUp, if_neg (by simp), ih]
    simp

theorem takeUp_some {n : Nat} {found : List Element} (h : found.length < n) (xs : List Element) :
    (takeUp (some n) xs found).2 = (xs.take (n - found.length)).reverse ++ found := by
  induction xs generalizing found with
  | nil => simp [takeUp]
  | cons e xs ih =>
    have htake : n - found.length = (n - (e :: found).length) + 1 := by
      rw [List.length_cons]
      omega
    rw [takeUp, htake, List.take_succ_cons, List.reverse_cons, List.append_assoc]
    split
    · next hfull =>
      have hlength : (e :: found).length = n := by simpa using hfull
      rw [hlength, Nat.sub_self, List.take_zero]
      rfl
    · next hfull =>
      have hne : (e :: found).length ≠ n := by simpa using hfull
      rw [List.length_cons] at hne
      rw [ih (by rw [List.length_cons]; omega)]
      rfl

/-! ## The walk of a search -/

/-- The element that a node is and the path to it, if it is of a kind and outside of unknown
content. -/
def sought? (kind : Kind) : Address × Part → Option (Path × Element)
  | (a, p) =>
    if a.any Edge.entersUnknown then none
    else (p.element?.filter (·.isA kind)).map fun e => (a.map Edge.index, e)

def sought (kind : Kind) (nodes : List (Address × Part)) : List (Path × Element) :=
  nodes.filterMap (sought? kind)

variable {kind : Kind} {a : Address}

theorem sought?_eq_some_iff {p : Part} {e : Element} {path : Path} :
    sought? kind (a, p) = some (path, e) ↔ a.any Edge.entersUnknown = false ∧
      (p.element? = some e ∧ e.isA kind = true) ∧ path = a.map Edge.index := by
  rw [sought?]
  cases a.any Edge.entersUnknown with
  | true => simp
  | false =>
    simp only [Bool.false_eq_true, if_false, Option.map_eq_some_iff, Prod.mk.injEq, true_and]
    constructor
    · rintro ⟨e', hfilter, hpath, rfl⟩
      exact ⟨Option.filter_eq_some_iff.1 hfilter, hpath.symm⟩
    · rintro ⟨he, hpath⟩
      exact ⟨e, Option.filter_eq_some_iff.2 he, hpath.symm, rfl⟩

theorem sought?_element (e : Element) (hknown : a.any Edge.entersUnknown = false) :
    sought? kind (a, .element e) =
      if e.isA kind then some (a.map Edge.index, e) else none := by
  rw [sought?, hknown, Part.element?, Option.filter_some]
  cases e.isA kind <;> rfl

theorem sought_under_unknown (p : Part) (hunknown : a.any Edge.entersUnknown = true) :
    sought kind (under a (p.preorder .document)) = [] := by
  refine List.filterMap_eq_nil_iff.2 fun ⟨b, q⟩ hmem => ?_
  obtain ⟨c, rfl, -⟩ := mem_under.1 hmem
  rw [sought?, List.any_append, hunknown, Bool.true_or, if_pos rfl]

theorem map_snd_sought_element (e : Element) (hknown : a.any Edge.entersUnknown = false) :
    (sought kind (under a ((Part.element e).preorder .document))).map Prod.snd =
      let below := (e.parts .document).flatMap fun (edge, p) =>
        (sought kind (under (a ++ [edge]) (p.preorder .document))).map Prod.snd
      if e.isA kind then e :: below else below := by
  rw [Part.under_preorder_element, sought, List.filterMap_cons, sought?_element e hknown]
  cases e.isA kind <;> simp [sought, List.map_flatMap, List.filterMap_flatMap]

namespace Element

variable {limit? : Option Nat}

def TakesUp (limit? : Option Nat) (visit : StateM (List Element) Bool) (es : List Element) : Prop :=
  ∀ found, visit.run found = takeUp limit? es found

theorem takesUp_inTurn {ι : Type} {items : List ι} {visit : ι → StateM (List Element) Bool}
    {es : ι → List Element} (h : ∀ i ∈ items, TakesUp limit? (visit i) (es i)) :
    TakesUp limit? (Visitor.inTurn (items.map visit)) (items.flatMap es) := by
  induction items with
  | nil => exact fun found => rfl
  | cons i items ih =>
    intro found
    rw [List.map_cons, List.flatMap_cons, takeUp_append, Visitor.inTurn, StateT.run_bind,
      h i List.mem_cons_self]
    rcases takeUp limit? (es i) found with ⟨full, found'⟩
    cases full with
    | true => rfl
    | false => exact ih (fun j hj => h j (List.mem_cons_of_mem _ hj)) found'

theorem run_finder_element {context : Context} (e : Element)
    (hknown : context.withinUnknown = false) (found : List Element) :
    ((finder kind limit?).element context e).run found =
      if e.isA kind then
        (if (e :: found).length == limit? then .stop else .descend, e :: found)
      else (.descend, found) := by
  cases hkind : e.isA kind with
  | false =>
    simp only [finder, hknown, hkind]
    rfl
  | true =>
    simp only [finder, hknown, hkind, Bool.false_eq_true, if_false, if_true]
    change ((if (e :: found).length == limit? then pure .stop else pure .descend :
      StateM (List Element) Flow).run (e :: found)) = _
    split <;> rfl

theorem run_finder_element_unknown {context : Context} (e : Element)
    (hunknown : context.withinUnknown = true) (found : List Element) :
    ((finder kind limit?).element context e).run found = (.reject, found) := by
  simp only [finder, hunknown]
  rfl

/-- The visit of an element takes up the element, if it is of the kind, and then what is taken up
below it. -/
theorem takesUp_descend (kind : Kind) (e : Element) {context : Context}
    {inside : StateM (List Element) Bool} {es : List Element}
    (hknown : context.withinUnknown = false) (h : TakesUp limit? inside es) :
    TakesUp limit?
      ((finder kind limit?).element context e >>= (finder kind limit?).goOn context e inside)
      (if e.isA kind then e :: es else es) := by
  have hinside (found : List Element) :
      ((finder kind limit?).goOn context e inside .descend).run found = takeUp limit? es found := by
    rw [Visitor.goOn_descend, StateT.run_bind, h]
    rcases takeUp limit? es found with ⟨full, found'⟩
    cases full <;> rfl
  intro found
  rw [StateT.run_bind, run_finder_element e hknown]
  cases e.isA kind with
  | false => exact hinside found
  | true =>
    rw [if_pos rfl, if_pos rfl, takeUp]
    split
    · rfl
    · exact hinside (e :: found)

theorem takesUp_visitPart (kind : Kind) (limit? : Option Nat) (p : Part) (a : Address) :
    TakesUp limit? ((finder kind limit?).visitPart (contextAt a) p)
      ((sought kind (under a (p.preorder .document))).map Prod.snd) := by
  induction p using Part.inductionOn generalizing a with
  | field f =>
    have hnone : sought kind (under a ((Part.field f).preorder .document)) = [] := by
      simp [sought, sought?, under, Part.preorder_field, Part.element?]
    rw [hnone]
    exact fun found => rfl
  | element e ih =>
    rw [Visitor.visitPart, Visitor.visit_eq]
    cases hunknown : (contextAt a).withinUnknown with
    | true =>
      intro found
      rw [sought_under_unknown _ hunknown, StateT.run_bind, run_finder_element_unknown e hunknown]
      rfl
    | false =>
      have hparts : ∀ x ∈ e.parts .document,
          TakesUp limit? ((finder kind limit?).visitPart ((contextAt a).follow x.1) x.2)
            ((sought kind (under (a ++ [x.1]) (x.2.preorder .document))).map Prod.snd) := by
        rintro ⟨edge, p⟩ hmem
        rw [← contextAt_append]
        exact ih edge p (mem_parts.1 hmem) _
      have htake := takesUp_descend kind e hunknown (takesUp_inTurn hparts)
      rwa [← map_snd_sought_element e hunknown] at htake

end Element

/-! ## Paths through stored children -/

/-- A path is an address that does not enter unknown content. -/
theorem Element.at?_eq (root : Element) (path : Path) :
    root.at? path = (root.nodeAt? path).bind Part.element? := by
  induction path generalizing root with
  | nil => rfl
  | cons i path ih =>
    rw [at?, nodeAt?, List.map_cons, Part.at?]
    simp only [Part.element?, Option.bind_some, Element.follow?]
    cases root.children[i]? with
    | none => rfl
    | some c =>
      cases c with
      | field slot f => cases path <;> rfl
      | element slot e => exact ih e

theorem mem_sought {root e : Element} {path : Path} :
    (path, e) ∈ sought kind ((Part.element root).preorder .document) ↔
      root.at? path = some e ∧ e.isA kind = true := by
  rw [sought, List.mem_filterMap]
  constructor
  · rintro ⟨⟨a, p⟩, hmem, hsought⟩
    obtain ⟨hknown, ⟨he, hkind⟩, rfl⟩ := sought?_eq_some_iff.1 hsought
    rw [root.at?_eq, Element.nodeAt?, map_known_map_index hknown, Part.mem_preorder.1 hmem]
    exact ⟨he, hkind⟩
  · rintro ⟨hpath, hkind⟩
    rw [root.at?_eq, Option.bind_eq_some_iff] at hpath
    obtain ⟨p, hp, he⟩ := hpath
    refine ⟨(path.map .known, p), Part.mem_preorder.2 hp, sought?_eq_some_iff.2 ?_⟩
    exact ⟨any_map_known path, ⟨he, hkind⟩, (map_index_map_known path).symm⟩

theorem Element.pairwise_index_parts (e : Element) :
    (e.parts .document).Pairwise fun x y =>
      x.1.entersUnknown = false → y.1.entersUnknown = false → x.1.index < y.1.index := by
  have hindices {α : Type} (xs : List α) : xs.zipIdx.Pairwise fun x y => x.2 < y.2 := by
    refine List.pairwise_map.1 ?_
    rw [List.zipIdx_map_snd]
    exact List.pairwise_lt_range'
  refine List.pairwise_append.2 ⟨?_, ?_, ?_⟩
  · exact List.pairwise_map.2 ((hindices e.children).imp fun hlt _ _ => hlt)
  · exact List.pairwise_map.2 ((hindices e.unknown).imp fun _ hx => nomatch hx)
  · rintro x - y hy - hknown
    obtain ⟨u, -, rfl⟩ := List.mem_map.1 hy
    cases hknown

theorem Part.pairwise_paths (p : Part) :
    (p.preorder .document).Pairwise fun x y => x.1.any Edge.entersUnknown = false →
      y.1.any Edge.entersUnknown = false → x.1.map Edge.index < y.1.map Edge.index := by
  induction p using inductionOn with
  | field f => simp [preorder_field]
  | element e ih =>
    rw [preorder_element]
    refine List.pairwise_cons.2 ⟨?_, List.pairwise_flatMap.2 ⟨?_, ?_⟩⟩
    · rintro ⟨a, q⟩ hmem - -
      obtain ⟨entry, -, hunder⟩ := List.mem_flatMap.1 hmem
      obtain ⟨b, rfl, -⟩ := mem_under.1 hunder
      exact List.nil_lt_cons ..
    · rintro ⟨edge, c⟩ hmem
      refine List.pairwise_map.2 ((ih edge c (Element.mem_parts.1 hmem)).imp ?_)
      intro x y hlt hx hy
      rw [List.any_append, Bool.or_eq_false_iff] at hx hy
      exact List.cons_lt_cons_iff.2 (Or.inr ⟨rfl, hlt hx.2 hy.2⟩)
    · refine e.pairwise_index_parts.imp ?_
      rintro ⟨edge, c⟩ ⟨edge', c'⟩ hlt ⟨x, q⟩ hx ⟨y, q'⟩ hy hknown hknown'
      obtain ⟨b, rfl, -⟩ := mem_under.1 hx
      obtain ⟨b', rfl, -⟩ := mem_under.1 hy
      rw [List.any_append, Bool.or_eq_false_iff] at hknown hknown'
      refine List.cons_lt_cons_iff.2 (Or.inl (hlt ?_ ?_))
      · simpa using hknown.1
      · simpa using hknown'.1

theorem pairwise_sought (root : Element) (kind : Kind) :
    ((sought kind ((Part.element root).preorder .document)).map Prod.fst).Pairwise (· < ·) := by
  refine List.pairwise_map.2 ((Part.element root).pairwise_paths.filterMap _ ?_)
  rintro ⟨a, p⟩ ⟨b, q⟩ hlt ⟨path, e⟩ hx ⟨path', e'⟩ hy
  obtain ⟨hknown, -, rfl⟩ := sought?_eq_some_iff.1 hx
  obtain ⟨hknown', -, rfl⟩ := sought?_eq_some_iff.1 hy
  exact hlt hknown hknown'

/-! ## What is found -/

namespace Element

theorem takesUp_walk (root : Element) (kind : Kind) (limit? : Option Nat) :
    TakesUp limit? ((finder kind limit?).walk root)
      ((sought kind ((Part.element root).preorder .document)).map Prod.snd) := by
  have htakes := takesUp_visitPart kind limit? (.element root) []
  rwa [under_nil] at htakes

theorem findAll_none (root : Element) (kind : Kind) :
    root.findAll kind none =
      (sought kind ((Part.element root).preorder .document)).map Prod.snd := by
  rw [findAll, if_neg (by simp), takesUp_walk, takeUp_none]
  simp

theorem findAll_some (root : Element) (kind : Kind) (n : Nat) :
    root.findAll kind (some n) = (root.findAll kind none).take n := by
  rw [findAll_none]
  cases n with
  | zero => rfl
  | succ n =>
    rw [findAll, if_neg (by simp), takesUp_walk, takeUp_some (by simp)]
    simp

/-- A search finds the elements of a kind that paths lead to in the order of the paths, and with a
limit the first of them. -/
theorem findAll_document_order (root : Element) (kind : Kind) :
    ∃ paths : List Path, paths.Pairwise (· < ·) ∧
      (∀ path, path ∈ paths ↔ ∃ e, root.at? path = some e ∧ e.isA kind = true) ∧
      paths.map root.at? = (root.findAll kind none).map some ∧
      ∀ n, root.findAll kind (some n) = (root.findAll kind none).take n := by
  refine ⟨_, pairwise_sought root kind, fun path => ?_, ?_, root.findAll_some kind⟩
  · simp only [List.mem_map, Prod.exists, exists_and_right, exists_eq_right, mem_sought]
  · rw [findAll_none, List.map_map, List.map_map]
    exact List.map_congr_left fun ⟨path, e⟩ hmem => (mem_sought.1 hmem).1

end Element

end KmlTree
