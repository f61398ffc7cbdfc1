import KmlTree.Proofs.Tree.Nodes
import KmlTree.Tree.SlotOrder

/-!
# Arranged trees

A tree is arranged when its declared attributes are in the order of the schema and its children in
the order of their places, at every element. `arrange` moves them there and changes nothing else.
-/
namespace KmlTree

/-- Arranging by a key does not see what else there is to an item. -/
theorem sortByKey_map {α β : Type} (key : β → Nat) (f : α → β) (xs : List α) :
    sortByKey key (xs.map f) = (sortByKey (key ∘ f) xs).map f := by
  have hinsert (x : α) (ys : List α) :
      insertByKey key (f x) (ys.map f) = (insertByKey (key ∘ f) x ys).map f := by
    induction ys with
    | nil => rfl
    | cons y ys ih =>
      simp only [List.map_cons, insertByKey, Function.comp]
      split
      · rfl
      · rw [ih]
        rfl
  induction xs with
  | nil => rfl
  | cons x xs ih =>
    simp only [sortByKey, List.map_cons, List.foldr_cons] at ih ⊢
    rw [ih, hinsert]

/-- The attributes that the kind declares, in the order of the schema. -/
def Head.arrange (h : Head) : Head :=
  { h with
    attributes :=
      ⟨h.kind.attributes.filterMap fun a => (h.attributes.get? a).map fun value => (a, value)⟩ }

mutual

/-- The tree with declared attributes and children in the order of the schema. -/
def Element.arrange : Element → Element
  | ⟨head, children, unknown⟩ =>
    ⟨head.arrange, sortByKey Child.slot (arrangeChildren children), arrangeAll unknown⟩

def arrangeChildren : List Child → List Child
  | [] => []
  | .field slot f :: rest => .field slot f :: arrangeChildren rest
  | .element slot e :: rest => .element slot e.arrange :: arrangeChildren rest

def arrangeAll : List Element → List Element
  | [] => []
  | e :: rest => e.arrange :: arrangeAll rest

end

def Child.arrange : Child → Child
  | .field slot f => .field slot f
  | .element slot e => .element slot e.arrange

@[simp] theorem Child.slot_arrange (c : Child) : c.arrange.slot = c.slot := by
  cases c <;> rfl

theorem arrangeChildren_eq (children : List Child) :
    arrangeChildren children = children.map Child.arrange := by
  induction children with
  | nil => rfl
  | cons c rest ih =>
    cases c <;> simp [arrangeChildren, Child.arrange, ih]

theorem arrangeAll_eq (es : List Element) : arrangeAll es = es.map Element.arrange := by
  induction es with
  | nil => rfl
  | cons e rest ih => simp [arrangeAll, ih]

namespace Element

def storedAttributes (e : Element) : List (String × String) :=
  e.attributes.entries.map (fun entry => (entry.1.key, entry.2)) ++ e.otherAttributes.entries

@[simp] theorem kind_arrange (e : Element) : e.arrange.kind = e.kind := by
  cases e
  rfl

@[simp] theorem writtenName?_arrange (e : Element) : e.arrange.writtenName? = e.writtenName? := by
  cases e
  rfl

@[simp] theorem text_arrange (e : Element) : e.arrange.text = e.text := by
  cases e
  rfl

@[simp] theorem name_arrange (e : Element) : e.arrange.name = e.name := by
  cases e
  rfl

@[simp] theorem otherAttributes_arrange (e : Element) :
    e.arrange.otherAttributes = e.otherAttributes := by
  cases e
  rfl

theorem children_arrange (e : Element) :
    e.arrange.children = (sortByKey Child.slot e.children).map Child.arrange := by
  have hkey : Child.slot ∘ Child.arrange = Child.slot := funext Child.slot_arrange
  have hmap := sortByKey_map Child.slot Child.arrange e.children
  rw [hkey, ← arrangeChildren_eq] at hmap
  rw [← hmap]
  cases e
  rw [arrange]

theorem unknown_arrange (e : Element) : e.arrange.unknown = e.unknown.map arrange := by
  rw [← arrangeAll_eq]
  cases e
  rw [arrange]

theorem mem_children_arrange {e : Element} {c : Child} :
    c ∈ e.arrange.children ↔ ∃ d ∈ e.children, d.arrange = c := by
  rw [children_arrange, List.mem_map]
  simp only [(sortByKey_perm Child.slot e.children).mem_iff]

theorem children_arrange_perm (e : Element) :
    e.arrange.children.Perm (e.children.map Child.arrange) := by
  rw [children_arrange]
  exact (sortByKey_perm _ _).map _

theorem arrange_element (f : Field) : f.element.arrange = f.element := by
  have hattributes : (f.kind.attributes.filterMap fun a =>
      ((∅ : AttributeMap Attribute).get? a).map fun value => (a, value)) = [] := by
    simp
  rw [Field.element, arrange, Head.arrange, hattributes]
  rfl

theorem node_arrange (c : Child) : c.arrange.node = c.node.arrange := by
  cases c with
  | field slot f => exact (arrange_element f).symm
  | element slot e => rfl

/-- An arranged element holds the same parts, each of them arranged. -/
theorem nodes_arrange_perm (e : Element) : e.arrange.nodes.Perm (e.nodes.map arrange) := by
  have hnode : Child.node ∘ Child.arrange = arrange ∘ Child.node := funext node_arrange
  have hchildren := e.children_arrange_perm.map Child.node
  rw [List.map_map, hnode, ← List.map_map] at hchildren
  rw [nodes, nodes, List.map_append, unknown_arrange]
  exact hchildren.append_right _

theorem mem_nodes_arrange {e n : Element} : n ∈ e.arrange.nodes ↔ ∃ m ∈ e.nodes, m.arrange = n := by
  rw [e.nodes_arrange_perm.mem_iff, List.mem_map]

theorem nodes_arrange_eq_nil_iff {e : Element} : e.arrange.nodes = [] ↔ e.nodes = [] := by
  have hlength := e.nodes_arrange_perm.length_eq
  rw [List.length_map] at hlength
  rw [← List.length_eq_zero_iff, ← List.length_eq_zero_iff, hlength]

/-! ## Trees in order -/

/-- Declared attributes and children are stored in the order of the schema. -/
structure Ordered (e : Element) : Prop where
  attributes : e.attributes.keys.Sublist e.kind.attributes
  children : e.children.Pairwise fun c d => c.slot ≤ d.slot

theorem keys_arrange_sublist (e : Element) : e.arrange.attributes.keys.Sublist e.kind.attributes := by
  have hkeys : e.arrange.attributes.keys =
      e.kind.attributes.filterMap fun a => (e.attributes.get? a).map fun _ => a := by
    cases e
    simp only [arrange, Head.arrange, AttributeMap.keys, List.map_filterMap, Option.map_map]
    rfl
  rw [hkeys]
  have hfilter : (fun a => (e.attributes.get? a).map fun _ => a) =
      Option.guard fun a => (e.attributes.get? a).isSome := by
    funext a
    cases hget : e.attributes.get? a <;> simp [Option.guard, hget]
  rw [hfilter, List.filterMap_eq_filter]
  exact List.filter_sublist

theorem ordered_arrange (e : Element) : Ordered e.arrange where
  attributes := by
    rw [kind_arrange]
    exact e.keys_arrange_sublist
  children := by
    rw [children_arrange, List.pairwise_map]
    simp only [Child.slot_arrange]
    exact sortByKey_pairwise Child.slot e.children

theorem All.arrange {P Q : Element → Prop} (hPQ : ∀ e, P e → Q e.arrange) {e : Element}
    (h : All P e) : All Q e.arrange := by
  induction h with
  | @intro e self _ _ known unknown =>
    refine .intro (hPQ e self) ?_ ?_
    · intro c hc
      obtain ⟨d, hd, hdc⟩ := List.mem_filterMap.1 hc
      obtain ⟨d', hd', rfl⟩ := mem_children_arrange.1 hd
      cases d' with
      | field slot f => cases hdc
      | element slot c' =>
        cases hdc
        exact known c' (List.mem_filterMap.2 ⟨_, hd', rfl⟩)
    · rw [unknown_arrange]
      intro u hu
      obtain ⟨v, hv, rfl⟩ := List.mem_map.1 hu
      exact unknown v hv

theorem all_ordered_arrange (e : Element) : e.arrange.All Ordered := by
  have htrue : e.All fun _ => True := by
    induction e using inductionOn with
    | step e known unknown => exact .intro trivial known unknown
  exact htrue.arrange fun e _ => e.ordered_arrange

theorem filterMap_lookup {keys : List Attribute} {entries : List (Attribute × String)}
    (h : (entries.map Prod.fst).Sublist keys) (hnodup : keys.Nodup)
    {get? : Attribute → Option String}
    (hget : ∀ a ∈ keys, get? a = AttributeMap.lookup a entries) :
    (keys.filterMap fun a => (get? a).map fun value => (a, value)) = entries := by
  induction keys generalizing entries with
  | nil => simpa using h
  | cons a keys ih =>
    obtain ⟨ha, hkeys⟩ := List.nodup_cons.1 hnodup
    have hhead := hget a List.mem_cons_self
    have htail (a' : Attribute) (ha' : a' ∈ keys) := hget a' (List.mem_cons_of_mem _ ha')
    by_cases hmem : a ∈ entries.map Prod.fst
    · cases entries with
      | nil => cases hmem
      | cons entry rest =>
        obtain ⟨k, v⟩ := entry
        have hk : k = a := by
          rcases List.sublist_cons_iff.1 h with h | ⟨_, heq, _⟩
          · exact absurd (h.subset hmem) ha
          · exact (List.cons.inj heq).1
        subst hk
        have hrest : (rest.map Prod.fst).Sublist keys := by simpa using h
        rw [AttributeMap.lookup, if_pos rfl] at hhead
        rw [List.filterMap_cons, hhead, Option.map_some, ih hrest hkeys]
        intro a' ha'
        rw [htail a' ha', AttributeMap.lookup, if_neg]
        rintro rfl
        exact ha ha'
    · have hrest : (entries.map Prod.fst).Sublist keys := by
        rcases List.sublist_cons_iff.1 h with h | ⟨_, heq, _⟩
        · exact h
        · exact absurd (heq ▸ List.mem_cons_self) hmem
      rw [List.filterMap_cons, hhead, AttributeMap.lookup_eq_none hmem, Option.map_none,
        ih hrest hkeys htail]

theorem arrange_toHead {e : Element} (h : e.attributes.keys.Sublist e.kind.attributes) :
    e.toHead.arrange = e.toHead := by
  have hentries : (e.kind.attributes.filterMap fun a =>
      (e.attributes.get? a).map fun value => (a, value)) = e.attributes.entries :=
    filterMap_lookup h e.kind.nodup_attributes fun _ _ => rfl
  rw [Head.arrange, hentries]

theorem arrange_eq_self {e : Element} (h : e.All Ordered) : e.arrange = e := by
  induction h with
  | @intro e self _ _ ihKnown ihUnknown =>
    have hhead := arrange_toHead self.attributes
    have hchildren : e.children.map Child.arrange = e.children := by
      refine (List.map_congr_left fun c hc => ?_).trans (List.map_id _)
      cases c with
      | field slot f => rfl
      | element slot c =>
        have hc := ihKnown c (List.mem_filterMap.2 ⟨_, hc, rfl⟩)
        rw [Child.arrange, hc]
        rfl
    have hunknown : e.unknown.map arrange = e.unknown :=
      (List.map_congr_left ihUnknown).trans (List.map_id _)
    have hsorted := sortByKey_eq_self Child.slot self.children
    obtain ⟨head, children, unknown⟩ := e
    rw [arrange, arrangeChildren_eq, arrangeAll_eq, hchildren, hunknown, hsorted, hhead]

theorem arrange_arrange (e : Element) : e.arrange.arrange = e.arrange :=
  arrange_eq_self e.all_ordered_arrange

theorem Every.arrange {P Q : Element → Prop} (hPQ : ∀ e, P e → Q e.arrange) {e : Element}
    (h : Every P e) : Every Q e.arrange := by
  induction h with
  | @intro e self _ ih =>
    refine .intro (hPQ e self) fun n hn => ?_
    obtain ⟨m, hm, rfl⟩ := mem_nodes_arrange.1 hn
    exact ih m hm

end Element

end KmlTree
