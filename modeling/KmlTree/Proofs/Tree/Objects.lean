import KmlTree.Proofs.Document.Declared
import KmlTree.Proofs.Tree.Conforming

/-!
# Objects and their identifiers

The identifiers of the objects in a tree, and which of them are in use while the tree is read in its
stored order. Main statement: where nothing is out of place, identifiers that are distinct fit.
-/
namespace KmlTree

namespace Element

def ids (e : Element) : List String := e.declared.map Prod.fst

/-- No part is where the schema has no place for it. -/
def Neat (e : Element) : Prop :=
  e.All fun e => e.kind ≠ .unknown → ∀ u ∈ e.unknown, u.kind = .unknown

theorem neat_congr {x y : Element} (hkind : x.kind = y.kind) (hchildren : x.children = y.children)
    (hunknown : x.unknown = y.unknown) : x.Neat ↔ y.Neat := by
  constructor
  · intro h
    refine h.congr ?_ hchildren.symm hunknown.symm
    rw [← hkind, ← hunknown]
    exact h.self
  · intro h
    refine h.congr ?_ hchildren hunknown
    rw [hkind, hunknown]
    exact h.self

theorem Neat.arrange {e : Element} (h : e.Neat) : e.arrange.Neat := by
  refine All.arrange (fun e he => ?_) h
  rw [kind_arrange, unknown_arrange]
  intro hkind u hu
  obtain ⟨v, hv, rfl⟩ := List.mem_map.1 hu
  rw [kind_arrange]
  exact he hkind v hv

end Element

def Child.ids (c : Child) : List String := c.declared.map Prod.fst

namespace Element

variable {e : Element} {taken : List String}

theorem ids_declaredFrom (i : Nat) (children : List Child) :
    (declaredFrom i children).map Prod.fst = children.flatMap Child.ids := by
  induction children generalizing i with
  | nil => rfl
  | cons c rest ih =>
    rw [declaredFrom_cons, List.map_append, map_fst_lift, ih, List.flatMap_cons]
    rfl

theorem ids_bare (e : Element) : e.bare.ids = e.ownId.map Prod.fst := by
  rw [ids, declared_eq, List.map_append, ids_declaredFrom]
  exact List.append_nil _

theorem ids_eq (e : Element) : e.ids = e.bare.ids ++ e.children.flatMap Child.ids := by
  rw [ids_bare, ids, declared_eq, List.map_append, ids_declaredFrom]

theorem mem_ids_bare {id : String} : id ∈ e.bare.ids ↔ e.objectId? = some id := by
  rw [ids_bare, ownId]
  cases e.objectId? <;> simp [eq_comm]

end Element

/-! ## Identifiers that fit -/

mutual

/-- Whether a tree can be read in its stored order after some identifiers were taken. What is
declared in a part that the schema has no place for is taken until the part ends. -/
def Element.fits (taken : List String) : Element → Bool
  | e@⟨_, children, unknown⟩ =>
    e.objectId?.all (fun id => !taken.contains id) &&
      (fitChildren (taken ++ e.bare.ids) children && fitAll (taken ++ e.ids) unknown)

def fitChildren (taken : List String) : List Child → Bool
  | [] => true
  | .field .. :: rest => fitChildren taken rest
  | .element _ e :: rest => e.fits taken && fitChildren (taken ++ e.ids) rest

/-- Whether each of some elements can be read, if nothing of it is kept. -/
def fitAll (taken : List String) : List Element → Bool
  | [] => true
  | e :: rest => e.fits taken && fitAll taken rest

end

namespace Element

variable {e : Element} {taken : List String}

theorem fits_eq (e : Element) (taken : List String) :
    e.fits taken = (e.objectId?.all (fun id => !taken.contains id) &&
      (fitChildren (taken ++ e.bare.ids) e.children && fitAll (taken ++ e.ids) e.unknown)) := by
  cases e
  rw [fits]

theorem fits_element (f : Field) (taken : List String) : f.element.fits taken = true := by
  rw [Element.fits_eq]
  have hid : f.element.objectId? = none := by
    unfold Element.objectId?
    split <;> rfl
  rw [hid]
  rfl

theorem fitChildren_cons (taken : List String) (c : Child) (rest : List Child) :
    fitChildren taken (c :: rest) =
      (c.node.fits taken && fitChildren (taken ++ c.ids) rest) := by
  cases c with
  | field slot f =>
    have hids : (Child.field slot f).ids = [] := rfl
    rw [fitChildren, Child.node, fits_element, hids, List.append_nil, Bool.true_and]
  | element slot e => rfl

theorem fitChildren_of_ids {children : List Child}
    (ih : ∀ c ∈ children, ∀ taken, c.ids.Nodup → (∀ id ∈ c.ids, id ∉ taken) →
      c.node.fits taken = true)
    (hnodup : (children.flatMap Child.ids).Nodup)
    (hfree : ∀ id ∈ children.flatMap Child.ids, id ∉ taken) : fitChildren taken children = true := by
  induction children generalizing taken with
  | nil => rfl
  | cons c rest ihRest =>
    rw [List.flatMap_cons] at hnodup hfree
    obtain ⟨hc, hrest, hdisjoint⟩ := List.nodup_append.1 hnodup
    rw [fitChildren_cons, Bool.and_eq_true]
    refine ⟨ih c List.mem_cons_self taken hc fun id hid => hfree id (List.mem_append_left _ hid), ?_⟩
    refine ihRest (fun d hd => ih d (List.mem_cons_of_mem _ hd)) hrest fun id hid hmem => ?_
    rcases List.mem_append.1 hmem with hmem | hmem
    · exact hfree id (List.mem_append_right _ hid) hmem
    · exact hdisjoint id hmem id hid rfl

theorem fitAll_eq_true {unknown : List Element} (h : ∀ u ∈ unknown, u.fits taken = true) :
    fitAll taken unknown = true := by
  induction unknown with
  | nil => rfl
  | cons u rest ih =>
    rw [fitAll, Bool.and_eq_true]
    exact ⟨h u List.mem_cons_self, ih fun v hv => h v (List.mem_cons_of_mem _ hv)⟩

/-- There are no objects in what the schema does not know. -/
theorem fits_of_unknown (h : e.All Fitting) (hkind : e.kind = .unknown) (taken : List String) :
    e.fits taken = true := by
  induction h generalizing taken with
  | @intro e self _ _ _ ih =>
    have hobject : e.objectId? = none := by
      have hisA : e.isA .object = false := by
        rw [isA, hkind]
        decide
      simp [objectId?, hisA]
    obtain ⟨-, hchildren, hunknown⟩ := self.unnamed hkind
    rw [fits_eq, hobject, hchildren]
    exact fitAll_eq_true fun u hu => ih u hu (hunknown u hu) _

/-- Identifiers that are distinct fit if nothing is out of place. -/
theorem Neat.fits (hneat : e.Neat) (h : e.All Fitting) (hnodup : e.ids.Nodup)
    (hfree : ∀ id ∈ e.ids, id ∉ taken) : e.fits taken = true := by
  induction h generalizing taken with
  | @intro e self known unknown ih _ =>
    rw [ids_eq] at hnodup hfree
    obtain ⟨-, hchildren, hdisjoint⟩ := List.nodup_append.1 hnodup
    have hunnamed : ∀ u ∈ e.unknown, u.kind = .unknown := by
      intro u hu
      by_cases hkind : e.kind = .unknown
      · exact (self.unnamed hkind).2.2 u hu
      · exact hneat.self hkind u hu
    rw [fits_eq, Bool.and_eq_true, Bool.and_eq_true]
    refine ⟨?_, ?_, fitAll_eq_true fun u hu => fits_of_unknown (unknown u hu) (hunnamed u hu) _⟩
    · cases hid : e.objectId? with
      | none => rfl
      | some id =>
        simpa using hfree id (List.mem_append_left _ (mem_ids_bare.2 hid))
    · refine fitChildren_of_ids (fun c hc taken hids hids' => ?_) hchildren fun id hid hmem => ?_
      · cases c with
        | field slot f => exact fits_element f taken
        | element slot c =>
          have hmem : c ∈ e.elements := List.mem_filterMap.2 ⟨_, hc, rfl⟩
          exact ih c hmem (hneat.known c hmem) hids hids'
      · rcases List.mem_append.1 hmem with hmem | hmem
        · exact hfree id (List.mem_append_right _ hid) hmem
        · exact hdisjoint id hmem id hid rfl

/-! ## Arranging -/

theorem lookup_filterMap {get? : Attribute → Option String} {a : Attribute} {l : List Attribute}
    (h : ∀ value, get? a = some value → a ∈ l) :
    AttributeMap.lookup a (l.filterMap fun a => (get? a).map fun value => (a, value)) = get? a := by
  induction l with
  | nil =>
    cases hget : get? a with
    | none => rfl
    | some value => cases h value hget
  | cons b l ih =>
    by_cases hb : b = a
    · subst hb
      cases hget : get? b with
      | none =>
        rw [List.filterMap_cons, hget]
        have hih := ih (by simp [hget])
        rwa [hget] at hih
      | some value =>
        rw [List.filterMap_cons, hget]
        simp [AttributeMap.lookup]
    · have hmem : ∀ value, get? a = some value → a ∈ l := by
        intro value hvalue
        exact (List.mem_cons.1 (h value hvalue)).resolve_left (Ne.symm hb)
      cases hget : get? b with
      | none =>
        rw [List.filterMap_cons, hget]
        exact ih hmem
      | some value =>
        rw [List.filterMap_cons, hget]
        simp only [Option.map_some, AttributeMap.lookup, if_neg hb]
        exact ih hmem

theorem Stored.get?_arrange (h : Stored e) (a : Attribute) :
    e.arrange.attributes.get? a = e.attributes.get? a := by
  have hdeclared : ∀ value, e.attributes.get? a = some value → a ∈ e.kind.attributes := by
    intro value hvalue
    by_cases hmem : a ∈ e.attributes.keys
    · exact h.declared a hmem
    · rw [AttributeMap.get?, AttributeMap.lookup_eq_none hmem] at hvalue
      cases hvalue
  have hlookup := lookup_filterMap hdeclared
  cases e
  exact hlookup

theorem Stored.storedAttributes_arrange_perm (h : Stored e) :
    e.arrange.storedAttributes.Perm e.storedAttributes := by
  have harranged : e.arrange.attributes.keys.Nodup :=
    e.keys_arrange_sublist.nodup e.kind.nodup_attributes
  have hnodup {m : AttributeMap Attribute} (hm : m.keys.Nodup) : m.entries.Nodup :=
    List.Pairwise.of_map Prod.fst (fun _ _ hne heq => hne (congrArg Prod.fst heq)) hm
  have hentries : e.arrange.attributes.entries.Perm e.attributes.entries := by
    refine (List.perm_ext_iff_of_nodup (hnodup harranged) (hnodup h.declared_nodup)).2 fun entry => ?_
    rw [← AttributeMap.get?_eq_some_iff harranged, h.get?_arrange,
      AttributeMap.get?_eq_some_iff h.declared_nodup]
  rw [storedAttributes, storedAttributes, otherAttributes_arrange]
  exact (hentries.map _).append_right _

theorem Stored.objectId?_arrange (h : Stored e) : e.arrange.objectId? = e.objectId? := by
  have hget := h.get?_arrange .id
  rw [objectId?, objectId?, isA, isA, kind_arrange, attribute?, attribute?, hget]

theorem flatMap_ids_perm {f : Child → Child} {children : List Child}
    (h : ∀ c ∈ children, (f c).ids.Perm c.ids) :
    ((children.map f).flatMap Child.ids).Perm (children.flatMap Child.ids) := by
  induction children with
  | nil => exact .refl _
  | cons c rest ih =>
    rw [List.map_cons, List.flatMap_cons, List.flatMap_cons]
    exact (h c List.mem_cons_self).append (ih fun d hd => h d (List.mem_cons_of_mem _ hd))

theorem ids_perm {e' : Element} {f : Child → Child} (hid : e'.objectId? = e.objectId?)
    (hperm : e'.children.Perm (e.children.map f)) (hf : ∀ c ∈ e.children, (f c).ids.Perm c.ids) :
    e'.ids.Perm e.ids := by
  have hbare : e'.bare.ids = e.bare.ids := by
    have hown : e'.ownId = e.ownId := by
      rw [ownId, ownId, hid]
    rw [ids_bare, ids_bare, hown]
  rw [ids_eq e', ids_eq e, hbare]
  exact ((hperm.flatMap_right Child.ids).trans (flatMap_ids_perm hf)).append_left _

theorem ids_arrange_perm (h : e.All Stored) : e.arrange.ids.Perm e.ids := by
  induction h with
  | @intro e self _ _ ih _ =>
    refine ids_perm self.objectId?_arrange e.children_arrange_perm fun c hc => ?_
    cases c with
    | field slot f => exact .refl _
    | element slot c => exact ih c (List.mem_filterMap.2 ⟨_, hc, rfl⟩)

end Element

end KmlTree
