import KmlTree.Proofs.Markup.Rendering
import KmlTree.Proofs.Tree.Seated
import Mathlib.Data.List.Induction

/-!
# The order of building

The text of an element does not tell in which order the element was built. All that tells is the
order of the children that share a place, of those that are kept as unknown content, and of the
attributes that the kind does not declare.
-/
namespace KmlTree

/-- What an element does with a child that is added to it. -/
inductive Berth
  | unknown
  | slot (position : Nat)
  | refused
  deriving DecidableEq, Repr

/-- What elements of a kind do with children of another. -/
def Kind.berth (parent child : Kind) : Berth :=
  if parent = .unknown ∨ child = .unknown then .unknown
  else
    match parent.slotFor? child with
    | some (position, _) => .slot position
    | none => .refused

namespace Element

def setAttributes (e : Element) (attributes : List (String × String)) : Element :=
  attributes.foldl (fun e (key, value) => e.setAttribute key value) e

/-- The element with a child added to it, if it does not refuse the child. -/
def offer (e child : Element) : Element :=
  match e.addChild child with
  | .ok e' => e'
  | .error _ => e

def offerAll (e : Element) (children : List Element) : Element := children.foldl offer e

def build (kind : Kind) (attributes : List (String × String)) (children : List Element) : Element :=
  ((ofKind kind).setAttributes attributes).offerAll children

variable {e child : Element} {a : Attached}

/-! ## Setting attributes -/

theorem setAttributes_append (e : Element) (xs ys : List (String × String)) :
    e.setAttributes (xs ++ ys) = (e.setAttributes xs).setAttributes ys :=
  List.foldl_append

theorem setAttributes_eq (e : Element) (attributes : List (String × String)) : ∃ known others,
    e.setAttributes attributes = { e with attributes := known, otherAttributes := others } :=
  foldl_setAttribute_eq attributes e

@[simp] theorem kind_setAttributes (e : Element) (attributes : List (String × String)) :
    (e.setAttributes attributes).kind = e.kind := by
  obtain ⟨known, others, heq⟩ := e.setAttributes_eq attributes
  rw [heq]

theorem children_setAttributes (e : Element) (attributes : List (String × String)) :
    (e.setAttributes attributes).children = e.children := by
  obtain ⟨known, others, heq⟩ := e.setAttributes_eq attributes
  rw [heq]

theorem unknown_setAttributes (e : Element) (attributes : List (String × String)) :
    (e.setAttributes attributes).unknown = e.unknown := by
  obtain ⟨known, others, heq⟩ := e.setAttributes_eq attributes
  rw [heq]

theorem Seated.setAttributes (h : Seated e) (attributes : List (String × String)) :
    Seated (e.setAttributes attributes) :=
  h.congr (h.toStored.setAttributes attributes) (e.kind_setAttributes attributes)
    (e.children_setAttributes attributes)

theorem attribute?_setAttributes (e : Element) (attributes : List (String × String))
    (a : Attribute) : (e.setAttributes attributes).attribute? a =
      ((attributes.filter fun entry => e.kind.attribute? entry.1 == some a).getLast?.map
        Prod.snd).or (e.attribute? a) := by
  induction attributes using List.reverseRecOn with
  | nil => simp [setAttributes]
  | append_singleton rest entry ih =>
    have hkind := e.kind_setAttributes rest
    have hlast : (e.setAttributes (rest ++ [entry])).attribute? a =
        if e.kind.attribute? entry.1 = some a then some entry.2
        else (e.setAttributes rest).attribute? a := by
      rw [setAttributes_append]
      change ((e.setAttributes rest).setAttribute entry.1 entry.2).attribute? a = _
      unfold setAttribute attribute?
      rw [hkind]
      cases e.kind.attribute? entry.1 with
      | none => simp
      | some b => simp
    rw [hlast, ih]
    by_cases hentry : e.kind.attribute? entry.1 = some a <;> simp [List.filter_append, hentry]

theorem otherAttributes_setAttributes (e : Element) (attributes : List (String × String)) :
    (e.setAttributes attributes).otherAttributes =
      (attributes.filter fun entry => e.kind.attribute? entry.1 == none).foldl
        (fun others (key, value) => others.insert key value) e.otherAttributes := by
  induction attributes using List.reverseRecOn with
  | nil => rfl
  | append_singleton rest entry ih =>
    have hkind := e.kind_setAttributes rest
    rw [setAttributes_append]
    change ((e.setAttributes rest).setAttribute entry.1 entry.2).otherAttributes = _
    unfold setAttribute
    rw [hkind, List.filter_append, List.foldl_append, ← ih]
    cases hentry : e.kind.attribute? entry.1 with
    | none => simp [hentry]
    | some b => simp [hentry]

/-! ## Adding children -/

theorem offer_cases (e child : Element) :
    (e.kind.berth child.kind = .refused ∧ e.offer child = e) ∨
      ∃ a, e.Attaches child a ∧ e.offer child = a.parent := by
  unfold offer addChild
  cases hattach : e.attach child with
  | error rejected =>
    obtain ⟨hparent, hchild, hslot, -⟩ := attach_eq_error_iff.1 hattach
    exact Or.inl ⟨by simp [Kind.berth, hparent, hchild, hslot], rfl⟩
  | ok a => exact Or.inr ⟨a, attach_cases hattach, rfl⟩

theorem offerAll_append (e : Element) (xs ys : List Element) :
    e.offerAll (xs ++ ys) = (e.offerAll xs).offerAll ys :=
  List.foldl_append

theorem toHead_offer (e child : Element) : (e.offer child).toHead = e.toHead := by
  obtain ⟨-, heq⟩ | ⟨a, ha, heq⟩ := e.offer_cases child
  · rw [heq]
  · rw [heq]
    cases ha <;> rfl

@[simp] theorem toHead_offerAll (e : Element) (children : List Element) :
    (e.offerAll children).toHead = e.toHead := by
  induction children using List.reverseRecOn with
  | nil => rfl
  | append_singleton rest child ih =>
    rw [offerAll_append]
    exact (toHead_offer _ child).trans ih

theorem Seated.offer (h : Seated e) (child : Element) : Seated (e.offer child) := by
  obtain ⟨-, heq⟩ | ⟨a, ha, heq⟩ := e.offer_cases child
  · rwa [heq]
  · rw [heq]
    exact h.attaches ha

theorem Seated.offerAll (h : Seated e) (children : List Element) : Seated (e.offerAll children) := by
  induction children using List.reverseRecOn with
  | nil => exact h
  | append_singleton rest child ih =>
    rw [offerAll_append]
    exact ih.offer child

theorem unknown_offer (e child : Element) :
    (e.offer child).unknown =
      e.unknown ++ [child].filter fun c => e.kind.berth c.kind == .unknown := by
  obtain ⟨hberth, heq⟩ | ⟨a, ha, heq⟩ := e.offer_cases child
  · simp [heq, hberth]
  rw [heq]
  cases ha with
  | unknown h => simp [Kind.berth, h, addUnknown]
  | placed hparent hchild hslot => simp [Kind.berth, hparent, hchild, hslot]
  | appended hparent hchild hslot => simp [Kind.berth, hparent, hchild, hslot]

theorem unknown_offerAll (e : Element) (children : List Element) :
    (e.offerAll children).unknown =
      e.unknown ++ children.filter fun c => e.kind.berth c.kind == .unknown := by
  induction children using List.reverseRecOn with
  | nil => simp [offerAll]
  | append_singleton rest child ih =>
    have hkind : (e.offerAll rest).kind = e.kind := congrArg Head.kind (e.toHead_offerAll rest)
    rw [offerAll_append]
    change ((e.offerAll rest).offer child).unknown = _
    rw [unknown_offer, hkind, ih, List.filter_append, List.append_assoc]

theorem filter_offer_of_ne (e : Element) {position : Nat}
    (h : e.kind.berth child.kind ≠ .slot position) :
    ((e.offer child).children.filter fun c => c.slot == position) =
      e.children.filter fun c => c.slot == position := by
  obtain ⟨-, heq⟩ | ⟨a, ha, heq⟩ := e.offer_cases child
  · rw [heq]
  rw [heq]
  cases ha with
  | unknown h => rfl
  | @placed taken _ i c hparent hchild hslot _ hi hc _ =>
    have hne : taken ≠ position := by simpa [Kind.berth, hparent, hchild, hslot] using h
    obtain ⟨hlt, hget⟩ := List.getElem?_eq_some_iff.1 hi
    have hsplit := List.take_append_drop i e.children
    rw [List.drop_eq_getElem_cons hlt, hget] at hsplit
    rw [List.set_eq_take_append_cons_drop, if_pos hlt]
    conv => rhs; rw [← hsplit]
    simp [List.filter_append, hc, hne]
  | appended hparent hchild hslot =>
    simp_all [Kind.berth, List.filter_append]

theorem children_offer_of_slot (e : Element) {position : Nat}
    (h : e.kind.berth child.kind = .slot position) :
    (∃ i < e.children.length, e.kind.repeats position = false ∧
        (e.offer child).children = e.children.set i (child.toChild position)) ∨
      (e.offer child).children = e.children ++ [child.toChild position] := by
  obtain ⟨hberth, -⟩ | ⟨a, ha, heq⟩ := e.offer_cases child
  · rw [hberth] at h
    cases h
  rw [heq]
  cases ha with
  | unknown hunknown => simp [Kind.berth, hunknown] at h
  | @placed taken slot i c hparent hchild hslot hone hi =>
    have htaken : taken = position := by simpa [Kind.berth, hparent, hchild, hslot] using h
    subst htaken
    have hsingle : e.kind.repeats taken = false := (Kind.repeats_of_slotFor? hslot).trans hone
    exact Or.inl ⟨i, (List.getElem?_eq_some_iff.1 hi).1, hsingle, rfl⟩
  | @appended taken slot hparent hchild hslot =>
    have htaken : taken = position := by simpa [Kind.berth, hparent, hchild, hslot] using h
    exact Or.inr (htaken ▸ rfl)

theorem filter_offer_of_repeats (e : Element) {position : Nat}
    (h : e.kind.berth child.kind = .slot position) (hmany : e.kind.repeats position = true) :
    ((e.offer child).children.filter fun c => c.slot == position) =
      (e.children.filter fun c => c.slot == position) ++ [child.toChild position] := by
  obtain ⟨i, -, hone, -⟩ | hlast := children_offer_of_slot e h
  · rw [hone] at hmany
    cases hmany
  · simp [hlast, List.filter_append]

/-- In a place that has room for one the child is all there is. -/
theorem Seated.filter_offer_of_single (hseated : Seated e) {position : Nat}
    (h : e.kind.berth child.kind = .slot position) (hone : e.kind.repeats position = false) :
    ((e.offer child).children.filter fun c => c.slot == position) = [child.toChild position] := by
  have hkind : (e.offer child).kind = e.kind := congrArg Head.kind (e.toHead_offer child)
  have hone' : (e.offer child).kind.repeats position = false := by rwa [hkind]
  have hlength := (hseated.offer child).length_filter_le hone'
  have hmem : child.toChild position ∈
      (e.offer child).children.filter fun c => c.slot == position := by
    rw [List.mem_filter]
    refine ⟨?_, by simp⟩
    obtain ⟨i, hlt, -, hset⟩ | hlast := children_offer_of_slot e h
    · rw [hset]
      exact List.mem_set hlt _
    · simp [hlast]
  obtain ⟨c, hc⟩ := List.length_eq_one_iff.1 (Nat.le_antisymm hlength (List.length_pos_of_mem hmem))
  rw [hc, List.mem_singleton] at hmem
  rw [hc, hmem]

/-- The children that are left in a place of all that were put there: the last one, if there is room
for one only. -/
def standing (kind : Kind) (children : List Element) (position : Nat) : List Element :=
  let taken := children.filter fun c => kind.berth c.kind == .slot position
  if kind.repeats position then taken else taken.getLast?.toList

theorem Seated.filter_offerAll (h : Seated e) (hempty : e.children = []) (children : List Element)
    (position : Nat) : ((e.offerAll children).children.filter fun c => c.slot == position) =
      (standing e.kind children position).map (toChild position) := by
  induction children using List.reverseRecOn with
  | nil =>
    have hnone : (e.offerAll []).children = [] := hempty
    simp [hnone, standing]
  | append_singleton rest child ih =>
    have hkind : (e.offerAll rest).kind = e.kind := congrArg Head.kind (e.toHead_offerAll rest)
    rw [offerAll_append]
    change (((e.offerAll rest).offer child).children.filter fun c => c.slot == position) = _
    by_cases hberth : e.kind.berth child.kind = .slot position
    · cases hrepeats : e.kind.repeats position with
      | true =>
        rw [filter_offer_of_repeats _ (by rwa [hkind]) (by rwa [hkind]), ih]
        simp [standing, hrepeats, hberth, List.filter_append]
      | false =>
        rw [(h.offerAll rest).filter_offer_of_single (by rwa [hkind]) (by rwa [hkind])]
        simp [standing, hrepeats, hberth, List.filter_append]
    · rw [filter_offer_of_ne _ (by rwa [hkind]), ih]
      simp [standing, hberth, List.filter_append]

/-! ## The text -/

/-- What arranging an element sees of it. -/
theorem arrange_congr {e e' : Element} (hkind : e.kind = e'.kind)
    (hname : e.writtenName? = e'.writtenName?) (htext : e.text = e'.text)
    (hattributes : ∀ a, e.attribute? a = e'.attribute? a)
    (hothers : e.otherAttributes = e'.otherAttributes)
    (hchildren : ∀ position, (e.children.filter fun c => c.slot == position) =
      e'.children.filter fun c => c.slot == position)
    (hunknown : e.unknown = e'.unknown) : e.arrange = e'.arrange := by
  have hsort : sortByKey Child.slot (arrangeChildren e.children) =
      sortByKey Child.slot (arrangeChildren e'.children) := by
    have hkey : Child.slot ∘ Child.arrange = Child.slot := funext Child.slot_arrange
    rw [arrangeChildren_eq, arrangeChildren_eq, sortByKey_map, sortByKey_map, hkey,
      sortByKey_congr Child.slot hchildren]
  have hhead : e.toHead.arrange = e'.toHead.arrange := by
    have hget : e.attributes.get? = e'.attributes.get? := funext hattributes
    simp only [Head.arrange, hget, hkind, hname, htext, hothers]
  obtain ⟨head, children, unknown⟩ := e
  obtain ⟨head', children', unknown'⟩ := e'
  rw [arrange, arrange]
  exact congr (congr (congrArg Element.mk hhead) hsort) (congrArg arrangeAll hunknown)

/-- Attributes of distinct names, of which no two are the same to the kind, do not tell in which
order they stand. -/
theorem filter_attribute_eq_of_perm {kind : Kind} {xs ys : List (String × String)}
    (h : (xs.filter fun entry => (kind.attribute? entry.1).isSome).Perm
      (ys.filter fun entry => (kind.attribute? entry.1).isSome))
    (hnodup : ((xs.filter fun entry => (kind.attribute? entry.1).isSome).map Prod.fst).Nodup)
    (a : Attribute) : (xs.filter fun entry => kind.attribute? entry.1 == some a) =
      ys.filter fun entry => kind.attribute? entry.1 == some a := by
  have hdeclared (zs : List (String × String)) :
      (zs.filter fun entry => kind.attribute? entry.1 == some a) =
        (zs.filter fun entry => (kind.attribute? entry.1).isSome).filter fun entry =>
          kind.attribute? entry.1 == some a := by
    rw [List.filter_filter]
    refine List.filter_congr fun entry _ => ?_
    cases kind.attribute? entry.1 <;> simp
  rw [hdeclared xs, hdeclared ys]
  have hperm := h.filter fun entry => kind.attribute? entry.1 == some a
  -- what is the same attribute has the same name, so there is at most one
  have hpairwise := (List.pairwise_map.1 hnodup).sublist
    (List.filter_sublist (p := fun entry => kind.attribute? entry.1 == some a))
  have hname : ∀ entry ∈ (xs.filter fun entry => (kind.attribute? entry.1).isSome).filter
      (fun entry => kind.attribute? entry.1 == some a), entry.1 = a.key := by
    intro entry hentry
    have hget : kind.attribute? entry.1 = some a := by simpa using (List.mem_filter.1 hentry).2
    exact (Kind.key_of_attribute? hget).symm
  generalize (xs.filter fun entry => (kind.attribute? entry.1).isSome).filter
    (fun entry => kind.attribute? entry.1 == some a) = one at hperm hpairwise hname
  match one with
  | [] => exact hperm.nil_eq
  | [entry] => exact (List.perm_singleton.1 hperm.symm).symm
  | entry :: entry' :: rest =>
    have hne := (List.pairwise_cons.1 hpairwise).1 entry' List.mem_cons_self
    exact absurd ((hname entry List.mem_cons_self).trans
      (hname entry' (List.mem_cons_of_mem _ List.mem_cons_self)).symm) hne

variable (kind : Kind) (attributes : List (String × String)) (children : List Element)

theorem toHead_build : (build kind attributes children).toHead =
    ((ofKind kind).setAttributes attributes).toHead :=
  toHead_offerAll _ children

theorem build_frame : (build kind attributes children).kind = kind ∧
    (build kind attributes children).writtenName? = none ∧
    (build kind attributes children).text = "" := by
  obtain ⟨known, others, heq⟩ := (ofKind kind).setAttributes_eq attributes
  rw [toHead_build, heq]
  exact ⟨rfl, rfl, rfl⟩

theorem attribute?_build (a : Attribute) : (build kind attributes children).attribute? a =
    (attributes.filter fun entry => kind.attribute? entry.1 == some a).getLast?.map Prod.snd := by
  have hvalue := (ofKind kind).attribute?_setAttributes attributes a
  unfold attribute? at hvalue ⊢
  rw [toHead_build, hvalue]
  exact Option.or_none

theorem otherAttributes_build : (build kind attributes children).otherAttributes =
    (attributes.filter fun entry => kind.attribute? entry.1 == none).foldl
      (fun others (key, value) => others.insert key value) ∅ := by
  rw [toHead_build]
  exact (ofKind kind).otherAttributes_setAttributes attributes

theorem filter_build (position : Nat) :
    ((build kind attributes children).children.filter fun c => c.slot == position) =
      (standing kind children position).map (toChild position) := by
  have hseated : Seated ((ofKind kind).setAttributes attributes) :=
    (all_seated_empty rfl rfl).self.setAttributes attributes
  have hempty : ((ofKind kind).setAttributes attributes).children = [] :=
    (ofKind kind).children_setAttributes attributes
  have hall := hseated.filter_offerAll hempty children position
  rwa [kind_setAttributes] at hall

theorem unknown_build : (build kind attributes children).unknown =
    children.filter fun c => kind.berth c.kind == .unknown := by
  have hall := ((ofKind kind).setAttributes attributes).unknown_offerAll children
  rw [kind_setAttributes, unknown_setAttributes] at hall
  exact hall

variable {kind attributes children}

/-- An element is arranged the same way however its attributes and children were ordered, as long as
attributes with the same meaning and children with the same berth keep their order. -/
theorem arrange_build_eq {attributes' : List (String × String)} {children' : List Element}
    (hattributes : ∀ a?, (attributes.filter fun entry => kind.attribute? entry.1 == a?) =
      attributes'.filter fun entry => kind.attribute? entry.1 == a?)
    (hchildren : ∀ berth ≠ .refused, (children.filter fun c => kind.berth c.kind == berth) =
      children'.filter fun c => kind.berth c.kind == berth) :
    (build kind attributes children).arrange = (build kind attributes' children').arrange := by
  obtain ⟨hkind, hname, htext⟩ := build_frame kind attributes children
  obtain ⟨hkind', hname', htext'⟩ := build_frame kind attributes' children'
  refine arrange_congr (hkind.trans hkind'.symm) (hname.trans hname'.symm)
    (htext.trans htext'.symm) (fun a => ?_) ?_ (fun position => ?_) ?_
  · rw [attribute?_build, attribute?_build, hattributes]
  · rw [otherAttributes_build, otherAttributes_build, hattributes]
  · rw [filter_build, filter_build, standing, standing, hchildren _ (by simp)]
  · rw [unknown_build, unknown_build, hchildren _ (by simp)]

/-- The text of an element that was built from nothing does not depend on the order in which
attributes of distinct names that the kind declares were set and children were added, as long as
other attributes, the children of each place and unknown content keep their order. Where children
were refused does not tell. -/
theorem render_build_eq {attributes' : List (String × String)} {children' : List Element}
    (hdeclared : (attributes.filter fun entry => (kind.attribute? entry.1).isSome).Perm
      (attributes'.filter fun entry => (kind.attribute? entry.1).isSome))
    (hdistinct :
      ((attributes.filter fun entry => (kind.attribute? entry.1).isSome).map Prod.fst).Nodup)
    (hothers : (attributes.filter fun entry => (kind.attribute? entry.1).isNone) =
      attributes'.filter fun entry => (kind.attribute? entry.1).isNone)
    (hchildren : ∀ berth ≠ .refused, (children.filter fun c => kind.berth c.kind == berth) =
      children'.filter fun c => kind.berth c.kind == berth)
    (options : Markup.RenderOptions) :
    ∃ text, (build kind attributes children).render options = .ok text ∧
      (build kind attributes' children').render options = .ok text := by
  have hattributes (a? : Option Attribute) :
      (attributes.filter fun entry => kind.attribute? entry.1 == a?) =
        attributes'.filter fun entry => kind.attribute? entry.1 == a? := by
    cases a? with
    | none =>
      have hnone (entry : String × String) :
          (kind.attribute? entry.1 == none) = (kind.attribute? entry.1).isNone := by
        cases kind.attribute? entry.1 <;> rfl
      simp only [hnone, hothers]
    | some a => exact filter_attribute_eq_of_perm hdeclared hdistinct a
  have harrange := arrange_build_eq hattributes hchildren
  exact ⟨_, render_eq _ options, by rw [render_eq, harrange]⟩

/-! ## Two orders -/

/-- Names, a point, an element that the schema does not know and one that a placemark refuses. -/
def campContent : List Element :=
  [Field.element ⟨.name, "Tent"⟩, ofKind .point, unnamed "x", Field.element ⟨.name, "Camp"⟩,
    ofKind .iconStyle]

def campContentReordered : List Element :=
  [ofKind .iconStyle, unnamed "x", ofKind .point, Field.element ⟨.name, "Tent"⟩,
    Field.element ⟨.name, "Camp"⟩]

theorem filter_berth_campContent (berth : Berth) :
    (campContent.filter fun c => Kind.berth .placemark c.kind == berth) =
      campContentReordered.filter fun c => Kind.berth .placemark c.kind == berth := by
  have hname (text : String) :
      Kind.berth .placemark (Field.element ⟨.name, text⟩).kind = .slot 0 := rfl
  have hpoint : Kind.berth .placemark (ofKind .point).kind = .slot 13 := rfl
  have hunknown : Kind.berth .placemark (unnamed "x").kind = .unknown := rfl
  have hrefused : Kind.berth .placemark (ofKind .iconStyle).kind = .refused := rfl
  simp only [campContent, campContentReordered, List.filter_cons, hname, hpoint, hunknown, hrefused]
  cases berth with
  | unknown => rfl
  | refused => rfl
  | slot position =>
    by_cases hzero : 0 = position
    · subst hzero
      rfl
    · simp [hzero]

/-- The point comes first or last, and the text is the same. -/
theorem render_build_camp :
    build .placemark [("id", "c"), ("k", "v"), ("targetId", "t")] campContent ≠
      build .placemark [("targetId", "t"), ("id", "c"), ("k", "v")] campContentReordered ∧
    ∃ text,
      (build .placemark [("id", "c"), ("k", "v"), ("targetId", "t")] campContent).render {} =
        .ok text ∧
      (build .placemark [("targetId", "t"), ("id", "c"), ("k", "v")] campContentReordered).render {} =
        .ok text :=
  ⟨by decide +kernel,
    render_build_eq (by decide) (by decide) (by decide) (fun berth _ => filter_berth_campContent berth)
      {}⟩

end Element

end KmlTree
