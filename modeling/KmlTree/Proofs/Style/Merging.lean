import KmlTree.Proofs.Style.Expansion
import KmlTree.Proofs.Tree.Attachment

/-!
# Merging styles

A style that is put together holds sub-styles and nothing else, at most one of each kind. Main
statement: after some styles were merged, the sub-style of a kind is that of the first style that
has one.
-/
namespace KmlTree

namespace Element

/-- A style that holds sub-styles in their places and nothing else, no two of one kind. -/
structure Composed (e : Element) : Prop where
  head_eq : e.toHead = { kind := .style }
  unknown_eq : e.unknown = []
  children : ∀ c ∈ e.children, ∃ position slot subStyle, c = .element position subStyle ∧
    subStyle.kind ∈ subStyleKinds ∧ Kind.style.slotFor? subStyle.kind = some (position, slot)
  nodup : (e.children.map Child.kind).Nodup

theorem composed_ofKind : Composed (ofKind .style) where
  head_eq := rfl
  unknown_eq := rfl
  children := by simp [ofKind]
  nodup := by simp [ofKind]

end Element

theorem Kind.eq_of_isA_subStyle {k kind : Kind} (hkind : kind ∈ subStyleKinds)
    (h : k.isA kind = true) : k = kind := by
  have hall := of_all (p := fun k => subStyleKinds.all fun kind => !k.isA kind || k == kind)
    (by decide +kernel) k
  have hk := List.all_eq_true.1 hall kind hkind
  simpa [h] using hk

theorem Kind.slotFor?_subStyle {kind : Kind} (hkind : kind ∈ subStyleKinds) :
    ∃ position slot, Kind.style.slotFor? kind = some (position, slot) ∧ slot.repeats = false ∧
      ∀ kind' ∈ subStyleKinds, ∀ slot', Kind.style.slotFor? kind' = some (position, slot') →
        kind' = kind := by
  have hall : subStyleKinds.all (fun kind => (Kind.style.slotFor? kind).any fun found =>
      !found.2.repeats && subStyleKinds.all fun kind' =>
        (Kind.style.slotFor? kind').all fun found' => !(found'.1 == found.1) || kind' == kind) = true := by
    decide +kernel
  have hfound := List.all_eq_true.1 hall kind hkind
  obtain ⟨⟨position, slot⟩, hslot, hrest⟩ := (Option.any_eq_true _ _).1 hfound
  simp only [Bool.and_eq_true, Bool.not_eq_true', List.all_eq_true] at hrest
  refine ⟨position, slot, hslot, hrest.1, fun kind' hkind' slot' hslot' => ?_⟩
  have hsame := hrest.2 kind' hkind'
  simpa [hslot'] using hsame

namespace Element

variable {result source subStyle : Element} {kind : Kind}

theorem find?_kind (hkind : kind ∈ subStyleKinds) (h : result.find? kind = some subStyle) :
    subStyle.kind = kind := by
  have hisA : subStyle.isA kind = true := by simpa using List.find?_some h
  exact Kind.eq_of_isA_subStyle hkind hisA

theorem Composed.addChild (h : Composed result) (hkind : subStyle.kind ∈ subStyleKinds)
    (hnew : result.find? subStyle.kind = none) : ∃ position slot,
      Kind.style.slotFor? subStyle.kind = some (position, slot) ∧ result.addChild subStyle =
        .ok { result with children := result.children ++ [.element position subStyle] } := by
  obtain ⟨position, slot, hslot, -, hown⟩ := Kind.slotFor?_subStyle hkind
  have hstyle : result.kind = .style := congrArg Head.kind h.head_eq
  have hknown : subStyle.kind ≠ .unknown := by
    intro heq
    rw [heq] at hkind
    revert hkind
    decide
  have hsimple : subStyle.kind.isSimple = false := by
    have hall : ∀ kind ∈ subStyleKinds, kind.isSimple = false := by decide +kernel
    exact hall _ hkind
  have hfree : ∀ c ∈ result.children, c.slot ≠ position := by
    intro c hc hposition
    obtain ⟨position', slot', e, rfl, he, hslot'⟩ := h.children c hc
    have hposition : position' = position := hposition
    rw [hposition] at hslot'
    have hmem : e ∈ result.elements := List.mem_filterMap.2 ⟨_, hc, rfl⟩
    have hnone := List.find?_eq_none.1 hnew e hmem
    rw [isA, hown e.kind he slot' hslot'] at hnone
    exact hnone (Kind.isA_self _)
  refine ⟨position, slot, hslot, ?_⟩
  have hchild : subStyle.toChild position = .element position subStyle := by
    simp [toChild, hsimple]
  rw [Element.addChild]
  cases hattach : result.attach subStyle with
  | error rejected =>
    obtain ⟨-, -, hnone, -⟩ := attach_eq_error_iff.1 hattach
    rw [hstyle, hslot] at hnone
    cases hnone
  | ok a =>
    cases attach_cases hattach with
    | unknown hunknown =>
      rcases hunknown with hunknown | hunknown
      · rw [hstyle] at hunknown
        cases hunknown
      · exact absurd hunknown hknown
    | @placed position' _ i c _ _ hslot' _ hi hc _ =>
      rw [hstyle, hslot] at hslot'
      cases hslot'
      exact absurd hc (hfree c (List.mem_of_getElem? hi))
    | @appended position' _ _ _ hslot' _ =>
      rw [hstyle, hslot] at hslot'
      cases hslot'
      rw [hchild]
      rfl

theorem find?_append (e : Element) (position : Nat) (c : Element) (kind : Kind) :
    ({ e with children := e.children ++ [.element position c] } : Element).find? kind =
      (e.find? kind).or (if c.isA kind then some c else none) := by
  simp [find?, elements, List.filterMap_append, Child.element?, List.find?_append]

theorem Composed.append {position : Nat} {slot : Slot} (h : Composed result)
    (hkind : subStyle.kind ∈ subStyleKinds) (hnew : result.find? subStyle.kind = none)
    (hslot : Kind.style.slotFor? subStyle.kind = some (position, slot)) :
    Composed { result with children := result.children ++ [.element position subStyle] } where
  head_eq := h.head_eq
  unknown_eq := h.unknown_eq
  children := by
    intro c hc
    rcases List.mem_append.1 hc with hc | hc
    · exact h.children c hc
    · exact ⟨position, slot, subStyle, List.mem_singleton.1 hc, hkind, hslot⟩
  nodup := by
    rw [List.map_append, List.nodup_append]
    refine ⟨h.nodup, by simp, fun k hk k' hk' => ?_⟩
    obtain ⟨c, hc, rfl⟩ := List.mem_map.1 hk
    obtain ⟨position', slot', e, rfl, -, -⟩ := h.children c hc
    have hk' : k' = subStyle.kind := by simpa [Child.kind] using hk'
    intro heq
    have heq : e.kind = subStyle.kind := heq.trans hk'
    have hmem : e ∈ result.elements := List.mem_filterMap.2 ⟨_, hc, rfl⟩
    have hnone := List.find?_eq_none.1 hnew e hmem
    rw [isA, heq] at hnone
    exact hnone (Kind.isA_self _)

/-- Merging the sub-style of a kind adds it if there is none, and touches no other kind. -/
theorem Composed.mergeSubStyle (h : Composed result) (source : Element)
    (hkind : kind ∈ subStyleKinds) : Composed (mergeSubStyle source result kind) ∧
      ∀ kind' ∈ subStyleKinds, (mergeSubStyle source result kind).find? kind' =
        if kind' = kind then (result.find? kind).or (source.find? kind)
        else result.find? kind' := by
  have hsame (hor : (result.find? kind).or (source.find? kind) = result.find? kind) :
      ∀ kind' ∈ subStyleKinds, result.find? kind' =
        if kind' = kind then (result.find? kind).or (source.find? kind)
        else result.find? kind' := by
    intro kind' _
    split
    · next heq => rw [hor, heq]
    · rfl
  unfold Element.mergeSubStyle
  cases hresult : result.find? kind with
  | some e => exact ⟨h, by simpa only [hresult] using hsame (by simp [hresult])⟩
  | none =>
    cases hsource : source.find? kind with
    | none => exact ⟨h, by simpa only [hresult, hsource] using hsame (by simp [hresult, hsource])⟩
    | some subStyle =>
      obtain rfl : subStyle.kind = kind := find?_kind hkind hsource
      obtain ⟨position, slot, hslot, hadd⟩ := h.addChild hkind hresult
      simp only [hadd]
      refine ⟨h.append hkind hresult hslot, fun kind' hkind' => ?_⟩
      rw [find?_append]
      by_cases heq : kind' = subStyle.kind
      · simp [heq, hresult, isA, Kind.isA_self]
      · have hnot : subStyle.isA kind' = false := by
          cases hisA : subStyle.isA kind' with
          | false => rfl
          | true => exact absurd (Kind.eq_of_isA_subStyle hkind' hisA).symm heq
        simp [heq, hnot]

theorem Composed.foldl_mergeSubStyle (h : Composed result) (source : Element) (kinds : List Kind)
    (hkinds : ∀ kind ∈ kinds, kind ∈ subStyleKinds) :
    Composed (kinds.foldl (Element.mergeSubStyle source) result) ∧
      ∀ kind ∈ subStyleKinds, (kinds.foldl (Element.mergeSubStyle source) result).find? kind =
        if kind ∈ kinds then (result.find? kind).or (source.find? kind)
        else result.find? kind := by
  induction kinds generalizing result with
  | nil => exact ⟨h, by simp⟩
  | cons k rest ih =>
    obtain ⟨hmerged, hfind⟩ := h.mergeSubStyle source (hkinds k List.mem_cons_self)
    obtain ⟨hcomposed, hrest⟩ := ih hmerged fun kind hkind => hkinds kind (List.mem_cons_of_mem _ hkind)
    refine ⟨hcomposed, fun kind hkind => ?_⟩
    rw [List.foldl_cons, hrest kind hkind, hfind kind hkind]
    by_cases heq : kind = k
    · subst heq
      cases result.find? kind <;> simp
    · simp [heq]

/-- A merged style adds the sub-styles of the kinds that the result does not have. -/
theorem Composed.mergeStyle (h : Composed result) (source : Element) :
    Composed (result.mergeStyle source) ∧ ∀ kind ∈ subStyleKinds,
      (result.mergeStyle source).find? kind = (result.find? kind).or (source.find? kind) := by
  obtain ⟨hcomposed, hfind⟩ := h.foldl_mergeSubStyle source subStyleKinds fun _ => id
  refine ⟨hcomposed, fun kind hkind => ?_⟩
  rw [Element.mergeStyle, hfind kind hkind, if_pos hkind]

end Element

end KmlTree
