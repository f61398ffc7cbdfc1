import KmlTree.Proofs.Reading.Step
import KmlTree.Proofs.Tree.Attachment

/-!
# Identifiers in use

While a source text is read, each open element lists the identifiers declared in it so far, and the
identifiers that are taken are those of all these lists. Main statement: no step can break this, in
whichever way an element is kept, moved aside, displaced or dropped.
-/
namespace KmlTree

namespace Builder

/-! ## Lists of identifiers -/

theorem splitIds_perm (i : Nat) (ids : Declared) :
    ((splitIds i ids).1 ++ (splitIds i ids).2).Perm ids := by
  have hperm := List.filter_append_perm (fun entry => entry.2.head? == some i) ids
  exact List.perm_append_comm.trans (by simpa [splitIds, bne] using hperm)

/-- The identifiers that a parent keeps when it takes in a child, and those that it gives back. -/
def keptIds (i : Nat) (replaced? : Option Child) (ids : Declared) : Declared × Declared :=
  if (replaced?.bind Child.element?).isSome then splitIds i ids else (ids, [])

theorem keptIds_perm (i : Nat) (replaced? : Option Child) (ids : Declared) :
    ((keptIds i replaced? ids).1 ++ (keptIds i replaced? ids).2).Perm ids := by
  unfold keptIds
  split
  · exact splitIds_perm i ids
  · simp

/-- What an element with a new child declares: what is kept, and what is declared in the child. -/
theorem keptIds_append_lift_perm {parent child element : Element} {i : Nat}
    {replaced? : Option Child} {ids childIds : Declared}
    (h : parent.Attaches child ⟨element, some i, replaced?⟩)
    (hsimple : child.kind.isSimple = true → child.children = [])
    (hids : ids.Perm parent.declared) (hchild : childIds.Perm child.declared) :
    ((keptIds i replaced? ids).1 ++ lift i childIds).Perm element.declared := by
  have hlift (position : Nat) : (lift i childIds).Perm (lift i (child.toChild position).declared) := by
    rw [Element.declared_toChild position hsimple]
    exact hchild.map _
  cases h with
  | @placed position slot _ c _ _ _ _ hi _ _ =>
    obtain ⟨hlt, -⟩ := List.getElem?_eq_some_iff.1 hi
    refine List.Perm.trans ?_ (parent.declared_set_perm _ hlt).symm
    refine List.Perm.append ?_ (hlift position)
    cases hc : c.element? with
    | none =>
      rw [parent.declared_filter_of_field hi hc]
      simpa [keptIds, hc] using hids
    | some e =>
      simpa [keptIds, hc, splitIds] using hids.filter _
  | @appended position slot _ _ _ _ =>
    rw [Element.declared_append]
    exact hids.append (hlift position)

theorem declared_of_attaches_none {parent child element : Element} {replaced? : Option Child}
    (h : parent.Attaches child ⟨element, none, replaced?⟩) : element.declared = parent.declared := by
  cases h with
  | unknown _ => exact Element.declared_congr rfl rfl rfl

theorem release_perm {taken : List (String × Nat)} {kept ids : List String}
    (hnodup : (taken.map Prod.fst).Nodup) (gone : Declared) (hgone : gone.map Prod.fst = ids)
    (h : (taken.map Prod.fst).Perm (kept ++ ids)) :
    ((release taken gone).map Prod.fst).Perm kept := by
  have hfilter : (release taken gone).map Prod.fst =
      (taken.map Prod.fst).filter fun id => !(gone.any fun declared => declared.1 == id) := by
    rw [release, List.filter_map]
    rfl
  have hdisjoint := (List.nodup_append.1 (h.nodup_iff.1 hnodup)).2.2
  have hkept : kept.filter (fun id => !(gone.any fun declared => declared.1 == id)) = kept := by
    refine List.filter_eq_self.2 fun id hid => ?_
    simp only [Bool.not_eq_true', List.any_eq_false, beq_iff_eq]
    intro declared hdeclared heq
    exact hdisjoint id hid declared.1 (hgone ▸ List.mem_map_of_mem hdeclared) heq.symm
  have hids : ids.filter (fun id => !(gone.any fun declared => declared.1 == id)) = [] := by
    refine List.filter_eq_nil_iff.2 fun id hid => ?_
    rw [← hgone] at hid
    obtain ⟨declared, hdeclared, rfl⟩ := List.mem_map.1 hid
    simp only [Bool.not_eq_true', Bool.not_eq_false, List.any_eq_true, beq_iff_eq]
    exact ⟨declared, hdeclared, rfl⟩
  rw [hfilter]
  refine (h.filter _).trans ?_
  rw [List.filter_append, hkept, hids, List.append_nil]

/-! ## The invariant -/

/-- A frame lists what its element declares, and a field holds nothing. -/
structure Lists (frame : Frame) : Prop where
  ids_perm : frame.ids.Perm frame.element.declared
  field : frame.element.kind.isSimple = true → frame.element.children = []

theorem Lists.congr {frame frame' : Frame} (h : Lists frame) (hids : frame'.ids = frame.ids)
    (hkind : frame'.element.kind = frame.element.kind)
    (hattributes : frame'.element.attributes = frame.element.attributes)
    (hchildren : frame'.element.children = frame.element.children) : Lists frame' where
  ids_perm := by
    rw [hids, Element.declared_congr hkind hattributes hchildren]
    exact h.ids_perm
  field := by
    rw [hkind, hchildren]
    exact h.field

/-- The identifiers that the open elements list, or the root once it is complete. -/
def listed (b : Builder) : List String :=
  b.stack.flatMap (fun frame => frame.ids.map Prod.fst) ++
    ((b.root?.map Prod.snd).getD []).map Prod.fst

/-- The identifiers that are taken are those declared in what was read and kept. -/
structure Sound (b : Builder) : Prop where
  frames : ∀ frame ∈ b.stack, Lists frame
  around : ∀ frame ∈ b.stack.tail, frame.element.kind.isSimple = false
  root : ∀ r ∈ b.root?, r.2.Perm r.1.declared
  unfinished : b.stack ≠ [] → b.root? = none
  nodup : (b.taken.map Prod.fst).Nodup
  taken_perm : (b.taken.map Prod.fst).Perm b.listed

theorem sound_new (options : ReadOptions) : Sound (new options) where
  frames := by simp [new]
  around := by simp [new]
  root := by simp [new]
  unfinished := by simp [new]
  nodup := by simp [new]
  taken_perm := by simp [new, listed]

theorem Sound.congr {b b' : Builder} (h : Sound b) (hstack : b'.stack = b.stack)
    (htaken : b'.taken = b.taken) (hroot : b'.root? = b.root?) : Sound b' where
  frames := hstack ▸ h.frames
  around := hstack ▸ h.around
  root := hroot ▸ h.root
  unfinished := by
    rw [hstack, hroot]
    exact h.unfinished
  nodup := htaken ▸ h.nodup
  taken_perm := by
    rw [htaken, listed, hstack, hroot]
    exact h.taken_perm

theorem drop_stack (b : Builder) (name : String) (span : Text.Span) :
    (b.drop name span).stack = b.stack := by
  unfold drop
  split <;> rfl

theorem drop_taken (b : Builder) (name : String) (span : Text.Span) :
    (b.drop name span).taken = b.taken := by
  unfold drop
  split <;> rfl

theorem drop_root? (b : Builder) (name : String) (span : Text.Span) :
    (b.drop name span).root? = b.root? := by
  unfold drop
  split <;> rfl

/-- Changing the innermost frame keeps the invariant if it still lists what it listed. -/
theorem Sound.replaceHead {b b' : Builder} {frame frame' : Frame} {rest : List Frame}
    (h : Sound b) (hs : b.stack = frame :: rest) (hs' : b'.stack = frame' :: rest)
    (htaken : b'.taken = b.taken) (hroot : b'.root? = b.root?) (hids : frame'.ids = frame.ids)
    (hlists : Lists frame') : Sound b' where
  frames := by
    rw [hs']
    intro f hf
    rcases List.mem_cons.1 hf with rfl | hf
    · exact hlists
    · exact h.frames f (hs ▸ List.mem_cons_of_mem _ hf)
  around := by
    have haround := h.around
    rw [hs] at haround
    rwa [hs']
  root := hroot ▸ h.root
  unfinished := fun _ => hroot ▸ h.unfinished (by simp [hs])
  nodup := htaken ▸ h.nodup
  taken_perm := by
    have hperm := h.taken_perm
    rw [listed, hs, List.flatMap_cons] at hperm
    rw [htaken, listed, hs', hroot, List.flatMap_cons, hids]
    exact hperm

theorem Opens.release_eq {b : Builder} {name : String} {attributes : List (String × String)}
    {span : Text.Span} {frame : Frame} {taken : List (String × Nat)}
    (h : Opens b name attributes span frame taken) : release taken frame.ids = b.taken := by
  rw [h.taken_eq, release, List.filter_append, List.filter_eq_nil_iff.2, List.nil_append]
  · refine List.filter_eq_self.2 fun taken htaken => ?_
    simp only [Bool.not_eq_true', List.any_eq_false]
    intro entry hentry
    have hfree := List.lookup_eq_none_iff.1 (h.free entry hentry) taken htaken
    simpa using hfree
  · intro own hown
    obtain ⟨entry, hentry, rfl⟩ := List.mem_map.1 hown
    simp only [Bool.not_eq_true', Bool.not_eq_false, List.any_eq_true]
    exact ⟨entry, hentry, by simp⟩

theorem Sound.opened {b : Builder} {name : String} {attributes : List (String × String)}
    {span : Text.Span} {frame : Frame} {taken : List (String × Nat)} (h : Sound b)
    (hopens : Opens b name attributes span frame taken) (offset : Nat) :
    Sound { b with offset, taken, stack := frame :: b.stack } where
  frames := by
    intro f hf
    rcases List.mem_cons.1 hf with rfl | hf
    · have hchildren : f.element.children = [] := by
        rw [hopens.element_eq]
        exact (b.openedElement_empty name attributes).2.1
      refine ⟨?_, fun _ => hchildren⟩
      rw [hopens.ids_eq, Element.declared_eq, hchildren]
      simp [declaredFrom]
    · exact h.frames f hf
  around := by
    intro f hf
    change f ∈ b.stack at hf
    cases hs : b.stack with
    | nil => simp [hs] at hf
    | cons g rest =>
      rw [hs] at hf
      rcases List.mem_cons.1 hf with rfl | hf
      · exact (hopens.around f (by simp [hs])).2
      · exact h.around f (by rw [hs]; exact hf)
  root := h.root
  unfinished := fun _ => hopens.noRoot
  nodup := by
    rw [hopens.taken_eq, List.map_append, List.nodup_append]
    refine ⟨?_, h.nodup, fun id hid id' hid' => ?_⟩
    · rw [hopens.ids_eq, Element.ownId]
      cases frame.element.objectId? <;> simp
    · rw [List.map_map] at hid
      obtain ⟨entry, hentry, rfl⟩ := List.mem_map.1 hid
      obtain ⟨taken, htaken, rfl⟩ := List.mem_map.1 hid'
      have hfree := List.lookup_eq_none_iff.1 (hopens.free entry hentry) taken htaken
      simpa using hfree
  taken_perm := by
    have hlisted : ({ b with offset, taken, stack := frame :: b.stack } : Builder).listed =
        frame.ids.map Prod.fst ++ b.listed := by
      simp [listed]
    rw [hlisted, hopens.taken_eq, List.map_append, List.map_map]
    exact h.taken_perm.append_left (frame.ids.map Prod.fst)

/-- Ending an element keeps the invariant if its identifiers and those of the element around it are
listed there afterwards, or given back. -/
theorem Sound.closed {b b' : Builder} {frame parent parent' : Frame} {rest : List Frame}
    (gone : Declared) (h : Sound b) (hs : b.stack = frame :: parent :: rest)
    (hs' : b'.stack = parent' :: rest) (hroot : b'.root? = b.root?)
    (htaken : b'.taken = release b.taken gone) (hlists : Lists parent')
    (hids : (frame.ids ++ parent.ids).map Prod.fst |>.Perm ((parent'.ids ++ gone).map Prod.fst)) :
    Sound b' := by
  have hnoRoot : b.root? = none := h.unfinished (by simp [hs])
  have hlisted : b.listed = frame.ids.map Prod.fst ++ parent.ids.map Prod.fst ++
      rest.flatMap (fun frame => frame.ids.map Prod.fst) := by
    simp [listed, hs, hnoRoot]
  have hlisted' : b'.listed = parent'.ids.map Prod.fst ++
      rest.flatMap (fun frame => frame.ids.map Prod.fst) := by
    simp [listed, hs', hroot, hnoRoot]
  have hperm : (b.taken.map Prod.fst).Perm (b'.listed ++ gone.map Prod.fst) := by
    refine h.taken_perm.trans ?_
    rw [hlisted, hlisted', ← List.map_append]
    refine (hids.append_right _).trans ?_
    rw [List.map_append, List.append_assoc, List.append_assoc]
    exact List.perm_append_comm.append_left _
  have hreleased := release_perm h.nodup gone rfl hperm
  exact
    { frames := by
        rw [hs']
        intro f hf
        rcases List.mem_cons.1 hf with rfl | hf
        · exact hlists
        · exact h.frames f (by simp [hs, hf])
      around := by
        rw [hs']
        intro f hf
        exact h.around f (by
          rw [hs]
          exact List.mem_cons_of_mem _ hf)
      root := hroot ▸ h.root
      unfinished := fun _ => hroot ▸ hnoRoot
      nodup := by
        rw [htaken]
        exact (List.nodup_append.1 (hperm.nodup_iff.1 h.nodup)).1 |> hreleased.nodup_iff.2
      taken_perm := htaken ▸ hreleased }

theorem complete_congr (e : Element) : (complete e).kind = e.kind ∧
    (complete e).attributes = e.attributes ∧ (complete e).children = e.children := by
  unfold complete
  split <;> exact ⟨rfl, rfl, rfl⟩

theorem Lists.complete {frame : Frame} (h : Lists frame) :
    Lists { frame with element := complete frame.element } := by
  obtain ⟨hkind, hattributes, hchildren⟩ := complete_congr frame.element
  exact h.congr rfl hkind hattributes hchildren

/-- No step breaks the invariant. -/
theorem Step.sound {b b' : Builder} {event : Markup.Event} (h : Step b event b') (hb : Sound b) :
    Sound b' := by
  cases h with
  | skipped _ => exact hb.congr (drop_stack _ _ _) (drop_taken _ _ _) (drop_root? _ _ _)
  | @markupOpened name attributes span frame rest _ hs _ _ =>
    have hlists : Lists frame := hb.frames frame (by simp [hs])
    exact hb.replaceHead hs rfl rfl rfl rfl (hlists.congr rfl rfl rfl rfl)
  | opened _ hopens => exact hb.opened hopens _
  | @rejected name attributes span frame taken _ hopens =>
    have htaken : release taken frame.ids = b.taken := hopens.release_eq
    exact hb.congr (drop_stack _ _ _) ((drop_taken _ _ _).trans htaken) (drop_root? _ _ _)
  | textPassed _ => exact hb.congr rfl rfl rfl
  | @textKept text offset frame rest _ hs _ =>
    have hlists : Lists frame := hb.frames frame (by simp [hs])
    exact hb.replaceHead hs rfl rfl rfl rfl (hlists.congr rfl rfl rfl rfl)
  | dropEnded _ => exact hb.congr rfl rfl rfl
  | @markupClosed name span frame rest size markup _ hs _ =>
    have hlists : Lists frame := hb.frames frame (by simp [hs])
    exact hb.replaceHead hs rfl rfl rfl rfl (hlists.congr rfl rfl rfl rfl)
  | @rootEnded name span frame _ hs _ =>
    have hlists : Lists frame := hb.frames frame (by simp [hs])
    have hnoRoot : b.root? = none := hb.unfinished (by simp [hs])
    exact
      { frames := by simp
        around := by simp
        root := by
          rintro r ⟨⟩
          exact hlists.complete.ids_perm
        unfinished := fun hne => absurd rfl hne
        nodup := hb.nodup
        taken_perm := by simpa [listed, hs, hnoRoot] using hb.taken_perm }
  | @vetoed name span frame parent rest _ hs _ =>
    exact hb.closed frame.ids hs rfl rfl rfl (hb.frames parent (by simp [hs]))
      (List.perm_append_comm.map Prod.fst)
  | @attached name span frame parent rest element i replaced? _ hs _ ha =>
    have hframe : Lists frame := hb.frames frame (by simp [hs])
    have hparent : Lists parent := hb.frames parent (by simp [hs])
    have haround : parent.element.kind.isSimple = false := hb.around parent (by simp [hs])
    have hattaches := Element.attach_cases ha
    have hkind : element.kind = parent.element.kind := hattaches.kind
    refine hb.closed (keptIds i replaced? parent.ids).2 hs rfl rfl rfl ⟨?_, ?_⟩ ?_
    · exact keptIds_append_lift_perm hattaches hframe.complete.field hparent.ids_perm
        hframe.complete.ids_perm
    · intro hsimple
      rw [hkind, haround] at hsimple
      cases hsimple
    · have hkept := (keptIds_perm i replaced? parent.ids).map Prod.fst
      have hlift := map_fst_lift i frame.ids
      change ((frame.ids ++ parent.ids).map Prod.fst).Perm
        (((keptIds i replaced? parent.ids).1 ++ lift i frame.ids ++
          (keptIds i replaced? parent.ids).2).map Prod.fst)
      simp only [List.map_append, hlift, List.append_assoc] at hkept ⊢
      refine (hkept.symm.append_left _).trans ?_
      rw [← List.append_assoc, ← List.append_assoc]
      exact List.perm_append_comm.append_right _
  | @filed name span frame parent rest element replaced? _ hs _ ha =>
    have hparent : Lists parent := hb.frames parent (by simp [hs])
    have haround : parent.element.kind.isSimple = false := hb.around parent (by simp [hs])
    have hattaches := Element.attach_cases ha
    have hkind : element.kind = parent.element.kind := hattaches.kind
    refine hb.closed frame.ids hs rfl rfl rfl ⟨?_, ?_⟩ (List.perm_append_comm.map Prod.fst)
    · rw [declared_of_attaches_none hattaches]
      exact hparent.ids_perm
    · intro hsimple
      rw [hkind, haround] at hsimple
      cases hsimple
  | @misplaced name span frame parent rest rejected _ hs _ _ _ =>
    have hparent : Lists parent := hb.frames parent (by simp [hs])
    exact hb.closed frame.ids hs rfl rfl rfl (hparent.congr rfl rfl rfl rfl)
      (List.perm_append_comm.map Prod.fst)

theorem Run.sound {b b' : Builder} {events : List Markup.Event} (h : Run b events b')
    (hb : Sound b) : Sound b' :=
  h.preserves Step.sound hb

end Builder

end KmlTree
