import KmlTree.Proofs.Document.Stability
import KmlTree.Proofs.Tree.Traversal

/-!
# Positions within unknown content

A visitor is told the positions that lead to a node, but not which of them count unknown children.
Main statements: within unknown content the last position is that of the node among the unknown
children of what is around it, unless the node is a stored child of something there; and path and
flag tell nodes apart as long as unknown content, once entered, is not left for stored children, and
is entered at the same depth.
-/
namespace KmlTree

open Markup

/-- The number of steps before the first into unknown content. -/
def entryDepth (a : Address) : Nat := (a.takeWhile fun edge => !edge.entersUnknown).length

/-- From unknown content on, all steps go to unknown children. -/
def StaysUnknown (a : Address) : Prop :=
  a.Pairwise fun edge edge' => edge.entersUnknown = true → edge'.entersUnknown = true

instance (a : Address) : Decidable (StaysUnknown a) :=
  inferInstanceAs (Decidable (a.Pairwise _))

/-- The node is the unknown child at the last position of the path. -/
def UnknownChildAt (root : Element) (x : Encounter) : Prop :=
  ∃ a i parent u, x.address = a ++ [.unknown i] ∧ x.call.context.path.getLast? = some i ∧
    (Part.element root).at? a = some (.element parent) ∧ parent.unknown[i]? = some u ∧
      x.part = .element u

theorem Encounter.context_call (x : Encounter) : x.call.context = contextAt x.address :=
  (Mark.visit x).context_call

variable {a b : Address}

theorem entryDepth_known (i : Nat) (a : Address) : entryDepth (.known i :: a) = entryDepth a + 1 :=
  rfl

theorem entryDepth_unknown (i : Nat) (a : Address) : entryDepth (.unknown i :: a) = 0 := rfl

theorem entryDepth_of_forall (h : ∀ edge ∈ a, edge.entersUnknown = true) : entryDepth a = 0 := by
  cases a with
  | nil => rfl
  | cons edge a =>
    cases edge with
    | known i => exact absurd (h (.known i) List.mem_cons_self) nofun
    | unknown i => rfl

/-- Positions and the depth of entry determine an address that stays in unknown content. -/
theorem StaysUnknown.eq_of_index (ha : StaysUnknown a) (hb : StaysUnknown b)
    (hindex : a.map Edge.index = b.map Edge.index) (hentry : entryDepth a = entryDepth b) :
    a = b := by
  induction a generalizing b with
  | nil => exact (List.map_eq_nil_iff.1 hindex.symm).symm
  | cons edge a ih =>
    cases b with
    | nil => cases hindex
    | cons edge' b =>
      obtain ⟨hhead, htail⟩ := List.cons.inj hindex
      obtain ⟨hbelow, hstays⟩ := List.pairwise_cons.1 ha
      obtain ⟨hbelow', hstays'⟩ := List.pairwise_cons.1 hb
      -- Two first steps of different kinds enter unknown content at different depths.
      cases edge with
      | known i =>
        cases edge' with
        | known j =>
          obtain rfl : i = j := hhead
          rw [entryDepth_known, entryDepth_known, Nat.add_right_cancel_iff] at hentry
          rw [ih hstays hstays' htail hentry]
        | unknown j =>
          rw [entryDepth_known, entryDepth_unknown] at hentry
          cases hentry
      | unknown i =>
        cases edge' with
        | known j =>
          rw [entryDepth_known, entryDepth_unknown] at hentry
          cases hentry
        | unknown j =>
          obtain rfl : i = j := hhead
          have hdepth : entryDepth a = 0 := entryDepth_of_forall fun edge h => hbelow edge h rfl
          have hdepth' : entryDepth b = 0 := entryDepth_of_forall fun edge h => hbelow' edge h rfl
          rw [ih hstays hstays' htail (hdepth.trans hdepth'.symm)]

theorem unknownChildAt_of_found {root : Element} {x : Encounter}
    (hfound : (Part.element root).at? x.address = some x.part)
    (hunknown : x.call.context.withinUnknown = true)
    (hlast : ¬∃ a i, x.address = a ++ [.known i]) : UnknownChildAt root x := by
  rw [x.context_call] at hunknown
  rcases List.eq_nil_or_concat x.address with hnil | ⟨a, edge, hconcat⟩
  · rw [hnil] at hunknown
    cases hunknown
  · rw [List.concat_eq_append] at hconcat
    cases edge with
    | known i => exact absurd ⟨a, i, hconcat⟩ hlast
    | unknown i =>
      rw [hconcat, Part.at?_append, Option.bind_eq_some_iff] at hfound
      obtain ⟨p, hp, hchild⟩ := hfound
      obtain ⟨parent, c, rfl, hc, hpart⟩ := Part.at?_cons_eq_some_iff.1 hchild
      obtain ⟨u, hu, rfl⟩ := Option.map_eq_some_iff.1 hc
      refine ⟨a, i, parent, u, hconcat, ?_, hp, hu, (Option.some.inj hpart).symm⟩
      rw [x.context_call, hconcat]
      simp [contextAt, Edge.index]

theorem address_eq_of_context_eq (hpath : (contextAt a).path = (contextAt b).path)
    (hflag : (contextAt a).withinUnknown = (contextAt b).withinUnknown)
    (hunknown : (contextAt a).withinUnknown = true →
      StaysUnknown a ∧ StaysUnknown b ∧ entryDepth a = entryDepth b) : a = b := by
  cases hwithin : (contextAt a).withinUnknown with
  | true =>
    obtain ⟨ha, hb, hentry⟩ := hunknown hwithin
    exact ha.eq_of_index hb hpath hentry
  | false =>
    rw [← map_known_map_index hwithin, ← map_known_map_index (hflag.symm.trans hwithin)]
    exact congrArg (List.map Edge.known) hpath

/-- Within unknown content, a node that is not a stored child of what is around it is the unknown
child at the last position of its path. Path and flag tell two nodes apart, unless both are within
unknown content and enter it at different depths, or one of them is reached from it through a stored
child. -/
theorem Visitor.walk_positions {σ : Type} (v : Visitor (StateM σ)) (root : Element) (s : σ) :
    ∃ marks stopped s', (v.walk root).run s = (stopped, s') ∧
      ((v.recorded.walk root).run []).run s = ((stopped, marks.map Mark.call), s') ∧
      Tour ((Part.element root).preorder v.order) marks stopped ∧
      (∀ x ∈ visitsOf marks, x.call.context.withinUnknown = true →
        (¬∃ a i, x.address = a ++ [.known i]) → UnknownChildAt root x) ∧
      ∀ x ∈ visitsOf marks, ∀ y ∈ visitsOf marks,
        x.call.context.path = y.call.context.path →
        x.call.context.withinUnknown = y.call.context.withinUnknown →
        (x.call.context.withinUnknown = true → StaysUnknown x.address ∧ StaysUnknown y.address ∧
          entryDepth x.address = entryDepth y.address) → x = y := by
  obtain ⟨marks, stopped, s', hwalk, hrecorded, htour⟩ := v.records_walk root [] s
  have hfound : ∀ x ∈ visitsOf marks, (Part.element root).at? x.address = some x.part :=
    fun x hx => Part.mem_preorder.1 (htour.mem_nodes_of_visit hx).1
  have hnodup := htour.nodup_addresses ((Part.element root).nodup_preorder v.order)
  refine ⟨marks, stopped, s', hwalk, hrecorded, htour,
    fun x hx => unknownChildAt_of_found (hfound x hx), fun x hx y hy => ?_⟩
  rw [x.context_call, y.context_call]
  intro hpath hflag hunknown
  exact List.inj_on_of_nodup_map hnodup hx hy (address_eq_of_context_eq hpath hflag hunknown)

/-! ## Positions that mislead -/

def Visitor.everywhere : Visitor (StateM Unit) where
  element _ _ := pure .descend
  leave _ _ := pure ()
  field _ _ := pure .descend

/-- A document with an unknown child in a placemark and another one in a point that is out of place,
next to a stored child of the point. -/
def outOfPlace : String :=
  "<kml><Placemark><foo/></Placemark><Point><extrude/><baz/></Point></kml>"

def outOfPlaceTree : Element :=
  let foo : Element := { kind := .unknown, writtenName? := some "foo" }
  let baz : Element := { kind := .unknown, writtenName? := some "baz" }
  ⟨{ kind := .kml }, [.element 1 ⟨{ kind := .placemark }, [], [foo]⟩],
    [⟨{ kind := .point }, [.field 0 { kind := .extrude, text := "" }], [baz]⟩]⟩

theorem parse_outOfPlace :
    ∃ d, Document.parse outOfPlace {} = .ok d ∧ d.root? = some outOfPlaceTree := by
  have hchars : outOfPlace = String.ofList
      ('<' :: ("kml".toList ++ '>' :: '<' :: ("Placemark".toList ++ '>' ::
        '<' :: ("foo".toList ++ '/' :: '>' :: '<' :: '/' :: ("Placemark".toList ++ '>' ::
          '<' :: ("Point".toList ++ '>' :: '<' :: ("extrude".toList ++ '/' :: '>' ::
            '<' :: ("baz".toList ++ '/' :: '>' :: '<' :: '/' :: ("Point".toList ++ '>' ::
              '<' :: '/' :: ("kml".toList ++ ['>'])))))))))) := by
    decide
  have hevents : events outOfPlace = { list :=
      [.startTag "kml" [] ⟨0, 5⟩, .startTag "Placemark" [] ⟨5, 16⟩, .startTag "foo" [] ⟨16, 22⟩,
        .endTag "foo" ⟨16, 22⟩, .endTag "Placemark" ⟨22, 34⟩, .startTag "Point" [] ⟨34, 41⟩,
        .startTag "extrude" [] ⟨41, 51⟩, .endTag "extrude" ⟨41, 51⟩, .startTag "baz" [] ⟨51, 57⟩,
        .endTag "baz" ⟨51, 57⟩, .endTag "Point" ⟨57, 65⟩, .endTag "kml" ⟨65, 71⟩] } := by
    have hkml : IsTagName "kml" := by decide
    have hplacemark : IsTagName "Placemark" := by decide
    have hfoo : IsTagName "foo" := by decide
    have hpoint : IsTagName "Point" := by decide
    have hextrude : IsTagName "extrude" := by decide
    have hbaz : IsTagName "baz" := by decide
    rw [hchars, events_ofList_angle, eventsFrom_startTag hkml, eventsFrom_startTag hplacemark,
      eventsFrom_emptyTag hfoo, eventsFrom_endTag hplacemark, eventsFrom_startTag hpoint,
      eventsFrom_emptyTag hextrude, eventsFrom_emptyTag hbaz, eventsFrom_endTag hpoint,
      eventsFrom_endTag hkml, eventsFrom_end [] _ (by simp) rfl]
    rfl
  rw [Document.parse_eq hevents]
  exact ⟨_, rfl, rfl⟩

def Call.descends : Call → Bool
  | .element _ _ answer | .field _ _ answer => answer == .descend
  | .leave .. => true

/-- In the walk through this document a stored child has the flag of unknown content, but is not at
its position among unknown children; and two unknown children have the same path and flag. -/
theorem positions_outOfPlace : ∃ d, Document.parse outOfPlace {} = .ok d ∧
    d.root? = some outOfPlaceTree ∧ ∃ marks,
      ((Visitor.everywhere.recorded.walk outOfPlaceTree).run []).run () =
        ((false, marks.map Mark.call), ()) ∧
      Tour ((Part.element outOfPlaceTree).preorder .document) marks false ∧
      (∃ x ∈ visitsOf marks, x.call.context.withinUnknown = true ∧
        ¬UnknownChildAt outOfPlaceTree x) ∧
      ∃ x ∈ visitsOf marks, ∃ y ∈ visitsOf marks, x ≠ y ∧ UnknownChildAt outOfPlaceTree x ∧
        UnknownChildAt outOfPlaceTree y ∧ x.call.context = y.call.context := by
  obtain ⟨d, hparse, hroot⟩ := parse_outOfPlace
  obtain ⟨marks, stopped, s', hwalk, hrecorded, htour⟩ :=
    Visitor.everywhere.records_walk outOfPlaceTree [] ()
  have hrun : (Visitor.everywhere.walk outOfPlaceTree).run () = (false, ()) := rfl
  obtain ⟨rfl, rfl⟩ := Prod.mk.inj (hwalk.symm.trans hrun)
  have hanswers : (((Visitor.everywhere.recorded.walk outOfPlaceTree).run []).run ()).1.2.all
      Call.descends = true := by
    decide +kernel
  have hdescends : ∀ x ∈ visitsOf marks, x.answer = .descend := by
    rw [hrecorded, List.all_eq_true] at hanswers
    intro x hx
    have hcall := hanswers x.call (List.mem_map.2 ⟨.visit x, mem_visitsOf.1 hx, rfl⟩)
    obtain ⟨a, p, answer⟩ := x
    cases p <;> simpa [Encounter.call, Call.descends] using hcall
  have hmet (a : Address) {p : Part} (h : (Part.element outOfPlaceTree).at? a = some p) :
      ∃ x ∈ visitsOf marks, x.address = a := by
    have hall := htour.visited_of_forall_descend hdescends
    obtain ⟨x, hx, heq⟩ := List.mem_map.1 (hall ▸ Part.mem_preorder.2 h)
    exact ⟨x, hx, congrArg Prod.fst heq⟩
  have hchild {x : Encounter} {a : Address} {i : Nat} (hx : x ∈ visitsOf marks)
      (haddress : x.address = a ++ [.unknown i]) : UnknownChildAt outOfPlaceTree x := by
    refine unknownChildAt_of_found (Part.mem_preorder.1 (htour.mem_nodes_of_visit hx).1) ?_ ?_
    · rw [x.context_call, haddress]
      simp [contextAt, Edge.entersUnknown]
    · rintro ⟨b, j, hknown⟩
      rw [haddress] at hknown
      simpa using congrArg List.getLast? hknown
  obtain ⟨x, hx, hextrude⟩ := hmet [.unknown 0, .known 0] rfl
  obtain ⟨y, hy, hfoo⟩ := hmet [.known 0, .unknown 0] rfl
  obtain ⟨z, hz, hbaz⟩ := hmet [.unknown 0, .unknown 0] rfl
  refine ⟨d, hparse, hroot, marks, hrecorded, htour, ⟨x, hx, ?_, ?_⟩, y, hy, z, hz, ?_,
    hchild (a := [.known 0]) hy hfoo, hchild (a := [.unknown 0]) hz hbaz, ?_⟩
  · rw [x.context_call, hextrude]
    rfl
  · rintro ⟨a, i, -, -, haddress, -⟩
    rw [hextrude] at haddress
    simpa using congrArg List.getLast? haddress
  · rintro rfl
    rw [hfoo] at hbaz
    cases hbaz
  · rw [y.context_call, z.context_call, hfoo, hbaz]
    rfl

end KmlTree
