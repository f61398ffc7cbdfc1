import KmlTree.Document.Index
import KmlTree.Proofs.Tree.InPlace
import KmlTree.Proofs.Tree.Tour

/-!
# Traversal

A walk under record: each call of a visitor is noted, with its answer. The answers may depend on
all that the visitor saw, so nothing is known of them but the record. Main statement: the record of
a walk is that of a tour through the nodes of the tree, in which each node stands where its address
says, and the walk is stopped exactly if the visitor says so.
-/
namespace KmlTree

def Context.follow (context : Context) : Edge → Context
  | .known i => context.child i
  | .unknown i => context.unknownChild i

theorem contextAt_append (a : Address) (edge : Edge) :
    contextAt (a ++ [edge]) = (contextAt a).follow edge := by
  cases edge <;>
    simp [contextAt, Context.follow, Context.child, Context.unknownChild, Edge.entersUnknown,
      Edge.index]

namespace Visitor

section Visits

variable {m : Type → Type} [Monad m]

theorem visits_eq (v : Visitor m) (context : Context) (e : Element) :
    v.order.arrange (v.visitChildren context 0 e.children) ++ v.visitUnknown context 0 e.unknown =
      (e.parts v.order).map fun (edge, p) => v.visitPart (context.follow edge) p := by
  rw [visitChildren_eq, visitUnknown_eq]
  unfold Element.parts
  rw [List.map_append, List.map_map]
  congr 1
  unfold Order.arrange
  cases v.order with
  | document => simp only [List.map_map]; rfl
  | schema =>
    simp only [sortByKey_map, Element.childrenBySlot, List.map_map]
    rfl

/-- How a walk goes on from an element after an answer, with the visit of what the element holds. -/
def goOn (v : Visitor m) (context : Context) (e : Element) (inside : m Bool) : Flow → m Bool
  | .stop => pure true
  | .reject => pure false
  | .skipChildren => do
    v.leave context e
    pure false
  | .descend => do
    if ← inside then pure true
    else
      v.leave context e
      pure false

theorem goOn_descend (v : Visitor m) (context : Context) (e : Element) (inside : m Bool) :
    v.goOn context e inside .descend = inside >>= fun stopped =>
      if stopped then pure true else v.goOn context e inside .skipChildren := rfl

theorem visit_eq (v : Visitor m) (context : Context) (e : Element) :
    v.visit context e = v.element context e >>= v.goOn context e
      (inTurn ((e.parts v.order).map fun (edge, p) => v.visitPart (context.follow edge) p)) := by
  rw [← visits_eq]
  cases e
  congr 1

end Visits

/-! ## The record of a walk -/

def recorded {m : Type → Type} [Monad m] (v : Visitor m) : Visitor (StateT (List Call) m) where
  order := v.order
  element context e := do
    let answer ← v.element context e
    modify (· ++ [.element context e answer])
    return answer
  leave context e := do
    v.leave context e
    modify (· ++ [.leave context e])
  field context f := do
    let answer ← v.field context f
    modify (· ++ [.field context f answer])
    return answer

variable {σ : Type} {v : Visitor (StateM σ)}

/-- A visit under record is the visit itself, and its record is that of a tour. -/
def Records (visit : StateM σ Bool) (recorded : StateT (List Call) (StateM σ) Bool)
    (nodes : List (Address × Part)) : Prop :=
  ∀ (calls : List Call) (s : σ), ∃ marks stopped s', visit.run s = (stopped, s') ∧
    (recorded.run calls).run s = ((stopped, calls ++ marks.map Mark.call), s') ∧
      Tour nodes marks stopped

/-- Visits in turn give one tour after the other. -/
theorem records_inTurn {ι : Type} {items : List ι} {visit : ι → StateM σ Bool}
    {recorded : ι → StateT (List Call) (StateM σ) Bool} {nodes : ι → List (Address × Part)}
    (hrecords : ∀ i ∈ items, Records (visit i) (recorded i) (nodes i))
    (hapart : items.Pairwise fun i j => ∀ n ∈ nodes i, ∀ n' ∈ nodes j, Apart n.1 n'.1) :
    Records (inTurn (items.map visit)) (inTurn (items.map recorded)) (items.flatMap nodes) := by
  induction items with
  | nil => exact fun calls s => ⟨[], false, s, rfl, by simp [inTurn]; rfl, .nil⟩
  | cons i items ih =>
    intro calls s
    obtain ⟨hfirst, hrest⟩ := List.pairwise_cons.1 hapart
    obtain ⟨marks, stopped, s₁, hvisit, hrecorded, htour⟩ :=
      hrecords i List.mem_cons_self calls s
    rw [List.map_cons, List.map_cons, List.flatMap_cons, inTurn, inTurn]
    cases stopped with
    | true =>
      refine ⟨marks, true, s₁, ?_, ?_, htour.cut _⟩
      · rw [StateT.run_bind, hvisit]
        rfl
      · rw [StateT.run_bind, StateT.run_bind, hrecorded]
        rfl
    | false =>
      obtain ⟨more, stopped, s₂, hvisits, hrecords', htours⟩ :=
        ih (fun j hj => hrecords j (List.mem_cons_of_mem _ hj)) hrest
          (calls ++ marks.map Mark.call) s₁
      refine ⟨marks ++ more, stopped, s₂, ?_, ?_, htour.append htours fun n hn n' hn' => ?_⟩
      · rw [StateT.run_bind, hvisit]
        exact hvisits
      · rw [StateT.run_bind, StateT.run_bind, hrecorded, List.map_append, ← List.append_assoc]
        exact hrecords'
      · obtain ⟨j, hj, hn'⟩ := List.mem_flatMap.1 hn'
        exact hfirst j hj n hn n' hn'

section Calls

variable (v) (context : Context) (e : Element) (f : Field) (calls : List Call) (s : σ)

theorem run_recorded_element : ((v.recorded.element context e).run calls).run s =
    let (answer, s') := (v.element context e).run s
    ((answer, calls ++ [.element context e answer]), s') := rfl

theorem run_recorded_field : ((v.recorded.field context f).run calls).run s =
    let (answer, s') := (v.field context f).run s
    ((answer, calls ++ [.field context f answer]), s') := rfl

theorem run_goOn_skipChildren (inside : StateM σ Bool) :
    (v.goOn context e inside .skipChildren).run s = (false, ((v.leave context e).run s).2) := rfl

theorem run_recorded_goOn_skipChildren (inside : StateT (List Call) (StateM σ) Bool) :
    ((v.recorded.goOn context e inside .skipChildren).run calls).run s =
      ((false, calls ++ [.leave context e]), ((v.leave context e).run s).2) := rfl

end Calls

/-- An element is visited, and all below it as the answer says. -/
theorem records_visit (v : Visitor (StateM σ)) (a : Address) (e : Element)
    {inside : StateM σ Bool} {recordedInside : StateT (List Call) (StateM σ) Bool}
    {nodes : List (Address × Part)} (hinside : Records inside recordedInside nodes)
    (hbelow : Tour.Below a nodes) :
    Records (v.element (contextAt a) e >>= v.goOn (contextAt a) e inside)
      (v.recorded.element (contextAt a) e >>= v.recorded.goOn (contextAt a) e recordedInside)
      ((a, .element e) :: nodes) := by
  intro calls s
  rcases hanswer : (v.element (contextAt a) e).run s with ⟨answer, s₁⟩
  have hvisit : (v.element (contextAt a) e >>= v.goOn (contextAt a) e inside).run s =
      (v.goOn (contextAt a) e inside answer).run s₁ := by
    rw [StateT.run_bind, hanswer]
    rfl
  have hrecord : ((v.recorded.element (contextAt a) e >>=
      v.recorded.goOn (contextAt a) e recordedInside).run calls).run s =
      ((v.recorded.goOn (contextAt a) e recordedInside answer).run
        (calls ++ [.element (contextAt a) e answer])).run s₁ := by
    rw [StateT.run_bind, StateT.run_bind, run_recorded_element, hanswer]
    rfl
  rw [hvisit, hrecord]
  cases answer with
  | stop => exact ⟨_, true, s₁, rfl, rfl, .stop a (.element e) nodes⟩
  | reject => exact ⟨_, false, s₁, rfl, rfl, .reject hbelow (.element e)⟩
  | skipChildren =>
    refine ⟨_, false, _, run_goOn_skipChildren .., ?_, .skipChildren hbelow e⟩
    rw [run_recorded_goOn_skipChildren, List.append_assoc]
    rfl
  | descend =>
    obtain ⟨marks, stopped, s₂, hinside, hrecorded, htour⟩ :=
      hinside (calls ++ [.element (contextAt a) e .descend]) s₁
    rw [goOn_descend, goOn_descend, StateT.run_bind, StateT.run_bind, StateT.run_bind, hinside,
      hrecorded]
    cases stopped with
    | true =>
      rw [List.append_assoc]
      exact ⟨_, true, s₂, rfl, rfl, htour.stoppedBelow hbelow e⟩
    | false =>
      refine ⟨_, false, _, run_goOn_skipChildren v (contextAt a) e s₂ inside, ?_,
        htour.descend hbelow e⟩
      refine (run_recorded_goOn_skipChildren v (contextAt a) e _ s₂ recordedInside).trans ?_
      simp [Mark.call, Encounter.call]

theorem below_parts (a : Address) (order : Order) (e : Element) :
    Tour.Below a
      ((e.parts order).flatMap fun (edge, p) => under (a ++ [edge]) (p.preorder order)) := by
  rintro ⟨c, q⟩ hmem
  obtain ⟨⟨edge, p⟩, -, hunder⟩ := List.mem_flatMap.1 hmem
  obtain ⟨b, rfl, -⟩ := mem_under.1 hunder
  simp

theorem records_visitPart (v : Visitor (StateM σ)) (p : Part) (a : Address) :
    Records (v.visitPart (contextAt a) p) (v.recorded.visitPart (contextAt a) p)
      (under a (p.preorder v.order)) := by
  induction p using Part.inductionOn generalizing a with
  | field f =>
    intro calls s
    rcases hanswer : (v.field (contextAt a) f).run s with ⟨answer, s₁⟩
    refine ⟨[.visit ⟨a, .field f, answer⟩], answer == .stop, s₁, ?_, ?_, ?_⟩
    · rw [visitPart, visitField, StateT.run_bind, hanswer]
      rfl
    · rw [visitPart, visitField, StateT.run_bind, StateT.run_bind, run_recorded_field, hanswer]
      rfl
    · rw [Part.preorder_field]
      simpa [under] using Tour.ofField a f answer
  | element e ih =>
    rw [visitPart, visitPart, visit_eq, visit_eq, Part.under_preorder_element]
    refine records_visit v a e (records_inTurn ?_ (e.pairwise_apart_parts v.order a))
      (below_parts a v.order e)
    rintro ⟨edge, p⟩ hmem
    simp only [← contextAt_append]
    exact ih edge p (Element.mem_parts.1 hmem) _

theorem records_walk (v : Visitor (StateM σ)) (root : Element) :
    Records (v.walk root) (v.recorded.walk root) ((Part.element root).preorder v.order) := by
  have hrecords := records_visitPart v (.element root) []
  rwa [under_nil] at hrecords

end Visitor

/-! ## Where the calls come from -/

def Call.context : Call → Context
  | .element context .. | .field context .. | .leave context _ => context

theorem Mark.context_call (m : Mark) : m.call.context = contextAt m.address := by
  cases m with
  | visit x =>
    obtain ⟨a, p, answer⟩ := x
    cases p <;> rfl
  | leave a e => rfl

def Element.above (root : Element) (a : Address) : List Element :=
  (List.range a.length).filterMap fun n => ((Part.element root).at? (a.take n)).bind Part.element?

/-- The node that stored children lead to. -/
def Element.nodeAt? (root : Element) (path : Path) : Option Part :=
  (Part.element root).at? (path.map .known)

/-- A call tells where its node stands. -/
structure Placed (root : Element) (context : Context) (a : Address) (p : Part) : Prop where
  found : (Part.element root).at? a = some p
  /-- The path has a position for each element above the node. -/
  depth_eq_length : context.depth = context.path.length
  depth_eq_above : context.depth = (root.above a).length
  /-- Only what is at or below an unknown child is within unknown content. -/
  withinUnknown_iff : context.withinUnknown = true ↔ ∃ i, .unknown i ∈ a
  /-- Outside of it, the path leads to the node. -/
  followed : context.withinUnknown = false → root.nodeAt? context.path = some p

theorem length_above {root : Element} {a : Address} {p : Part}
    (h : (Part.element root).at? a = some p) : (root.above a).length = a.length := by
  rw [Element.above, List.filterMap_length_eq_length.2, List.length_range]
  intro n hn
  have hn : n < a.length := List.mem_range.1 hn
  rw [← List.take_append_drop n a] at h
  obtain ⟨e, he⟩ := Part.exists_element_of_at?_append h (by simp [hn])
  rw [he]
  rfl

theorem placed_contextAt {root : Element} {a : Address} {p : Part}
    (h : (Part.element root).at? a = some p) : Placed root (contextAt a) a p where
  found := h
  depth_eq_length := by simp [contextAt]
  depth_eq_above := (length_above h).symm
  withinUnknown_iff := by
    rw [contextAt, List.any_eq_true]
    constructor
    · rintro ⟨edge, hedge, hunknown⟩
      cases edge with
      | known i => cases hunknown
      | unknown i => exact ⟨i, hedge⟩
    · rintro ⟨i, hi⟩
      exact ⟨_, hi, rfl⟩
  followed := by
    intro hoff
    rwa [Element.nodeAt?, contextAt, map_known_map_index hoff]

/-- The walk under record with one context that is changed on the way makes the same calls. -/
theorem Visitor.walkInPlace_recorded {σ : Type} {v : Visitor (StateM σ)} {root : Element}
    {calls : List Call} {stopped : Bool} {s s' : σ}
    (h : ((v.recorded.walk root).run []).run s = ((stopped, calls), s')) (context : Context) :
    ∃ context', (((v.recorded.walkInPlace root).run context).run []).run s =
      (((stopped, context'), calls), s') := by
  rcases hrun : (((v.recorded.walkInPlace root).run context).run []).run s with
    ⟨⟨⟨stopped', context'⟩, calls'⟩, s''⟩
  rw [← v.recorded.walkInPlace_eq root context, StateT.run_map, StateT.run_map, hrun] at h
  cases h
  exact ⟨context', rfl⟩

/-- A walk visits what the answers say, each node once, and in its calls each node stands where it
does in the tree. The calls are the same if they all look at one context that is changed on the way,
whatever it was before. -/
theorem Visitor.walk_tour {σ : Type} (v : Visitor (StateM σ)) (root : Element) (s : σ) :
    ∃ marks stopped s', (v.walk root).run s = (stopped, s') ∧
      ((v.recorded.walk root).run []).run s = ((stopped, marks.map Mark.call), s') ∧
      (∀ context, ∃ context', (((v.recorded.walkInPlace root).run context).run []).run s =
        (((stopped, context'), marks.map Mark.call), s')) ∧
      Tour ((Part.element root).preorder v.order) marks stopped ∧
      ((visitsOf marks).map Encounter.address).Nodup ∧
      ∀ m ∈ marks, Placed root m.call.context m.address m.part := by
  obtain ⟨marks, stopped, s', hwalk, hrecorded, htour⟩ := v.records_walk root [] s
  refine ⟨marks, stopped, s', hwalk, hrecorded, walkInPlace_recorded hrecorded, htour,
    htour.nodup_addresses ?_, fun m hm => ?_⟩
  · exact (Part.element root).nodup_preorder v.order
  · rw [m.context_call]
    exact placed_contextAt (Part.mem_preorder.1 (htour.mem_nodes hm))

end KmlTree
