import KmlTree.Tree.Walk
import KmlTree.Proofs.Tree.Addresses

/-!
# A walk with one context

The walk through a tree with a single context that is changed on the way: positions are put on the
path and taken off again, depth and flag are put back once the content of an element was visited,
and a walk that is stopped breaks off with the context as it is then. Main statement: the calls and
the answer are those of `Visitor.walk`, and a visit that does not stop the walk leaves the context as
it was.
-/
namespace KmlTree

namespace Context

def push (context : Context) (i : Nat) : Context := { context with path := context.path ++ [i] }

def pop (context : Context) : Context := { context with path := context.path.dropLast }

theorem pop_push (context : Context) (i : Nat) : (context.push i).pop = context := by
  simp [push, pop]

end Context

namespace Visitor

section InPlace

variable {m : Type → Type} [Monad m]

/-- A visit with a position on the path, which is taken off whether the walk goes on or not. -/
def onPath (i : Nat) (visit : StateT Context m Bool) : StateT Context m Bool := do
  modify (·.push i)
  let stopped ← visit
  modify Context.pop
  return stopped

/-- The visits of what an element holds, one level below it. The flag is raised for the unknown
children, and what it was before is kept until after them. -/
def inside (known unknown : StateT Context m Bool) : StateT Context m Bool := do
  modify fun context => { context with depth := context.depth + 1 }
  if ← known then
    return true
  let withinUnknown := (← get).withinUnknown
  modify ({ · with withinUnknown := true })
  if ← unknown then
    return true
  modify ({ · with withinUnknown })
  modify fun context => { context with depth := context.depth - 1 }
  return false

def visitFieldInPlace (v : Visitor m) (f : Field) : StateT Context m Bool := do
  return (← v.field (← get) f) == .stop

mutual

/-- The visit of an element and all below it with the one context. -/
def visitInPlace (v : Visitor m) : Element → StateT Context m Bool
  | e@⟨_, children, unknown⟩ => do
    match ← v.element (← get) e with
    | .stop => return true
    | .reject => return false
    | .skipChildren => pure ()
    | .descend =>
      if ← inside (inTurn (v.order.arrange (v.childrenInPlace 0 children)))
          (inTurn (v.unknownInPlace 0 unknown)) then
        return true
    v.leave (← get) e
    return false

def childrenInPlace (v : Visitor m) (i : Nat) : List Child → List (Nat × StateT Context m Bool)
  | [] => []
  | .field slot f :: rest =>
    (slot, onPath i (v.visitFieldInPlace f)) :: v.childrenInPlace (i + 1) rest
  | .element slot e :: rest =>
    (slot, onPath i (v.visitInPlace e)) :: v.childrenInPlace (i + 1) rest

def unknownInPlace (v : Visitor m) (i : Nat) : List Element → List (StateT Context m Bool)
  | [] => []
  | e :: rest => onPath i (v.visitInPlace e) :: v.unknownInPlace (i + 1) rest

end

/-- The walk through a tree, whatever the context was before. -/
def walkInPlace (v : Visitor m) (root : Element) : StateT Context m Bool := do
  set ({} : Context)
  v.visitInPlace root

def visitPartInPlace (v : Visitor m) : Part → StateT Context m Bool
  | .element e => v.visitInPlace e
  | .field f => v.visitFieldInPlace f

theorem childrenInPlace_eq (v : Visitor m) (i : Nat) (children : List Child) :
    v.childrenInPlace i children = (children.zipIdx i).map fun (c, j) =>
      (c.slot, onPath j (v.visitPartInPlace c.part)) := by
  induction children generalizing i with
  | nil => rfl
  | cons c rest ih => cases c <;> rw [childrenInPlace, ih] <;> rfl

theorem unknownInPlace_eq (v : Visitor m) (i : Nat) (unknown : List Element) :
    v.unknownInPlace i unknown = (unknown.zipIdx i).map fun (u, j) =>
      onPath j (v.visitInPlace u) := by
  induction unknown generalizing i with
  | nil => rfl
  | cons u rest ih =>
    rw [unknownInPlace, ih]
    rfl

end InPlace

/-! ## The visits in a list -/

section Visits

variable {m : Type → Type} [Monad m]

def visitPart (v : Visitor m) (context : Context) : Part → m Bool
  | .element e => v.visit context e
  | .field f => v.visitField context f

theorem visitChildren_eq (v : Visitor m) (context : Context) (i : Nat) (children : List Child) :
    v.visitChildren context i children = (children.zipIdx i).map fun (c, j) =>
      (c.slot, v.visitPart (context.child j) c.part) := by
  induction children generalizing i with
  | nil => rfl
  | cons c rest ih => cases c <;> rw [visitChildren, ih] <;> rfl

theorem visitUnknown_eq (v : Visitor m) (context : Context) (i : Nat) (unknown : List Element) :
    v.visitUnknown context i unknown = (unknown.zipIdx i).map fun (u, j) =>
      v.visitPart (context.unknownChild j) (.element u) := by
  induction unknown generalizing i with
  | nil => rfl
  | cons u rest ih =>
    rw [visitUnknown, ih]
    rfl

end Visits

/-- The order of a walk looks at the places alone. -/
theorem arrange_map {ι α : Type} (order : Order) (key : ι → Nat) (visit : ι → α) (items : List ι) :
    order.arrange (items.map fun i => (key i, visit i)) =
      (order.arrange (items.map fun i => (key i, i))).map visit := by
  cases order with
  | document => simp [Order.arrange]
  | schema =>
    simp only [Order.arrange, sortByKey_map, List.map_map]
    rfl

theorem mem_arrange {ι : Type} {order : Order} {key : ι → Nat} {items : List ι} {i : ι}
    (h : i ∈ order.arrange (items.map fun i => (key i, i))) : i ∈ items := by
  cases order with
  | document => simpa [Order.arrange] using h
  | schema => simpa [Order.arrange, (sortByKey_perm _ _).mem_iff] using h

/-! ## One context against a context for each visit -/

/-- What is left of a visit: its context, unless it stopped the walk. -/
def unlessStopped : Bool × Context → Option Context
  | (true, _) => none
  | (false, context) => some context

section Restores

variable {m : Type → Type} [Monad m]

/-- A visit in place does what a visit at the context does, and puts the context back if the walk
goes on. -/
def Restores (context : Context) (inPlace : StateT Context m Bool) (visit : m Bool) : Prop :=
  unlessStopped <$> inPlace.run context = (fun stopped => unlessStopped (stopped, context)) <$> visit

variable [LawfulMonad m] {context : Context} {inPlace : StateT Context m Bool} {visit : m Bool}

theorem Restores.answer (h : Restores context inPlace visit) :
    Prod.fst <$> inPlace.run context = visit := by
  have hanswer (outcome : Bool × Context) : (unlessStopped outcome).isNone = outcome.1 := by
    obtain ⟨_ | _, _⟩ := outcome <;> rfl
  have := congrArg (Option.isNone <$> ·) h
  simpa [Functor.map_map, hanswer] using this

/-- What comes after a visit starts from the context before it. -/
theorem Restores.bind (h : Restores context inPlace visit) (rest : StateT Context m Bool) :
    unlessStopped <$> (inPlace >>= fun stopped => if stopped then pure true else rest).run context =
      visit >>= fun stopped =>
        if stopped then pure none else unlessStopped <$> rest.run context := by
  calc _ = (unlessStopped <$> inPlace.run context) >>= fun
        | none => pure none
        | some context' => unlessStopped <$> rest.run context' := by
        rw [StateT.run_bind, map_bind, bind_map_left]
        refine bind_congr fun outcome => ?_
        obtain ⟨_ | _, _⟩ := outcome
        · rfl
        · exact map_pure ..
    _ = _ := by
        rw [h, bind_map_left]
        refine bind_congr fun stopped => ?_
        cases stopped <;> rfl

theorem restores_onPath {i : Nat} (h : Restores (context.push i) inPlace visit) :
    Restores context (onPath i inPlace) visit := by
  have hpop : unlessStopped <$> (onPath i inPlace).run context =
      Option.map Context.pop <$> unlessStopped <$> inPlace.run (context.push i) := by
    rw [Functor.map_map, ← bind_pure_comp, ← bind_pure_comp]
    simp only [onPath, StateT.run_bind, StateT.run_modify, pure_bind, bind_assoc, StateT.run_pure]
    refine bind_congr fun outcome => ?_
    obtain ⟨_ | _, _⟩ := outcome <;> rfl
  rw [Restores, hpop, h, Functor.map_map]
  congr 1
  funext stopped
  cases stopped with
  | true => rfl
  | false => exact congrArg some (context.pop_push i)

theorem restores_inside {known unknown : StateT Context m Bool} {visitKnown visitUnknown : m Bool}
    (hknown : Restores { context with depth := context.depth + 1 } known visitKnown)
    (hunknown : Restores { context with depth := context.depth + 1, withinUnknown := true } unknown
      visitUnknown) :
    Restores context (inside known unknown)
      (visitKnown >>= fun stopped => if stopped then pure true else visitUnknown) := by
  rw [Restores, inside, StateT.run_bind, StateT.run_modify, pure_bind]
  refine (hknown.bind _).trans ?_
  rw [map_bind]
  refine bind_congr fun stopped => ?_
  cases stopped with
  | true => simp [unlessStopped]
  | false =>
    -- The flag that is kept is that of the context before the known children.
    simp only [Bool.false_eq_true, if_false]
    rw [StateT.run_bind, StateT.run_get, pure_bind, StateT.run_bind, StateT.run_modify, pure_bind]
    refine (hunknown.bind _).trans (.trans (bind_congr fun stopped => ?_) (bind_pure_comp _ _))
    cases stopped <;> simp [unlessStopped]

theorem inTurn_append (visits more : List (m Bool)) :
    inTurn (visits ++ more) =
      inTurn visits >>= fun stopped => if stopped then pure true else inTurn more := by
  induction visits with
  | nil => simp [inTurn]
  | cons visit visits ih =>
    rw [List.cons_append, inTurn, inTurn, bind_assoc, ih]
    refine bind_congr fun stopped => ?_
    cases stopped <;> simp

theorem restores_inTurn {ι : Type} {items : List ι} {inPlace : ι → StateT Context m Bool}
    {visit : ι → m Bool} (h : ∀ i ∈ items, Restores context (inPlace i) (visit i)) :
    Restores context (inTurn (items.map inPlace)) (inTurn (items.map visit)) := by
  induction items with
  | nil => simp [Restores, inTurn]
  | cons i items ih =>
    have hrest := ih fun j hj => h j (List.mem_cons_of_mem _ hj)
    rw [List.map_cons, List.map_cons, inTurn, inTurn, Restores, map_bind]
    refine ((h i List.mem_cons_self).bind _).trans (bind_congr fun stopped => ?_)
    cases stopped with
    | true => simp [unlessStopped]
    | false => exact hrest

theorem restores_arrange {ι : Type} {items : List ι} {inPlace : ι → StateT Context m Bool}
    {visit : ι → m Bool} (order : Order) (key : ι → Nat)
    (h : ∀ i ∈ items, Restores context (inPlace i) (visit i)) :
    Restores context (inTurn (order.arrange (items.map fun i => (key i, inPlace i))))
      (inTurn (order.arrange (items.map fun i => (key i, visit i)))) := by
  rw [arrange_map order key inPlace, arrange_map order key visit]
  exact restores_inTurn fun i hi => h i (mem_arrange hi)

theorem restores_field (v : Visitor m) (f : Field) (context : Context) :
    Restores context (v.visitFieldInPlace f) (v.visitField context f) := by
  simp [Restores, visitFieldInPlace, visitField]

theorem restores_element (v : Visitor m) (e : Element) (context : Context)
    (hknown : Restores { context with depth := context.depth + 1 }
      (inTurn (v.order.arrange (v.childrenInPlace 0 e.children)))
      (inTurn (v.order.arrange (v.visitChildren context 0 e.children))))
    (hunknown : Restores { context with depth := context.depth + 1, withinUnknown := true }
      (inTurn (v.unknownInPlace 0 e.unknown)) (inTurn (v.visitUnknown context 0 e.unknown))) :
    Restores context (v.visitInPlace e) (v.visit context e) := by
  have hinside := restores_inside hknown hunknown
  rw [← inTurn_append] at hinside
  cases e
  rw [Restores, visitInPlace, visit, StateT.run_bind, StateT.run_get, pure_bind, StateT.run_bind,
    StateT.run_monadLift, bind_assoc, map_bind, map_bind]
  refine bind_congr fun answer => ?_
  rw [pure_bind]
  cases answer with
  | stop | reject | skipChildren => simp
  | descend =>
    refine (hinside.bind _).trans ?_
    rw [map_bind]
    refine bind_congr fun stopped => ?_
    cases stopped with
    | true => simp [unlessStopped]
    | false => simp

/-- The visit of an element with the one context is its visit at that context. -/
theorem restores_visit (v : Visitor m) (e : Element) (context : Context) :
    Restores context (v.visitInPlace e) (v.visit context e) := by
  induction e using Element.inductionOn generalizing context with
  | step e known unknown =>
    refine restores_element v e context ?_ ?_
    · rw [childrenInPlace_eq, visitChildren_eq]
      refine restores_arrange v.order (fun x : Child × Nat => x.1.slot) ?_
      rintro ⟨c, j⟩ hmem
      have hmem := List.fst_mem_of_mem_zipIdx hmem
      cases c with
      | field slot f => exact restores_onPath (restores_field v f _)
      | element slot c =>
        exact restores_onPath (known c (List.mem_filterMap.2 ⟨_, hmem, rfl⟩) _)
    · rw [unknownInPlace_eq, visitUnknown_eq]
      refine restores_inTurn ?_
      rintro ⟨u, j⟩ hmem
      exact restores_onPath (unknown u (List.fst_mem_of_mem_zipIdx hmem) _)

theorem walkInPlace_eq (v : Visitor m) (root : Element) (context : Context) :
    Prod.fst <$> (v.walkInPlace root).run context = v.walk root := by
  rw [walkInPlace, StateT.run_bind, StateT.run_set, pure_bind]
  exact (v.restores_visit root {}).answer

end Restores

/-- What is put on the path, counted and raised for a visit is gone after it, unless the walk was
stopped. -/
theorem context_visitInPlace {σ : Type} (v : Visitor (StateM σ)) {e : Element}
    {context context' : Context} {s s' : σ} {stopped : Bool}
    (h : ((v.visitInPlace e).run context).run s = ((stopped, context'), s')) :
    (v.visit context e).run s = (stopped, s') ∧ (stopped = false → context' = context) := by
  have hrestores := congrArg (fun x => StateT.run x s) (v.restores_visit e context)
  rcases hvisit : (v.visit context e).run s with ⟨stopped', s''⟩
  rw [StateT.run_map, StateT.run_map, h, hvisit] at hrestores
  have hleft : unlessStopped (stopped, context') = unlessStopped (stopped', context) :=
    congrArg Prod.fst hrestores
  obtain rfl : s' = s'' := congrArg Prod.snd hrestores
  cases stopped with
  | true =>
    cases stopped' with
    | true => exact ⟨rfl, nofun⟩
    | false => cases hleft
  | false =>
    cases stopped' with
    | true => cases hleft
    | false => exact ⟨rfl, fun _ => Option.some.inj hleft⟩

end Visitor

end KmlTree
