import KmlTree.Proofs.Tree.Addresses

/-!
# Tours

The calls of a walk, each with the address of its node, as the nodes of the walk and the answers
for them decide: the nodes come in their order without what is below those that are not entered, up
to the first that stops the walk, and an element is left once all below it was visited. Main
statements: tours of nodes that lie apart make a tour of all of them, and the tour of what an
element holds makes a tour of the element.
-/
namespace KmlTree

/-- What a visitor is called for, with its answer. -/
inductive Call
  | element (context : Context) (e : Element) (answer : Flow)
  | field (context : Context) (f : Field) (answer : Flow)
  | leave (context : Context) (e : Element)
  deriving DecidableEq

def contextAt (a : Address) : Context where
  depth := a.length
  path := a.map Edge.index
  withinUnknown := a.any Edge.entersUnknown

/-- A node that a visitor was called for, and its answer. -/
structure Encounter where
  address : Address
  part : Part
  answer : Flow
  deriving DecidableEq

namespace Encounter

def node (x : Encounter) : Address × Part := (x.address, x.part)

def call (x : Encounter) : Call :=
  match x.part with
  | .element e => .element (contextAt x.address) e x.answer
  | .field f => .field (contextAt x.address) f x.answer

end Encounter

/-- A call of a walk, with the address of its node. -/
inductive Mark
  | visit (x : Encounter)
  | leave (a : Address) (e : Element)

namespace Mark

def address : Mark → Address
  | .visit x => x.address
  | .leave a _ => a

def part : Mark → Part
  | .visit x => x.part
  | .leave _ e => .element e

def call : Mark → Call
  | .visit x => x.call
  | .leave a e => .leave (contextAt a) e

/-- The call, if it is for a node that is met. -/
def visit? : Mark → Option Encounter
  | .visit x => some x
  | .leave .. => none

end Mark

def visitsOf (marks : List Mark) : List Encounter := marks.filterMap Mark.visit?

/-- A list up to the first item that passes a test, and with it. -/
def cutAfter {α : Type} (test : α → Bool) : List α → List α
  | [] => []
  | x :: xs => if test x then [x] else x :: cutAfter test xs

/-- No node above an address was answered with `skipChildren` or `reject`. -/
def reaches (visits : List Encounter) (a : Address) : Bool :=
  visits.all fun x => !(x.address.isPrefixOf a && x.address != a) ||
    (x.answer != .skipChildren && x.answer != .reject)

/-- The node at an address was answered with `stop`. -/
def stopsAt (visits : List Encounter) (a : Address) : Bool :=
  visits.any fun x => x.address == a && x.answer == .stop

/-- The calls of a walk through some nodes, and whether it is stopped. -/
structure Tour (nodes : List (Address × Part)) (marks : List Mark) (stopped : Bool) : Prop where
  /-- The nodes are visited in their order without those below a node that is not entered, up to the
  first node that stops the walk. -/
  visited : (visitsOf marks).map Encounter.node = cutAfter (fun n => stopsAt (visitsOf marks) n.1)
    (nodes.filter fun n => reaches (visitsOf marks) n.1)
  /-- The elements that are left are those that were answered with `descend` or `skipChildren`, and
  below which the walk is not stopped. -/
  left : ∀ a e, .leave a e ∈ marks ↔ ∃ x ∈ visitsOf marks, x.address = a ∧ x.part = .element e ∧
    (x.answer = .descend ∨ x.answer = .skipChildren) ∧
      ∀ y ∈ visitsOf marks, y.answer = .stop → ¬a <+: y.address
  /-- The calls for the nodes below an element that is left are those from its visit on until it is
  left. -/
  around : ∀ a e, .leave a e ∈ marks → ∃ before x within after,
    marks = before ++ .visit x :: (within ++ .leave a e :: after) ∧ x.address = a ∧
      (∀ m ∈ within, a <+: m.address ∧ a ≠ m.address) ∧ ∀ m ∈ before ++ after, ¬a <+: m.address
  /-- The walk is stopped by an answer. -/
  stopped_iff : stopped = true ↔ ∃ x ∈ visitsOf marks, x.answer = .stop

/-! ## Parts of a tour -/

section Lists

variable {α : Type} {test : α → Bool} {xs ys : List α}

theorem cutAfter_sublist (test : α → Bool) (xs : List α) : (cutAfter test xs).Sublist xs := by
  induction xs with
  | nil => exact .slnil
  | cons x xs ih =>
    rw [cutAfter]
    split
    · exact (List.nil_sublist xs).cons_cons x
    · exact ih.cons_cons x

theorem cutAfter_append_of_forall (h : ∀ x ∈ xs, test x = false) :
    cutAfter test (xs ++ ys) = xs ++ cutAfter test ys := by
  induction xs with
  | nil => rfl
  | cons x xs ih =>
    rw [List.cons_append, cutAfter, if_neg (by simp [h x List.mem_cons_self]),
      ih fun y hy => h y (List.mem_cons_of_mem _ hy), List.cons_append]

theorem cutAfter_eq_self (h : ∀ x ∈ xs, test x = false) : cutAfter test xs = xs := by
  have happend : cutAfter test (xs ++ []) = xs ++ cutAfter test [] := cutAfter_append_of_forall h
  rwa [List.append_nil, cutAfter, List.append_nil] at happend

theorem cutAfter_append_of_exists (h : ∃ x ∈ xs, test x = true) :
    cutAfter test (xs ++ ys) = cutAfter test xs := by
  induction xs with
  | nil => simp at h
  | cons x xs ih =>
    rw [List.cons_append, cutAfter, cutAfter]
    split
    · rfl
    · next hx =>
      obtain ⟨y, hy, htest⟩ := h
      rcases List.mem_cons.1 hy with rfl | hy
      · exact absurd htest hx
      · rw [ih ⟨y, hy, htest⟩]

end Lists

section Marks

variable {visits others : List Encounter} {marks : List Mark} {a : Address} {x : Encounter}

@[simp] theorem visitsOf_append (ms ns : List Mark) :
    visitsOf (ms ++ ns) = visitsOf ms ++ visitsOf ns :=
  List.filterMap_append

@[simp] theorem visitsOf_nil : visitsOf [] = [] := rfl

@[simp] theorem visitsOf_cons_visit (x : Encounter) (ms : List Mark) :
    visitsOf (.visit x :: ms) = x :: visitsOf ms := rfl

@[simp] theorem visitsOf_cons_leave (a : Address) (e : Element) (ms : List Mark) :
    visitsOf (.leave a e :: ms) = visitsOf ms := rfl

theorem mem_visitsOf : x ∈ visitsOf marks ↔ .visit x ∈ marks := by
  rw [visitsOf, List.mem_filterMap]
  constructor
  · rintro ⟨m, hm, hx⟩
    cases m with
    | visit y =>
      cases hx
      exact hm
    | leave a e => cases hx
  · exact fun h => ⟨_, h, rfl⟩

theorem reaches_iff : reaches visits a = true ↔ ∀ x ∈ visits, x.address <+: a → x.address ≠ a →
    x.answer ≠ .skipChildren ∧ x.answer ≠ .reject := by
  simp only [reaches, List.all_eq_true, Bool.or_eq_true, Bool.not_eq_true', Bool.and_eq_true,
    bne_iff_ne, ← Bool.not_eq_true, List.isPrefixOf_iff_prefix, Decidable.imp_iff_not_or,
    not_and_or, or_assoc]

theorem stopsAt_iff : stopsAt visits a = true ↔ ∃ x ∈ visits, x.address = a ∧ x.answer = .stop := by
  simp [stopsAt]

theorem reaches_append : reaches (visits ++ others) a = (reaches visits a && reaches others a) :=
  List.all_append

theorem stopsAt_append : stopsAt (visits ++ others) a = (stopsAt visits a || stopsAt others a) :=
  List.any_append

/-- Visits of nodes that are not above an address do not keep the walk from it. -/
theorem reaches_of_forall (h : ∀ x ∈ visits, ¬x.address <+: a) : reaches visits a = true :=
  reaches_iff.2 fun x hx hprefix => absurd hprefix (h x hx)

theorem stopsAt_of_forall (h : ∀ x ∈ visits, x.answer = .stop → x.address ≠ a) :
    stopsAt visits a = false := by
  rw [← Bool.not_eq_true, stopsAt_iff]
  rintro ⟨x, hx, ha, hstop⟩
  exact h x hx hstop ha

end Marks

/-- The calls for the nodes below an element that is left stand together, from its visit on until it
is left. -/
def Enclosed (marks : List Mark) (a : Address) (e : Element) : Prop :=
  ∃ before x within after, marks = before ++ .visit x :: (within ++ .leave a e :: after) ∧
    x.address = a ∧ (∀ m ∈ within, a <+: m.address ∧ a ≠ m.address) ∧
      ∀ m ∈ before ++ after, ¬a <+: m.address

theorem Enclosed.pad {marks : List Mark} {a : Address} {e : Element} (h : Enclosed marks a e)
    (first last : List Mark) (hoff : ∀ m ∈ first ++ last, ¬a <+: m.address) :
    Enclosed (first ++ (marks ++ last)) a e := by
  obtain ⟨before, x, within, after, rfl, hx, hwithin, hout⟩ := h
  refine ⟨first ++ before, x, within, after ++ last, by simp, hx, hwithin, fun m hm => ?_⟩
  simp only [List.mem_append] at hm hoff hout
  rcases hm with (hm | hm) | hm | hm
  · exact hoff m (Or.inl hm)
  · exact hout m (Or.inl hm)
  · exact hout m (Or.inr hm)
  · exact hoff m (Or.inr hm)

namespace Tour

variable {nodes others : List (Address × Part)} {marks more : List Mark} {stopped : Bool}
  {a : Address} {e : Element}

theorem mem_nodes_of_visit (h : Tour nodes marks stopped) {x : Encounter}
    (hx : x ∈ visitsOf marks) : x.node ∈ nodes ∧ reaches (visitsOf marks) x.address = true := by
  have hmem := List.mem_map_of_mem (f := Encounter.node) hx
  rw [h.visited] at hmem
  exact List.mem_filter.1 ((cutAfter_sublist _ _).subset hmem)

theorem mem_nodes (h : Tour nodes marks stopped) {m : Mark} (hm : m ∈ marks) :
    (m.address, m.part) ∈ nodes := by
  cases m with
  | visit x => exact (h.mem_nodes_of_visit (mem_visitsOf.2 hm)).1
  | leave a e =>
    obtain ⟨x, hx, rfl, hpart, -, -⟩ := (h.left a e).1 hm
    have hnode := (h.mem_nodes_of_visit hx).1
    rwa [Encounter.node, hpart] at hnode

theorem nodup_addresses (h : Tour nodes marks stopped) (hnodup : (nodes.map Prod.fst).Nodup) :
    ((visitsOf marks).map Encounter.address).Nodup := by
  have haddresses : (visitsOf marks).map Encounter.address =
      ((visitsOf marks).map Encounter.node).map Prod.fst := by
    rw [List.map_map]
    rfl
  rw [haddresses, h.visited]
  exact hnodup.sublist (((cutAfter_sublist _ _).trans List.filter_sublist).map Prod.fst)

theorem not_stop (h : Tour nodes marks false) {x : Encounter} (hx : x ∈ visitsOf marks) :
    x.answer ≠ .stop := by
  intro hstop
  have hstopped := h.stopped_iff.2 ⟨x, hx, hstop⟩
  cases hstopped

theorem stopsAt_eq_false (h : Tour nodes marks false) (a : Address) :
    stopsAt (visitsOf marks) a = false :=
  stopsAt_of_forall fun _ hx hstop => absurd hstop (h.not_stop hx)

theorem left_of_not_stopped (h : Tour nodes marks false) (a : Address) (e : Element) :
    .leave a e ∈ marks ↔ ∃ x ∈ visitsOf marks, x.address = a ∧ x.part = .element e ∧
      (x.answer = .descend ∨ x.answer = .skipChildren) := by
  rw [h.left]
  constructor
  · rintro ⟨x, hx, ha, hpart, hanswer, -⟩
    exact ⟨x, hx, ha, hpart, hanswer⟩
  · rintro ⟨x, hx, ha, hpart, hanswer⟩
    exact ⟨x, hx, ha, hpart, hanswer, fun y hy hstop => absurd hstop (h.not_stop hy)⟩

theorem visited_of_not_stopped (h : Tour nodes marks false) :
    (visitsOf marks).map Encounter.node = nodes.filter fun n => reaches (visitsOf marks) n.1 := by
  rw [h.visited]
  exact cutAfter_eq_self fun n _ => h.stopsAt_eq_false n.1

theorem visited_of_forall_descend (h : Tour nodes marks stopped)
    (hdescends : ∀ x ∈ visitsOf marks, x.answer = .descend) :
    (visitsOf marks).map Encounter.node = nodes := by
  have hreaches (a : Address) : reaches (visitsOf marks) a = true := by
    refine reaches_iff.2 fun x hx _ _ => ?_
    rw [hdescends x hx]
    exact ⟨nofun, nofun⟩
  have hstops (a : Address) : stopsAt (visitsOf marks) a = false := by
    refine stopsAt_of_forall fun x hx hstop => ?_
    rw [hdescends x hx] at hstop
    cases hstop
  rw [h.visited, List.filter_eq_self.2 fun n _ => hreaches n.1, cutAfter_eq_self fun n _ => hstops n.1]

/-! ## One tour after the other -/

theorem nil : Tour [] [] false where
  visited := rfl
  left := by simp
  around := by simp
  stopped_iff := by simp

/-- A walk that is stopped does not come to further nodes. -/
theorem cut (h : Tour nodes marks true) (others : List (Address × Part)) :
    Tour (nodes ++ others) marks true where
  visited := by
    obtain ⟨x, hx, hstop⟩ := h.stopped_iff.1 rfl
    obtain ⟨hnode, hreaches⟩ := h.mem_nodes_of_visit hx
    rw [List.filter_append, cutAfter_append_of_exists, h.visited]
    exact ⟨x.node, List.mem_filter.2 ⟨hnode, hreaches⟩, stopsAt_iff.2 ⟨x, hx, rfl, hstop⟩⟩
  left := h.left
  around := h.around
  stopped_iff := h.stopped_iff

theorem visited_append (h : Tour nodes marks false) (h' : Tour others more stopped)
    (hapart : ∀ n ∈ nodes, ∀ n' ∈ others, Apart n.1 n'.1) :
    (visitsOf (marks ++ more)).map Encounter.node =
      cutAfter (fun n => stopsAt (visitsOf (marks ++ more)) n.1)
        ((nodes ++ others).filter fun n => reaches (visitsOf (marks ++ more)) n.1) := by
  have hfirst : nodes.filter (fun n => reaches (visitsOf (marks ++ more)) n.1) =
      nodes.filter fun n => reaches (visitsOf marks) n.1 := by
    refine List.filter_congr fun n hn => ?_
    have hmore : reaches (visitsOf more) n.1 = true :=
      reaches_of_forall fun y hy => (hapart n hn _ (h'.mem_nodes_of_visit hy).1).2
    rw [visitsOf_append, reaches_append, hmore, Bool.and_true]
  have hsecond : others.filter (fun n => reaches (visitsOf (marks ++ more)) n.1) =
      others.filter fun n => reaches (visitsOf more) n.1 := by
    refine List.filter_congr fun n hn => ?_
    have hmarks : reaches (visitsOf marks) n.1 = true :=
      reaches_of_forall fun x hx => (hapart _ (h.mem_nodes_of_visit hx).1 n hn).1
    rw [visitsOf_append, reaches_append, hmarks, Bool.true_and]
  have hstops (b : Address) :
      stopsAt (visitsOf (marks ++ more)) b = stopsAt (visitsOf more) b := by
    rw [visitsOf_append, stopsAt_append, h.stopsAt_eq_false, Bool.false_or]
  rw [List.filter_append, hfirst, hsecond, cutAfter_append_of_forall, ← h.visited_of_not_stopped,
    visitsOf_append, List.map_append, h'.visited]
  · simp only [← visitsOf_append, hstops]
  · intro n hn
    rw [hstops]
    refine stopsAt_of_forall fun y hy _ heq => ?_
    exact (hapart n (List.mem_filter.1 hn).1 _ (h'.mem_nodes_of_visit hy).1).2
      (heq ▸ List.prefix_rfl)

/-- A walk goes on to nodes that lie apart from those before. -/
theorem append (h : Tour nodes marks false) (h' : Tour others more stopped)
    (hapart : ∀ n ∈ nodes, ∀ n' ∈ others, Apart n.1 n'.1) :
    Tour (nodes ++ others) (marks ++ more) stopped where
  visited := h.visited_append h' hapart
  left := by
    intro a e
    simp only [List.mem_append, visitsOf_append, h.left_of_not_stopped, h'.left]
    constructor
    · rintro (⟨x, hx, ha, hpart, hanswer⟩ | ⟨x, hx, ha, hpart, hanswer, hstop⟩)
      · refine ⟨x, Or.inl hx, ha, hpart, hanswer, fun y hy hstop => ?_⟩
        rcases hy with hy | hy
        · exact absurd hstop (h.not_stop hy)
        · exact ha ▸ (hapart _ (h.mem_nodes_of_visit hx).1 _ (h'.mem_nodes_of_visit hy).1).1
      · refine ⟨x, Or.inr hx, ha, hpart, hanswer, fun y hy hy' => ?_⟩
        rcases hy with hy | hy
        · exact absurd hy' (h.not_stop hy)
        · exact hstop y hy hy'
    · rintro ⟨x, hx | hx, ha, hpart, hanswer, hstop⟩
      · exact Or.inl ⟨x, hx, ha, hpart, hanswer⟩
      · exact Or.inr ⟨x, hx, ha, hpart, hanswer, fun y hy => hstop y (Or.inr hy)⟩
  around := by
    intro a e hleave
    rcases List.mem_append.1 hleave with hleave | hleave
    · have henclosed : Enclosed marks a e := h.around a e hleave
      exact henclosed.pad [] more fun m hm =>
        (hapart _ (h.mem_nodes hleave) _ (h'.mem_nodes hm)).1
    · have henclosed : Enclosed more a e := h'.around a e hleave
      have hoff : ∀ m ∈ marks ++ [], ¬a <+: m.address := by
        intro m hm
        rw [List.append_nil] at hm
        exact (hapart _ (h.mem_nodes hm) _ (h'.mem_nodes hleave)).2
      have hpadded := henclosed.pad marks [] hoff
      rwa [List.append_nil] at hpadded
  stopped_iff := by
    rw [h'.stopped_iff, visitsOf_append]
    constructor
    · rintro ⟨y, hy, hstop⟩
      exact ⟨y, List.mem_append_right _ hy, hstop⟩
    · rintro ⟨y, hy, hstop⟩
      rcases List.mem_append.1 hy with hy | hy
      · exact absurd hstop (h.not_stop hy)
      · exact ⟨y, hy, hstop⟩

/-! ## The tour of a node -/

theorem ofField (a : Address) (f : Field) (answer : Flow) :
    Tour [(a, .field f)] [.visit ⟨a, .field f, answer⟩] (answer == .stop) where
  visited := by
    have hreaches : reaches [⟨a, .field f, answer⟩] a = true :=
      reaches_iff.2 fun x hx _ hne =>
        absurd (congrArg Encounter.address (List.mem_singleton.1 hx)) hne
    simp [visitsOf, Mark.visit?, Encounter.node, hreaches, cutAfter]
  left := by simp
  around := by simp
  stopped_iff := by simp

def Below (a : Address) (nodes : List (Address × Part)) : Prop :=
  ∀ n ∈ nodes, a <+: n.1 ∧ a ≠ n.1

theorem Below.not_prefix (h : Below a nodes) {n : Address × Part} (hn : n ∈ nodes) :
    ¬n.1 <+: a := by
  obtain ⟨hle, hne⟩ := h n hn
  exact fun hprefix => hne (hle.eq_of_length_le hprefix.length_le)

theorem stop (a : Address) (p : Part) (nodes : List (Address × Part)) :
    Tour ((a, p) :: nodes) [.visit ⟨a, p, .stop⟩] true where
  visited := by
    have hreaches (b : Address) : reaches [⟨a, p, .stop⟩] b = true := by
      refine reaches_iff.2 fun x hx _ _ => ?_
      rw [List.mem_singleton.1 hx]
      exact ⟨nofun, nofun⟩
    have hstops : stopsAt [⟨a, p, .stop⟩] a = true :=
      stopsAt_iff.2 ⟨_, List.mem_singleton_self _, rfl, rfl⟩
    simp [visitsOf, Mark.visit?, Encounter.node, hreaches, hstops, cutAfter]
  left := by simp
  around := by simp
  stopped_iff := by simp

/-- The walk passes by all below a node that is not entered. -/
theorem visited_past (hbelow : Below a nodes) (p : Part) {answer : Flow}
    (hanswer : answer = .skipChildren ∨ answer = .reject) :
    [(a, p)] = cutAfter (fun n => stopsAt [⟨a, p, answer⟩] n.1)
      (((a, p) :: nodes).filter fun n => reaches [⟨a, p, answer⟩] n.1) := by
  have hself : reaches [⟨a, p, answer⟩] a = true :=
    reaches_iff.2 fun x hx _ hne =>
      absurd (congrArg Encounter.address (List.mem_singleton.1 hx)) hne
  have hnone : nodes.filter (fun n => reaches [⟨a, p, answer⟩] n.1) = [] := by
    refine List.filter_eq_nil_iff.2 fun n hn hreaches => ?_
    obtain ⟨hskip, hreject⟩ :=
      reaches_iff.1 hreaches _ (List.mem_singleton_self _) (hbelow n hn).1 (hbelow n hn).2
    exact hanswer.elim hskip hreject
  rw [List.filter_cons_of_pos (by exact hself), hnone]
  simp [cutAfter]

/-- An element that is rejected is neither entered nor left. -/
theorem reject (hbelow : Below a nodes) (p : Part) :
    Tour ((a, p) :: nodes) [.visit ⟨a, p, .reject⟩] false where
  visited := visited_past hbelow p (Or.inr rfl)
  left := by simp
  around := by simp
  stopped_iff := by simp

theorem skipChildren (hbelow : Below a nodes) (e : Element) :
    Tour ((a, .element e) :: nodes) [.visit ⟨a, .element e, .skipChildren⟩, .leave a e] false where
  visited := visited_past hbelow _ (Or.inl rfl)
  left := by
    intro b e'
    simp only [visitsOf_cons_visit, visitsOf_cons_leave, visitsOf_nil, List.mem_cons,
      List.not_mem_nil, or_false, exists_eq_left, forall_eq, reduceCtorEq, false_or, or_true,
      false_implies, and_true, Mark.leave.injEq, Part.element.injEq]
    exact and_congr eq_comm eq_comm
  around := by
    intro b e' hleave
    simp only [List.mem_cons, List.not_mem_nil, or_false, reduceCtorEq, false_or,
      Mark.leave.injEq] at hleave
    obtain ⟨rfl, rfl⟩ := hleave
    exact ⟨[], _, [], [], rfl, rfl, by simp, by simp⟩
  stopped_iff := by simp

theorem visited_descend (h : Tour nodes marks stopped) (hbelow : Below a nodes) (e : Element) :
    (a, .element e) :: (visitsOf marks).map Encounter.node =
      cutAfter (fun n => stopsAt (⟨a, .element e, .descend⟩ :: visitsOf marks) n.1)
        (((a, .element e) :: nodes).filter fun n =>
          reaches (⟨a, .element e, .descend⟩ :: visitsOf marks) n.1) := by
  have hreaches (b : Address) : reaches (⟨a, .element e, .descend⟩ :: visitsOf marks) b =
      reaches (visitsOf marks) b := by
    simp [reaches]
  have hstops (b : Address) : stopsAt (⟨a, .element e, .descend⟩ :: visitsOf marks) b =
      stopsAt (visitsOf marks) b := by
    simp [stopsAt]
  have hoff : ∀ x ∈ visitsOf marks, ¬x.address <+: a :=
    fun x hx => hbelow.not_prefix (h.mem_nodes_of_visit hx).1
  have hself : stopsAt (visitsOf marks) a = false :=
    stopsAt_of_forall fun x hx _ heq => hoff x hx (heq ▸ List.prefix_rfl)
  simp only [hreaches, hstops]
  rw [List.filter_cons_of_pos (by exact reaches_of_forall hoff), cutAfter, if_neg (by simp [hself]),
    h.visited]

/-- An element below which the walk is stopped is not left. -/
theorem stoppedBelow (h : Tour nodes marks true) (hbelow : Below a nodes) (e : Element) :
    Tour ((a, .element e) :: nodes) (.visit ⟨a, .element e, .descend⟩ :: marks) true where
  visited := h.visited_descend hbelow e
  left := by
    intro b e'
    rw [List.mem_cons, or_iff_right (by simp), h.left]
    constructor
    · rintro ⟨x, hx, hb, hpart, hanswer, hstop⟩
      refine ⟨x, List.mem_cons_of_mem _ hx, hb, hpart, hanswer, fun y hy hy' => ?_⟩
      rcases List.mem_cons.1 hy with rfl | hy
      · cases hy'
      · exact hstop y hy hy'
    · rintro ⟨x, hx, hb, hpart, hanswer, hstop⟩
      rcases List.mem_cons.1 hx with rfl | hx
      · obtain ⟨y, hy, hy'⟩ := h.stopped_iff.1 rfl
        exact absurd (hb ▸ (hbelow _ (h.mem_nodes_of_visit hy).1).1)
          (hstop y (List.mem_cons_of_mem _ hy) hy')
      · exact ⟨x, hx, hb, hpart, hanswer, fun y hy => hstop y (List.mem_cons_of_mem _ hy)⟩
  around := by
    intro b e' hleave
    have hleave : .leave b e' ∈ marks := by simpa using hleave
    have henclosed : Enclosed marks b e' := h.around b e' hleave
    have hoff : ∀ m ∈ [Mark.visit ⟨a, .element e, .descend⟩] ++ [], ¬b <+: m.address := by
      intro m hm
      rw [List.mem_singleton.1 hm]
      exact hbelow.not_prefix (h.mem_nodes hleave)
    have hpadded := henclosed.pad [_] [] hoff
    rwa [List.append_nil] at hpadded
  stopped_iff := by
    have hstop := h.stopped_iff
    simpa using hstop

/-- An element is left when all below it was visited. -/
theorem descend (h : Tour nodes marks false) (hbelow : Below a nodes) (e : Element) :
    Tour ((a, .element e) :: nodes)
      (.visit ⟨a, .element e, .descend⟩ :: (marks ++ [.leave a e])) false where
  visited := by
    have hvisited := h.visited_descend hbelow e
    simpa [Encounter.node] using hvisited
  left := by
    intro b e'
    have hmarks : .leave b e' ∈ Mark.visit ⟨a, .element e, .descend⟩ :: (marks ++ [.leave a e]) ↔
        .leave b e' ∈ marks ∨ b = a ∧ e' = e := by
      simp
    have hvisits : visitsOf (.visit ⟨a, .element e, .descend⟩ :: (marks ++ [.leave a e])) =
        ⟨a, .element e, .descend⟩ :: visitsOf marks := by
      simp
    have hnone : ∀ y ∈ (⟨a, .element e, .descend⟩ :: visitsOf marks : List Encounter),
        y.answer ≠ .stop := by
      intro y hy
      rcases List.mem_cons.1 hy with rfl | hy
      · exact nofun
      · exact h.not_stop hy
    rw [hmarks, h.left_of_not_stopped, hvisits]
    constructor
    · rintro (⟨x, hx, hb, hpart, hanswer⟩ | ⟨rfl, rfl⟩)
      · exact ⟨x, List.mem_cons_of_mem _ hx, hb, hpart, hanswer,
          fun y hy hstop => absurd hstop (hnone y hy)⟩
      · exact ⟨_, List.mem_cons_self, rfl, rfl, Or.inl rfl,
          fun y hy hstop => absurd hstop (hnone y hy)⟩
    · rintro ⟨x, hx, hb, hpart, hanswer, -⟩
      rcases List.mem_cons.1 hx with rfl | hx
      · cases hpart
        exact Or.inr ⟨hb.symm, rfl⟩
      · exact Or.inl ⟨x, hx, hb, hpart, hanswer⟩
  around := by
    intro b e' hleave
    simp only [List.mem_cons, List.mem_append, reduceCtorEq, false_or, List.not_mem_nil, or_false,
      Mark.leave.injEq] at hleave
    rcases hleave with hleave | ⟨rfl, rfl⟩
    · have henclosed : Enclosed marks b e' := h.around b e' hleave
      have hoff : ∀ m ∈ [Mark.visit ⟨a, .element e, .descend⟩] ++ [.leave a e],
          ¬b <+: m.address := by
        intro m hm
        have haddress : m.address = a := by
          rcases List.mem_cons.1 hm with rfl | hm
          · rfl
          · rw [List.mem_singleton.1 hm]
            rfl
        rw [haddress]
        exact hbelow.not_prefix (h.mem_nodes hleave)
      exact henclosed.pad [_] [_] hoff
    · exact ⟨[], ⟨b, .element e', .descend⟩, marks, [], by simp, rfl,
        fun m hm => hbelow _ (h.mem_nodes hm), by simp⟩
  stopped_iff := by
    have hstop := h.stopped_iff
    simpa using hstop

end Tour

end KmlTree
