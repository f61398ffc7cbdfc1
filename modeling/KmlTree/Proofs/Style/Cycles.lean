import Mathlib.Logic.Relation
import KmlTree.Proofs.Style.Resolution

/-!
# References that lead back

The shared selectors of a document form a graph, with an edge wherever a selector refers to another.
Main statement: a cycle is reported for a feature just when the feature leads to a cycle of this
graph. A report is sound because the chain of a task is a way through the graph; none is missed
because a selector that was left without a report can only lead to selectors that were left before.
-/
namespace KmlTree

open Relation (ReflTransGen TransGen)
open StyleSelector (Refers)

namespace Feature

/-- The references that a feature leads to without another reference. -/
def Refers (state : StyleState) (f : Feature) (url : String) : Prop :=
  (∃ selector ∈ Feature.styleSelectors f, StyleSelector.Refers state selector url) ∨
    Feature.styleUrl? f = some url

end Feature

namespace Document

variable {d : Document} {state : StyleState}

def IsShared (d : Document) (id : String) : Prop := ∃ selector, d.sharedSelector? id = some selector

/-- The reference graph: a shared selector refers to another one. -/
def LeadsTo (d : Document) (state : StyleState) (id id' : String) : Prop :=
  d.IsShared id' ∧ ∃ selector url,
    d.sharedSelector? id = some selector ∧ Refers state selector url ∧ Text.trim url = "#" ++ id'

/-- Some reference leads to a shared selector, directly or through others. -/
def Reached (d : Document) (state : StyleState) (start : String → Prop) (id : String) : Prop :=
  ∃ url id', start url ∧ Text.trim url = "#" ++ id' ∧ d.IsShared id' ∧
    ReflTransGen (d.LeadsTo state) id' id

/-! ## Reports are sound -/

/-- What the innermost selector of a chain refers to, or what the chain starts with. -/
def AskedBelow (d : Document) (state : StyleState) (start : String → Prop) :
    List String → String → Prop
  | [], url => start url
  | id :: _, url => ∃ selector, d.sharedSelector? id = some selector ∧ Refers state selector url

/-- A chain of selectors, the innermost first, each of which leads to the next one inwards. -/
inductive Way (d : Document) (state : StyleState) (start : String → Prop) : List String → Prop
  | nil : Way d state start []
  | cons {id url : String} {chain : List String} (hchain : Way d state start chain)
      (hurl : d.AskedBelow state start chain url) (hid : Text.trim url = "#" ++ id)
      (hshared : d.IsShared id) : Way d state start (id :: chain)

/-- A task that waits at the end of a way, and asks for what is asked for there. -/
structure OnWay (d : Document) (state : StyleState) (start : String → Prop) (task : StyleTask) :
    Prop where
  way : Way d state start task.chain
  asked : ∀ url, task.Refers state url → d.AskedBelow state start task.chain url

section Sound

variable {start : String → Prop} {chain : List String} {id url : String}

theorem Way.reached (h : Way d state start (id :: chain)) : d.Reached state start id := by
  induction chain generalizing id with
  | nil =>
    cases h with
    | @cons _ url _ _ hurl hid hshared => exact ⟨url, id, hurl, hid, hshared, .refl⟩
  | cons outer chain ih =>
    cases h with
    | @cons _ url _ hchain hurl hid hshared =>
    obtain ⟨selector, hselector, hrefers⟩ := hurl
    obtain ⟨first, id', hstart, hid', hshared', hpath⟩ := ih hchain
    exact ⟨first, id', hstart, hid', hshared',
      hpath.tail ⟨hshared, selector, url, hselector, hrefers, hid⟩⟩

/-- Every selector of a chain leads to the innermost one. -/
theorem Way.leadsTo (h : Way d state start (id :: chain)) {outer : String}
    (hmem : outer ∈ id :: chain) : ReflTransGen (d.LeadsTo state) outer id := by
  induction chain generalizing id with
  | nil =>
    rw [List.mem_singleton.1 hmem]
  | cons next chain ih =>
    rcases List.mem_cons.1 hmem with rfl | hmem
    · exact .refl
    cases h with
    | @cons _ url _ hchain hurl hid hshared =>
    obtain ⟨selector, hselector, hrefers⟩ := hurl
    exact (ih hchain hmem).tail ⟨hshared, selector, url, hselector, hrefers, hid⟩

theorem Way.isShared (h : Way d state start chain) (hmem : id ∈ chain) : d.IsShared id := by
  induction h with
  | nil => cases hmem
  | cons _ _ _ hshared ih =>
    rcases List.mem_cons.1 hmem with rfl | hmem
    · exact hshared
    · exact ih hmem

/-- A reference back into the chain closes a cycle. -/
theorem Way.cycle (h : Way d state start chain) (hurl : d.AskedBelow state start chain url)
    (hid : Text.trim url = "#" ++ id) (hmem : id ∈ chain) :
    d.Reached state start id ∧ TransGen (d.LeadsTo state) id id := by
  cases chain with
  | nil => cases hmem
  | cons inner chain =>
    obtain ⟨selector, hselector, hrefers⟩ := hurl
    have hback : d.LeadsTo state inner id :=
      ⟨h.isShared hmem, selector, url, hselector, hrefers, hid⟩
    obtain ⟨first, id', hstart, hid', hshared', hpath⟩ := h.reached
    exact ⟨⟨first, id', hstart, hid', hshared', hpath.tail hback⟩,
      .tail' (h.leadsTo hmem) hback⟩

theorem OnWay.tasks {selector : StyleSelector}
    (h : OnWay d state start (.selector chain selector)) {task : StyleTask}
    (htask : task ∈ selector.tasks state chain) : OnWay d state start task := by
  have hchain : task.chain = chain := StyleSelector.chain_of_mem_tasks htask
  refine ⟨hchain ▸ h.way, fun url hurl => hchain ▸ h.asked url ?_⟩
  obtain ⟨e, pair, rfl, hpair, ⟨inner, hinner, rfl⟩ | ⟨own, hown, rfl⟩⟩ :=
    StyleSelector.mem_tasks.1 htask
  · exact .pair hpair hinner hurl
  · have heq : url = own := hurl
    exact .url hpair (heq ▸ hown)

theorem styleTarget_eq_cycle {entered : List String}
    (h : d.styleTarget entered chain url = .nowhere (some (.cycle id))) :
    ∃ id', Text.trim url = "#" ++ id' ∧ id' ∈ chain := by
  unfold styleTarget at h
  split at h
  · cases h
  next id' hid =>
  split at h
  · next hmem => exact ⟨id', localId?_eq_some_iff.1 hid, hmem⟩
  split at h
  · cases h
  split at h
  · cases h
  split at h <;> cases h

theorem reached_of_cycle {r : Resolution} {tasks : List StyleTask}
    (hr : ∀ url, .cycle url ∉ r.diagnostics) (htasks : ∀ task ∈ tasks, OnWay d state start task)
    (hcycle : .cycle url ∈ (d.resolveTasks state r tasks).diagnostics) :
    ∃ id, d.Reached state start id ∧ TransGen (d.LeadsTo state) id id := by
  fun_induction d.resolveTasks state r tasks with
  | case1 r => exact absurd hcycle (hr url)
  | case2 r chain selector rest ih =>
    have hsame : (selector.contribute r).diagnostics = r.diagnostics := by
      cases selector <;> rfl
    refine ih (hsame ▸ hr) (fun task htask => ?_) hcycle
    rcases List.mem_append.1 htask with htask | htask
    · exact (htasks _ List.mem_cons_self).tasks htask
    · exact htasks task (List.mem_cons_of_mem _ htask)
  | case3 r chain own rest diagnostic? htarget ih =>
    have hhead : OnWay d state start (.url chain own) := htasks _ List.mem_cons_self
    by_cases hreported : ∃ url, diagnostic? = some (.cycle url)
    · obtain ⟨url, rfl⟩ := hreported
      obtain ⟨id, hid, hmem⟩ := styleTarget_eq_cycle htarget
      exact ⟨id, hhead.way.cycle (hhead.asked own rfl) hid hmem⟩
    · refine ih (fun url hurl => ?_) (fun task htask => htasks task (List.mem_cons_of_mem _ htask))
        hcycle
      cases diagnostic? with
      | none => exact hr url hurl
      | some diagnostic =>
        rcases List.mem_append.1 hurl with hurl | hurl
        · exact hr url hurl
        · exact hreported ⟨url, congrArg some (List.mem_singleton.1 hurl).symm⟩
  | case4 r chain own rest id selector htarget ih =>
    have hhead : OnWay d state start (.url chain own) := htasks _ List.mem_cons_self
    obtain ⟨hid, -, hselector⟩ := styleTarget_eq_shared htarget
    refine ih hr (fun task htask => ?_) hcycle
    rcases List.mem_cons.1 htask with rfl | htask
    · exact ⟨.cons hhead.way (hhead.asked own rfl) hid ⟨selector, hselector⟩,
        fun url hurl => ⟨selector, hselector, hurl⟩⟩
    · exact htasks task (List.mem_cons_of_mem _ htask)

end Sound

/-! ## No cycle is missed -/

/-- A shared selector from which every way through the graph ends. -/
def Ends (d : Document) (state : StyleState) (id : String) : Prop :=
  Acc (fun inner outer => d.LeadsTo state outer inner) id

def EndsBelow (d : Document) (state : StyleState) (task : StyleTask) : Prop :=
  ∀ url id, task.Refers state url → Text.trim url = "#" ++ id → d.IsShared id → d.Ends state id

theorem Ends.not_cycle {id id' : String} (h : d.Ends state id)
    (hpath : ReflTransGen (d.LeadsTo state) id id') : ¬TransGen (d.LeadsTo state) id' id' := by
  have hends : d.Ends state id' := by
    induction hpath with
    | refl => exact h
    | tail _ hstep ih => exact ih.inv hstep
  have hacc : Acc (TransGen fun inner outer => d.LeadsTo state outer inner) id' := hends.transGen
  intro hcycle
  have hback : TransGen (fun inner outer => d.LeadsTo state outer inner) id' id' := hcycle.swap
  clear hpath hcycle hends
  induction hacc with
  | intro id' _ ih => exact ih id' hback hback

/-- What was entered ends, or is on the way to the next task; and once that task leads to no cycle,
the same holds of the tasks behind it. -/
def Settles (d : Document) (state : StyleState) (entered : List String) : List StyleTask → Prop
  | [] => True
  | task :: rest => (∀ id ∈ entered, d.Ends state id ∨ id ∈ task.chain) ∧
      (d.EndsBelow state task → d.Settles state entered rest)

section Complete

variable {entered chain : List String} {rest tasks : List StyleTask} {id url : String}
  {selector : StyleSelector}

theorem endsBelow_selector
    (h : ∀ task ∈ selector.tasks state chain, d.EndsBelow state task) :
    d.EndsBelow state (.selector chain selector) := by
  intro url id hurl hid hshared
  obtain ⟨task, htask, hrefers⟩ := StyleSelector.Refers.tasks hurl chain
  exact h task htask url id hrefers hid hshared

theorem ends_of_endsBelow (hselector : d.sharedSelector? id = some selector)
    (h : d.EndsBelow state (.selector chain selector)) : d.Ends state id := by
  refine Acc.intro id fun id' hstep => ?_
  obtain ⟨hshared, selector', url, hselector', hrefers, hid'⟩ := hstep
  rw [hselector] at hselector'
  cases hselector'
  exact h url id' hrefers hid' hshared

theorem settles_append (hchain : ∀ task ∈ tasks, task.chain = chain)
    (hentered : ∀ id ∈ entered, d.Ends state id ∨ id ∈ chain)
    (hrest : (∀ task ∈ tasks, d.EndsBelow state task) → d.Settles state entered rest) :
    d.Settles state entered (tasks ++ rest) := by
  induction tasks with
  | nil => exact hrest (by simp)
  | cons task tasks ih =>
    refine ⟨?_, fun htask => ih (fun t ht => hchain t (List.mem_cons_of_mem _ ht)) fun htasks => ?_⟩
    · rw [hchain task List.mem_cons_self]
      exact hentered
    · exact hrest (List.forall_mem_cons.2 ⟨htask, htasks⟩)

theorem Settles.enter (h : d.Settles state entered rest) (hid : d.Ends state id) :
    d.Settles state (entered ++ [id]) rest := by
  induction rest with
  | nil => trivial
  | cons task rest ih =>
    refine ⟨fun id' hid' => ?_, fun htask => ih (h.2 htask)⟩
    rcases List.mem_append.1 hid' with hid' | hid'
    · exact h.1 id' hid'
    · rw [List.mem_singleton.1 hid']
      exact Or.inl hid

theorem mem_diagnostics_resolveTasks {r : Resolution} {diagnostic : StyleDiagnostic}
    (h : diagnostic ∈ r.diagnostics) :
    diagnostic ∈ (d.resolveTasks state r tasks).diagnostics := by
  fun_induction d.resolveTasks state r tasks with
  | case1 r => exact h
  | case2 r chain selector rest ih =>
    refine ih ?_
    cases selector <;> exact h
  | case3 r chain url rest diagnostic? htarget ih =>
    refine ih ?_
    cases diagnostic? with
    | none => exact h
    | some reported => exact List.mem_append_left _ h
  | case4 r chain url rest id selector htarget ih => exact ih h

/-- Where no cycle is reported, a reference that is not followed leads to none. -/
theorem endsBelow_of_nowhere {diagnostic? : Option StyleDiagnostic}
    (h : d.styleTarget entered chain url = .nowhere diagnostic?)
    (hentered : ∀ id ∈ entered, d.Ends state id ∨ id ∈ chain)
    (hnone : diagnostic? ≠ some (.cycle url)) : d.EndsBelow state (.url chain url) := by
  rintro _ id rfl hid ⟨selector, hselector⟩
  obtain ⟨e, hlookup, hview⟩ := Option.bind_eq_some_iff.1 hselector
  obtain ⟨view, hview, -⟩ := Option.map_eq_some_iff.1 hview
  simp only [styleTarget, localId?_eq_some_iff.2 hid, hlookup, hview] at h
  split at h
  · cases h
    exact absurd rfl hnone
  next hchain =>
  split at h
  · next hmem => exact (hentered id hmem).resolve_right hchain
  · cases h

theorem Settles.endsBelow {r : Resolution} (h : d.Settles state r.entered tasks)
    (hnone : ∀ url, .cycle url ∉ (d.resolveTasks state r tasks).diagnostics) :
    ∀ task ∈ tasks, d.EndsBelow state task := by
  fun_induction d.resolveTasks state r tasks with
  | case1 r => simp
  | case2 r chain selector rest ih =>
    have hsettles : d.Settles state r.entered (selector.tasks state chain ++ rest) :=
      settles_append (fun _ => StyleSelector.chain_of_mem_tasks) h.1
        fun htasks => h.2 (endsBelow_selector htasks)
    have hall := ih (by simpa using hsettles) hnone
    refine List.forall_mem_cons.2 ⟨endsBelow_selector fun task htask => ?_, fun task htask => ?_⟩
    · exact hall task (List.mem_append_left _ htask)
    · exact hall task (List.mem_append_right _ htask)
  | case3 r chain url rest diagnostic? htarget ih =>
    have hurl : d.EndsBelow state (.url chain url) := by
      refine endsBelow_of_nowhere htarget h.1 ?_
      rintro rfl
      exact hnone url (mem_diagnostics_resolveTasks (List.mem_append_right _ List.mem_cons_self))
    exact List.forall_mem_cons.2 ⟨hurl, ih (by simpa using h.2 hurl) hnone⟩
  | case4 r chain url rest id selector htarget ih =>
    obtain ⟨hid, -, hselector⟩ := styleTarget_eq_shared htarget
    have hfollowed (hends : d.Ends state id) : d.EndsBelow state (.url chain url) := by
      rintro _ id' rfl hid' -
      obtain rfl : id = id' := id_unique hid hid'
      exact hends
    have hsettles :
        d.Settles state (r.entered ++ [id]) (.selector (id :: chain) selector :: rest) := by
      refine ⟨fun id' hid' => ?_, fun hselected => ?_⟩
      · rcases List.mem_append.1 hid' with hid' | hid'
        · exact (h.1 id' hid').imp_right (List.mem_cons_of_mem _)
        · rw [List.mem_singleton.1 hid']
          exact Or.inr List.mem_cons_self
      · have hends := ends_of_endsBelow hselector hselected
        exact (h.2 (hfollowed hends)).enter hends
    obtain ⟨hselected, hrest⟩ := List.forall_mem_cons.1 (ih hsettles hnone)
    exact List.forall_mem_cons.2 ⟨hfollowed (ends_of_endsBelow hselector hselected), hrest⟩

end Complete

/-- A cycle is reported for a feature just when its references lead to a shared selector that leads
back to itself. -/
theorem cycle_reported_iff (d : Document) (state : StyleState) (f : Feature) :
    (∃ url, .cycle url ∈ (d.resolve state f.element).diagnostics) ↔
      ∃ url id id', f.Refers state url ∧ Text.trim url = "#" ++ id ∧ d.IsShared id ∧
        ReflTransGen (d.LeadsTo state) id id' ∧ TransGen (d.LeadsTo state) id' id' := by
  have hview : f.element.view? .feature = some f := by
    rw [Element.view?, dif_pos f.isA]
  have htask (task : StyleTask) :
      task ∈ StyleTask.ofElement [] (Feature.styleSelectors f) f.element →
      task.chain = [] ∧ ∀ url, task.Refers state url → f.Refers state url := by
    intro hmem
    rcases StyleSelector.mem_ofElement.1 hmem with ⟨selector, hselector, rfl⟩ | ⟨own, hown, rfl⟩
    · exact ⟨rfl, fun url hurl => Or.inl ⟨selector, hselector, hurl⟩⟩
    · refine ⟨rfl, fun url hurl => Or.inr ?_⟩
      have heq : url = own := hurl
      exact heq ▸ hown
  simp only [resolve, hview]
  constructor
  · rintro ⟨reported, hreported⟩
    have hway : ∀ task ∈ StyleTask.ofElement [] (Feature.styleSelectors f) f.element,
        OnWay d state (f.Refers state) task := by
      intro task hmem
      obtain ⟨hchain, hasked⟩ := htask task hmem
      exact ⟨hchain ▸ .nil, fun url hurl => hchain ▸ hasked url hurl⟩
    obtain ⟨id', ⟨url, id, hurl, hid, hshared, hpath⟩, hcycle⟩ :=
      reached_of_cycle (by simp) hway hreported
    exact ⟨url, id, id', hurl, hid, hshared, hpath, hcycle⟩
  · rintro ⟨url, id, id', hurl, hid, hshared, hpath, hcycle⟩
    apply Classical.byContradiction
    intro hnone
    have hsettles : d.Settles state ({} : Resolution).entered
        (StyleTask.ofElement [] (Feature.styleSelectors f) f.element) := by
      have happend : d.Settles state []
          (StyleTask.ofElement [] (Feature.styleSelectors f) f.element ++ []) :=
        settles_append (fun task hmem => (htask task hmem).1) (by simp) fun _ => trivial
      simpa using happend
    have hends := hsettles.endsBelow (not_exists.1 hnone)
    obtain ⟨task, hmem, hrefers⟩ : ∃ task ∈
        StyleTask.ofElement [] (Feature.styleSelectors f) f.element, task.Refers state url := by
      rcases hurl with ⟨selector, hselector, hrefers⟩ | hown
      · exact ⟨.selector [] selector,
          StyleSelector.mem_ofElement.2 (Or.inl ⟨selector, hselector, rfl⟩), hrefers⟩
      · exact ⟨.url [] url, StyleSelector.mem_ofElement.2 (Or.inr ⟨url, hown, rfl⟩), rfl⟩
    exact (hends task hmem url id hrefers hid hshared).not_cycle hpath hcycle

end Document

end KmlTree
