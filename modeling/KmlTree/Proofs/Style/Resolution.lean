import KmlTree.Proofs.Style.Merging

/-!
# Resolution of styles

The style of a feature is the merge of all that its selectors and references expand to. The resolver
enters a shared selector once only; this loses nothing, because a selector that was entered and is
not on the way to the current task has already shown all that it can expand to.
-/
namespace KmlTree

/-! ## What a selector holds itself -/

namespace StyleSelector

/-- The styles that a selector leads to without a reference. -/
inductive Shows (state : StyleState) : StyleSelector → Element → Prop
  | style (e : Element) : Shows state (.style e) e
  | pair {e x : Element} {pair : Pair} {selector : StyleSelector}
      (hpair : e.pairFor? state = some pair) (hselector : pair.styleSelector? = some selector)
      (h : Shows state selector x) : Shows state (.styleMap e) x

/-- The references that a selector leads to without another reference. -/
inductive Refers (state : StyleState) : StyleSelector → String → Prop
  | url {e : Element} {pair : Pair} {url : String} (hpair : e.pairFor? state = some pair)
      (hurl : pair.element.styleUrl? = some url) : Refers state (.styleMap e) url
  | pair {e : Element} {pair : Pair} {selector : StyleSelector} {url : String}
      (hpair : e.pairFor? state = some pair) (hselector : pair.styleSelector? = some selector)
      (h : Refers state selector url) : Refers state (.styleMap e) url

end StyleSelector

open StyleSelector (Shows Refers)

namespace StyleTask

variable {state : StyleState}

/-- The shared selectors on the way to a task. -/
def chain : StyleTask → List String
  | .selector chain _ | .url chain _ => chain

/-- The styles that a task leads to without a reference. -/
def Shows (state : StyleState) : StyleTask → Element → Prop
  | .selector _ s => s.Shows state
  | .url .. => fun _ => False

def Refers (state : StyleState) : StyleTask → String → Prop
  | .selector _ s => s.Refers state
  | .url _ own => fun url => url = own

def expand (d : Document) (state : StyleState) : StyleTask → List Element
  | .selector chain s => d.expandSelector state chain s
  | .url chain own => d.expandUrl state chain own

end StyleTask

namespace StyleSelector

variable {state : StyleState} {chain : List String} {selector : StyleSelector}

def own : StyleSelector → List Element
  | .style e => [e]
  | .styleMap _ => []

theorem mem_ofElement {selectors : List StyleSelector} {e : Element} {task : StyleTask} :
    task ∈ StyleTask.ofElement chain selectors e ↔
      (∃ selector ∈ selectors, task = .selector chain selector) ∨
        ∃ url, e.styleUrl? = some url ∧ task = .url chain url := by
  cases hurl : e.styleUrl? <;> simp [StyleTask.ofElement, hurl, eq_comm]

/-- Only a style map asks for something, and for no more than its pair has. -/
theorem mem_tasks {task : StyleTask} : task ∈ selector.tasks state chain ↔
    ∃ e pair, selector = .styleMap e ∧ e.pairFor? state = some pair ∧
      ((∃ inner, pair.styleSelector? = some inner ∧ task = .selector chain inner) ∨
        ∃ url, pair.element.styleUrl? = some url ∧ task = .url chain url) := by
  cases selector with
  | style e => simp [tasks]
  | styleMap e => cases hpair : e.pairFor? state <;> simp [tasks, hpair, mem_ofElement]

theorem chain_of_mem_tasks {task : StyleTask} (h : task ∈ selector.tasks state chain) :
    task.chain = chain := by
  obtain ⟨e, pair, -, -, ⟨inner, -, rfl⟩ | ⟨url, -, rfl⟩⟩ := mem_tasks.1 h
  · rfl
  · rfl

theorem Shows.own_or_tasks {x : Element} (h : Shows state selector x) (chain : List String) :
    x ∈ selector.own ∨ ∃ task ∈ selector.tasks state chain, task.Shows state x := by
  cases h with
  | style e => exact Or.inl List.mem_cons_self
  | @pair e x pair inner hpair hselector h =>
    refine Or.inr ⟨.selector chain inner, ?_, h⟩
    exact mem_tasks.2 ⟨e, pair, rfl, hpair, Or.inl ⟨inner, hselector, rfl⟩⟩

theorem Refers.tasks {url : String} (h : Refers state selector url) (chain : List String) :
    ∃ task ∈ selector.tasks state chain, task.Refers state url := by
  cases h with
  | @url e pair url hpair hurl =>
    exact ⟨.url chain url, mem_tasks.2 ⟨e, pair, rfl, hpair, Or.inr ⟨url, hurl, rfl⟩⟩, rfl⟩
  | @pair e pair inner url hpair hselector h =>
    refine ⟨.selector chain inner, ?_, h⟩
    exact mem_tasks.2 ⟨e, pair, rfl, hpair, Or.inl ⟨inner, hselector, rfl⟩⟩

end StyleSelector

namespace Document

variable {d : Document} {state : StyleState}

theorem flatMap_expand_ofElement (chain : List String) (selectors : List StyleSelector)
    (e : Element) : (StyleTask.ofElement chain selectors e).flatMap (StyleTask.expand d state) =
      selectors.flatMap (d.expandSelector state chain) ++
        e.styleUrl?.toList.flatMap (d.expandUrl state chain) := by
  rw [StyleTask.ofElement, List.flatMap_append, List.flatMap_map]
  have hselectors : (fun s => StyleTask.expand d state (.selector chain s)) =
      d.expandSelector state chain := rfl
  rw [hselectors]
  congr 1
  cases e.styleUrl? with
  | none => rfl
  | some url => simp [StyleTask.expand]

theorem expandSelector_eq (chain : List String) (selector : StyleSelector) :
    d.expandSelector state chain selector =
      selector.own ++ (selector.tasks state chain).flatMap (StyleTask.expand d state) := by
  cases selector with
  | style e => rw [expandSelector_style]; rfl
  | styleMap e =>
    rw [expandSelector_styleMap, StyleSelector.tasks, StyleSelector.own, List.nil_append]
    cases e.pairFor? state with
    | none => rfl
    | some pair => exact (flatMap_expand_ofElement chain _ _).symm

/-- A selector expands to what it shows and to what its references expand to. -/
theorem mem_expandSelector {chain : List String} {selector : StyleSelector} {x : Element}
    (h : x ∈ d.expandSelector state chain selector) :
    Shows state selector x ∨ ∃ url, Refers state selector url ∧ x ∈ d.expandUrl state chain url := by
  match selector with
  | .style e =>
    rw [expandSelector_style, List.mem_singleton] at h
    subst h
    exact Or.inl (.style x)
  | .styleMap e =>
    rw [expandSelector_styleMap] at h
    split at h
    · cases h
    next pair hpair =>
    rcases List.mem_append.1 h with h | h
    · obtain ⟨inner, hinner, h⟩ := List.mem_flatMap.1 h
      have hselector : pair.styleSelector? = some inner := by simpa using hinner
      have hlt := Nat.lt_trans (Pair.size_styleSelector?_lt hselector) (Element.size_pairFor?_lt hpair)
      rcases mem_expandSelector h with hshows | ⟨url, hrefers, hx⟩
      · exact Or.inl (.pair hpair hselector hshows)
      · exact Or.inr ⟨url, .pair hpair hselector hrefers, hx⟩
    · obtain ⟨url, hurl, h⟩ := List.mem_flatMap.1 h
      exact Or.inr ⟨url, .url hpair (by simpa using hurl), h⟩
termination_by selector.element.size

/-! ## What was entered -/

/-- A reference leads to no shared selector but those that were entered. -/
def Followed (d : Document) (entered : List String) (url : String) : Prop :=
  ∀ id selector, Text.trim url = "#" ++ id → d.sharedSelector? id = some selector → id ∈ entered

theorem Followed.mono {entered entered' : List String} {url : String} (h : d.Followed entered url)
    (hsub : entered ⊆ entered') : d.Followed entered' url :=
  fun id selector hid hselector => hsub (h id selector hid hselector)

/-- What is known of the shared selectors that were entered, with the tasks that wait and the styles
that were merged: each task waits with a chain within that of the task before it, and what an entered
selector leads to was dealt with, or will be by a task that waits below the selector. -/
structure Explored (d : Document) (state : StyleState) (entered : List String)
    (tasks : List StyleTask) (merged : List Element) : Prop where
  nested : tasks.Pairwise fun task later => later.chain ⊆ task.chain
  chain_subset : ∀ task ∈ tasks, task.chain ⊆ entered
  shown : ∀ id ∈ entered, ∀ selector, d.sharedSelector? id = some selector →
    ∀ x, Shows state selector x →
      x ∈ merged ∨ ∃ task ∈ tasks, id ∈ task.chain ∧ task.Shows state x
  followed : ∀ id ∈ entered, ∀ selector, d.sharedSelector? id = some selector →
    ∀ url, Refers state selector url →
      d.Followed entered url ∨ ∃ task ∈ tasks, id ∈ task.chain ∧ task.Refers state url

variable {entered : List String} {tasks rest : List StyleTask} {merged : List Element}

/-- A selector that was entered and is not on the way to the next task has nothing left to do. -/
theorem Explored.finished {task : StyleTask} (h : Explored d state entered (task :: rest) merged)
    {id : String} {selector : StyleSelector} (hid : id ∈ entered) (hchain : id ∉ task.chain)
    (hselector : d.sharedSelector? id = some selector) :
    (∀ x, Shows state selector x → x ∈ merged) ∧
      ∀ url, Refers state selector url → d.Followed entered url := by
  -- the chain of the next task holds those of all tasks behind it
  have hdone : ∀ waiting ∈ task :: rest, id ∉ waiting.chain := by
    intro waiting hwaiting hmem
    rcases List.mem_cons.1 hwaiting with rfl | hwaiting
    · exact hchain hmem
    · exact hchain ((List.pairwise_cons.1 h.nested).1 waiting hwaiting hmem)
  constructor
  · intro x hx
    rcases h.shown id hid selector hselector x hx with hmerged | ⟨waiting, hwaiting, hmem, -⟩
    · exact hmerged
    · exact absurd hmem (hdone waiting hwaiting)
  · intro url hurl
    rcases h.followed id hid selector hselector url hurl with hfollowed | ⟨waiting, hwaiting, hmem, -⟩
    · exact hfollowed
    · exact absurd hmem (hdone waiting hwaiting)

/-- A reference that was followed expands to nothing new, below the next task or further down. -/
theorem Explored.expandUrl_subset {task : StyleTask}
    (h : Explored d state entered (task :: rest) merged) {chain : List String} {url : String}
    (hchain : task.chain ⊆ chain) (hfollowed : d.Followed entered url) :
    d.expandUrl state chain url ⊆ merged := by
  intro x hx
  rw [expandUrl_eq] at hx
  split at hx
  · cases hx
  next id hid =>
  split at hx
  · cases hx
  next hnew =>
  obtain ⟨selector, hselector, hx⟩ := List.mem_flatMap.1 hx
  have hselector : d.sharedSelector? id = some selector := by simpa using hselector
  have hentered : id ∈ entered := hfollowed id selector (localId?_eq_some_iff.1 hid) hselector
  have hoff : id ∉ task.chain := fun hmem => hnew (hchain hmem)
  obtain ⟨hshown, hrefers⟩ := h.finished hentered hoff hselector
  rcases mem_expandSelector hx with hshows | ⟨url', hurl', hx⟩
  · exact hshown x hshows
  · have hlt := remaining_cons_lt hselector hnew
    exact h.expandUrl_subset (fun _ hmem => List.mem_cons_of_mem _ (hchain hmem))
      (hrefers url' hurl') hx
termination_by d.remaining chain

/-! ## Steps of the resolver -/

theorem resolveTasks_nil (d : Document) (r : Resolution) : d.resolveTasks state r [] = r := by
  unfold resolveTasks
  rfl

theorem resolveTasks_selector (d : Document) (r : Resolution) (chain : List String)
    (selector : StyleSelector) (rest : List StyleTask) :
    d.resolveTasks state r (.selector chain selector :: rest) =
      d.resolveTasks state (selector.contribute r) (selector.tasks state chain ++ rest) := by
  conv => lhs; unfold resolveTasks

theorem resolveTasks_url (d : Document) (r : Resolution) (chain : List String) (url : String)
    (rest : List StyleTask) : d.resolveTasks state r (.url chain url :: rest) =
      match d.styleTarget r.entered chain url with
      | .nowhere diagnostic? => d.resolveTasks state (diagnostic?.elim r r.diagnose) rest
      | .shared id selector =>
        d.resolveTasks state { r with entered := r.entered ++ [id] }
          (.selector (id :: chain) selector :: rest) := by
  conv => lhs; unfold resolveTasks
  split
  · next h => rw [h]
  · next h => rw [h]

theorem resolveTasks_nowhere {r : Resolution} {chain : List String} {url : String}
    {diagnostic? : Option StyleDiagnostic} (rest : List StyleTask)
    (h : d.styleTarget r.entered chain url = .nowhere diagnostic?) :
    d.resolveTasks state r (.url chain url :: rest) =
      d.resolveTasks state (diagnostic?.elim r r.diagnose) rest := by
  rw [resolveTasks_url, h]

theorem resolveTasks_shared {r : Resolution} {chain : List String} {url id : String}
    {selector : StyleSelector} (rest : List StyleTask)
    (h : d.styleTarget r.entered chain url = .shared id selector) :
    d.resolveTasks state r (.url chain url :: rest) =
      d.resolveTasks state { r with entered := r.entered ++ [id] }
        (.selector (id :: chain) selector :: rest) := by
  rw [resolveTasks_url, h]

theorem explored_ofElement (selectors : List StyleSelector) (e : Element) :
    Explored d state [] (StyleTask.ofElement [] selectors e) [] := by
  have hchain : ∀ task ∈ StyleTask.ofElement [] selectors e, task.chain = [] := by
    intro task htask
    rcases StyleSelector.mem_ofElement.1 htask with ⟨selector, -, rfl⟩ | ⟨url, -, rfl⟩ <;> rfl
  refine ⟨?_, fun task htask => ?_, by simp, by simp⟩
  · refine List.pairwise_of_forall_mem_list fun task htask later hlater => ?_
    rw [hchain later hlater]
    exact List.nil_subset _
  · rw [hchain task htask]
    exact List.nil_subset _

theorem followed_of_nowhere {chain : List String} {url : String}
    {diagnostic? : Option StyleDiagnostic}
    (h : d.styleTarget entered chain url = .nowhere diagnostic?) (hsub : chain ⊆ entered) :
    d.Followed entered url := by
  intro id selector hid hselector
  unfold styleTarget at h
  rw [localId?_eq_some_iff.2 hid] at h
  simp only at h
  split at h
  · next hmem => exact hsub hmem
  split at h
  · next hmem => exact hmem
  obtain ⟨e, hlookup, hview⟩ := Option.bind_eq_some_iff.1 hselector
  obtain ⟨view, hview, -⟩ := Option.map_eq_some_iff.1 hview
  rw [hlookup] at h
  simp only [hview] at h
  cases h

theorem styleTarget_eq_shared {chain : List String} {url id : String} {selector : StyleSelector}
    (h : d.styleTarget entered chain url = .shared id selector) :
    Text.trim url = "#" ++ id ∧ id ∉ chain ∧ d.sharedSelector? id = some selector := by
  unfold styleTarget at h
  split at h
  · cases h
  next hid =>
  split at h
  · cases h
  next hchain =>
  split at h
  · cases h
  split at h
  · cases h
  next hlookup =>
  split at h
  · cases h
  next view hview =>
  cases h
  exact ⟨localId?_eq_some_iff.1 hid, hchain, by simp [sharedSelector?, hlookup, hview]⟩

theorem Explored.selector {chain : List String} {selector : StyleSelector}
    (h : Explored d state entered (.selector chain selector :: rest) merged) :
    Explored d state entered (selector.tasks state chain ++ rest) (merged ++ selector.own) where
  nested := by
    obtain ⟨hhead, hrest⟩ := List.pairwise_cons.1 h.nested
    have hown : ∀ task ∈ selector.tasks state chain, task.chain = chain :=
      fun _ => StyleSelector.chain_of_mem_tasks
    refine List.pairwise_append.2 ⟨?_, hrest, fun task htask later hlater => ?_⟩
    · refine List.pairwise_of_forall_mem_list fun task htask later hlater => ?_
      rw [hown task htask, hown later hlater]
      exact fun _ => id
    · rw [hown task htask]
      exact hhead later hlater
  chain_subset := by
    intro task htask
    rcases List.mem_append.1 htask with htask | htask
    · rw [StyleSelector.chain_of_mem_tasks htask]
      exact h.chain_subset (.selector chain selector) List.mem_cons_self
    · exact h.chain_subset task (List.mem_cons_of_mem _ htask)
  shown := by
    intro id hid s hs x hx
    rcases h.shown id hid s hs x hx with hmerged | ⟨task, htask, hmem, hshows⟩
    · exact Or.inl (List.mem_append_left _ hmerged)
    rcases List.mem_cons.1 htask with rfl | htask
    · rcases StyleSelector.Shows.own_or_tasks hshows chain with hown | ⟨task, htask, hshows⟩
      · exact Or.inl (List.mem_append_right _ hown)
      · refine Or.inr ⟨task, List.mem_append_left _ htask, ?_, hshows⟩
        rw [StyleSelector.chain_of_mem_tasks htask]
        exact hmem
    · exact Or.inr ⟨task, List.mem_append_right _ htask, hmem, hshows⟩
  followed := by
    intro id hid s hs url hurl
    rcases h.followed id hid s hs url hurl with hfollowed | ⟨task, htask, hmem, hrefers⟩
    · exact Or.inl hfollowed
    rcases List.mem_cons.1 htask with rfl | htask
    · obtain ⟨task, htask, hrefers⟩ := StyleSelector.Refers.tasks hrefers chain
      refine Or.inr ⟨task, List.mem_append_left _ htask, ?_, hrefers⟩
      rw [StyleSelector.chain_of_mem_tasks htask]
      exact hmem
    · exact Or.inr ⟨task, List.mem_append_right _ htask, hmem, hrefers⟩

theorem Explored.nowhere {chain : List String} {url : String}
    (h : Explored d state entered (.url chain url :: rest) merged)
    (hurl : d.Followed entered url) : Explored d state entered rest merged where
  nested := (List.pairwise_cons.1 h.nested).2
  chain_subset := fun task htask => h.chain_subset task (List.mem_cons_of_mem _ htask)
  shown := by
    intro id hid s hs x hx
    rcases h.shown id hid s hs x hx with hmerged | ⟨task, htask, hmem, hshows⟩
    · exact Or.inl hmerged
    rcases List.mem_cons.1 htask with rfl | htask
    · exact False.elim hshows
    · exact Or.inr ⟨task, htask, hmem, hshows⟩
  followed := by
    intro id hid s hs url' hurl'
    rcases h.followed id hid s hs url' hurl' with hfollowed | ⟨task, htask, hmem, hrefers⟩
    · exact Or.inl hfollowed
    rcases List.mem_cons.1 htask with rfl | htask
    · have heq : url' = url := hrefers
      exact Or.inl (heq ▸ hurl)
    · exact Or.inr ⟨task, htask, hmem, hrefers⟩

theorem Explored.enter {chain : List String} {url id : String} {selector : StyleSelector}
    (h : Explored d state entered (.url chain url :: rest) merged)
    (htarget : d.styleTarget entered chain url = .shared id selector) :
    Explored d state (entered ++ [id]) (.selector (id :: chain) selector :: rest) merged where
  nested := by
    obtain ⟨hhead, hrest⟩ := List.pairwise_cons.1 h.nested
    exact List.pairwise_cons.2
      ⟨fun later hlater _ hmem => List.mem_cons_of_mem _ (hhead later hlater hmem), hrest⟩
  chain_subset := by
    intro task htask
    rcases List.mem_cons.1 htask with rfl | htask
    · intro id' hid'
      rcases List.mem_cons.1 hid' with rfl | hid'
      · exact List.mem_append_right _ List.mem_cons_self
      · exact List.mem_append_left _ (h.chain_subset (.url chain url) List.mem_cons_self hid')
    · intro id' hid'
      exact List.mem_append_left _ (h.chain_subset task (List.mem_cons_of_mem _ htask) hid')
  shown := by
    intro id' hid' s hs x hx
    rcases List.mem_append.1 hid' with hid' | hid'
    · rcases h.shown id' hid' s hs x hx with hmerged | ⟨task, htask, hmem, hshows⟩
      · exact Or.inl hmerged
      rcases List.mem_cons.1 htask with rfl | htask
      · exact False.elim hshows
      · exact Or.inr ⟨task, List.mem_cons_of_mem _ htask, hmem, hshows⟩
    · obtain rfl := List.mem_singleton.1 hid'
      obtain ⟨-, -, hselector⟩ := styleTarget_eq_shared htarget
      rw [hselector] at hs
      cases hs
      exact Or.inr ⟨_, List.mem_cons_self, List.mem_cons_self, hx⟩
  followed := by
    intro id' hid' s hs url' hurl'
    obtain ⟨hid, -, hselector⟩ := styleTarget_eq_shared htarget
    rcases List.mem_append.1 hid' with hid' | hid'
    · rcases h.followed id' hid' s hs url' hurl' with hfollowed | ⟨task, htask, hmem, hrefers⟩
      · exact Or.inl (hfollowed.mono (List.subset_append_left _ _))
      rcases List.mem_cons.1 htask with rfl | htask
      · have heq : url' = url := hrefers
        refine Or.inl fun id'' s' hid'' _ => ?_
        rw [heq] at hid''
        obtain rfl : id = id'' := id_unique hid hid''
        exact List.mem_append_right _ List.mem_cons_self
      · exact Or.inr ⟨task, List.mem_cons_of_mem _ htask, hmem, hrefers⟩
    · obtain rfl := List.mem_singleton.1 hid'
      rw [hselector] at hs
      cases hs
      exact Or.inr ⟨_, List.mem_cons_self, List.mem_cons_self, hurl'⟩

/-! ## The resolver -/

def firstSubStyle? (styles : List Element) (kind : Kind) : Option Element :=
  styles.findSome? fun e => e.find? kind

theorem firstSubStyle?_append (styles styles' : List Element) (kind : Kind) :
    firstSubStyle? (styles ++ styles') kind =
      (firstSubStyle? styles kind).or (firstSubStyle? styles' kind) :=
  List.findSome?_append

theorem firstSubStyle?_append_of_subset {styles again : List Element} (h : again ⊆ styles)
    (kind : Kind) : firstSubStyle? (styles ++ again) kind = firstSubStyle? styles kind := by
  rw [firstSubStyle?_append]
  cases hfirst : firstSubStyle? styles kind with
  | some subStyle => rfl
  | none =>
    rw [Option.none_or]
    exact List.findSome?_eq_none_iff.2 fun e he => List.findSome?_eq_none_iff.1 hfirst e (h he)

/-- The style so far has the first sub-style of each kind among the styles that were merged. -/
structure Merges (style : Element) (merged : List Element) : Prop where
  composed : style.Composed
  find?_eq : ∀ kind ∈ subStyleKinds, style.find? kind = firstSubStyle? merged kind

theorem Merges.contribute {r : Resolution} (h : Merges r.style merged) (selector : StyleSelector) :
    Merges (selector.contribute r).style (merged ++ selector.own) := by
  cases selector with
  | styleMap e =>
    rw [StyleSelector.own, List.append_nil]
    exact h
  | style e =>
    obtain ⟨hcomposed, hfind⟩ := h.composed.mergeStyle e
    rw [StyleSelector.contribute]
    dsimp only
    refine ⟨hcomposed, fun kind hkind => ?_⟩
    rw [hfind kind hkind, h.find?_eq kind hkind, firstSubStyle?_append]
    simp [firstSubStyle?, StyleSelector.own]

theorem style_diagnose (r : Resolution) (diagnostic? : Option StyleDiagnostic) :
    (diagnostic?.elim r r.diagnose).style = r.style := by
  cases diagnostic? <;> rfl

/-- The resolver ends with the merge of all that the tasks expand to. -/
theorem Explored.merges_resolveTasks {r : Resolution}
    (h : Explored d state r.entered tasks merged) (hr : Merges r.style merged) :
    Merges (d.resolveTasks state r tasks).style
      (merged ++ tasks.flatMap (StyleTask.expand d state)) := by
  fun_induction d.resolveTasks state r tasks generalizing merged with
  | case1 r => simpa using hr
  | case2 r chain selector rest ih =>
    have hstep := ih (by simpa using h.selector) (hr.contribute selector)
    rw [List.flatMap_append, ← List.append_assoc, List.append_assoc merged] at hstep
    rw [List.flatMap_cons, ← List.append_assoc]
    rw [← expandSelector_eq chain selector] at hstep
    exact hstep
  | case3 r chain url rest diagnostic? htarget ih =>
    have hsub := h.chain_subset (.url chain url) List.mem_cons_self
    have hfollowed := followed_of_nowhere htarget hsub
    have hagain : d.expandUrl state chain url ⊆ merged := h.expandUrl_subset (fun _ => id) hfollowed
    have hstep := ih (by simpa using h.nowhere hfollowed) (by simpa [style_diagnose] using hr)
    refine ⟨hstep.composed, fun kind hkind => ?_⟩
    rw [hstep.find?_eq kind hkind, List.flatMap_cons, ← List.append_assoc, firstSubStyle?_append,
      firstSubStyle?_append, ← firstSubStyle?_append_of_subset hagain kind]
    rfl
  | case4 r chain url rest id selector htarget ih =>
    obtain ⟨hid, hnew, hselector⟩ := styleTarget_eq_shared htarget
    have hexpand : d.expandUrl state chain url = d.expandSelector state (id :: chain) selector := by
      simp [expandUrl_eq, localId?_eq_some_iff.2 hid, hnew, hselector]
    have hstep := ih (h.enter htarget) hr
    have htask : StyleTask.expand d state (.url chain url) =
        StyleTask.expand d state (.selector (id :: chain) selector) := hexpand
    rw [List.flatMap_cons] at hstep ⊢
    rw [htask]
    exact hstep

/-- The style of a feature holds, of each kind of sub-style, the first one in the styles that its
selectors and references expand to, and nothing else. -/
theorem resolve_eq_contributions (d : Document) (state : StyleState) (f : Feature) :
    (d.resolve state f.element).style.toHead = { kind := .style } ∧
      (d.resolve state f.element).style.unknown = [] ∧
      ((d.resolve state f.element).style.children.map Child.kind).Nodup ∧
      (∀ c ∈ (d.resolve state f.element).style.children, ∃ position subStyle,
        c = .element position subStyle ∧ subStyle.kind ∈ subStyleKinds) ∧
      ∀ kind ∈ subStyleKinds, (d.resolve state f.element).style.find? kind =
        (d.contributions state f).findSome? fun style => style.find? kind := by
  have hview : f.element.view? .feature = some f := by
    rw [Element.view?, dif_pos f.isA]
  have hexplored : Explored d state ({} : Resolution).entered
      (StyleTask.ofElement [] (Feature.styleSelectors f) f.element) [] :=
    explored_ofElement _ _
  have hempty : Merges ({} : Resolution).style [] :=
    ⟨Element.composed_ofKind, fun _ _ => rfl⟩
  have hmerges := hexplored.merges_resolveTasks hempty
  rw [List.nil_append, flatMap_expand_ofElement] at hmerges
  have hresolve : d.resolve state f.element = d.resolveTasks state {}
      (StyleTask.ofElement [] (Feature.styleSelectors f) f.element) := by
    rw [resolve, hview]
  rw [hresolve]
  refine ⟨hmerges.composed.head_eq, hmerges.composed.unknown_eq, hmerges.composed.nodup,
    fun c hc => ?_, hmerges.find?_eq⟩
  obtain ⟨position, slot, subStyle, heq, hkind, -⟩ := hmerges.composed.children c hc
  exact ⟨position, subStyle, heq, hkind⟩

end Document

end KmlTree
