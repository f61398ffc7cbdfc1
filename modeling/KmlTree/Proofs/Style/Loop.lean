import KmlTree.Proofs.Style.DepthFirst

/-!
# The loop of the resolver

The resolver with a stack of jobs and one set of the shared selectors that are being expanded, which
it leaves again when their jobs are done. An entered selector is noted under the identifier that it
declares itself, not the one that was asked for. Main statement: the loop ends, whatever the style
maps refer to, and has then done what the resolver does.
-/
namespace KmlTree

/-! ## Jobs -/

/-- What the loop is to do next. -/
inductive StyleJob
  | selector (selector : StyleSelector)
  | url (url : String)
  /-- To leave a shared selector that was entered. -/
  | leave (id : String)

namespace StyleJob

def ofElement (selectors : List StyleSelector) (e : Element) : List StyleJob :=
  selectors.map .selector ++ (e.styleUrl?.map .url).toList

/-- A bound on the number of steps that a job takes as long as no shared selector is entered. -/
def weight : StyleJob → Nat
  | .selector s => s.element.size
  | .url _ | .leave _ => 1

def totalWeight (jobs : List StyleJob) : Nat := jobs.foldr (fun job n => job.weight + n) 0

/-- The tasks that jobs stand for, given the shared selectors that are being expanded. -/
def tasks (chain : List String) : List StyleJob → List StyleTask
  | [] => []
  | .selector s :: rest => .selector chain s :: tasks chain rest
  | .url own :: rest => .url chain own :: tasks chain rest
  | .leave id :: rest => tasks (chain.filter (· ≠ id)) rest

end StyleJob

def StyleSelector.jobs (state : StyleState) : StyleSelector → List StyleJob
  | .style _ => []
  | .styleMap e =>
    match e.pairFor? state with
    | none => []
    | some pair => StyleJob.ofElement pair.styleSelector?.toList pair.element

section Jobs

variable {state : StyleState} {chain : List String} {selectors : List StyleSelector} {e : Element}

@[simp] theorem StyleJob.totalWeight_cons (job : StyleJob) (jobs : List StyleJob) :
    totalWeight (job :: jobs) = job.weight + totalWeight jobs := rfl

@[simp] theorem StyleJob.totalWeight_append (jobs jobs' : List StyleJob) :
    totalWeight (jobs ++ jobs') = totalWeight jobs + totalWeight jobs' := by
  induction jobs with
  | nil => simp [totalWeight]
  | cons job jobs ih => simp [ih, Nat.add_assoc]

theorem StyleJob.tasks_ofElement_append (rest : List StyleJob) :
    tasks chain (ofElement selectors e ++ rest) =
      StyleTask.ofElement chain selectors e ++ tasks chain rest := by
  rw [ofElement, StyleTask.ofElement]
  induction selectors with
  | nil => cases e.styleUrl? <;> rfl
  | cons s selectors ih => exact congrArg (StyleTask.selector chain s :: ·) ih

theorem StyleJob.totalWeight_ofElement (chain : List String) :
    totalWeight (ofElement selectors e) =
      Document.totalWeight (StyleTask.ofElement chain selectors e) := by
  rw [ofElement, StyleTask.ofElement]
  induction selectors with
  | nil => cases e.styleUrl? <;> rfl
  | cons s selectors ih => exact congrArg (s.element.size + ·) ih

theorem StyleSelector.tasks_jobs_append (selector : StyleSelector) (rest : List StyleJob) :
    StyleJob.tasks chain (selector.jobs state ++ rest) =
      selector.tasks state chain ++ StyleJob.tasks chain rest := by
  cases selector with
  | style e => rfl
  | styleMap e =>
    simp only [jobs, tasks]
    cases e.pairFor? state with
    | none => rfl
    | some pair => exact StyleJob.tasks_ofElement_append rest

theorem StyleSelector.totalWeight_jobs_lt (selector : StyleSelector) :
    StyleJob.totalWeight (selector.jobs state) < selector.element.size := by
  have hlt := selector.totalWeight_tasks_lt state []
  cases selector with
  | style e => exact hlt
  | styleMap e =>
    simp only [jobs, tasks] at hlt ⊢
    cases hpair : e.pairFor? state with
    | none => exact e.size_pos
    | some pair =>
      rw [hpair] at hlt
      exact StyleJob.totalWeight_ofElement [] ▸ hlt

theorem StyleJob.totalWeight_selectors_le (children : List Child) : totalWeight
    ((((children.filterMap Child.element?).filterMap (·.view? .styleSelector)).map
      StyleSelector.ofView).map .selector) ≤ sizeOfChildren children := by
  induction children with
  | nil => exact Nat.le_refl 0
  | cons c rest ih =>
    cases c with
    | field slot f => exact Nat.le_trans ih (Nat.le_add_left _ _)
    | element slot e =>
      rw [List.filterMap_cons_some (f := Child.element?) rfl, List.filterMap_cons, sizeOfChildren]
      cases hview : e.view? .styleSelector with
      | none => exact Nat.le_trans ih (Nat.le_add_left _ _)
      | some view =>
        simp only [List.map_cons, totalWeight_cons, weight, StyleSelector.element_ofView,
          Element.element_of_view? hview]
        exact Nat.add_le_add_left ih _

theorem StyleJob.totalWeight_feature_le (f : Feature) :
    totalWeight (ofElement (Feature.styleSelectors f) f.element) ≤ f.element.size := by
  obtain ⟨⟨head, children, unknown⟩, isA⟩ := f
  have hselectors := totalWeight_selectors_le children
  have hurl (url? : Option String) : totalWeight (url?.map StyleJob.url).toList ≤ 1 := by
    cases url? <;> simp [totalWeight, weight]
  have hrest := hurl (Element.styleUrl? ⟨head, children, unknown⟩)
  rw [ofElement, totalWeight_append, Element.size]
  simp only [Feature.styleSelectors, Element.styleSelectors, Element.viewsOf, Element.elements]
  omega

end Jobs

/-! ## Steps of the loop -/

structure StyleLoop where
  resolution : Resolution := {}
  chain : List String := []
  /-- What is still to be done, the next job first. -/
  jobs : List StyleJob := []

namespace StyleLoop

variable {d : Document} {state : StyleState} {l l' : StyleLoop}

/-- The loop at the start. There is nothing to do for an element that is no feature. -/
def start (feature : Element) : StyleLoop :=
  match feature.view? .feature with
  | none => {}
  | some view => { jobs := StyleJob.ofElement (Feature.styleSelectors view) view.element }

def step (d : Document) (state : StyleState) : StyleLoop → Option StyleLoop
  | ⟨_, _, []⟩ => none
  | ⟨r, chain, .leave id :: rest⟩ => some ⟨r, chain.filter (· ≠ id), rest⟩
  | ⟨r, chain, .selector selector :: rest⟩ =>
    some ⟨selector.contribute r, chain, selector.jobs state ++ rest⟩
  | ⟨r, chain, .url url :: rest⟩ =>
    some <| match d.styleTarget r.entered chain url with
      | .nowhere diagnostic? => ⟨diagnostic?.elim r r.diagnose, chain, rest⟩
      | .shared _ selector =>
        match selector.element.objectId? with
        | none => ⟨r, chain, rest⟩
        | some own => ⟨{ r with entered := r.entered ++ [own] }, own :: chain,
            .selector selector :: .leave own :: rest⟩

/-- The loop after a number of steps, if it does not end before. -/
def after (d : Document) (state : StyleState) : Nat → StyleLoop → Option StyleLoop
  | 0, l => some l
  | n + 1, l => (l.step d state).bind (after d state n)

theorem step_eq_none_iff : l.step d state = none ↔ l.jobs = [] := by
  obtain ⟨r, chain, jobs⟩ := l
  cases jobs with
  | nil => exact iff_of_true rfl rfl
  | cons job rest => cases job <;> simp [step]

/-- The steps of the loop. An entered selector is noted under the identifier that leads to it. -/
inductive Moves (d : Document) (state : StyleState) : StyleLoop → StyleLoop → Prop
  | leave {r : Resolution} {chain : List String} {id : String} {rest : List StyleJob} :
      Moves d state ⟨r, chain, .leave id :: rest⟩ ⟨r, chain.filter (· ≠ id), rest⟩
  | selector {r : Resolution} {chain : List String} {selector : StyleSelector}
      {rest : List StyleJob} :
      Moves d state ⟨r, chain, .selector selector :: rest⟩
        ⟨selector.contribute r, chain, selector.jobs state ++ rest⟩
  | nowhere {r : Resolution} {chain : List String} {url : String} {rest : List StyleJob}
      {diagnostic? : Option StyleDiagnostic}
      (h : d.styleTarget r.entered chain url = .nowhere diagnostic?) :
      Moves d state ⟨r, chain, .url url :: rest⟩ ⟨diagnostic?.elim r r.diagnose, chain, rest⟩
  | enter {r : Resolution} {chain : List String} {url id : String} {rest : List StyleJob}
      {selector : StyleSelector}
      (h : d.styleTarget r.entered chain url = .shared id selector) :
      Moves d state ⟨r, chain, .url url :: rest⟩
        ⟨{ r with entered := r.entered ++ [id] }, id :: chain,
          .selector selector :: .leave id :: rest⟩

end StyleLoop

theorem Element.size_le_of_within {root e : Element} (h : Within root e) : e.size ≤ root.size := by
  induction h with
  | root => exact Nat.le_refl _
  | child _ hmem ih => exact Nat.le_trans (Nat.le_of_lt (size_lt_of_mem_elements hmem)) ih

namespace Document

variable {d : Document} {state : StyleState}

def treeSize (d : Document) : Nat := (d.root?.map Element.size).getD 0

theorem Indexed.sharedSelector? (h : Indexed d) {id : String} {selector : StyleSelector}
    (hselector : d.sharedSelector? id = some selector) :
    selector.element.objectId? = some id ∧ selector.element.size ≤ d.treeSize := by
  obtain ⟨e, hlookup, hview⟩ := Option.bind_eq_some_iff.1 hselector
  obtain ⟨root, hroot, -⟩ := Option.bind_eq_some_iff.1 hlookup
  obtain ⟨hwithin, hid⟩ := (h.lookup?_eq_some_iff hroot).1 hlookup
  have helement : selector.element = e := by
    obtain ⟨view, hview', rfl⟩ := Option.map_eq_some_iff.1 hview
    rw [StyleSelector.element_ofView, Element.element_of_view? hview']
  rw [helement, treeSize, hroot]
  exact ⟨hid, Element.size_le_of_within hwithin⟩

theorem not_mem_of_styleTarget_eq_shared {entered chain : List String} {url id : String}
    {selector : StyleSelector} (h : d.styleTarget entered chain url = .shared id selector) :
    id ∉ entered := by
  intro hmem
  have hlt := remaining_lt h
  have hsame : d.remaining (entered ++ [id]) = d.remaining entered := by
    rw [remaining, remaining]
    congr 2
    funext entry
    by_cases hid : entry.1 = id <;> simp [hid, hmem]
  omega

end Document

namespace StyleLoop

open Document (Indexed)

variable {d : Document} {state : StyleState} {l l' : StyleLoop}

def tasks (l : StyleLoop) : List StyleTask := StyleJob.tasks l.chain l.jobs

/-- A bound on the number of steps that the loop still takes. -/
def potential (d : Document) (l : StyleLoop) : Nat :=
  StyleJob.totalWeight l.jobs + d.remaining l.resolution.entered * (d.treeSize + 1)

/-- What was entered are different identifiers of the index. -/
structure Listed (d : Document) (l : StyleLoop) : Prop where
  nodup : l.resolution.entered.Nodup
  subset : l.resolution.entered ⊆ d.index.entries.map Prod.fst

/-- The index leads to objects that declare the identifier in question, so a step does what `Moves`
says. -/
theorem moves_of_step (hd : Indexed d) (h : l.step d state = some l') : Moves d state l l' := by
  obtain ⟨r, chain, jobs⟩ := l
  cases jobs with
  | nil => cases h
  | cons job rest =>
    cases job with
    | selector selector =>
      cases h
      exact .selector
    | leave id =>
      cases h
      exact .leave
    | url url =>
      rw [step, Option.some.injEq] at h
      split at h
      · next htarget =>
        cases h
        exact .nowhere htarget
      · next htarget =>
        obtain ⟨-, -, hselector⟩ := Document.styleTarget_eq_shared htarget
        obtain ⟨hid, -⟩ := hd.sharedSelector? hselector
        rw [hid] at h
        cases h
        exact .enter htarget

theorem Moves.resolveTasks_eq (h : Moves d state l l') :
    d.resolveTasks state l'.resolution l'.tasks = d.resolveTasks state l.resolution l.tasks := by
  cases h with
  | leave => rfl
  | selector =>
    simp only [tasks, StyleJob.tasks, StyleSelector.tasks_jobs_append]
    exact (Document.resolveTasks_selector d _ _ _ _).symm
  | nowhere h => exact (Document.resolveTasks_nowhere _ h).symm
  | @enter r chain url id rest selector h =>
    -- once the selector is left, the chain is what it was
    obtain ⟨-, hnew, -⟩ := Document.styleTarget_eq_shared h
    have hchain : (id :: chain).filter (· ≠ id) = chain := by
      rw [List.filter_cons_of_neg (by simp), List.filter_eq_self]
      intro own hown
      exact decide_eq_true fun heq => hnew (heq ▸ hown)
    simp only [tasks, StyleJob.tasks, hchain]
    exact (Document.resolveTasks_shared _ h).symm

/-- A step brings the loop nearer to its end: a selector weighs more than what it asks for, and one
that is entered was not entered before. -/
theorem Moves.potential_lt (hd : Indexed d) (h : Moves d state l l') :
    l'.potential d < l.potential d := by
  cases h with
  | leave =>
    simp only [potential, StyleJob.totalWeight_cons, StyleJob.weight]
    omega
  | @selector _ _ selector _ =>
    have hlt : StyleJob.totalWeight (selector.jobs state) < _ := selector.totalWeight_jobs_lt
    simp only [potential, StyleJob.totalWeight_cons, StyleJob.totalWeight_append, StyleJob.weight,
      StyleSelector.entered_contribute]
    omega
  | nowhere =>
    simp only [potential, StyleJob.totalWeight_cons, StyleJob.weight, Resolution.entered_diagnose]
    omega
  | @enter r _ _ id _ selector h =>
    obtain ⟨-, -, hselector⟩ := Document.styleTarget_eq_shared h
    obtain ⟨-, hsize⟩ := hd.sharedSelector? hselector
    have hremaining : d.remaining (r.entered ++ [id]) + 1 ≤ d.remaining r.entered :=
      Document.remaining_lt h
    have hmul := Nat.mul_le_mul_right (d.treeSize + 1) hremaining
    rw [Nat.succ_mul] at hmul
    simp only [potential, StyleJob.totalWeight_cons, StyleJob.weight]
    omega

theorem Moves.listed (h : Moves d state l l') (hl : Listed d l) : Listed d l' := by
  cases h with
  | leave => exact ⟨hl.nodup, hl.subset⟩
  | @selector r _ selector _ =>
    have heq := selector.entered_contribute r
    exact ⟨heq ▸ hl.nodup, heq ▸ hl.subset⟩
  | @nowhere r _ _ _ diagnostic? _ =>
    have heq := r.entered_diagnose diagnostic?
    exact ⟨heq ▸ hl.nodup, heq ▸ hl.subset⟩
  | @enter r _ _ id _ selector h =>
    obtain ⟨-, -, hselector⟩ := Document.styleTarget_eq_shared h
    obtain ⟨path, hmem⟩ := Document.mem_keys_of_sharedSelector? hselector
    have hnew := Document.not_mem_of_styleTarget_eq_shared h
    refine ⟨?_, List.append_subset.2 ⟨hl.subset, ?_⟩⟩
    · refine List.nodup_append.2 ⟨hl.nodup, by simp, ?_⟩
      rintro own hown _ hid rfl
      exact hnew (List.mem_singleton.1 hid ▸ hown)
    · rintro _ hid
      rw [List.mem_singleton.1 hid]
      exact List.mem_map_of_mem hmem

/-! ## The whole loop -/

theorem after_spec (hd : Indexed d) {n : Nat} (h : after d state n l = some l') :
    n + l'.potential d ≤ l.potential d ∧
      d.resolveTasks state l'.resolution l'.tasks = d.resolveTasks state l.resolution l.tasks ∧
      (Listed d l → Listed d l') := by
  induction n generalizing l with
  | zero =>
    cases h
    exact ⟨by omega, rfl, id⟩
  | succ n ih =>
    obtain ⟨next, hstep, hafter⟩ := Option.bind_eq_some_iff.1 h
    have hmoves := moves_of_step hd hstep
    obtain ⟨hpotential, hresolve, hlisted⟩ := ih hafter
    have hlt := hmoves.potential_lt hd
    exact ⟨by omega, hresolve.trans hmoves.resolveTasks_eq, fun hl => hlisted (hmoves.listed hl)⟩

/-- The loop ends, as its potential cannot fall forever. -/
theorem exists_last (hd : Indexed d) (l : StyleLoop) :
    ∃ n last, after d state n l = some last ∧ last.jobs = [] := by
  cases hstep : l.step d state with
  | none => exact ⟨0, l, rfl, step_eq_none_iff.1 hstep⟩
  | some next =>
    have hlt := (moves_of_step hd hstep).potential_lt hd
    obtain ⟨n, last, hafter, hjobs⟩ := exists_last hd next
    exact ⟨n + 1, last, by rw [after, hstep, Option.bind_some, hafter], hjobs⟩
termination_by l.potential d

theorem resolveTasks_start (feature : Element) :
    d.resolveTasks state (start feature).resolution (start feature).tasks =
      d.resolve state feature := by
  unfold start Document.resolve
  cases feature.view? .feature with
  | none => exact Document.resolveTasks_nil d {}
  | some view =>
    have htasks : StyleJob.tasks []
        (StyleJob.ofElement (Feature.styleSelectors view) view.element ++ []) = _ :=
      StyleJob.tasks_ofElement_append []
    rw [List.append_nil, StyleJob.tasks, List.append_nil] at htasks
    simp only [tasks, htasks]

theorem potential_start_le (feature : Element) :
    (start feature).potential d ≤ feature.size + d.index.size * (d.treeSize + 1) := by
  have hremaining : d.remaining [] = d.index.size := by
    simp [Document.remaining, ObjectIndex.size]
  unfold start potential
  cases hview : feature.view? .feature with
  | none => simp [StyleJob.totalWeight, hremaining]
  | some view =>
    have hle := StyleJob.totalWeight_feature_le view
    rw [Element.element_of_view? hview] at hle
    simp only [Element.element_of_view? hview, hremaining]
    omega

theorem listed_start (feature : Element) : Listed d (start feature) := by
  unfold start
  cases feature.view? .feature with
  | none => exact ⟨.nil, List.nil_subset _⟩
  | some view => exact ⟨.nil, List.nil_subset _⟩

end StyleLoop

namespace Document

/-- Putting a style together comes to an end for every element and both states, whatever the style
maps refer to, and then the style is the one that the resolver gives. On the way each object of the
index is entered once at most. -/
theorem Reachable.loop_ends {d : Document} (h : Reachable d) (state : StyleState)
    (feature : Element) :
    (∃ steps last, StyleLoop.after d state steps (.start feature) = some last ∧
        last.jobs = [] ∧ last.resolution = d.resolve state feature) ∧
      ∀ steps l, StyleLoop.after d state steps (.start feature) = some l →
        steps ≤ feature.size + d.index.size * (d.treeSize + 1) ∧
          l.resolution.entered.Nodup ∧ l.resolution.entered.length ≤ d.index.size := by
  constructor
  · obtain ⟨steps, last, hafter, hjobs⟩ := StyleLoop.exists_last h.indexed (.start feature)
    refine ⟨steps, last, hafter, hjobs, ?_⟩
    obtain ⟨-, hresolve, -⟩ := StyleLoop.after_spec h.indexed hafter
    have htasks : last.tasks = [] := by rw [StyleLoop.tasks, hjobs, StyleJob.tasks]
    rwa [htasks, resolveTasks_nil, StyleLoop.resolveTasks_start] at hresolve
  · intro steps l hafter
    obtain ⟨hpotential, -, hlisted⟩ := StyleLoop.after_spec h.indexed hafter
    have hstart := StyleLoop.potential_start_le (d := d) feature
    have hl := hlisted (StyleLoop.listed_start feature)
    refine ⟨by omega, hl.nodup, ?_⟩
    have hlength := hl.nodup.length_le_of_subset hl.subset
    rwa [List.length_map] at hlength

/-- The two maps that lead to each other are entered once each. -/
theorem loop_ends_circuit : ∃ d, ofRoot circuit = .ok d ∧
    ∃ steps last, StyleLoop.after d .normal steps (.start shuttle) = some last ∧ last.jobs = [] ∧
      steps ≤ 34 ∧ last.resolution.entered.length ≤ 2 := by
  obtain ⟨d, hd, -⟩ := document_circuit
  have hreachable : Reachable d := .ofRoot .empty (fun _ => circuit) hd
  obtain ⟨⟨steps, last, hafter, hjobs, -⟩, hall⟩ :=
    Reachable.loop_ends hreachable .normal shuttle
  obtain ⟨hsteps, -, hentered⟩ := hall steps last hafter
  have hsize : d.index.size = 2 := by
    obtain ⟨-, rfl⟩ := ofRoot_eq_ok_iff.1 hd
    decide +kernel
  have htree : d.treeSize = 15 := by
    obtain ⟨-, rfl⟩ := ofRoot_eq_ok_iff.1 hd
    rfl
  have hshuttle : shuttle.size = 2 := rfl
  rw [hsize, htree, hshuttle] at hsteps
  exact ⟨d, hd, steps, last, hafter, hjobs, hsteps, hsize ▸ hentered⟩

end Document

end KmlTree
