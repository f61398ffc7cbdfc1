import KmlTree.Document.Basic
import KmlTree.Text.Blank
import KmlTree.Tree.Size
import KmlTree.Tree.View

/-!
# Styles of features

The style of a feature is put together from the style selectors that it holds and those that it
refers to. What comes earlier wins: inline selectors before references, and of a style map only the
first pair for the state in question. A shared selector contributes once, and a reference back to a
selector that is being expanded contributes nothing.

The selectors and references still to be followed wait in a list, each with the chain of shared
selectors that led to it. Each step either shortens the list or enters a selector of the index that
was not entered before, so there is an end to it.
-/
namespace KmlTree

/-- A reference that contributed nothing to a style. -/
inductive StyleDiagnostic
  | unresolved (url : String)
  | notASelector (url : String) (kind : Kind)
  | external (url : String)
  /-- The reference leads back to a selector that is being expanded. -/
  | cycle (url : String)
  deriving DecidableEq, Repr

def StyleDiagnostic.message : StyleDiagnostic → String
  | .unresolved url => s!"`{url}` doesn't reference an object in the document"
  | .notASelector url kind =>
    s!"`{url}` references a `<{kind.tag}>`, which isn't a style selector"
  | .external url => s!"`{url}` references another document"
  | .cycle url => s!"`{url}` leads back to a style already being resolved"

/-- What came of putting a style together. -/
structure Resolution where
  style : Element := Element.ofKind .style
  /-- The references that contributed nothing, in the order in which they were met. -/
  diagnostics : List StyleDiagnostic := []
  /-- The identifiers of the shared selectors that were entered, in this order. -/
  entered : List String := []
  deriving DecidableEq

/-- A selector or reference that is still to be followed, with the identifiers of the shared
selectors on the way to it. -/
inductive StyleTask
  | selector (chain : List String) (selector : StyleSelector)
  | url (chain : List String) (url : String)

namespace StyleTask

/-- What an element asks for, the style selectors in it before its reference to another. -/
def ofElement (chain : List String) (selectors : List StyleSelector) (e : Element) :
    List StyleTask :=
  selectors.map (.selector chain) ++ (e.styleUrl?.map (.url chain)).toList

/-- A bound on the number of steps that a task takes as long as no shared selector is entered. -/
def weight : StyleTask → Nat
  | .selector _ s => s.element.size
  | .url .. => 1

end StyleTask

namespace Element

/-- A style with one sub-style more, if it has none of the kind yet. -/
def mergeSubStyle (source result : Element) (kind : Kind) : Element :=
  match result.find? kind, source.find? kind with
  | none, some subStyle =>
    match result.addChild subStyle with
    | .ok result => result
    | .error _ => result
  | _, _ => result

def mergeStyle (result source : Element) : Element :=
  subStyleKinds.foldl (mergeSubStyle source) result

end Element

namespace Resolution

def diagnose (r : Resolution) (diagnostic : StyleDiagnostic) : Resolution :=
  { r with diagnostics := r.diagnostics ++ [diagnostic] }

end Resolution

/-- The identifier that a reference within the document gives. -/
def localId? (url : String) : Option String :=
  match Text.trimChars url.toList with
  | '#' :: id => some (String.ofList id)
  | _ => none

/-- Where a reference leads, given the chain of shared selectors on the way to it. -/
inductive StyleTarget
  /-- To nothing, which is worth a word or not. -/
  | nowhere (diagnostic? : Option StyleDiagnostic)
  | shared (id : String) (selector : StyleSelector)

namespace Document

/-- Where a reference leads. -/
def styleTarget (d : Document) (entered chain : List String) (url : String) : StyleTarget :=
  match localId? url with
  | none => .nowhere (some (.external url))
  | some id =>
    if id ∈ chain then .nowhere (some (.cycle url))
    else if id ∈ entered then .nowhere none
    else
      match d.lookup? id with
      | none => .nowhere (some (.unresolved url))
      | some target =>
        match target.view? .styleSelector with
        | none => .nowhere (some (.notASelector url target.kind))
        | some view => .shared id (.ofView view)

/-- The number of objects that were not entered. -/
def remaining (d : Document) (entered : List String) : Nat :=
  (d.index.entries.filter fun entry => !entered.contains entry.1).length

def totalWeight (tasks : List StyleTask) : Nat :=
  tasks.foldr (fun task n => task.weight + n) 0

end Document

namespace StyleSelector

/-- What a selector asks for before anything else. A style asks for nothing. -/
def tasks (state : StyleState) (chain : List String) : StyleSelector → List StyleTask
  | .style _ => []
  | .styleMap e =>
    match e.pairFor? state with
    | none => []
    | some pair => StyleTask.ofElement chain pair.styleSelector?.toList pair.element

def contribute (r : Resolution) : StyleSelector → Resolution
  | .style e => { r with style := r.style.mergeStyle e }
  | .styleMap _ => r

end StyleSelector

@[simp] theorem Document.totalWeight_nil : Document.totalWeight [] = 0 := rfl

@[simp] theorem Document.totalWeight_cons (task : StyleTask) (tasks : List StyleTask) :
    Document.totalWeight (task :: tasks) = task.weight + Document.totalWeight tasks := rfl

@[simp] theorem Document.totalWeight_append (tasks tasks' : List StyleTask) :
    Document.totalWeight (tasks ++ tasks') =
      Document.totalWeight tasks + Document.totalWeight tasks' := by
  induction tasks with
  | nil => simp
  | cons task tasks ih => simp [ih, Nat.add_assoc]

theorem Element.mem_elements_of_mem_viewsOf {e : Element} {group : Kind} {view : View group}
    (h : view ∈ e.viewsOf group) : view.element ∈ e.elements := by
  obtain ⟨child, hchild, hview⟩ := List.mem_filterMap.1 h
  unfold Element.view? at hview
  split at hview
  · cases hview
    exact hchild
  · cases hview

theorem StyleSelector.totalWeight_tasks_lt (state : StyleState) (chain : List String)
    (selector : StyleSelector) :
    Document.totalWeight (selector.tasks state chain) < selector.element.size := by
  cases selector with
  | style e => exact e.size_pos
  | styleMap e =>
    have hpos := e.size_pos
    simp only [StyleSelector.tasks, StyleSelector.element]
    split
    · simpa using hpos
    next pair hpair =>
    have hmem : pair ∈ e.viewsOf .pair := List.mem_of_find?_eq_some hpair
    have hlt := Element.size_lt_of_mem_elements (Element.mem_elements_of_mem_viewsOf hmem)
    have hurl :
        Document.totalWeight (pair.element.styleUrl?.map (StyleTask.url chain)).toList ≤ 1 := by
      cases pair.element.styleUrl? <;> simp [StyleTask.weight]
    have hsel : Document.totalWeight (pair.styleSelector?.toList.map (StyleTask.selector chain)) <
        pair.element.size := by
      cases hs : pair.styleSelector? with
      | none => simpa using pair.element.size_pos
      | some s =>
        obtain ⟨view, hview, rfl⟩ := List.mem_map.1 (List.mem_of_mem_head? hs)
        simpa [StyleTask.weight] using
          Element.size_lt_of_mem_elements (Element.mem_elements_of_mem_viewsOf hview)
    simp only [StyleTask.ofElement, Document.totalWeight_append]
    omega

theorem Document.remaining_lt {d : Document} {entered chain : List String} {url id : String}
    {selector : StyleSelector} (h : d.styleTarget entered chain url = .shared id selector) :
    d.remaining (entered ++ [id]) < d.remaining entered := by
  unfold Document.styleTarget at h
  split at h
  · cases h
  split at h
  · cases h
  split at h
  · cases h
  next hentered =>
  split at h
  · cases h
  next target hlookup =>
  split at h
  · cases h
  · cases h
    unfold Document.lookup? at hlookup
    obtain ⟨root, -, hroot⟩ := Option.bind_eq_some_iff.1 hlookup
    obtain ⟨path, hpath, -⟩ := Option.bind_eq_some_iff.1 hroot
    have hmem : (id, path) ∈ d.index.entries := by
      obtain ⟨before, after, hsplit, -⟩ := List.lookup_eq_some_iff.1 hpath
      simp [hsplit]
    have hfilter : (d.index.entries.filter fun entry => !(entered ++ [id]).contains entry.1) =
        (d.index.entries.filter fun entry => !entered.contains entry.1).filter
          fun entry => !decide (entry.1 = id) := by
      rw [List.filter_filter]
      congr 1
      funext entry
      simp [Bool.and_comm]
    rw [Document.remaining, Document.remaining, hfilter,
      List.length_filter_lt_length_iff_exists]
    exact ⟨(id, path), by simp [hmem, hentered], by simp⟩

@[simp] theorem StyleSelector.entered_contribute (r : Resolution) (selector : StyleSelector) :
    (selector.contribute r).entered = r.entered := by
  cases selector <;> rfl

@[simp] theorem Resolution.entered_diagnose (r : Resolution)
    (diagnostic? : Option StyleDiagnostic) :
    (diagnostic?.elim r r.diagnose).entered = r.entered := by
  cases diagnostic? <;> rfl

namespace Document

def resolveTasks (d : Document) (state : StyleState) (r : Resolution) :
    List StyleTask → Resolution
  | [] => r
  | .selector chain selector :: rest =>
    d.resolveTasks state (selector.contribute r) (selector.tasks state chain ++ rest)
  | .url chain url :: rest =>
    match _h : d.styleTarget r.entered chain url with
    | .nowhere diagnostic? =>
      d.resolveTasks state (diagnostic?.elim r r.diagnose) rest
    | .shared id selector =>
      d.resolveTasks state { r with entered := r.entered ++ [id] }
        (.selector (id :: chain) selector :: rest)
termination_by tasks => (d.remaining r.entered, totalWeight tasks)
decreasing_by
  · rw [StyleSelector.entered_contribute]
    refine Prod.Lex.right _ ?_
    have := selector.totalWeight_tasks_lt state chain
    simp only [totalWeight_append, totalWeight_cons, StyleTask.weight]
    omega
  · rw [Resolution.entered_diagnose]
    exact Prod.Lex.right _ (by simp [StyleTask.weight])
  · exact Prod.Lex.left _ _ (remaining_lt _h)

/-- The style of a feature in a state, put together from the style selectors of the document. -/
def resolve (d : Document) (state : StyleState) (feature : Element) : Resolution :=
  match feature.view? .feature with
  | none => {}
  | some view =>
    d.resolveTasks state {} (StyleTask.ofElement [] (Feature.styleSelectors view) view.element)

end Document

end KmlTree
