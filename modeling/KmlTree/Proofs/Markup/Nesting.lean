import Mathlib.Algebra.Ring.Nat
import KmlTree.Markup.Events
import KmlTree.Text.Blank

/-!
# Nested markup

Where each element that is started is ended, the events of a text are those of nodes: texts, and
elements with the nodes between their tags. Main statement: events are those of some nodes, unless
an element is ended that was not started, or more elements are started than are ended.
-/
namespace KmlTree.Markup

structure StartTag where
  name : String
  attributes : List (String × String)
  span : Text.Span
  deriving DecidableEq, Repr

structure EndTag where
  name : String
  span : Text.Span
  deriving DecidableEq, Repr

def StartTag.event (start : StartTag) : Event := .startTag start.name start.attributes start.span

def EndTag.event (stop : EndTag) : Event := .endTag stop.name stop.span

/-- A text, or an element with what is between its tags. Its end tag may have any name. -/
inductive Node
  | text (s : String) (offset : Nat)
  | element (start : StartTag) (content : List Node) (stop : EndTag)

mutual

def Node.events : Node → List Event
  | .text s offset => [.text s offset]
  | .element start content stop => start.event :: (eventsOf content ++ [stop.event])

def eventsOf : List Node → List Event
  | [] => []
  | n :: rest => n.events ++ eventsOf rest

end

/-- What holds of texts, and of an element as soon as it holds of the nodes in it, holds of all
nodes. -/
@[elab_as_elim]
theorem Node.inductionOn {motive : Node → Prop} (n : Node)
    (text : ∀ text offset, motive (.text text offset))
    (element : ∀ start content stop, (∀ n ∈ content, motive n) →
      motive (.element start content stop)) : motive n :=
  match n with
  | .text s offset => text s offset
  | .element start content stop =>
    element start content stop fun n hn =>
      have := List.sizeOf_lt_of_mem hn
      inductionOn n text element
termination_by sizeOf n

theorem eventsOf_append (ms ns : List Node) :
    eventsOf (ms ++ ns) = eventsOf ms ++ eventsOf ns := by
  induction ms with
  | nil => rfl
  | cons n rest ih => rw [List.cons_append, eventsOf, eventsOf, ih, List.append_assoc]

theorem eventsOf_singleton (n : Node) : eventsOf [n] = n.events := by
  rw [eventsOf, eventsOf, List.append_nil]

def Node.isText : Node → Bool
  | .text .. => true
  | .element .. => false

def Node.IsBlank : Node → Prop
  | .text s _ => Text.isAllBlank s = true
  | .element .. => False

theorem Node.IsBlank.isText {n : Node} (h : n.IsBlank) : n.isText = true := by
  cases n with
  | text => rfl
  | element => cases h

theorem exists_texts (ns : List Node) : ∃ texts rest, ns = texts ++ rest ∧
    (∀ n ∈ texts, n.isText = true) ∧
      (rest = [] ∨ ∃ start content stop after, rest = .element start content stop :: after) := by
  induction ns with
  | nil => exact ⟨[], [], rfl, by simp, Or.inl rfl⟩
  | cons n ns ih =>
    cases n with
    | element start content stop =>
      exact ⟨[], _, rfl, by simp, Or.inr ⟨start, content, stop, ns, rfl⟩⟩
    | text s offset =>
      obtain ⟨texts, rest, rfl, htexts, hrest⟩ := ih
      exact ⟨.text s offset :: texts, rest, rfl, List.forall_mem_cons.2 ⟨rfl, htexts⟩, hrest⟩

/-! ## Tags that pair up -/

def Event.starts : Event → Nat
  | .startTag .. => 1
  | .text .. | .endTag .. => 0

def Event.ends : Event → Nat
  | .endTag .. => 1
  | .text .. | .startTag .. => 0

def starts (events : List Event) : Nat := (events.map Event.starts).sum

def ends (events : List Event) : Nat := (events.map Event.ends).sum

@[simp] theorem starts_nil : starts [] = 0 := rfl

@[simp] theorem ends_nil : ends [] = 0 := rfl

@[simp] theorem starts_cons (event : Event) (rest : List Event) :
    starts (event :: rest) = event.starts + starts rest := rfl

@[simp] theorem ends_cons (event : Event) (rest : List Event) :
    ends (event :: rest) = event.ends + ends rest := rfl

@[simp] theorem starts_append (first second : List Event) :
    starts (first ++ second) = starts first + starts second := by
  simp [starts]

@[simp] theorem ends_append (first second : List Event) :
    ends (first ++ second) = ends first + ends second := by
  simp [ends]

theorem starts_eq_ends_of_forall {ns : List Node} (h : ∀ n ∈ ns, starts n.events = ends n.events) :
    starts (eventsOf ns) = ends (eventsOf ns) := by
  induction ns with
  | nil => rfl
  | cons n rest ih =>
    have hfirst := h n List.mem_cons_self
    have hrest := ih fun m hm => h m (List.mem_cons_of_mem _ hm)
    simp only [eventsOf, starts_append, ends_append]
    omega

theorem Node.starts_eq_ends (n : Node) : starts n.events = ends n.events := by
  induction n using inductionOn with
  | text s offset => rfl
  | element start content stop ih =>
    have hcontent := starts_eq_ends_of_forall ih
    have hstart : start.event.starts = 1 ∧ start.event.ends = 0 := ⟨rfl, rfl⟩
    have hstop : stop.event.starts = 0 ∧ stop.event.ends = 1 := ⟨rfl, rfl⟩
    simp only [Node.events, starts_cons, ends_cons, starts_append, ends_append, starts_nil,
      ends_nil]
    omega

theorem starts_eventsOf (ns : List Node) : starts (eventsOf ns) = ends (eventsOf ns) :=
  starts_eq_ends_of_forall fun n _ => n.starts_eq_ends

/-- All events are those of some nodes, up to the end tag of an element that was not started, or the
start tag of an element that is not ended. -/
theorem exists_nodes (events : List Event) : ∃ ns rest, events = eventsOf ns ++ rest ∧
    (rest = [] ∨ (∃ stop others, rest = EndTag.event stop :: others) ∨
      ends rest < starts rest) := by
  -- Between a start tag and its end tag are nodes again, so what follows the end tag is shorter by
  -- more than one event.
  induction hlen : events.length using Nat.strongRecOn generalizing events with
  | ind len ih =>
  cases events with
  | nil => exact ⟨[], [], rfl, Or.inl rfl⟩
  | cons event events =>
    obtain ⟨ns, rest, heq, hrest⟩ := ih events.length (by simp [← hlen]) events rfl
    cases event with
    | text s offset =>
      refine ⟨.text s offset :: ns, rest, ?_, hrest⟩
      rw [eventsOf, heq]
      rfl
    | endTag name span => exact ⟨[], _, rfl, Or.inr (Or.inl ⟨⟨name, span⟩, _, rfl⟩)⟩
    | startTag name attributes span =>
      have hns := starts_eventsOf ns
      rcases hrest with rfl | ⟨stop, others, rfl⟩ | hlt
      · refine ⟨[], .startTag name attributes span :: eventsOf ns, ?_, Or.inr (Or.inr ?_)⟩
        · rw [heq, List.append_nil]
          rfl
        · simp only [starts_cons, ends_cons, Event.starts, Event.ends]
          omega
      · have hshorter : others.length < len := by
          rw [← hlen, heq]
          simp only [List.length_cons, List.length_append]
          omega
        obtain ⟨ms, rest, rfl, hrest⟩ := ih others.length hshorter others rfl
        refine ⟨.element ⟨name, attributes, span⟩ ns stop :: ms, rest, ?_, hrest⟩
        rw [eventsOf, Node.events, heq]
        simp [StartTag.event]
      · refine ⟨[], .startTag name attributes span :: events, rfl, Or.inr (Or.inr ?_)⟩
        rw [heq]
        simp only [starts_cons, ends_cons, starts_append, ends_append, Event.starts, Event.ends]
        omega

end KmlTree.Markup
