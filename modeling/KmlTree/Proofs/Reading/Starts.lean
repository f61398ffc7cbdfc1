import KmlTree.Proofs.Markup.BuildOrder
import KmlTree.Proofs.Reading.Dropping
import Mathlib.Data.List.Forall2

/-!
# Start tags of elements

A builder remembers where an identifier was declared, but not where the elements were read that it
has put together. Their start tags are followed here beside the builder: for each open element the
positions of its own start tag and of those in its known content, by the paths to these elements.
Main statement: each element that is open or in the known content of an open element has such a
start tag among the events, and the identifier of the element is taken for this start tag.
-/
namespace KmlTree

open Markup

/-- The positions of the start tags of an element and of the elements in its known content, by the
paths to these. -/
abbrev Starts := Path → Option Nat

namespace Starts

def tag (start : Nat) : Starts
  | [] => some start
  | _ :: _ => none

/-- The start tags of an element once a child stands at a position, whatever stood there before. -/
def put (own : Starts) (i : Nat) (child : Starts) : Starts
  | [] => own []
  | j :: path => if j = i then child path else own (j :: path)

end Starts

namespace Builder

variable {σ : Type} {observers : List (Observer σ)} {b b' : Builder} {s s' : σ}

/-- The start tags of the open elements, the innermost first, once the innermost is ended as an
observer decides. -/
def startsClosed (closing : Closing) (flow : Flow) : List Starts → List Starts
  | child :: parent :: rest =>
    if flow = .reject then parent :: rest
    else
      match closing.parent.element.attach closing.child.element with
      | .ok ⟨_, some i, _⟩ => parent.put i child :: rest
      | .ok ⟨_, none, _⟩ | .error _ => parent :: rest
  | starts => starts

def startsAfter (observers : List (Observer σ)) (b : Builder) (s : σ) (starts : List Starts)
    (event : Event) : List Starts :=
  match event with
  | .startTag _ _ span =>
    match answer? observers b s event with
    | some .descend | some .skipChildren => .tag span.start :: starts
    | some .reject | some .stop | none => starts
  | .text .. => starts
  | .endTag name span =>
    match b.endTag name span, answer? observers b s event with
    | .ok (.ask closing), some flow => startsClosed closing flow starts
    | .ok (.done b'), _ => if b'.stack.isEmpty then [] else starts
    | _, _ => starts

def startsAfterAll (observers : List (Observer σ)) (b : Builder) (s : σ) (starts : List Starts) :
    List Event → List Starts
  | [] => starts
  | event :: rest =>
    match (b.take observers event).run s with
    | (.ok b', s') => b'.startsAfterAll observers s' (startsAfter observers b s starts event) rest
    | (.error _, _) => starts

/-! ## What a start tag tells about an element -/

/-- Each element that a frame holds has a start tag, and its identifier has a property there. -/
def Marks (P : String → Nat → Prop) (frame : Frame) (own : Starts) : Prop :=
  ∀ path x, frame.element.at? path = some x →
    ∃ start, own path = some start ∧ ∀ id, x.objectId? = some id → P id start

section Marks

variable {P Q : String → Nat → Prop} {frame frame' : Frame} {own own' : Starts}

theorem Marks.congr (h : Marks P frame own) (hkind : frame'.element.kind = frame.element.kind)
    (hattributes : frame'.element.attributes = frame.element.attributes)
    (hchildren : frame'.element.children = frame.element.children) : Marks P frame' own := by
  intro path x hx
  cases path with
  | nil =>
    cases hx
    obtain ⟨start, hstart, hid⟩ := h [] frame.element rfl
    rw [← Element.objectId?_congr hkind hattributes] at hid
    exact ⟨start, hstart, hid⟩
  | cons i path =>
    rw [Element.at?, hchildren] at hx
    exact h (i :: path) x hx

theorem marks_tag {start : Nat} (hchildren : frame.element.children = [])
    (hid : ∀ id, frame.element.objectId? = some id → P id start) : Marks P frame (.tag start) := by
  intro path x hx
  cases path with
  | nil =>
    cases hx
    exact ⟨start, rfl, hid⟩
  | cons i path =>
    rw [Element.at?, hchildren] at hx
    cases hx

/-- A child that is taken in brings its start tags along, in place of those that it displaces. -/
theorem Marks.put {parent : Frame} {element : Element} {i : Nat} {replaced? : Option Child}
    {ids : Declared} (ha : parent.element.Attaches frame.element ⟨element, some i, replaced?⟩)
    (hparent : Marks P parent own') (hframe : Marks P frame own) :
    Marks P { parent with element, ids } (own'.put i own) := by
  obtain ⟨position, hchildren⟩ := ha.getElem?_children
  intro path x hx
  cases path with
  | nil =>
    cases hx
    obtain ⟨start, hstart, hid⟩ := hparent [] parent.element rfl
    rw [← Element.objectId?_congr ha.kind ha.attributes] at hid
    exact ⟨start, hstart, hid⟩
  | cons j path =>
    simp only [Element.at?, hchildren] at hx
    simp only [Starts.put]
    split at hx
    · next hj =>
      rw [if_pos hj]
      have hchild : frame.element.at? path = some x := by
        unfold Element.toChild at hx
        split at hx
        · cases hx
        · exact hx
      exact hframe path x hchild
    · next hj =>
      rw [if_neg hj]
      exact hparent (j :: path) x hx

end Marks

/-! ## Every step keeps the start tags -/

/-- The innermost frame has another text at most. -/
def Reworded (stack stack' : List Frame) : Prop :=
  stack' = stack ∨ ∃ frame frame' rest, stack = frame :: rest ∧ stack' = frame' :: rest ∧
    frame'.element.kind = frame.element.kind ∧
      frame'.element.attributes = frame.element.attributes ∧
        frame'.element.children = frame.element.children

section Steps

variable {P : String → Nat → Prop} {starts : List Starts} {name : String}
  {attributes : List (String × String)} {span : Text.Span}

theorem Reworded.marks {stack stack' : List Frame} (h : Reworded stack stack')
    (hm : List.Forall₂ (Marks P) stack starts) : List.Forall₂ (Marks P) stack' starts := by
  obtain rfl | ⟨frame, frame', rest, rfl, rfl, hkind, hattributes, hchildren⟩ := h
  · exact hm
  · cases hm with
    | cons hframe hrest => exact .cons (hframe.congr hkind hattributes hchildren) hrest

theorem reworded_of_startTag_done (h : b.startTag name attributes span = .ok (.done b')) :
    Reworded b.stack b'.stack := by
  have hopened {b₀ : Builder} : b₀.openElement name attributes span ≠ .ok (.done b') := by
    intro hopen
    unfold openElement at hopen
    simp only at hopen
    repeat' split at hopen
    all_goals cases hopen
  unfold startTag at h
  simp only at h
  split at h
  · cases h
    exact .inl (drop_stack _ _ _)
  split at h
  · exact absurd h hopened
  next frame rest hs =>
  split at h
  · cases h
    exact .inl (drop_stack _ _ _)
  split at h
  · cases h
    exact .inr ⟨frame, _, rest, hs, rfl, rfl, rfl, rfl⟩
  · exact absurd h hopened

theorem reworded_of_text {text : String} {offset : Nat} (h : b.text text offset = .ok b') :
    Reworded b.stack b'.stack := by
  cases text_step h with
  | textPassed _ => exact .inl rfl
  | textKept _ hs _ => exact .inr ⟨_, _, _, hs, rfl, rfl, rfl, rfl⟩

theorem reworded_of_endTag_done (h : b.endTag name span = .ok (.done b')) :
    b'.stack = [] ∨ Reworded b.stack b'.stack := by
  unfold endTag at h
  simp only at h
  split at h
  · cases h
    exact .inr (.inl rfl)
  · cases h
  · next frame rest _ hs =>
    split at h
    · split at h
      · cases h
        exact .inr (.inr ⟨frame, _, rest, hs, rfl, rfl, rfl, rfl⟩)
      · cases h
    · unfold closeElement at h
      simp only at h
      split at h
      · cases h
      split at h
      · cases h
        exact .inl rfl
      · cases h

theorem startTag_done_of_answer (hanswer : answer? observers b s (.startTag name attributes span) = none)
    (h : (b.take observers (.startTag name attributes span)).run s = (.ok b', s')) :
    b.startTag name attributes span = .ok (.done b') := by
  rw [take_startTag] at h
  simp only [answer?] at hanswer
  split at h
  · cases h
  · next hstart =>
    cases h
    exact hstart
  · next hstart =>
    rw [hstart] at hanswer
    cases hanswer

theorem endTag_done_of_answer (hanswer : answer? observers b s (.endTag name span) = none)
    (h : (b.take observers (.endTag name span)).run s = (.ok b', s')) :
    b.endTag name span = .ok (.done b') := by
  rw [take_endTag] at h
  simp only [answer?] at hanswer
  split at h
  · cases h
  · next hend =>
    cases h
    exact hend
  · next hend =>
    rw [hend] at hanswer
    cases hanswer

theorem marks_startTag (hm : List.Forall₂ (Marks P) b.stack starts)
    (h : (b.take observers (.startTag name attributes span)).run s = (.ok b', s'))
    (hid : ∀ id, (b.openedElement name attributes).objectId? = some id →
      (id, span.start) ∈ b'.taken → P id span.start) :
    List.Forall₂ (Marks P) b'.stack
      (startsAfter observers b s starts (.startTag name attributes span)) := by
  cases hanswer : answer? observers b s (.startTag name attributes span) with
  | none =>
    simp only [startsAfter, hanswer]
    exact (reworded_of_startTag_done (startTag_done_of_answer hanswer h)).marks hm
  | some flow =>
    have hevent : answer? observers b s (StartTag.event ⟨name, attributes, span⟩) = some flow :=
      hanswer
    obtain ⟨frame, taken, s₁, -, -, hopens, -, htake⟩ := startTag_of_answer hevent
    have hsettle := (Prod.mk.inj (htake.symm.trans h)).1
    simp only [startsAfter, hanswer]
    have hchildren : frame.element.children = [] := by
      rw [hopens.element_eq, (openedElement_empty _ _ _).2.1]
    -- the identifier of the element is the one that its start tag has taken
    have hframe (htaken : b'.taken = taken) : Marks P frame (.tag span.start) := by
      refine marks_tag hchildren fun id hown => hid id (hopens.element_eq ▸ hown) ?_
      rw [htaken, hopens.taken_eq, hopens.ids_eq, Element.ownId, hown]
      exact List.mem_cons_self
    cases flow with
    | stop => cases hsettle
    | reject =>
      cases hsettle
      rw [drop_stack]
      exact hm
    | skipChildren =>
      cases hsettle
      exact .cons ((hframe rfl).congr rfl rfl rfl) hm
    | descend =>
      cases hsettle
      exact .cons (hframe rfl) hm

/-- What is not taken in as known content leaves the children of its parent as they are. -/
theorem marks_attachChild {frame parent : Frame} {own own' : Starts}
    (hframe : Marks P frame own) (hparent : Marks P parent own')
    (hrest : List.Forall₂ (Marks P) b.stack starts)
    (h : attachChild ⟨b, name, parent, frame⟩ = .ok b') :
    List.Forall₂ (Marks P) b'.stack
      (match parent.element.attach frame.element with
        | .ok ⟨_, some i, _⟩ => own'.put i own :: starts
        | .ok ⟨_, none, _⟩ | .error _ => own' :: starts) := by
  cases ha : parent.element.attach frame.element with
  | error rejected =>
    simp only [attachChild, ha] at h
    split at h
    · cases h
    · cases h
      exact .cons (hparent.congr rfl rfl rfl) hrest
  | ok attached =>
    obtain ⟨element, i?, replaced?⟩ := attached
    have hattaches := Element.attach_cases ha
    cases i? with
    | some i =>
      simp only [attachChild, ha] at h
      cases h
      exact .cons (Marks.put hattaches hparent hframe) hrest
    | none =>
      simp only [attachChild, ha] at h
      cases h
      cases hattaches with
      | unknown _ => exact .cons (hparent.congr rfl rfl rfl) hrest

theorem marks_endTag (hm : List.Forall₂ (Marks P) b.stack starts)
    (h : (b.take observers (.endTag name span)).run s = (.ok b', s')) :
    List.Forall₂ (Marks P) b'.stack
      (startsAfter observers b s starts (.endTag name span)) := by
  cases hanswer : answer? observers b s (.endTag name span) with
  | none =>
    have hend := endTag_done_of_answer hanswer h
    simp only [startsAfter, hend]
    split
    · next hempty =>
      rw [List.isEmpty_iff.1 hempty]
      exact .nil
    · next hne =>
      obtain hnil | hreworded := reworded_of_endTag_done hend
      · simp [hnil] at hne
      · exact hreworded.marks hm
  | some flow =>
    have hevent : answer? observers b s (EndTag.event ⟨name, span⟩) = some flow := hanswer
    obtain ⟨frame, parent, rest, s₁, -, hs, -, hend, htake⟩ := endTag_of_answer hevent
    have hsettle := (Prod.mk.inj (htake.symm.trans h)).1
    simp only [startsAfter, hanswer, hend]
    rw [hs] at hm
    cases hm with
    | @cons _ own _ _ hown hm =>
    cases hm with
    | @cons _ own' _ starts hparent hrest =>
    obtain ⟨hkind, hattributes, hchildren⟩ := complete_congr frame.element
    have hframe : Marks P { frame with element := complete frame.element } own :=
      hown.congr hkind hattributes hchildren
    cases flow with
    | stop => cases hsettle
    | reject =>
      cases hsettle
      exact .cons hparent hrest
    | skipChildren => exact marks_attachChild hframe hparent hrest hsettle
    | descend => exact marks_attachChild hframe hparent hrest hsettle

end Steps

/-! ## Start tags of identifiers -/

/-- One of some events is a start tag at a position, and declares an identifier. -/
def DeclaredAt (events : List Event) (id : String) (start : Nat) : Prop :=
  ∃ name attributes span, Event.startTag name attributes span ∈ events ∧
    (Attribute.id.key, id) ∈ attributes ∧ span.start = start

/-- The identifiers of the elements in the frames are taken, for their start tags among the events. -/
structure Located (events : List Event) (b : Builder) (starts : List Starts) : Prop where
  sound : Sound b
  marks : List.Forall₂ (Marks fun id start => (id, start) ∈ b.taken ∧ DeclaredAt events id start)
    b.stack starts

section Located

variable {events : List Event} {starts : List Starts} {event : Event} {id : String} {start : Nat}

theorem mem_attributes_of_objectId? {name : String} {attributes : List (String × String)}
    (h : (b.openedElement name attributes).objectId? = some id) :
    (Attribute.id.key, id) ∈ attributes := by
  let bare := elementFor b.stack name (localName (declaredPrefixes attributes) b.stack name)
  have hbare : bare.attribute? .id = none := by
    obtain ⟨kind, writtenName?, heq⟩ :=
      elementFor_eq b.stack name (localName (declaredPrefixes attributes) b.stack name)
    simp only [bare, heq]
    rfl
  have hvalue : (b.openedElement name attributes).attribute? .id = some id := by
    unfold Element.objectId? at h
    split at h
    · exact h
    · cases h
  change (bare.setAttributes attributes).attribute? .id = some id at hvalue
  rw [Element.attribute?_setAttributes, hbare, Option.or_none, Option.map_eq_some_iff] at hvalue
  obtain ⟨⟨key, value⟩, hlast, rfl⟩ := hvalue
  obtain ⟨hmem, hkey⟩ := List.mem_filter.1 (List.mem_of_getLast? hlast)
  have hkey := Kind.key_of_attribute? (beq_iff_eq.1 hkey)
  rw [hkey]
  exact hmem

theorem mem_release {taken : List (String × Nat)} {ids : Declared} :
    (id, start) ∈ release taken ids ↔ (id, start) ∈ taken ∧ id ∉ ids.map Prod.fst := by
  have hids : (ids.any fun declared => declared.1 == id) = true ↔ id ∈ ids.map Prod.fst := by
    rw [List.any_eq_true, List.mem_map]
    simp only [beq_iff_eq]
  rw [release, List.mem_filter, ← hids, Bool.not_eq_true, Bool.not_eq_true']

/-- An identifier that is still taken is taken for the start tag that it was taken for. -/
theorem Step.mem_taken (h : Step b event b') (hid : (id, start) ∈ b.taken)
    (htaken : id ∈ b'.taken.map Prod.fst) : (id, start) ∈ b'.taken := by
  have hrelease {ids : Declared} (htaken : id ∈ (release b.taken ids).map Prod.fst) :
      (id, start) ∈ release b.taken ids := by
    obtain ⟨⟨_, start'⟩, hmem, rfl⟩ := List.mem_map.1 htaken
    exact mem_release.2 ⟨hid, (mem_release.1 hmem).2⟩
  cases h with
  | skipped _ =>
    rw [drop_taken]
    exact hid
  | opened _ hopens =>
    change _ ∈ _ at htaken ⊢
    rw [hopens.taken_eq]
    exact List.mem_append_right _ hid
  | rejected _ hopens =>
    rw [drop_taken, hopens.release_eq]
    exact hid
  | rootEnded _ _ _ => exact hid
  | vetoed _ _ _ => exact hrelease htaken
  | attached _ _ _ _ => exact hrelease htaken
  | filed _ _ _ _ => exact hrelease htaken
  | misplaced _ _ _ _ _ => exact hrelease htaken
  | _ => exact hid

theorem Sound.mem_taken (h : Sound b) {frame : Frame} (hframe : frame ∈ b.stack) {path : Path}
    {x : Element} (hx : frame.element.at? path = some x) (hid : x.objectId? = some id) :
    id ∈ b.taken.map Prod.fst := by
  have hdeclared := Element.mem_declared.2 ⟨x, hx, hid⟩
  have hmem := (h.frames frame hframe).ids_perm.mem_iff.2 hdeclared
  refine h.taken_perm.mem_iff.2 (List.mem_append_left _ ?_)
  exact List.mem_flatMap.2 ⟨frame, hframe, List.mem_map_of_mem hmem⟩

theorem located_new (options : ReadOptions) : Located events (.new options) [] :=
  ⟨sound_new options, .nil⟩

theorem Located.take (h : Located events b starts) (hevent : event ∈ events)
    (htake : (b.take observers event).run s = (.ok b', s')) :
    Located events b' (startsAfter observers b s starts event) := by
  have hstep := take_step htake
  have hsound := hstep.sound h.sound
  -- an identifier that is in a frame now was taken before, or it is taken at this event
  have hmarks : List.Forall₂
      (Marks fun id start => ((id, start) ∈ b.taken ∨ (id, start) ∈ b'.taken) ∧
        DeclaredAt events id start) b'.stack (startsAfter observers b s starts event) := by
    have hbefore : List.Forall₂ (Marks fun id start =>
        ((id, start) ∈ b.taken ∨ (id, start) ∈ b'.taken) ∧ DeclaredAt events id start)
          b.stack starts := by
      refine h.marks.imp fun frame own hmarks path x hx => ?_
      obtain ⟨start, hstart, hid⟩ := hmarks path x hx
      exact ⟨start, hstart, fun id hown => ⟨Or.inl (hid id hown).1, (hid id hown).2⟩⟩
    cases event with
    | startTag name attributes span =>
      refine marks_startTag hbefore htake fun id hid htaken => ⟨Or.inr htaken, ?_⟩
      exact ⟨name, attributes, span, hevent, mem_attributes_of_objectId? hid, rfl⟩
    | text text offset =>
      exact (reworded_of_text (congrArg Prod.fst htake)).marks hbefore
    | endTag name span => exact marks_endTag hbefore htake
  refine ⟨hsound, List.forall₂_iff_zip.2 ⟨hmarks.length_eq, fun hmem path x hx => ?_⟩⟩
  obtain ⟨start, hstart, hid⟩ := List.forall₂_zip hmarks hmem path x hx
  refine ⟨start, hstart, fun id hown => ⟨?_, (hid id hown).2⟩⟩
  have htaken := hsound.mem_taken (List.of_mem_zip hmem).1 hx hown
  exact (hid id hown).1.elim (fun hid => hstep.mem_taken hid htaken) fun hid => hid

theorem Located.takeAll {rest : List Event} (h : Located events b starts)
    (hevents : ∀ event ∈ rest, event ∈ events)
    (htake : (b.takeAll observers rest).run s = (.ok b', s')) :
    Located events b' (startsAfterAll observers b s starts rest) := by
  induction rest generalizing b s starts with
  | nil =>
    cases htake
    exact h
  | cons event rest ih =>
    obtain ⟨b₁, s₁, hfirst, hrest⟩ := takeAll_cons_ok.1 htake
    obtain ⟨hevent, hevents⟩ := List.forall_mem_cons.1 hevents
    rw [startsAfterAll, hfirst]
    exact ih (h.take hevent hfirst) hevents hrest

end Located

end Builder

end KmlTree
