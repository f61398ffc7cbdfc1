import KmlTree.Proofs.Reading.Dropping
import KmlTree.Proofs.Reading.Fields

/-!
# Markup in a field under observation

What is in a field is never dropped, and no observer is asked about it. Main statement: whenever a
field is the innermost element of a reading, and the elements in it are not skipped, nested markup
adds its own text to the field and changes nothing else, and an end tag that does not have the name
of the tag opened last is refused.
-/
namespace KmlTree

open Markup Text

namespace Builder

variable {σ : Type} {observers : List (Observer σ)} {b b' : Builder} {s s' : σ}

/-! ## Nothing is dropped in a field -/

/-- While elements are dropped, the innermost element is no field, or the elements in it are
skipped. -/
def DropsOutside (b : Builder) : Prop :=
  b.dropped?.isSome = true → ∀ f ∈ b.stack.head?,
    f.skipsChildren = true ∨ f.element.kind.isSimple = false

theorem dropsOutside_of_not_dropped (h : b.dropped? = none) : b.DropsOutside := by
  simp [DropsOutside, h]

theorem Step.dropsOutside {event : Event} (h : Step b event b') (hb : b.DropsOutside) :
    b'.DropsOutside := by
  cases h with
  | skipped h =>
    intro _ f hf
    rw [drop_stack] at hf
    rcases h with hdropped | ⟨f', hf', hskip⟩
    · exact hb hdropped f hf
    · cases hf.symm.trans hf'
      exact Or.inl hskip
  | rejected _ hopens =>
    intro _ f hf
    rw [drop_stack] at hf
    exact Or.inr (hopens.around f hf).2
  | textPassed _ => exact hb
  | dropEnded hd => exact fun _ => hb (by rw [hd]; rfl)
  | markupOpened hd _ _ _ => exact dropsOutside_of_not_dropped hd
  | opened hd _ => exact dropsOutside_of_not_dropped hd
  | textKept hd _ _ => exact dropsOutside_of_not_dropped hd
  | markupClosed hd _ _ => exact dropsOutside_of_not_dropped hd
  | rootEnded hd _ _ => exact dropsOutside_of_not_dropped hd
  | vetoed hd _ _ => exact dropsOutside_of_not_dropped hd
  | attached hd _ _ _ => exact dropsOutside_of_not_dropped hd
  | filed hd _ _ _ => exact dropsOutside_of_not_dropped hd
  | misplaced hd _ _ _ _ => exact dropsOutside_of_not_dropped hd

theorem Run.dropsOutside {events : List Event} (h : Run b events b') (hb : b.DropsOutside) :
    b'.DropsOutside :=
  h.preserves Step.dropsOutside hb

theorem DropsOutside.innermost (h : b.DropsOutside) {frame : Frame} {rest : List Frame}
    (hs : b.stack = frame :: rest) (hsimple : frame.element.kind.isSimple = true)
    (hdescends : frame.skipsChildren = false) : Innermost b frame rest := by
  refine ⟨?_, hs, hdescends⟩
  cases hd : b.dropped? with
  | none => rfl
  | some dropped =>
    rcases h (by rw [hd]; rfl) frame (by rw [hs]; rfl) with hskip | hnot
    · rw [hdescends] at hskip
      cases hskip
    · rw [hsimple] at hnot
      cases hnot

/-! ## No observer is asked -/

section Asked

variable {frame : Frame} {rest : List Frame}

theorem Innermost.take_startTag_field (observers : List (Observer σ)) (s : σ)
    (h : Innermost b frame rest) (hsimple : frame.element.kind.isSimple = true) (start : StartTag) :
    (b.take observers start.event).run s = (b.next start.event, s) := by
  have hstart : b.startTag start.name start.attributes start.span = .ok (.done { b with
      offset := start.span.stop
      stack := openMarkup frame start.name start.attributes :: rest }) := by
    simp only [startTag, h.notDropped, h.stack_eq, h.descends, hsimple, Option.isSome_none,
      Bool.false_eq_true, if_false, if_true]
  rw [StartTag.event, take_startTag, hstart, h.next_startTag_field hsimple]

theorem Innermost.take_endTag_field (observers : List (Observer σ)) (s : σ)
    (h : Innermost b frame rest) {opened : String} {size : Nat} {markup : List (String × Nat)}
    (hmarkup : frame.markup = (opened, size) :: markup) (stop : EndTag) :
    (b.take observers stop.event).run s = (b.next stop.event, s) := by
  rw [EndTag.event, take_endTag, h.next_endTag_field hmarkup]
  by_cases hname : opened = stop.name
  · simp only [endTag, h.notDropped, h.stack_eq, hmarkup, if_pos hname]
  · simp only [endTag, h.notDropped, h.stack_eq, hmarkup, if_neg hname]

/-- Nested markup is taken as text by a field around it, whatever the observers are. -/
def TakenAsText (observers : List (Observer σ)) (n : Node) : Prop :=
  ∀ (b : Builder) (frame : Frame) (rest : List Frame), Innermost b frame rest →
    frame.element.kind.isSimple = true → n.Paired → ∀ s : σ, ∃ offset,
      (b.takeAll observers n.events).run s =
        (.ok { b with offset, stack := addText frame n.written :: rest }, s)

theorem takenAsText_all {ns : List Node} (ih : ∀ n ∈ ns, TakenAsText observers n)
    (h : Innermost b frame rest) (hsimple : frame.element.kind.isSimple = true)
    (hpaired : PairedAll ns) (s : σ) : ∃ offset,
      (b.takeAll observers (eventsOf ns)).run s =
        (.ok { b with offset, stack := addText frame (writtenOf ns) :: rest }, s) := by
  induction ns generalizing b frame with
  | nil =>
    refine ⟨b.offset, ?_⟩
    rw [writtenOf, addText_empty, ← h.stack_eq]
    rfl
  | cons n ns ihRest =>
    obtain ⟨offset, hn⟩ := ih n List.mem_cons_self b frame rest h hsimple hpaired.1 s
    have hafter : Innermost { b with offset, stack := addText frame n.written :: rest }
        (addText frame n.written) rest := ⟨h.notDropped, rfl, h.descends⟩
    obtain ⟨offset', hns⟩ := ihRest (fun m hm => ih m (List.mem_cons_of_mem _ hm)) hafter hsimple
      hpaired.2
    refine ⟨offset', ?_⟩
    rw [eventsOf, takeAll_append hn, hns, addText_addText, writtenOf]

theorem takenAsText (n : Node) : TakenAsText observers n := by
  induction n using Node.inductionOn with
  | text t offset =>
    intro b frame rest h hsimple _ s
    have hnext : b.text t offset = _ := h.next_text t offset
    rw [Element.takeText, if_pos (Or.inr (Kind.of_isSimple hsimple).2.2)] at hnext
    exact ⟨_, (takeAll_singleton _).trans (congrArg (·, s) hnext)⟩
  | element start content stop ih =>
    intro b frame rest h hsimple hpaired s
    obtain ⟨hname, hcontent⟩ := hpaired
    have hstart := h.take_startTag_field observers s hsimple start
    rw [StartTag.event, h.next_startTag_field hsimple] at hstart
    have hopened : Innermost { b with
          offset := start.span.stop
          stack := openMarkup frame start.name start.attributes :: rest }
        (openMarkup frame start.name start.attributes) rest := ⟨h.notDropped, rfl, h.descends⟩
    obtain ⟨offset, hinside⟩ := takenAsText_all ih hopened hsimple hcontent s
    have hinner : Innermost { b with
          offset
          stack := addText (openMarkup frame start.name start.attributes) (writtenOf content) ::
            rest }
        (addText (openMarkup frame start.name start.attributes) (writtenOf content)) rest :=
      ⟨h.notDropped, rfl, h.descends⟩
    have hyields := next_endTag_openMarkup hinner stop
    obtain ⟨_, hnext⟩ := hyields.isOk_iff.2 hname
    obtain ⟨offset', rfl⟩ := hyields.result _ hnext
    have hstop := hinner.take_endTag_field observers s rfl stop
    rw [hnext] at hstop
    refine ⟨offset', ?_⟩
    rw [Node.written]
    exact takeAll_element_ok.2 ⟨_, _, _, _, hstart, hinside, hstop⟩

end Asked

/-! ## Every reading -/

/-- In every state of a reading in which a field is the innermost element and the elements in it are
not skipped, nested markup is taken. It adds its own text to the field, leaves open the tags that
are open in it, and changes nothing else but the position; no observer is asked. An end tag is
refused if the tag that was opened last in the field has another name. -/
theorem markup_adds_own_text {options : ReadOptions} {events : List Event} {frame : Frame}
    {rest : List Frame} (h : ((new options).takeAll observers events).run s = (.ok b, s'))
    (hs : b.stack = frame :: rest) (hsimple : frame.element.kind.isSimple = true)
    (hdescends : frame.skipsChildren = false) :
    (∀ ns : List Node, PairedAll ns → ∀ s₁ : σ, ∃ offset,
      (b.takeAll observers (eventsOf ns)).run s₁ =
        (.ok { b with offset, stack := addText frame (writtenOf ns) :: rest }, s₁)) ∧
    ∀ opened size markup, frame.markup = (opened, size) :: markup →
      ∀ (stop : EndTag) (s₁ : σ), stop.name ≠ opened →
        (b.take observers stop.event).run s₁ =
          (.error (.malformedAt (.mismatchedEnd opened stop.name) stop.span.start), s₁) := by
  have hinnermost : Innermost b frame rest :=
    ((takeAll_run h).dropsOutside (dropsOutside_of_not_dropped rfl)).innermost hs hsimple hdescends
  refine ⟨fun ns hpaired s₁ => ?_, fun opened size markup hmarkup stop s₁ hname => ?_⟩
  · exact takenAsText_all (fun n _ => takenAsText n) hinnermost hsimple hpaired s₁
  · rw [hinnermost.take_endTag_field observers s₁ hmarkup, EndTag.event,
      hinnermost.next_endTag_field hmarkup, if_neg (Ne.symm hname)]

def dropsUnknown : Observer Unit where
  startElement e := pure (if e.kind = .unknown then .reject else .descend)

/-- The events up to an emphasis in the description of a placemark. -/
def describing : List Event :=
  [.startTag "Placemark" [] ⟨0, 11⟩, .startTag "description" [] ⟨11, 24⟩, .text "Open " 24,
    .startTag "em" [] ⟨29, 33⟩]

def link : List Node :=
  [.element ⟨"a", [("href", "?a&b"), ("title", "5\"")], ⟨33, 70⟩⟩
      [.text "map" 70, .element ⟨"br", [], ⟨73, 77⟩⟩ [.text "" 77] ⟨"br", ⟨77, 82⟩⟩]
      ⟨"a", ⟨82, 86⟩⟩]

/-- The link is kept as it would be written, though the schema knows none of its tags, and its end
does not end the emphasis. -/
theorem markup_adds_own_text_link : ∃ (b b' : Builder) (frame frame' : Frame) (rest : List Frame),
    ((new {}).takeAll [dropsUnknown] describing).run () = (.ok b, ()) ∧ b.stack = frame :: rest ∧
      frame.markup = [("em", 9)] ∧
      (b.takeAll [dropsUnknown] (eventsOf link)).run () = (.ok b', ()) ∧
      b'.stack = frame' :: rest ∧ frame'.markup = frame.markup ∧
      frame'.element.text =
        "Open <em><a href=\"?a&amp;b\" title=\"5&quot;\">map<br/></a>" ∧
      (b.take [dropsUnknown] (.endTag "a" ⟨33, 37⟩)).run () =
        (.error (.malformedAt (.mismatchedEnd "em" "a") 33), ()) := by
  obtain ⟨b, frame, rest, hrun, hs, hmarkup, htext, hsimple, hdescends⟩ :
      ∃ (b : Builder) (frame : Frame) (rest : List Frame),
        ((new {}).takeAll [dropsUnknown] describing).run () = (.ok b, ()) ∧
          b.stack = frame :: rest ∧ frame.markup = [("em", 9)] ∧
          frame.element.text = "Open <em>" ∧ frame.element.kind.isSimple = true ∧
          frame.skipsChildren = false := ⟨_, _, _, rfl, rfl, rfl, rfl, rfl, rfl⟩
  obtain ⟨hadds, hrefused⟩ := markup_adds_own_text hrun hs hsimple hdescends
  have hpaired : PairedAll link :=
    ⟨⟨rfl, ⟨trivial, ⟨⟨rfl, trivial, trivial⟩, trivial⟩⟩⟩, trivial⟩
  obtain ⟨offset, htaken⟩ := hadds link hpaired ()
  refine ⟨b, _, frame, _, rest, hrun, hs, hmarkup, htaken, rfl, rfl, ?_,
    hrefused _ _ _ hmarkup ⟨"a", ⟨33, 37⟩⟩ () (by decide)⟩
  change frame.element.text ++ writtenOf link = _
  rw [htext]
  decide +kernel

end Builder

end KmlTree
