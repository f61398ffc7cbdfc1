import KmlTree.Proofs.Reading.Dropping
import KmlTree.Proofs.Reading.Levels
import KmlTree.Proofs.Reading.Unobserved

/-!
# What observers keep

A reading under observation goes like a reading without observers of the events that are left once
the elements that the observers drop are taken out. Main statement: each node under observation leads
where what is left of it leads without, up to the warnings, the position and whether the elements in
an element are skipped.
-/
namespace KmlTree

open Markup

/-! ## Nodes that are kept -/

namespace Markup

mutual

/-- What is left of a node, by the answers about its tags. An answer is about an event after some
events. -/
def Node.kept (answers : List Event → Event → Option Flow) (before : List Event) :
    Node → List Node
  | .text s offset => [.text s offset]
  | .element start content stop =>
    if answers before start.event = some .reject ∨
        answers (before ++ start.event :: eventsOf content) stop.event = some .reject then []
    else if answers before start.event = some .skipChildren then
      [.element start (content.filter Node.isText) stop]
    else [.element start (keptOf answers (before ++ [start.event]) content) stop]

def keptOf (answers : List Event → Event → Option Flow) (before : List Event) :
    List Node → List Node
  | [] => []
  | n :: rest => n.kept answers before ++ keptOf answers (before ++ n.events) rest

end

end Markup

def Frame.descending (frame : Frame) : Frame := { frame with skipsChildren := false }

namespace Builder

variable {σ : Type} {observers : List (Observer σ)} {b b' c : Builder} {s s' : σ}

def answerAfter? (observers : List (Observer σ)) (b : Builder) (s : σ) (before : List Event)
    (event : Event) : Option Flow :=
  match (b.takeAll observers before).run s with
  | (.ok b', s') => answer? observers b' s' event
  | (.error _, _) => none

theorem answerAfter?_eq {before : List Event} (h : (b.takeAll observers before).run s = (.ok b', s'))
    (event : Event) : answerAfter? observers b s before event = answer? observers b' s' event := by
  rw [answerAfter?, h]

/-! ## Elements that are not skipped -/

/-- A builder with other warnings, and with elements skipped nowhere. -/
def descending (warnings : List Warning) (b : Builder) : Builder :=
  { b with stack := b.stack.map Frame.descending, warnings }

def Half.descending {α : Type} (warnings : List Warning) (question : α → α) : Half α → Half α
  | .done b => .done (b.descending warnings)
  | .ask a => .ask (question a)

def Opening.descending (warnings : List Warning) (opening : Opening) : Opening :=
  { opening with
    builder := opening.builder.descending warnings, frame := opening.frame.descending }

def Closing.descending (warnings : List Warning) (closing : Closing) : Closing :=
  { closing with
    builder := closing.builder.descending warnings
    parent := closing.parent.descending
    child := closing.child.descending }

/-- What is started next is not dropped at once. -/
structure Admits (b : Builder) : Prop where
  notDropped : b.dropped? = none
  descends : ∀ frame ∈ b.stack.head?, frame.skipsChildren = false

section Descending

variable (warnings : List Warning)

theorem localName_descending (own : List (String × Bool)) (stack : List Frame) (name : String) :
    localName own (stack.map Frame.descending) name = localName own stack name := by
  simp only [localName, isKmlPrefix, List.findSome?_map]
  rfl

theorem elementFor_descending (stack : List Frame) (name localName : String) :
    elementFor (stack.map Frame.descending) name localName = elementFor stack name localName := by
  cases stack <;> rfl

-- In brackets, so that `simp` rewrites the `Decidable` instances of conditions as well.
theorem stack_descending : (b.descending warnings).stack = b.stack.map Frame.descending := (rfl)

theorem taken_descending : (b.descending warnings).taken = b.taken := (rfl)

theorem dropped?_descending : (b.descending warnings).dropped? = b.dropped? := (rfl)

theorem root?_descending : (b.descending warnings).root? = b.root? := (rfl)

theorem options_descending : (b.descending warnings).options = b.options := (rfl)

theorem openElement_descending (b : Builder) (name : String) (attributes : List (String × String))
    (span : Text.Span) : (b.descending warnings).openElement name attributes span =
      (b.openElement name attributes span).map
        (Half.descending warnings (Opening.descending warnings)) := by
  unfold openElement
  simp only [root?_descending, stack_descending, taken_descending, options_descending,
    localName_descending, elementFor_descending, List.length_map, List.isEmpty_map]
  split
  · rfl
  split
  · rfl
  split
  · rfl
  split
  · rfl
  split <;> rfl

theorem startTag_descending (h : Admits b) (name : String) (attributes : List (String × String))
    (span : Text.Span) : (b.descending warnings).startTag name attributes span =
      (b.startTag name attributes span).map
        (Half.descending warnings (Opening.descending warnings)) := by
  obtain ⟨options, stack, taken, dropped?, root?, warnings', offset⟩ := b
  obtain rfl : dropped? = none := h.notDropped
  have hopen := openElement_descending warnings
    ⟨options, stack, taken, none, root?, warnings', span.stop⟩ name attributes span
  cases stack with
  | nil => exact hopen
  | cons frame rest =>
    have hskip : frame.skipsChildren = false := h.descends frame (by simp)
    unfold startTag
    simp only [descending, List.map_cons, Frame.descending, hskip, Option.isSome_none,
      Bool.false_eq_true, if_false]
    split
    · rfl
    · exact hopen

/-- A builder that opens an element does so with elements skipped nowhere, be they skipped in this one
or not. -/
theorem settleOpening_descending (opening : Opening) {flow : Flow}
    (hreject : flow ≠ .reject) (h : settleOpening opening flow = .ok b') :
    settleOpening (opening.descending warnings) .descend = .ok (b'.descending warnings) := by
  cases flow with
  | stop => cases h
  | reject => exact absurd rfl hreject
  | skipChildren | descend =>
    cases h
    rfl

theorem text_descending (b : Builder) (text : String) (offset : Nat) :
    (b.descending warnings).text text offset = (b.text text offset).map (descending warnings) := by
  obtain ⟨options, stack, taken, dropped?, root?, warnings', offset'⟩ := b
  cases dropped? with
  | some dropped => rfl
  | none =>
  cases stack with
  | nil =>
    change (if Text.isAllBlank text then _ else _) =
      Except.map _ (if Text.isAllBlank text then _ else _)
    split <;> rfl
  | cons frame rest =>
    change (if frame.element.kind = .unknown ∨ frame.element.kind.hasText then _ else _) =
      Except.map _ (if frame.element.kind = .unknown ∨ frame.element.kind.hasText then _ else _)
    split <;> rfl

theorem endTag_descending (b : Builder) (name : String) (span : Text.Span) :
    (b.descending warnings).endTag name span =
      (b.endTag name span).map (Half.descending warnings (Closing.descending warnings)) := by
  unfold endTag
  simp only [dropped?_descending, stack_descending]
  cases b.dropped? with
  | some dropped => rfl
  | none =>
  cases b.stack with
  | nil => rfl
  | cons frame rest =>
    simp only [List.map_cons, Frame.descending]
    split
    · split <;> rfl
    · unfold closeElement
      simp only [localName_descending]
      split
      · rfl
      · cases rest <;> rfl

theorem settleClosing_descending (closing : Closing) {flow : Flow} (hreject : flow ≠ .reject)
    (h : settleClosing closing flow = .ok b') : ∃ warnings',
      settleClosing (closing.descending warnings) .descend = .ok (b'.descending warnings') := by
  obtain ⟨b, name, parent, child⟩ := closing
  have hattach (h : attachChild ⟨b, name, parent, child⟩ = .ok b') : ∃ warnings',
      attachChild (Closing.descending warnings ⟨b, name, parent, child⟩) =
        .ok (b'.descending warnings') := by
    unfold attachChild at h ⊢
    simp only [Closing.descending, Frame.descending, options_descending] at h ⊢
    split at h
    · cases h
      exact ⟨_, rfl⟩
    · cases h
      exact ⟨_, rfl⟩
    · split at h
      · cases h
      next hlenient =>
      cases h
      exact ⟨_, if_neg hlenient⟩
  cases flow with
  | stop => cases h
  | reject => exact absurd rfl hreject
  | skipChildren => exact hattach h
  | descend => exact hattach h

end Descending

/-- A reading without observers is as far as one under observation, but for the warnings, the position
and whether elements are skipped. -/
def Follows (b c : Builder) : Prop := ∃ warnings offset, c = { b.descending warnings with offset }

theorem Follows.sameTree (h : Follows b c) (hsame : SameTree b b') : Follows b' c := by
  obtain ⟨warnings, offset, rfl⟩ := h
  refine ⟨warnings, offset, ?_⟩
  simp only [descending, hsame.options, hsame.stack, hsame.taken, hsame.dropped?, hsame.root?]

/-! ## One event -/

theorem admits_of_startTag_done (h : Admits b) {name : String} {attributes : List (String × String)}
    {span : Text.Span} (hdone : b.startTag name attributes span = .ok (.done b')) : Admits b' := by
  have hopen (haround : ∀ f ∈ b.stack.head?,
      f.skipsChildren = false ∧ f.element.kind.isSimple = false)
      (hdone : openElement { b with offset := span.stop } name attributes span = .ok (.done b')) :
      Admits b' := by
    obtain ⟨frame, taken, hask, -⟩ := openElement_cases hdone haround
    cases hask
  unfold startTag at hdone
  simp only [h.notDropped, Option.isSome_none, Bool.false_eq_true, if_false] at hdone
  split at hdone
  · next hs =>
    exact hopen (by simp [hs]) (by rw [← hdone, h.notDropped])
  · next frame rest hs =>
    have hskip : frame.skipsChildren = false := h.descends frame (by simp [hs])
    rw [if_neg (by simp [hskip])] at hdone
    split at hdone
    · cases hdone
      refine ⟨rfl, ?_⟩
      rintro _ ⟨⟩
      exact hskip
    · next hsimple =>
      exact hopen (by simpa [hs] using And.intro hskip hsimple) (by rw [← hdone, h.notDropped])

/-- A start tag that is not rejected is taken by the builder that nobody observes as well. -/
theorem Follows.next_startTag (h : Follows b c) (hadmits : Admits b) {start : StartTag}
    (htake : (b.take observers start.event).run s = (.ok b', s'))
    (hreject : answer? observers b s start.event ≠ some .reject) :
    ∃ c', c.next start.event = .ok c' ∧ Follows b' c' ∧
      (answer? observers b s start.event ≠ some .skipChildren → Admits b') := by
  obtain ⟨warnings, offset, rfl⟩ := h
  have hstart := startTag_descending warnings hadmits start.name start.attributes start.span
  have hnext : ({ b.descending warnings with offset }).next start.event =
      (b.descending warnings).next start.event := rfl
  rw [hnext]
  rw [StartTag.event, take_startTag] at htake
  simp only [StartTag.event, answer?, next, hstart] at hreject ⊢
  cases hcase : b.startTag start.name start.attributes start.span with
  | error error =>
    rw [hcase] at htake
    cases htake
  | ok half =>
  rw [hcase] at htake hreject
  obtain ⟨b₁, rfl, -⟩ | ⟨frame, taken, rfl, hd, hskip, hopens⟩ := startTag_cases hcase
  · cases htake
    exact ⟨_, rfl, ⟨warnings, _, rfl⟩, fun _ => admits_of_startTag_done hadmits hcase⟩
  · rcases hconsult : (consult (·.startElement frame.element) observers).run s with ⟨flow, s₁⟩
    simp only [hconsult] at htake hreject ⊢
    obtain ⟨hsettled, -⟩ := Prod.mk.inj htake
    have hsettle := settleOpening_descending warnings _ (fun heq => hreject (congrArg some heq))
      hsettled
    refine ⟨_, hsettle, ⟨warnings, _, rfl⟩, fun hdescends => ?_⟩
    cases flow with
    | stop => cases hsettled
    | reject => exact absurd rfl hreject
    | skipChildren => exact absurd rfl hdescends
    | descend =>
      cases hsettled
      refine ⟨hd, ?_⟩
      rintro _ ⟨⟩
      exact hskip

theorem Follows.next_text (h : Follows b c) {text : String} {offset : Nat}
    (htext : b.text text offset = .ok b') :
    ∃ c', c.next (.text text offset) = .ok c' ∧ Follows b' c' := by
  obtain ⟨warnings, offset', rfl⟩ := h
  refine ⟨b'.descending warnings, ?_, warnings, b'.offset, rfl⟩
  change (b.descending warnings).text text offset = _
  rw [text_descending, htext]
  rfl

theorem Follows.next_endTag (h : Follows b c) {stop : EndTag}
    (htake : (b.take observers stop.event).run s = (.ok b', s'))
    (hreject : answer? observers b s stop.event ≠ some .reject) :
    ∃ c', c.next stop.event = .ok c' ∧ Follows b' c' := by
  obtain ⟨warnings, offset, rfl⟩ := h
  have hnext : ({ b.descending warnings with offset }).next stop.event =
      (b.descending warnings).next stop.event := rfl
  rw [hnext]
  rw [EndTag.event, take_endTag] at htake
  simp only [EndTag.event, answer?, next] at hreject ⊢
  rw [endTag_descending]
  cases hcase : b.endTag stop.name stop.span with
  | error error =>
    rw [hcase] at htake
    cases htake
  | ok half =>
  rw [hcase] at htake hreject
  cases half with
  | done b₁ =>
    cases htake
    exact ⟨_, rfl, warnings, _, rfl⟩
  | ask closing =>
    have hflow := fun heq => hreject (congrArg some heq)
    obtain ⟨warnings', hsettle⟩ :=
      settleClosing_descending warnings closing hflow (congrArg Prod.fst htake)
    exact ⟨_, hsettle, warnings', _, rfl⟩

/-! ## Nodes -/

theorem Admits.after (h : Admits b) (hsound : Sound b) {ns : List Node}
    (hrun : (b.takeAll observers (eventsOf ns)).run s = (.ok b', s')) : Admits b' := by
  cases hs : b.stack with
  | nil =>
    obtain ⟨hafter, hopen⟩ := (takeAll_run hrun).height (dropsOpen_of_not_dropped h.notDropped)
    rw [starts_eventsOf, height_of_nil hs h.notDropped] at hafter
    obtain ⟨hstack, hd⟩ := eq_nil_of_height hopen (by omega)
    exact ⟨hd, by simp [hstack]⟩
  | cons frame rest =>
    have hnested : Nested frame rest [] b :=
      ⟨hsound, h.notDropped, hs, fun _ => List.nil_suffix⟩
    obtain ⟨frame', hnested', htags⟩ := returns_all (fun n _ => returns n) hnested hrun
    refine ⟨hnested'.notDropped, ?_⟩
    rw [hnested'.stack_eq]
    rintro _ ⟨⟩
    exact htags.skipsChildren.trans (h.descends frame (by simp [hs]))

theorem Follows.next_texts (h : Follows b c) {ns : List Node} (htexts : ∀ n ∈ ns, n.isText = true)
    (hrun : (b.takeAll observers (eventsOf ns)).run s = (.ok b', s')) :
    ∃ c', (eventsOf ns).foldlM next c = .ok c' ∧ Follows b' c' := by
  induction ns generalizing b c s with
  | nil =>
    cases hrun
    exact ⟨c, rfl, h⟩
  | cons n others ih =>
    obtain ⟨hn, hothers⟩ := List.forall_mem_cons.1 htexts
    cases n with
    | element start content stop => cases hn
    | text text offset =>
      obtain ⟨b₁, s₁, htake, hrest⟩ := takeAll_cons_ok.1 hrun
      obtain ⟨c₁, hnext, h₁⟩ := h.next_text (congrArg Prod.fst htake)
      obtain ⟨c', hrun', h'⟩ := ih h₁ hothers hrest
      refine ⟨c', ?_, h'⟩
      rw [eventsOf, Node.events, List.singleton_append, List.foldlM_cons, hnext]
      exact hrun'

theorem foldlM_next_element {start : StartTag} {content : List Node} {stop : EndTag}
    {c₁ c₂ c' : Builder} (hstart : c.next start.event = .ok c₁)
    (hcontent : (eventsOf content).foldlM next c₁ = .ok c₂) (hstop : c₂.next stop.event = .ok c') :
    (eventsOf [.element start content stop]).foldlM next c = .ok c' := by
  rw [eventsOf_singleton, Node.events, List.foldlM_cons, hstart]
  change (eventsOf content ++ [stop.event]).foldlM next c₁ = _
  rw [List.foldlM_append, hcontent]
  change [stop.event].foldlM next c₂ = _
  rw [foldlM_next_singleton, hstop]

section Simulates

variable {b₀ : Builder} {s₀ : σ}

/-- What is left of a node, and nobody observes, leads to where the node leads under observation. -/
def Simulates (observers : List (Observer σ)) (b₀ : Builder) (s₀ : σ) (n : Node) : Prop :=
  ∀ {before : List Event} {b b' c : Builder} {s s' : σ},
    (b₀.takeAll observers before).run s₀ = (.ok b, s) → Sound b → Admits b → Follows b c →
      (b.takeAll observers n.events).run s = (.ok b', s') →
        ∃ c', (eventsOf (n.kept (answerAfter? observers b₀ s₀) before)).foldlM next c = .ok c' ∧
          Follows b' c'

theorem simulates_all {ns : List Node} (ih : ∀ n ∈ ns, Simulates observers b₀ s₀ n)
    {before : List Event} (hbefore : (b₀.takeAll observers before).run s₀ = (.ok b, s))
    (hsound : Sound b) (hadmits : Admits b) (h : Follows b c)
    (hrun : (b.takeAll observers (eventsOf ns)).run s = (.ok b', s')) :
    ∃ c', (eventsOf (keptOf (answerAfter? observers b₀ s₀) before ns)).foldlM next c = .ok c' ∧
      Follows b' c' := by
  induction ns generalizing b c s before with
  | nil =>
    cases hrun
    exact ⟨c, rfl, h⟩
  | cons n others ihOthers =>
    obtain ⟨b₁, s₁, hn, hothers⟩ := takeAll_append_ok.1 hrun
    obtain ⟨c₁, hkept, h₁⟩ := ih n List.mem_cons_self hbefore hsound hadmits h hn
    have hnode : (b.takeAll observers (eventsOf [n])).run s = (.ok b₁, s₁) := by
      rw [eventsOf_singleton, hn]
    obtain ⟨c', hkept', h'⟩ := ihOthers (fun m hm => ih m (List.mem_cons_of_mem _ hm))
      ((takeAll_append hbefore).trans hn) ((takeAll_run hn).sound hsound)
      (hadmits.after hsound hnode) h₁ hothers
    refine ⟨c', ?_, h'⟩
    rw [keptOf, eventsOf_append, List.foldlM_append, hkept]
    exact hkept'

theorem simulates_text (text : String) (offset : Nat) :
    Simulates observers b₀ s₀ (.text text offset) := by
  intro before b b' c s s' _ _ _ h hrun
  obtain ⟨c', hnext, h'⟩ := h.next_text (congrArg Prod.fst ((takeAll_singleton _).symm.trans hrun))
  refine ⟨c', ?_, h'⟩
  rw [Node.kept, eventsOf_singleton, Node.events, foldlM_next_singleton, hnext]

theorem simulates_element {start : StartTag} {content : List Node} {stop : EndTag}
    (ih : ∀ n ∈ content, Simulates observers b₀ s₀ n) :
    Simulates observers b₀ s₀ (.element start content stop) := by
  intro before b b' c s s' hbefore hsound hadmits h hrun
  obtain ⟨b₁, s₁, b₂, s₂, hstart, hcontent, hstop⟩ := takeAll_element_ok.1 hrun
  have hbefore₁ : (b₀.takeAll observers (before ++ [start.event])).run s₀ = (.ok b₁, s₁) :=
    (takeAll_append hbefore).trans ((takeAll_singleton _).trans hstart)
  have hbefore₂ : (b₀.takeAll observers (before ++ start.event :: eventsOf content)).run s₀ =
      (.ok b₂, s₂) :=
    (takeAll_append hbefore).trans (takeAll_cons_ok.2 ⟨b₁, s₁, hstart, hcontent⟩)
  rw [Node.kept, answerAfter?_eq hbefore, answerAfter?_eq hbefore₂]
  split
  · next hrejected =>
    refine ⟨c, rfl, h.sameTree ?_⟩
    rcases hrejected with hrejected | hrejected
    · exact sameTree_of_rejected_start hrejected hrun
    · exact sameTree_of_rejected_end hsound hstart hcontent hstop hrejected
  next hkept =>
  obtain ⟨hopened, hended⟩ := not_or.1 hkept
  -- The frame of the element may skip what is in it on one side only, which its end tag does not see.
  obtain ⟨c₁, hnext, h₁, hadmits₁⟩ := h.next_startTag hadmits hstart hopened
  split
  · next hskip =>
    obtain ⟨b₁', b₂', s₁', offset, offset', hstart', hall, htexts⟩ := texts_of_answer hskip content
    cases hstart.symm.trans hstart'
    cases hcontent.symm.trans hall
    obtain ⟨c₂, hcontent', h₂⟩ := h₁.next_texts
      (fun n hn => (List.mem_filter.1 hn).2) htexts
    obtain ⟨c', hnext', h'⟩ := h₂.next_endTag hstop hended
    exact ⟨c', foldlM_next_element hnext hcontent' hnext', h'⟩
  · next hdescends =>
    obtain ⟨c₂, hcontent', h₂⟩ := simulates_all ih hbefore₁ ((take_step hstart).sound hsound)
      (hadmits₁ hdescends) h₁ hcontent
    obtain ⟨c', hnext', h'⟩ := h₂.next_endTag hstop hended
    exact ⟨c', foldlM_next_element hnext hcontent' hnext', h'⟩

theorem simulates (n : Node) : Simulates observers b₀ s₀ n := by
  induction n using Node.inductionOn with
  | text text offset => exact simulates_text text offset
  | element start content stop ih => exact simulates_element ih

end Simulates

end Builder

end KmlTree
