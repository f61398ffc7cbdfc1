import KmlTree.Proofs.Markup.Nesting
import KmlTree.Proofs.Reading.Identifiers

/-!
# Dropped elements

An element that an observer drops, at its start tag or when it is complete, is as if it had not been
there: the open elements, the identifiers that are taken and the root are those from before its start
tag. If only the elements in it are to be skipped, it is as if these had not been there.

Up to the end tag of an element, the frames around it wait unchanged and the identifiers that were
taken before its start tag are still at the end of the list, so giving back its own restores the list.
-/
namespace KmlTree

open Markup

namespace Builder

variable {σ : Type} {observers : List (Observer σ)} {b b' : Builder} {s s' : σ}

/-! ## Events one after the other -/

theorem takeAll_append {first second : List Event} {b₁ : Builder} {s₁ : σ}
    (h : (b.takeAll observers first).run s = (.ok b₁, s₁)) :
    (b.takeAll observers (first ++ second)).run s = (b₁.takeAll observers second).run s₁ := by
  induction first generalizing b s with
  | nil =>
    cases h
    rfl
  | cons event rest ih =>
    rw [takeAll, Reading.run_bind] at h
    rw [List.cons_append, takeAll, Reading.run_bind]
    rcases htake : (b.take observers event).run s with ⟨error | b₂, s₂⟩
    · rw [htake] at h
      cases h
    · rw [htake] at h
      exact ih h

theorem takeAll_append_ok {first second : List Event} :
    (b.takeAll observers (first ++ second)).run s = (.ok b', s') ↔
      ∃ b₁ s₁, (b.takeAll observers first).run s = (.ok b₁, s₁) ∧
        (b₁.takeAll observers second).run s₁ = (.ok b', s') := by
  refine ⟨fun h => ?_, fun ⟨b₁, s₁, hfirst, hsecond⟩ => (takeAll_append hfirst).trans hsecond⟩
  induction first generalizing b s with
  | nil => exact ⟨b, s, rfl, h⟩
  | cons event rest ih =>
    rw [List.cons_append, takeAll, Reading.run_bind] at h
    rw [takeAll, Reading.run_bind]
    rcases htake : (b.take observers event).run s with ⟨error | b₁, s₁⟩
    · rw [htake] at h
      cases h
    · rw [htake] at h
      exact ih h

theorem takeAll_singleton (event : Event) :
    (b.takeAll observers [event]).run s = (b.take observers event).run s := by
  rw [takeAll, Reading.run_bind]
  rcases (b.take observers event).run s with ⟨error | b₁, s₁⟩ <;> rfl

theorem takeAll_cons_ok {event : Event} {rest : List Event} :
    (b.takeAll observers (event :: rest)).run s = (.ok b', s') ↔
      ∃ b₁ s₁, (b.take observers event).run s = (.ok b₁, s₁) ∧
        (b₁.takeAll observers rest).run s₁ = (.ok b', s') := by
  rw [← List.singleton_append, takeAll_append_ok]
  simp only [takeAll_singleton]

theorem takeAll_element_ok {start : StartTag} {content : List Node} {stop : EndTag} :
    (b.takeAll observers (Node.element start content stop).events).run s = (.ok b', s') ↔
      ∃ b₁ s₁ b₂ s₂, (b.take observers start.event).run s = (.ok b₁, s₁) ∧
        (b₁.takeAll observers (eventsOf content)).run s₁ = (.ok b₂, s₂) ∧
        (b₂.take observers stop.event).run s₂ = (.ok b', s') := by
  rw [Node.events, takeAll_cons_ok]
  simp only [takeAll_append_ok, takeAll_singleton]
  constructor
  · rintro ⟨b₁, s₁, hstart, b₂, s₂, hcontent, hstop⟩
    exact ⟨b₁, s₁, b₂, s₂, hstart, hcontent, hstop⟩
  · rintro ⟨b₁, s₁, b₂, s₂, hstart, hcontent, hstop⟩
    exact ⟨b₁, s₁, hstart, b₂, s₂, hcontent, hstop⟩

/-! ## Answers -/

/-- What the observers answer about an event, if they are asked about it. -/
def answer? (observers : List (Observer σ)) (b : Builder) (s : σ) : Event → Option Flow
  | .startTag name attributes span =>
    match b.startTag name attributes span with
    | .ok (.ask opening) =>
      some ((consult (·.startElement opening.frame.element) observers).run s).1
    | .ok (.done _) | .error _ => none
  | .text .. => none
  | .endTag name span =>
    match b.endTag name span with
    | .ok (.ask closing) =>
      some ((consult (·.endElement closing.parent.element closing.child.element) observers).run s).1
    | .ok (.done _) | .error _ => none

/-! ## While elements are dropped -/

theorem take_startTag_dropped (observers : List (Observer σ)) (s : σ) {dropped : Dropped}
    (h : b.dropped? = some dropped) (start : StartTag) :
    (b.take observers start.event).run s = (.ok { b with
      offset := start.span.stop
      dropped? := some { dropped with depth := dropped.depth + 1 } }, s) := by
  rw [StartTag.event, take_startTag]
  simp [startTag, drop, h]

theorem take_text_dropped (h : b.dropped?.isSome = true) (text : String) (offset : Nat) :
    (b.take observers (.text text offset)).run s =
      (.ok { b with offset := offset + text.utf8ByteSize }, s) := by
  change (b.text text offset, s) = _
  simp [Builder.text, h]

theorem take_endTag_dropped (observers : List (Observer σ)) (s : σ) {dropped : Dropped}
    (h : b.dropped? = some dropped) (stop : EndTag) :
    (b.take observers stop.event).run s = (.ok { b with
      offset := stop.span.stop
      dropped? :=
        if dropped.depth ≤ 1 then none
        else some { dropped with depth := dropped.depth - 1 } }, s) := by
  rw [EndTag.event, take_endTag]
  simp [endTag, h]

/-- While elements are dropped, a node changes nothing but the position, and nobody is asked. -/
def Passes (observers : List (Observer σ)) (n : Node) : Prop :=
  ∀ (b : Builder) (dropped : Dropped) (s : σ), b.dropped? = some dropped → 1 ≤ dropped.depth →
    ∃ offset, (b.takeAll observers n.events).run s = (.ok { b with offset }, s)

theorem takeAll_dropped_of {ns : List Node} (ih : ∀ n ∈ ns, Passes observers n)
    {dropped : Dropped} (h : b.dropped? = some dropped) (hdepth : 1 ≤ dropped.depth) : ∃ offset,
      (b.takeAll observers (eventsOf ns)).run s = (.ok { b with offset }, s) := by
  induction ns generalizing b with
  | nil => exact ⟨b.offset, rfl⟩
  | cons n rest ihRest =>
    obtain ⟨offset, hn⟩ := ih n List.mem_cons_self b dropped s h hdepth
    obtain ⟨offset', hrest⟩ := ihRest (fun m hm => ih m (List.mem_cons_of_mem _ hm))
      (b := { b with offset }) h
    exact ⟨offset', takeAll_append_ok.2 ⟨_, _, hn, hrest⟩⟩

/-- The depth tells the end tag of the element that is dropped from those of the elements in it. -/
theorem passes (n : Node) : Passes observers n := by
  induction n using Node.inductionOn with
  | text text offset =>
    intro b dropped s h hdepth
    exact ⟨_, (takeAll_singleton _).trans (take_text_dropped (by simp [h]) text offset)⟩
  | element start content stop ih =>
    intro b dropped s h hdepth
    have hstart := take_startTag_dropped observers s h start
    obtain ⟨offset, hcontent⟩ := takeAll_dropped_of ih (s := s)
      (b := { b with
        offset := start.span.stop, dropped? := some { dropped with depth := dropped.depth + 1 } })
      rfl (Nat.le_add_left _ _)
    have hstop := take_endTag_dropped observers s
      (b := { b with offset, dropped? := some { dropped with depth := dropped.depth + 1 } }) rfl stop
    have hback : (if dropped.depth + 1 ≤ 1 then none else
        some { dropped with depth := dropped.depth + 1 - 1 }) = b.dropped? := by
      rw [if_neg (by omega), h]
      rfl
    rw [hback] at hstop
    exact ⟨_, takeAll_element_ok.2 ⟨_, _, _, _, hstart, hcontent, hstop⟩⟩

/-- What is nested in a dropped element changes nothing but the position. -/
theorem takeAll_dropped (observers : List (Observer σ)) (s : σ) {dropped : Dropped}
    (h : b.dropped? = some dropped) (hdepth : 1 ≤ dropped.depth) (ns : List Node) : ∃ offset,
      (b.takeAll observers (eventsOf ns)).run s = (.ok { b with offset }, s) :=
  takeAll_dropped_of (fun n _ => passes n) h hdepth

theorem dropped?_drop (b : Builder) (name : String) (span : Text.Span) :
    ∃ dropped, (b.drop name span).dropped? = some dropped ∧ 1 ≤ dropped.depth := by
  unfold drop
  split
  · exact ⟨_, rfl, Nat.le_add_left _ _⟩
  · exact ⟨_, rfl, Nat.le_refl _⟩

theorem takeAll_drop (observers : List (Observer σ)) (s : σ) (h : b.dropped? = none) (name : String)
    (span : Text.Span) (content : List Node) (stop : EndTag) :
    ((b.drop name span).takeAll observers (eventsOf content ++ [stop.event])).run s =
      (.ok { b with offset := stop.span.stop }, s) := by
  have hdrop : b.drop name span = { b with dropped? := some ⟨1, name, span⟩ } := by
    simp [drop, h]
  rw [hdrop]
  obtain ⟨offset, hcontent⟩ := takeAll_dropped observers s
    (b := { b with dropped? := some ⟨1, name, span⟩ }) rfl (Nat.le_refl _) content
  have hstop := take_endTag_dropped observers s
    (b := { b with offset, dropped? := some ⟨1, name, span⟩ }) rfl stop
  rw [if_pos (Nat.le_refl _)] at hstop
  refine takeAll_append_ok.2 ⟨_, _, hcontent, (takeAll_singleton _).trans (hstop.trans ?_)⟩
  rw [← h]

/-! ## In an element whose elements are skipped -/

theorem takeAll_skipped (observers : List (Observer σ)) (s : σ) {frame : Frame} {rest : List Frame}
    (hd : b.dropped? = none) (hs : b.stack = frame :: rest) (hskip : frame.skipsChildren = true)
    (start : StartTag) (content : List Node) (stop : EndTag) :
    (b.takeAll observers (Node.element start content stop).events).run s =
      (.ok { b with offset := stop.span.stop }, s) := by
  have hstart : (b.take observers start.event).run s =
      (.ok ({ b with offset := start.span.stop }.drop start.name start.span), s) := by
    rw [StartTag.event, take_startTag]
    simp [startTag, hd, hs, hskip]
  have hrest := takeAll_drop observers s
    (b := { b with offset := start.span.stop }) hd start.name start.span content stop
  exact takeAll_cons_ok.2 ⟨_, _, hstart, hrest⟩

theorem text_kept {frame : Frame} {rest : List Frame} (hd : b.dropped? = none)
    (hs : b.stack = frame :: rest) (text : String) (offset : Nat) : ∃ element,
      b.text text offset = .ok { b with
        offset := offset + text.utf8ByteSize, stack := { frame with element } :: rest } := by
  simp only [Builder.text, hd, hs, Option.isSome_none, Bool.false_eq_true, if_false]
  split
  · exact ⟨_, rfl⟩
  · exact ⟨frame.element, rfl⟩

/-- Where the elements in an element are skipped, its texts alone lead to the same builder but for the
position, wherever both start, and nobody is asked. -/
theorem takeAll_texts (observers : List (Observer σ)) (s : σ) {frame : Frame} {rest : List Frame}
    (hd : b.dropped? = none) (hs : b.stack = frame :: rest) (hskip : frame.skipsChildren = true)
    (content : List Node) (first second : Nat) : ∃ (b' : Builder) (offset offset' : Nat),
      ({ b with offset := first }.takeAll observers (eventsOf content)).run s =
        (.ok { b' with offset }, s) ∧
      ({ b with offset := second }.takeAll observers (eventsOf (content.filter Node.isText))).run s =
        (.ok { b' with offset := offset' }, s) := by
  induction content generalizing b frame first second with
  | nil => exact ⟨b, first, second, rfl, rfl⟩
  | cons n others ih =>
    cases n with
    | text text offset =>
      obtain ⟨element, htext⟩ := text_kept hd hs text offset
      have htake (before : Nat) :
          ({ b with offset := before }.takeAll observers (Node.text text offset).events).run s = _ :=
        (takeAll_singleton _).trans (congrArg (·, s) htext)
      rw [List.filter_cons_of_pos rfl, eventsOf, eventsOf, takeAll_append (htake first),
        takeAll_append (htake second)]
      exact ih (b := { b with stack := { frame with element } :: rest }) hd rfl hskip _ _
    | element start content stop =>
      have hskipped := takeAll_skipped observers s (b := { b with offset := first }) hd hs hskip start
        content stop
      rw [List.filter_cons_of_neg (by simp [Node.isText]), eventsOf, takeAll_append hskipped]
      exact ih hd hs hskip _ _

/-! ## Identifiers from before an element -/

def listedBy (frames : List Frame) : List String :=
  frames.flatMap fun frame => frame.ids.map Prod.fst

theorem mem_listedBy {frames : List Frame} {frame : Frame} (hframe : frame ∈ frames)
    {entry : String × Path} (h : entry ∈ frame.ids) : entry.1 ∈ listedBy frames :=
  List.mem_flatMap.2 ⟨frame, hframe, List.mem_map_of_mem h⟩

theorem mem_listedBy_singleton {frame : Frame} {id : String} :
    id ∈ listedBy [frame] ↔ id ∈ frame.ids.map Prod.fst := by
  rw [listedBy, List.flatMap_singleton]

theorem Sound.taken_perm_stack (h : Sound b) (hroot : b.root? = none) :
    (b.taken.map Prod.fst).Perm (listedBy b.stack) := by
  have hperm := h.taken_perm
  rw [listed, hroot] at hperm
  exact hperm.trans (List.Perm.of_eq (List.append_nil _))

section Suffix

variable {inner rest : List Frame} {taken : List (String × Nat)}

/-- What is taken besides the identifiers of the outer frames are those of the inner ones. -/
theorem Sound.exists_own (h : Sound b) (hs : b.stack = inner ++ rest) (hne : b.stack ≠ [])
    (hsuffix : taken <:+ b.taken) (hids : (taken.map Prod.fst).Perm (listedBy rest)) :
    ∃ own, b.taken = own ++ taken ∧ (own.map Prod.fst).Perm (listedBy inner) := by
  obtain ⟨own, hown⟩ := hsuffix
  refine ⟨own, hown.symm, ?_⟩
  have hperm := h.taken_perm_stack (h.unfinished hne)
  rw [← hown, hs, List.map_append, listedBy, List.flatMap_append] at hperm
  exact (List.perm_append_right_iff _).1 (hperm.trans (hids.symm.append_left _))

theorem Sound.suffix_release (h : Sound b) (hs : b.stack = inner ++ rest) (hne : b.stack ≠ [])
    (hsuffix : taken <:+ b.taken) (hids : (taken.map Prod.fst).Perm (listedBy rest))
    {gone : Declared} (hgone : ∀ entry ∈ gone, entry.1 ∈ listedBy inner) :
    ∃ own, b.taken = own ++ taken ∧ (own.map Prod.fst).Perm (listedBy inner) ∧
      release b.taken gone = release own gone ++ taken := by
  obtain ⟨own, hown, hperm⟩ := h.exists_own hs hne hsuffix hids
  have hdisjoint : ∀ id ∈ own.map Prod.fst, ∀ id' ∈ taken.map Prod.fst, id ≠ id' := by
    have hnodup := h.nodup
    rw [hown, List.map_append] at hnodup
    exact (List.nodup_append.1 hnodup).2.2
  have hkept : release taken gone = taken := by
    refine List.filter_eq_self.2 fun entry hentry => ?_
    simp only [Bool.not_eq_true', List.any_eq_false, beq_iff_eq]
    intro declared hdeclared heq
    exact hdisjoint _ (hperm.mem_iff.2 (hgone declared hdeclared)) _
      (List.mem_map_of_mem hentry) heq
  refine ⟨own, hown, hperm, ?_⟩
  rw [hown, release, List.filter_append]
  exact congrArg _ hkept

end Suffix

/-! ## Within an element -/

/-- Nothing is being dropped, a frame is the innermost one, and if some identifiers are those that the
frames around it list then they are taken still. -/
structure Nested (frame : Frame) (rest : List Frame) (taken : List (String × Nat)) (b : Builder) :
    Prop where
  sound : Sound b
  notDropped : b.dropped? = none
  stack_eq : b.stack = frame :: rest
  suffix : (taken.map Prod.fst).Perm (listedBy rest) → taken <:+ b.taken

/-- Two frames are those of one element, between tags of its own. -/
structure SameTags (frame frame' : Frame) : Prop where
  markup : frame'.markup = frame.markup
  skipsChildren : frame'.skipsChildren = frame.skipsChildren

/-- A node leaves the frames around the innermost one as they are. -/
def Returns (observers : List (Observer σ)) (n : Node) : Prop :=
  ∀ {frame : Frame} {rest : List Frame} {taken : List (String × Nat)} {b b' : Builder} {s s' : σ},
    Nested frame rest taken b → (b.takeAll observers n.events).run s = (.ok b', s') →
      ∃ frame', Nested frame' rest taken b' ∧ SameTags frame frame'

section Nested

variable {frame : Frame} {rest : List Frame} {taken : List (String × Nat)}

theorem returns_all {ns : List Node} (ih : ∀ n ∈ ns, Returns observers n)
    (h : Nested frame rest taken b)
    (hrun : (b.takeAll observers (eventsOf ns)).run s = (.ok b', s')) :
    ∃ frame', Nested frame' rest taken b' ∧ SameTags frame frame' := by
  induction ns generalizing b frame s with
  | nil =>
    cases hrun
    exact ⟨frame, h, rfl, rfl⟩
  | cons n others ihOthers =>
    obtain ⟨b₁, s₁, hn, hothers⟩ := takeAll_append_ok.1 hrun
    obtain ⟨frame₁, h₁, htags₁⟩ := ih n List.mem_cons_self h hn
    obtain ⟨frame', h', htags'⟩ :=
      ihOthers (fun m hm => ih m (List.mem_cons_of_mem _ hm)) h₁ hothers
    exact ⟨frame', h', htags'.markup.trans htags₁.markup,
      htags'.skipsChildren.trans htags₁.skipsChildren⟩

theorem Nested.replaceHead (h : Nested frame rest taken b) {frame' : Frame} {offset : Nat}
    (hsound : Sound { b with offset, stack := frame' :: rest }) :
    Nested frame' rest taken { b with offset, stack := frame' :: rest } :=
  ⟨hsound, h.notDropped, rfl, h.suffix⟩

theorem returns_text (text : String) (offset : Nat) :
    Returns observers (.text text offset) := by
  intro frame rest taken b b' s s' h hrun
  obtain ⟨element, htext⟩ := text_kept h.notDropped h.stack_eq text offset
  have hrun : (b.text text offset, s) = (.ok b', s') := (takeAll_singleton _).symm.trans hrun
  rw [htext] at hrun
  cases hrun
  exact ⟨{ frame with element }, h.replaceHead ((text_step htext).sound h.sound), rfl, rfl⟩

theorem Nested.ended {child : Frame} (h : Nested child (frame :: rest) taken b)
    (hids : (taken.map Prod.fst).Perm (listedBy (frame :: rest))) {taken' : List (String × Nat)}
    (hsuffix : (taken'.map Prod.fst).Perm (listedBy rest) → taken' <:+ taken)
    (hmarkup : child.markup = [])
    {name : String} {span : Text.Span} (hstep : Step b (.endTag name span) b') :
    ∃ frame', Nested frame' rest taken' b' ∧ SameTags frame frame' := by
  have hsound := hstep.sound h.sound
  have hstack : b.stack = [child, frame] ++ rest := h.stack_eq
  have hne : b.stack ≠ [] := by simp [h.stack_eq]
  have hreleased (gone : Declared) (hgone : ∀ entry ∈ gone, entry.1 ∈ listedBy [child, frame])
      (hids' : (taken'.map Prod.fst).Perm (listedBy rest)) : taken' <:+ release b.taken gone := by
    obtain ⟨own, -, -, hrelease⟩ :=
      h.sound.suffix_release hstack hne ((hsuffix hids').trans (h.suffix hids)) hids' hgone
    exact ⟨_, hrelease.symm⟩
  have hchild : ∀ entry ∈ child.ids, entry.1 ∈ listedBy [child, frame] := fun _ =>
    mem_listedBy (by simp)
  have hframe : ∀ entry ∈ frame.ids, entry.1 ∈ listedBy [child, frame] := fun _ =>
    mem_listedBy (by simp)
  cases hstep with
  | dropEnded hd =>
    rw [h.notDropped] at hd
    cases hd
  | markupClosed _ hs hm =>
    cases h.stack_eq.symm.trans hs
    rw [hmarkup] at hm
    cases hm
  | rootEnded _ hs _ => cases h.stack_eq.symm.trans hs
  | vetoed _ hs _ =>
    cases h.stack_eq.symm.trans hs
    exact ⟨frame, ⟨hsound, h.notDropped, rfl, hreleased _ hchild⟩, rfl, rfl⟩
  | filed _ hs _ _ =>
    cases h.stack_eq.symm.trans hs
    exact ⟨_, ⟨hsound, h.notDropped, rfl, hreleased _ hchild⟩, rfl, rfl⟩
  | misplaced _ hs _ _ _ =>
    cases h.stack_eq.symm.trans hs
    exact ⟨_, ⟨hsound, h.notDropped, rfl, hreleased _ hchild⟩, rfl, rfl⟩
  | @attached _ _ _ _ _ element i replaced? _ hs _ _ =>
    cases h.stack_eq.symm.trans hs
    refine ⟨_, ⟨hsound, h.notDropped, rfl, hreleased _ fun entry hentry => ?_⟩, rfl, rfl⟩
    have hkept := (keptIds_perm i replaced? frame.ids).mem_iff (a := entry)
    exact hframe entry (hkept.1 (List.mem_append_right _ hentry))

theorem returns_element {start : StartTag} {content : List Node} {stop : EndTag}
    (ih : ∀ n ∈ content, Returns observers n) :
    Returns observers (.element start content stop) := by
  intro frame rest taken b b' s s' h hrun
  obtain ⟨b₁, s₁, b₂, s₂, hstart, hcontent, hstop⟩ := takeAll_element_ok.1 hrun
  have hrest : (b₁.takeAll observers (eventsOf content ++ [stop.event])).run s₁ = (.ok b', s') :=
    takeAll_append_ok.2 ⟨b₂, s₂, hcontent, (takeAll_singleton _).trans hstop⟩
  have hstep : Step b (.startTag start.name start.attributes start.span) b₁ := take_step hstart
  have hstep' : Step b₂ (.endTag stop.name stop.span) b' := take_step hstop
  have hsound₁ := hstep.sound h.sound
  cases hstep with
  | skipped _ =>
    have hdrop := takeAll_drop observers s₁
      (b := { b with offset := start.span.stop }) h.notDropped start.name start.span content stop
    cases hdrop.symm.trans hrest
    exact ⟨frame, ⟨h.sound.congr rfl rfl rfl, h.notDropped, h.stack_eq, h.suffix⟩, rfl, rfl⟩
  | @rejected _ _ _ child takenThen _ hopens =>
    have hdrop := takeAll_drop observers s₁
      (b := { b with offset := start.span.stop, taken := release takenThen child.ids })
      h.notDropped start.name start.span content stop
    rw [hopens.release_eq] at hdrop hrest
    cases hdrop.symm.trans hrest
    exact ⟨frame, ⟨h.sound.congr rfl rfl rfl, h.notDropped, h.stack_eq, h.suffix⟩, rfl, rfl⟩
  | markupOpened _ hs _ _ =>
    cases h.stack_eq.symm.trans hs
    obtain ⟨field, hfield, htags⟩ := returns_all ih (h.replaceHead hsound₁) hcontent
    have hsound := hstep'.sound hfield.sound
    cases hstep' with
    | dropEnded hd =>
      rw [hfield.notDropped] at hd
      cases hd
    | markupClosed _ hs hm =>
      cases hfield.stack_eq.symm.trans hs
      have hmarkup := hm.symm.trans htags.markup
      simp only [openMarkup, List.cons.injEq] at hmarkup
      exact ⟨_, hfield.replaceHead hsound, hmarkup.2, htags.skipsChildren⟩
    | rootEnded _ hs hends | vetoed _ hs hends | filed _ hs hends | misplaced _ hs hends
    | attached _ hs hends =>
      cases hfield.stack_eq.symm.trans hs
      have hmarkup := hends.markup_eq.symm.trans htags.markup
      cases hmarkup
  | @opened _ _ _ child _ hd hopens =>
    have htaken : (b.taken.map Prod.fst).Perm (listedBy (frame :: rest)) :=
      h.stack_eq ▸ h.sound.taken_perm_stack hopens.noRoot
    have hchild : Nested child (frame :: rest) b.taken
        { b with offset := start.span.stop, taken := _, stack := child :: b.stack } :=
      ⟨hsound₁, hd, by rw [h.stack_eq], fun _ => ⟨_, hopens.taken_eq.symm⟩⟩
    obtain ⟨child', hchild', htags⟩ := returns_all ih hchild hcontent
    exact hchild'.ended htaken h.suffix (htags.markup.trans hopens.markup_eq) hstep'

end Nested

theorem returns (n : Node) : Returns observers n := by
  induction n using Node.inductionOn with
  | text text offset => exact returns_text text offset
  | element start content stop ih => exact returns_element ih

/-! ## Elements that were dropped -/

/-- Two builders have the same elements open, the same identifiers taken, are dropping the same and
have the same root. -/
structure SameTree (b b' : Builder) : Prop where
  options : b'.options = b.options
  stack : b'.stack = b.stack
  taken : b'.taken = b.taken
  dropped? : b'.dropped? = b.dropped?
  root? : b'.root? = b.root?

theorem startTag_of_answer {start : StartTag} {flow : Flow}
    (h : answer? observers b s start.event = some flow) : ∃ frame taken s',
      b.dropped? = none ∧ frame.skipsChildren = false ∧
        Opens b start.name start.attributes start.span frame taken ∧
        b.startTag start.name start.attributes start.span =
          .ok (.ask ⟨{ b with offset := start.span.stop, taken }, start.name, frame⟩) ∧
        (b.take observers start.event).run s = (settleOpening
          ⟨{ b with offset := start.span.stop, taken }, start.name, frame⟩ flow, s') := by
  simp only [answer?, StartTag.event] at h
  split at h
  · next opening hstart =>
    obtain ⟨b', hdone, -⟩ | ⟨frame, taken, hask, hd, hskip, hopens⟩ := startTag_cases hstart
    · cases hdone
    · cases hask
      refine ⟨frame, taken, ((consult (·.startElement frame.element) observers).run s).2, hd, hskip,
        hopens, hstart, ?_⟩
      rw [StartTag.event, take_startTag, hstart, ← Option.some.inj h]
  · cases h
  · cases h

theorem endTag_of_answer {stop : EndTag} {flow : Flow}
    (h : answer? observers b s stop.event = some flow) : ∃ frame parent rest s',
      b.dropped? = none ∧ b.stack = frame :: parent :: rest ∧
        Ends frame (parent :: rest) stop.name ∧
        b.endTag stop.name stop.span = .ok (.ask ⟨{ b with offset := stop.span.stop, stack := rest },
          stop.name, parent, { frame with element := complete frame.element }⟩) ∧
        (b.take observers stop.event).run s = (settleClosing
          ⟨{ b with offset := stop.span.stop, stack := rest }, stop.name, parent,
            { frame with element := complete frame.element }⟩ flow, s') := by
  simp only [answer?, EndTag.event] at h
  split at h
  · next closing hend =>
    obtain ⟨b', hdone, -⟩ | ⟨frame, parent, rest, hd, hs, hends, hask⟩ := endTag_cases hend
    · cases hdone
    · cases hask
      refine ⟨frame, parent, rest,
        ((consult (·.endElement parent.element (complete frame.element)) observers).run s).2, hd, hs,
        hends, hend, ?_⟩
      rw [EndTag.event, take_endTag, hend, ← Option.some.inj h]
  · cases h
  · cases h

/-- An element that is dropped at its start tag leaves nothing behind. -/
theorem sameTree_of_rejected_start {start : StartTag} {content : List Node} {stop : EndTag}
    (h : answer? observers b s start.event = some .reject)
    (hrun : (b.takeAll observers (Node.element start content stop).events).run s = (.ok b', s')) :
    SameTree b b' := by
  obtain ⟨frame, taken, s₁, hd, -, hopens, -, htake⟩ := startTag_of_answer h
  rw [settleOpening, hopens.release_eq] at htake
  obtain ⟨b₁, s₁', htake', hrest⟩ := takeAll_cons_ok.1 hrun
  cases htake.symm.trans htake'
  have hdrop := takeAll_drop observers s₁
    (b := { b with offset := start.span.stop }) hd start.name frame.span content stop
  cases hdrop.symm.trans hrest
  exact ⟨rfl, rfl, rfl, rfl, rfl⟩

theorem nested_of_answer {start : StartTag} {content : List Node} {stop : EndTag} {flow : Flow}
    {b₁ b₂ : Builder} {s₁ s₂ : σ} (hsound : Sound b)
    (hstart : (b.take observers start.event).run s = (.ok b₁, s₁))
    (hcontent : (b₁.takeAll observers (eventsOf content)).run s₁ = (.ok b₂, s₂))
    (h : answer? observers b₂ s₂ stop.event = some flow) :
    ∃ child taken child', b.dropped? = none ∧
      Opens b start.name start.attributes start.span child taken ∧
      Nested child' b.stack b.taken b₂ ∧ SameTags child child' := by
  obtain ⟨frame, parent, rest, -, hd₂, hs₂, hends, -⟩ := endTag_of_answer h
  have hstep : Step b (.startTag start.name start.attributes start.span) b₁ := take_step hstart
  have hsound₁ := hstep.sound hsound
  have hdropped (c : Builder) (name : String) (span : Text.Span) (hb₁ : b₁ = c.drop name span) :
      False := by
    obtain ⟨dropped, hdrop, hdepth⟩ := c.dropped?_drop name span
    rw [← hb₁] at hdrop
    obtain ⟨offset, hall⟩ := takeAll_dropped observers s₁ hdrop hdepth content
    rw [hcontent] at hall
    cases hall
    rw [hdrop] at hd₂
    cases hd₂
  cases hstep with
  | skipped _ => exact (hdropped _ _ _ rfl).elim
  | rejected _ _ => exact (hdropped _ _ _ rfl).elim
  | @markupOpened _ _ _ field around hd hs _ _ =>
    have hfield : Nested (openMarkup field start.name start.attributes) around [] _ :=
      ⟨hsound₁, hd, rfl, fun _ => List.nil_suffix⟩
    obtain ⟨field', hfield', htags⟩ := returns_all (fun n _ => returns n) hfield hcontent
    cases hfield'.stack_eq.symm.trans hs₂
    have hmarkup := hends.markup_eq.symm.trans htags.markup
    cases hmarkup
  | @opened _ _ _ child taken hd hopens =>
    have hchild : Nested child b.stack b.taken
        { b with offset := start.span.stop, taken, stack := child :: b.stack } :=
      ⟨hsound₁, hd, rfl, fun _ => ⟨_, hopens.taken_eq.symm⟩⟩
    obtain ⟨child', hchild', htags⟩ := returns_all (fun n _ => returns n) hchild hcontent
    exact ⟨child, taken, child', hd, hopens, hchild', htags⟩

/-- An element that is dropped when it is complete leaves nothing behind. -/
theorem sameTree_of_rejected_end {start : StartTag} {content : List Node} {stop : EndTag}
    {b₁ b₂ : Builder} {s₁ s₂ : σ} (hsound : Sound b)
    (hstart : (b.take observers start.event).run s = (.ok b₁, s₁))
    (hcontent : (b₁.takeAll observers (eventsOf content)).run s₁ = (.ok b₂, s₂))
    (hstop : (b₂.take observers stop.event).run s₂ = (.ok b', s'))
    (h : answer? observers b₂ s₂ stop.event = some .reject) : SameTree b b' := by
  have hoptions : b'.options = b.options :=
    (take_step hstop).options_eq.trans
      ((takeAll_run hcontent).options_eq.trans (take_step hstart).options_eq)
  obtain ⟨child, taken, child', hd, hopens, hnested, -⟩ := nested_of_answer hsound hstart hcontent h
  obtain ⟨frame, parent, rest, s₃, -, hs₂, -, -, htake⟩ := endTag_of_answer h
  obtain ⟨rfl, hstack⟩ := List.cons.inj (hnested.stack_eq.symm.trans hs₂)
  cases htake.symm.trans hstop
  have hne : b₂.stack ≠ [] := by simp [hs₂]
  have hids := hsound.taken_perm_stack hopens.noRoot
  have hlisted : ∀ entry ∈ child'.ids, entry.1 ∈ listedBy [child'] := fun _ =>
    mem_listedBy (by simp)
  have hinner : b₂.stack = [child'] ++ b.stack := hnested.stack_eq
  obtain ⟨own, -, hown, hrelease⟩ :=
    hnested.sound.suffix_release hinner hne (hnested.suffix hids) hids hlisted
  have hnone : release own child'.ids = [] := by
    refine List.filter_eq_nil_iff.2 fun entry hentry => ?_
    have hmem := mem_listedBy_singleton.1 (hown.mem_iff.1 (List.mem_map_of_mem hentry))
    obtain ⟨declared, hdeclared, heq⟩ := List.mem_map.1 hmem
    simp only [Bool.not_eq_true', Bool.not_eq_false, List.any_eq_true, beq_iff_eq]
    exact ⟨declared, hdeclared, heq⟩
  exact
    { options := hoptions
      stack := hstack.symm
      taken := by
        rw [hnone] at hrelease
        exact hrelease
      dropped? := hnested.notDropped.trans hd.symm
      root? := (hnested.sound.unfinished hne).trans hopens.noRoot.symm }

/-- If the elements in an element are to be skipped, it is as if they had not been there when its end
tag comes. -/
theorem texts_of_answer {start : StartTag}
    (h : answer? observers b s start.event = some .skipChildren) (content : List Node) :
    ∃ (b₁ b₂ : Builder) (s₁ : σ) (offset offset' : Nat),
      (b.take observers start.event).run s = (.ok b₁, s₁) ∧
      (b₁.takeAll observers (eventsOf content)).run s₁ = (.ok { b₂ with offset }, s₁) ∧
      (b₁.takeAll observers (eventsOf (content.filter Node.isText))).run s₁ =
        (.ok { b₂ with offset := offset' }, s₁) := by
  obtain ⟨frame, taken, s₁, hd, -, -, -, htake⟩ := startTag_of_answer h
  obtain ⟨b₂, offset, offset', hall, htexts⟩ := takeAll_texts observers s₁ (b := { b with
    taken
    stack := { frame with skipsChildren := true } :: b.stack }) hd rfl rfl content
    start.span.stop start.span.stop
  exact ⟨_, b₂, s₁, offset, offset', htake, hall, htexts⟩

theorem takeAll_of_skipped {start : StartTag}
    (h : answer? observers b s start.event = some .skipChildren) (content : List Node)
    (stop : EndTag) :
    (b.takeAll observers (Node.element start content stop).events).run s =
      (b.takeAll observers (Node.element start (content.filter Node.isText) stop).events).run s := by
  obtain ⟨b₁, b₂, s₁, offset, offset', htake, hall, htexts⟩ := texts_of_answer h content
  rw [← takeAll_singleton] at htake
  have hevents (content : List Node) : (Node.element start content stop).events =
      [start.event] ++ (eventsOf content ++ [stop.event]) := rfl
  rw [hevents, hevents, takeAll_append htake, takeAll_append htake, takeAll_append hall,
    takeAll_append htexts]
  rfl

end Builder

end KmlTree
