import KmlTree.Proofs.Reading.Opened

/-!
# The innermost element

What an event makes of the innermost frame while the frames around it wait, and what it does where
no element is open. Main statements: in a field, tags become a part of its text, and everywhere else
a start tag opens an element.
-/
namespace KmlTree

open Markup Text

namespace Builder

open Element

/-- Nothing is being dropped, and a frame is the innermost one. -/
structure Innermost (b : Builder) (frame : Frame) (rest : List Frame) : Prop where
  notDropped : b.dropped? = none
  stack_eq : b.stack = frame :: rest
  descends : frame.skipsChildren = false

variable {b b' : Builder} {frame frame' : Frame} {rest : List Frame}

theorem Innermost.unique (h : Innermost b frame rest) (h' : Innermost b frame' rest) :
    frame = frame' :=
  (List.cons.inj (h.stack_eq.symm.trans h'.stack_eq)).1

theorem foldlM_append_ok {first second : List Event}
    (h : (first ++ second).foldlM next b = .ok b') :
    ∃ b₁, first.foldlM next b = .ok b₁ ∧ second.foldlM next b₁ = .ok b' := by
  rw [List.foldlM_append] at h
  cases hfirst : first.foldlM next b with
  | error e =>
    rw [hfirst] at h
    cases h
  | ok b₁ =>
    rw [hfirst] at h
    exact ⟨b₁, rfl, h⟩

theorem foldlM_cons_ok {event : Event} {events : List Event}
    (h : (event :: events).foldlM next b = .ok b') :
    ∃ b₁, b.next event = .ok b₁ ∧ events.foldlM next b₁ = .ok b' := by
  have happend : ([event] ++ events).foldlM next b = .ok b' := h
  obtain ⟨b₁, hfirst, hrest⟩ := foldlM_append_ok happend
  rw [foldlM_next_singleton] at hfirst
  exact ⟨b₁, hfirst, hrest⟩

/-! ## Text -/

theorem Innermost.next_text (h : Innermost b frame rest) (text : String) (offset : Nat) :
    b.next (.text text offset) = .ok { b with
      offset := offset + text.utf8ByteSize
      stack := { frame with element := frame.element.takeText text } :: rest } := by
  simp only [next, Builder.text, h.notDropped, h.stack_eq, Option.isSome_none,
    Bool.false_eq_true, if_false, takeText]
  split <;> rfl

theorem Innermost.texts (h : Innermost b frame rest) {text : String} {texts : List Event}
    (htexts : Texts text texts) (hrun : texts.foldlM next b = .ok b') :
    Innermost b' { frame with element := frame.element.takeText text } rest := by
  induction htexts generalizing b frame with
  | nil =>
    cases hrun
    rwa [takeText_empty]
  | @cons text _ offset _ _ ih =>
    obtain ⟨b₁, hnext, hrest⟩ := foldlM_cons_ok hrun
    have hafter : Innermost b₁ { frame with element := frame.element.takeText text } rest := by
      rw [h.next_text] at hnext
      cases hnext
      exact ⟨h.notDropped, rfl, h.descends⟩
    rw [takeText_append]
    exact ih hafter hrest

/-! ## Tags in a field -/

theorem Innermost.next_startTag_field (h : Innermost b frame rest)
    (hsimple : frame.element.kind.isSimple = true) (name : String)
    (attributes : List (String × String)) (span : Span) :
    b.next (.startTag name attributes span) = .ok { b with
      offset := span.stop, stack := openMarkup frame name attributes :: rest } := by
  simp only [next, startTag, h.notDropped, h.stack_eq, h.descends, hsimple, Option.isSome_none,
    Bool.false_eq_true, if_false, if_true]

theorem Innermost.next_endTag_field (h : Innermost b frame rest) {opened : String} {size : Nat}
    {markup : List (String × Nat)} (hmarkup : frame.markup = (opened, size) :: markup)
    (name : String) (span : Span) :
    b.next (.endTag name span) =
      if opened = name then
        .ok { b with offset := span.stop, stack := closeMarkup frame name size markup :: rest }
      else .error (.malformedAt (.mismatchedEnd opened name) span.start) := by
  simp only [next, endTag, h.notDropped, h.stack_eq, hmarkup]
  by_cases hname : opened = name
  · simp only [hname, if_true]
  · simp only [hname, if_false]

theorem Innermost.markupOpened (h : Innermost b frame rest)
    (hsimple : frame.element.kind.isSimple = true) {name : String}
    {attributes : List (String × String)} {span : Span}
    (hnext : b.next (.startTag name attributes span) = .ok b') :
    Innermost b' (openMarkup frame name attributes) rest := by
  rw [h.next_startTag_field hsimple] at hnext
  cases hnext
  exact ⟨h.notDropped, rfl, h.descends⟩

theorem Innermost.markupClosed (h : Innermost b frame rest) {name : String} {size : Nat}
    {markup : List (String × Nat)} (hmarkup : frame.markup = (name, size) :: markup) {span : Span}
    (hnext : b.next (.endTag name span) = .ok b') :
    Innermost b' (closeMarkup frame name size markup) rest := by
  rw [h.next_endTag_field hmarkup, if_pos rfl] at hnext
  cases hnext
  exact ⟨h.notDropped, rfl, h.descends⟩

/-! ## Start tags elsewhere -/

theorem next_opens (hd : b.dropped? = none)
    (haround : ∀ f ∈ b.stack.head?, f.skipsChildren = false ∧ f.element.kind.isSimple = false)
    {name : String} {attributes : List (String × String)} {span : Span}
    (hnext : b.next (.startTag name attributes span) = .ok b') :
    ∃ opened taken, Innermost b' opened b.stack ∧ Opens b name attributes span opened taken := by
  cases hstart : b.startTag name attributes span with
  | error e =>
    simp only [next, hstart] at hnext
    cases hnext
  | ok half =>
    have hopen := hstart
    rw [startTag_eq_openElement hd haround] at hopen
    obtain ⟨opened, taken, rfl, hskip, hopens⟩ := openElement_cases hopen haround
    simp only [next, hstart, settleOpening] at hnext
    cases hnext
    exact ⟨opened, taken, ⟨hd, rfl, hskip⟩, hopens.noRoot, hopens.depth_lt, haround,
      hopens.outermost, hopens.element_eq, hopens.span_eq, hopens.ids_eq, hopens.free,
      hopens.prefixes_eq, hopens.markup_eq, hopens.taken_eq⟩

/-- A start tag opens the element that it can open, if nothing is being dropped. -/
theorem Opens.next_eq {name : String} {attributes : List (String × String)} {span : Span}
    {opened : Frame} {taken : List (String × Nat)}
    (h : Opens b name attributes span opened taken) (hd : b.dropped? = none)
    (hskip : opened.skipsChildren = false) :
    b.next (.startTag name attributes span) = .ok { b with
      offset := span.stop, taken, stack := opened :: b.stack } := by
  have hroot : b.root?.isSome = false := by
    rw [h.noRoot]
    rfl
  have hdepth : ¬b.options.maxDepth ≤ b.stack.length := Nat.not_le_of_lt h.depth_lt
  have houtermost : ¬(b.stack = [] ∧ (opened.element.kind = .unknown ∨
      opened.element.kind.isSimple = true)) := by
    rintro ⟨hnil, hkind⟩
    obtain ⟨hknown, hsimple⟩ := h.outermost hnil
    simp [hknown, hsimple] at hkind
  have hstart := startTag_eq hd h.around name attributes span
  simp only [hroot, Bool.false_eq_true, if_false, ← h.element_eq, hdepth, houtermost] at hstart
  have hframe : opened = ⟨opened.element, span, opened.element.ownId, false,
      declaredPrefixes attributes, []⟩ := by
    rw [← h.span_eq, ← h.ids_eq, ← hskip, ← h.prefixes_eq, ← h.markup_eq]
  have htaken := h.taken_eq
  rw [h.ids_eq] at htaken
  cases hid : opened.element.objectId? with
  | none =>
    have hown : opened.element.ownId = [] := by
      rw [ownId, hid]
      rfl
    simp only [hid] at hstart
    rw [hown] at hframe htaken
    rw [next, hstart, hframe, htaken]
    rfl
  | some id =>
    have hown : opened.element.ownId = [(id, [])] := by
      rw [ownId, hid]
      rfl
    have hfree : b.taken.lookup id = none := h.free (id, []) (by simp [h.ids_eq, hown])
    simp only [hid, hfree] at hstart
    rw [hown] at hframe htaken
    rw [next, hstart, hframe, htaken]
    rfl

theorem Innermost.opened (h : Innermost b frame rest)
    (hsimple : frame.element.kind.isSimple = false) {name : String}
    {attributes : List (String × String)} {span : Span}
    (hnext : b.next (.startTag name attributes span) = .ok b') :
    ∃ opened taken, Innermost b' opened (frame :: rest) ∧
      Opens b name attributes span opened taken := by
  have haround : ∀ f ∈ b.stack.head?,
      f.skipsChildren = false ∧ f.element.kind.isSimple = false := by
    rw [h.stack_eq]
    rintro _ ⟨⟩
    exact ⟨h.descends, hsimple⟩
  rw [← h.stack_eq]
  exact next_opens h.notDropped haround hnext

/-! ## Outside of the root -/

/-- Nothing is open, and nothing is being dropped. -/
structure Outside (b : Builder) : Prop where
  sound : Sound b
  stack_eq : b.stack = []
  notDropped : b.dropped? = none

theorem Outside.withOffset (h : Outside b) (offset : Nat) : Outside { b with offset } :=
  ⟨h.sound.congr rfl rfl rfl, h.stack_eq, h.notDropped⟩

theorem Outside.next_text (h : Outside b) (text : String) (offset : Nat) :
    b.next (.text text offset) =
      if isAllBlank text then .ok { b with offset := offset + text.utf8ByteSize }
      else .error (.malformedAt .textOutsideRoot offset) := by
  simp only [next, Builder.text, h.notDropped, h.stack_eq, Option.isSome_none,
    Bool.false_eq_true, if_false]

end Builder

end KmlTree
