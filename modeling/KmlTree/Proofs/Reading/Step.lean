import KmlTree.Proofs.Tree.Edits
import KmlTree.Reading.Observer

/-!
# Steps of a reading

Everything that a builder can do with one event, whatever the observers answer. A reading that
succeeds is a run of such steps, so what every step preserves holds at its end.
-/
namespace KmlTree

theorem Reading.run_bind {σ α β : Type} (reading : Reading σ α) (next : α → Reading σ β) (s : σ) :
    (reading >>= next).run s =
      match reading.run s with
      | (.ok a, s') => (next a).run s'
      | (.error error, s') => (.error error, s') := by
  simp only [ExceptT.run, bind, ExceptT.bind, ExceptT.mk, StateT.bind, ExceptT.bindCont]
  rcases reading s with ⟨_ | _, _⟩ <;> rfl

namespace Builder

def openedElement (b : Builder) (name : String) (attributes : List (String × String)) : Element :=
  attributes.foldl (fun e (key, value) => e.setAttribute key value)
    (elementFor b.stack name (localName (declaredPrefixes attributes) b.stack name))

/-- A start tag may be opened with a frame, after which the given identifiers are taken. -/
structure Opens (b : Builder) (name : String) (attributes : List (String × String))
    (span : Text.Span) (frame : Frame) (taken : List (String × Nat)) : Prop where
  noRoot : b.root? = none
  depth_lt : b.stack.length < b.options.maxDepth
  around : ∀ f ∈ b.stack.head?, f.skipsChildren = false ∧ f.element.kind.isSimple = false
  outermost : b.stack = [] → frame.element.kind ≠ .unknown ∧ frame.element.kind.isSimple = false
  element_eq : frame.element = b.openedElement name attributes
  span_eq : frame.span = span
  ids_eq : frame.ids = frame.element.ownId
  free : ∀ entry ∈ frame.ids, b.taken.lookup entry.1 = none
  prefixes_eq : frame.prefixes = declaredPrefixes attributes
  markup_eq : frame.markup = []
  taken_eq : taken = frame.ids.map (fun entry => (entry.1, span.start)) ++ b.taken

/-- An end tag may end a frame that the others are open around. -/
structure Ends (frame : Frame) (rest : List Frame) (name : String) : Prop where
  markup_eq : frame.markup = []
  name_eq : frame.element.name = name ∨ frame.element.name = localName frame.prefixes rest name

/-- What one event can do. -/
inductive Step (b : Builder) : Markup.Event → Builder → Prop
  | skipped {name attributes span}
      (h : b.dropped?.isSome ∨ ∃ f ∈ b.stack.head?, f.skipsChildren = true) :
      Step b (.startTag name attributes span) ({ b with offset := span.stop }.drop name span)
  | markupOpened {name attributes span frame rest} (hd : b.dropped? = none)
      (hs : b.stack = frame :: rest) (hskip : frame.skipsChildren = false)
      (hsimple : frame.element.kind.isSimple = true) :
      Step b (.startTag name attributes span)
        { b with offset := span.stop, stack := openMarkup frame name attributes :: rest }
  | opened {name attributes span frame taken} (hd : b.dropped? = none)
      (h : Opens b name attributes span frame taken) :
      Step b (.startTag name attributes span)
        { b with offset := span.stop, taken, stack := frame :: b.stack }
  | rejected {name attributes span frame taken} (hd : b.dropped? = none)
      (h : Opens b name attributes span frame taken) :
      Step b (.startTag name attributes span)
        ({ b with offset := span.stop, taken := release taken frame.ids }.drop name span)
  | textPassed {text offset}
      (h : b.dropped?.isSome ∨ (b.stack = [] ∧ Text.isAllBlank text) ∨
        ∃ f ∈ b.stack.head?, f.element.kind ≠ .unknown ∧ f.element.kind.hasText = false) :
      Step b (.text text offset) { b with offset := offset + text.utf8ByteSize }
  | textKept {text offset frame rest} (hd : b.dropped? = none) (hs : b.stack = frame :: rest)
      (hkind : frame.element.kind = .unknown ∨ frame.element.kind.hasText = true) :
      Step b (.text text offset)
        { b with
          offset := offset + text.utf8ByteSize
          stack := { frame with element := frame.element.appendText text } :: rest }
  | dropEnded {name span dropped} (hd : b.dropped? = some dropped) :
      Step b (.endTag name span)
        { b with
          offset := span.stop
          dropped? :=
            if dropped.depth ≤ 1 then none else some { dropped with depth := dropped.depth - 1 } }
  | markupClosed {name span frame rest size markup} (hd : b.dropped? = none)
      (hs : b.stack = frame :: rest) (hm : frame.markup = (name, size) :: markup) :
      Step b (.endTag name span)
        { b with offset := span.stop, stack := closeMarkup frame name size markup :: rest }
  | rootEnded {name span frame} (hd : b.dropped? = none) (hs : b.stack = [frame])
      (h : Ends frame [] name) :
      Step b (.endTag name span)
        { b with
          offset := span.stop, stack := [], root? := some (complete frame.element, frame.ids) }
  | vetoed {name span frame parent rest} (hd : b.dropped? = none)
      (hs : b.stack = frame :: parent :: rest) (h : Ends frame (parent :: rest) name) :
      Step b (.endTag name span)
        { b with
          offset := span.stop, stack := parent :: rest, taken := release b.taken frame.ids }
  | attached {name span frame parent rest element i replaced?} (hd : b.dropped? = none)
      (hs : b.stack = frame :: parent :: rest) (h : Ends frame (parent :: rest) name)
      (ha : parent.element.attach (complete frame.element) = .ok ⟨element, some i, replaced?⟩) :
      Step b (.endTag name span)
        (let ids :=
          if (replaced?.bind Child.element?).isSome then splitIds i parent.ids
          else (parent.ids, [])
        { b with
          offset := span.stop
          stack := { parent with element, ids := ids.1 ++ lift i frame.ids } :: rest
          taken := release b.taken ids.2
          warnings :=
            b.warnings ++
              attributeWarnings name { frame with element := complete frame.element } })
  | filed {name span frame parent rest element replaced?} (hd : b.dropped? = none)
      (hs : b.stack = frame :: parent :: rest) (h : Ends frame (parent :: rest) name)
      (ha : parent.element.attach (complete frame.element) = .ok ⟨element, none, replaced?⟩) :
      Step b (.endTag name span)
        { b with
          offset := span.stop
          stack := { parent with element } :: rest
          taken := release b.taken frame.ids }
  | misplaced {name span frame parent rest rejected} (hd : b.dropped? = none)
      (hs : b.stack = frame :: parent :: rest) (h : Ends frame (parent :: rest) name)
      (ha : parent.element.attach (complete frame.element) = .error rejected)
      (hlenient : b.options.strict = false) :
      Step b (.endTag name span)
        { b with
          offset := span.stop
          stack := { parent with element := parent.element.addUnknown rejected.child } :: rest
          taken := release b.taken frame.ids
          warnings := b.warnings ++
            [.misplaced parent.element.name name (.ofSpan frame.span)] }

/-- What a list of events can do. -/
inductive Run : Builder → List Markup.Event → Builder → Prop
  | nil {b} : Run b [] b
  | cons {event events b b₁ b₂} (step : Step b event b₁) (rest : Run b₁ events b₂) :
      Run b (event :: events) b₂

/-- What every step preserves holds after a run if it holds before. -/
theorem Run.preserves {P : Builder → Prop}
    (step : ∀ {b event b'}, Step b event b' → P b → P b') {b b' : Builder}
    {events : List Markup.Event} (h : Run b events b') : P b → P b' := by
  induction h with
  | nil => exact id
  | cons hstep _ ih => exact fun hP => ih (step hstep hP)

theorem drop_options (b : Builder) (name : String) (span : Text.Span) :
    (b.drop name span).options = b.options := by
  unfold drop
  split <;> rfl

theorem Step.options_eq {b b' : Builder} {event : Markup.Event} (h : Step b event b') :
    b'.options = b.options := by
  cases h with
  | skipped _ => exact drop_options _ _ _
  | rejected _ _ => exact drop_options _ _ _
  | _ => rfl

theorem Run.options_eq {b b' : Builder} {events : List Markup.Event} (h : Run b events b') :
    b'.options = b.options :=
  h.preserves (fun {_ _ _} hstep heq => hstep.options_eq.trans heq) rfl

/-! ## Every reading is a run -/

theorem elementFor_eq (stack : List Frame) (name localName : String) : ∃ kind writtenName?,
    elementFor stack name localName = ⟨{ kind, writtenName? }, [], []⟩ := by
  unfold elementFor
  split
  · exact Element.ofName_eq localName
  · split
    · exact ⟨_, _, rfl⟩
    · exact Element.ofName_eq localName

theorem openedElement_eq (b : Builder) (name : String) (attributes : List (String × String)) :
    ∃ known others, b.openedElement name attributes =
      { elementFor b.stack name (localName (declaredPrefixes attributes) b.stack name) with
        attributes := known, otherAttributes := others } :=
  Element.foldl_setAttribute_eq attributes _

theorem openedElement_empty (b : Builder) (name : String) (attributes : List (String × String)) :
    (b.openedElement name attributes).text = "" ∧
      (b.openedElement name attributes).children = [] ∧
      (b.openedElement name attributes).nodes = [] := by
  obtain ⟨known, others, heq⟩ := b.openedElement_eq name attributes
  obtain ⟨kind, writtenName?, hfor⟩ :=
    elementFor_eq b.stack name (localName (declaredPrefixes attributes) b.stack name)
  rw [heq, hfor]
  exact ⟨rfl, rfl, rfl⟩

theorem name_openedElement (b : Builder) (name : String) (attributes : List (String × String)) :
    (b.openedElement name attributes).name =
      (elementFor b.stack name (localName (declaredPrefixes attributes) b.stack name)).name := by
  obtain ⟨known, others, heq⟩ := b.openedElement_eq name attributes
  rw [heq]
  rfl

/-- The kind and the identifier that a start tag is judged by are those of the element with its
attributes. -/
theorem openElement_eq (b : Builder) (name : String) (attributes : List (String × String))
    (span : Text.Span) : b.openElement name attributes span =
      let element := b.openedElement name attributes
      let frame : Frame :=
        { element, span, ids := [], skipsChildren := false, prefixes := declaredPrefixes attributes }
      if b.root?.isSome then .error (.malformedAt .secondRoot span.start)
      else if b.options.maxDepth ≤ b.stack.length then
        .error (.nestingTooDeep b.options.maxDepth (.ofSpan span))
      else if b.stack = [] ∧ (element.kind = .unknown ∨ element.kind.isSimple = true) then
        .error (.unknownRoot name (.ofSpan span))
      else
        match element.objectId? with
        | none => .ok (.ask ⟨b, name, frame⟩)
        | some id =>
          match b.taken.lookup id with
          | some first => .error (.duplicateId id (.ofSpan span) (.empty first))
          | none =>
            .ok (.ask ⟨{ b with taken := (id, span.start) :: b.taken }, name,
              { frame with ids := [(id, [])] }⟩) := by
  obtain ⟨known, others, heq⟩ := b.openedElement_eq name attributes
  have hkind : (elementFor b.stack name (localName (declaredPrefixes attributes) b.stack name)).kind =
      (b.openedElement name attributes).kind := by
    rw [heq]
  unfold openElement
  simp only [hkind, Bool.and_eq_true, Bool.or_eq_true, List.isEmpty_iff, beq_iff_eq]
  rfl

theorem startTag_eq_openElement {b : Builder} (hd : b.dropped? = none)
    (haround : ∀ f ∈ b.stack.head?, f.skipsChildren = false ∧ f.element.kind.isSimple = false)
    (name : String) (attributes : List (String × String)) (span : Text.Span) :
    b.startTag name attributes span =
      { b with offset := span.stop }.openElement name attributes span := by
  simp only [startTag, hd, Option.isSome_none, Bool.false_eq_true, if_false]
  split
  · next hs => simp only [hs]
  · next hs =>
    rw [hs] at haround
    obtain ⟨hskip, hsimple⟩ := haround _ rfl
    simp only [hs, hskip, hsimple, Bool.false_eq_true, if_false]

/-- What comes of a start tag that is neither dropped nor part of the text of a field. -/
theorem startTag_eq {b : Builder} (hd : b.dropped? = none)
    (haround : ∀ f ∈ b.stack.head?, f.skipsChildren = false ∧ f.element.kind.isSimple = false)
    (name : String) (attributes : List (String × String)) (span : Text.Span) :
    b.startTag name attributes span =
      let element := b.openedElement name attributes
      let frame : Frame :=
        { element, span, ids := [], skipsChildren := false, prefixes := declaredPrefixes attributes }
      if b.root?.isSome then .error (.malformedAt .secondRoot span.start)
      else if b.options.maxDepth ≤ b.stack.length then
        .error (.nestingTooDeep b.options.maxDepth (.ofSpan span))
      else if b.stack = [] ∧ (element.kind = .unknown ∨ element.kind.isSimple = true) then
        .error (.unknownRoot name (.ofSpan span))
      else
        match element.objectId? with
        | none => .ok (.ask ⟨{ b with offset := span.stop }, name, frame⟩)
        | some id =>
          match b.taken.lookup id with
          | some first => .error (.duplicateId id (.ofSpan span) (.empty first))
          | none =>
            .ok (.ask ⟨{ b with offset := span.stop, taken := (id, span.start) :: b.taken }, name,
              { frame with ids := [(id, [])] }⟩) :=
  (startTag_eq_openElement hd haround name attributes span).trans
    (openElement_eq { b with offset := span.stop } name attributes span)

theorem openElement_cases {b : Builder} {name : String} {attributes : List (String × String)}
    {span : Text.Span} {half : Half Opening} (h : b.openElement name attributes span = .ok half)
    (haround : ∀ f ∈ b.stack.head?, f.skipsChildren = false ∧ f.element.kind.isSimple = false) :
    ∃ frame taken, half = .ask ⟨{ b with taken }, name, frame⟩ ∧ frame.skipsChildren = false ∧
      Opens b name attributes span frame taken := by
  rw [openElement_eq] at h
  simp only at h
  split at h
  · cases h
  next hroot =>
  split at h
  · cases h
  next hdepth =>
  split at h
  · cases h
  next hkind =>
  have hnoRoot : b.root? = none := by simpa using hroot
  have hdepth_lt : b.stack.length < b.options.maxDepth := Nat.lt_of_not_le hdepth
  have houtermost : b.stack = [] → (b.openedElement name attributes).kind ≠ .unknown ∧
      (b.openedElement name attributes).kind.isSimple = false := by
    intro hnil
    simpa [hnil] using hkind
  split at h
  · next hid =>
    cases h
    exact ⟨_, _, rfl, rfl, hnoRoot, hdepth_lt, haround, houtermost, rfl, rfl,
      by simp [Element.ownId, hid], by simp, rfl, rfl, rfl⟩
  · next id hid =>
    split at h
    · cases h
    next hfree =>
    cases h
    exact ⟨_, _, rfl, rfl, hnoRoot, hdepth_lt, haround, houtermost, rfl, rfl,
      by simp [Element.ownId, hid], by simpa using hfree, rfl, rfl, rfl⟩

/-- A start tag is done at once, or it may be opened with the frame in question. -/
theorem startTag_cases {b : Builder} {name : String} {attributes : List (String × String)}
    {span : Text.Span} {half : Half Opening} (h : b.startTag name attributes span = .ok half) :
    (∃ b', half = .done b' ∧ Step b (.startTag name attributes span) b') ∨
      ∃ frame taken, half = .ask ⟨{ b with offset := span.stop, taken }, name, frame⟩ ∧
        b.dropped? = none ∧ frame.skipsChildren = false ∧
        Opens b name attributes span frame taken := by
  unfold startTag at h
  simp only at h
  split at h
  · next hd =>
    cases h
    exact Or.inl ⟨_, rfl, .skipped (Or.inl hd)⟩
  next hd =>
  have hd : b.dropped? = none := by simpa using hd
  have opened (haround : ∀ f ∈ b.stack.head?,
      f.skipsChildren = false ∧ f.element.kind.isSimple = false)
      (h : openElement { b with offset := span.stop } name attributes span = .ok half) :
      ∃ frame taken, half = .ask ⟨{ b with offset := span.stop, taken }, name, frame⟩ ∧
        b.dropped? = none ∧ frame.skipsChildren = false ∧
        Opens b name attributes span frame taken := by
    obtain ⟨frame, taken, hhalf, hskip, hopens⟩ := openElement_cases h haround
    exact ⟨frame, taken, hhalf, hd, hskip, ⟨hopens.noRoot, hopens.depth_lt, haround,
      hopens.outermost, hopens.element_eq, hopens.span_eq, hopens.ids_eq, hopens.free,
      hopens.prefixes_eq, hopens.markup_eq, hopens.taken_eq⟩⟩
  split at h
  · next hnil => exact Or.inr (opened (by simp [hnil]) h)
  · next frame rest hs =>
    split at h
    · next hskip =>
      cases h
      exact Or.inl ⟨_, rfl, .skipped (Or.inr ⟨frame, by simp [hs], hskip⟩)⟩
    next hskip =>
    split at h
    · next hsimple =>
      cases h
      exact Or.inl ⟨_, rfl, .markupOpened hd hs (by simpa using hskip) hsimple⟩
    · next hsimple => exact Or.inr (opened (by simpa [hs] using And.intro hskip hsimple) h)

theorem settleOpening_step {b : Builder} {name : String} {attributes : List (String × String)}
    {span : Text.Span} {frame : Frame} {taken : List (String × Nat)} {flow : Flow} {b' : Builder}
    (hd : b.dropped? = none) (hopens : Opens b name attributes span frame taken)
    (h : settleOpening ⟨{ b with offset := span.stop, taken }, name, frame⟩ flow = .ok b') :
    Step b (.startTag name attributes span) b' := by
  cases flow with
  | stop => cases h
  | reject =>
    cases h
    rw [hopens.span_eq]
    exact .rejected hd hopens
  | skipChildren =>
    cases h
    exact .opened hd ⟨hopens.noRoot, hopens.depth_lt, hopens.around, hopens.outermost,
      hopens.element_eq, hopens.span_eq, hopens.ids_eq, hopens.free, hopens.prefixes_eq,
      hopens.markup_eq, hopens.taken_eq⟩
  | descend =>
    cases h
    exact .opened hd hopens

theorem text_step {b b' : Builder} {text : String} {offset : Nat}
    (h : b.text text offset = .ok b') : Step b (.text text offset) b' := by
  unfold Builder.text at h
  simp only at h
  split at h
  · next hd =>
    cases h
    exact .textPassed (Or.inl hd)
  next hd =>
  have hd : b.dropped? = none := by simpa using hd
  split at h
  · next hnil =>
    split at h
    · next hblank =>
      cases h
      exact .textPassed (Or.inr (Or.inl ⟨hnil, hblank⟩))
    · cases h
  · next frame rest hs =>
    split at h
    · next hkind =>
      cases h
      exact .textKept hd hs hkind
    · next hkind =>
      cases h
      refine .textPassed (Or.inr (Or.inr ⟨frame, ?_, ?_⟩))
      · simp [hs]
      · simpa using hkind

/-- An end tag is done at once, or it ends an element within another one. -/
theorem endTag_cases {b : Builder} {name : String} {span : Text.Span} {half : Half Closing}
    (h : b.endTag name span = .ok half) :
    (∃ b', half = .done b' ∧ Step b (.endTag name span) b') ∨
      ∃ frame parent rest, b.dropped? = none ∧ b.stack = frame :: parent :: rest ∧
        Ends frame (parent :: rest) name ∧
        half = .ask ⟨{ b with offset := span.stop, stack := rest }, name, parent,
          { frame with element := complete frame.element }⟩ := by
  unfold endTag at h
  simp only at h
  split at h
  · next dropped _ hd =>
    cases h
    exact Or.inl ⟨_, rfl, .dropEnded hd⟩
  · cases h
  · next frame rest hd hs =>
    split at h
    · next opened size markup hm =>
      split at h
      · next hname =>
        subst hname
        cases h
        exact Or.inl ⟨_, rfl, .markupClosed hd hs hm⟩
      · cases h
    · next hm =>
      unfold closeElement at h
      simp only at h
      split at h
      · cases h
      next hname =>
      have hends : Ends frame rest name := ⟨hm, by
        by_cases heq : frame.element.name = name
        · exact Or.inl heq
        · exact Or.inr (by simpa [heq] using hname)⟩
      split at h
      · cases h
        exact Or.inl ⟨_, rfl, .rootEnded hd hs hends⟩
      · cases h
        exact Or.inr ⟨_, _, _, hd, hs, hends, rfl⟩

theorem settleClosing_step {b b' : Builder} {name : String} {span : Text.Span}
    {frame parent : Frame} {rest : List Frame} {flow : Flow} (hd : b.dropped? = none)
    (hs : b.stack = frame :: parent :: rest) (hends : Ends frame (parent :: rest) name)
    (h : settleClosing ⟨{ b with offset := span.stop, stack := rest }, name, parent,
      { frame with element := complete frame.element }⟩ flow = .ok b') :
    Step b (.endTag name span) b' := by
  have attach (h : attachChild ⟨{ b with offset := span.stop, stack := rest }, name, parent,
      { frame with element := complete frame.element }⟩ = .ok b') :
      Step b (.endTag name span) b' := by
    unfold attachChild at h
    simp only at h
    split at h
    · next ha =>
      cases h
      exact .attached hd hs hends ha
    · next ha =>
      cases h
      exact .filed hd hs hends ha
    · next ha =>
      split at h
      · cases h
      next hlenient =>
      cases h
      exact .misplaced hd hs hends ha (by simpa using hlenient)
  cases flow with
  | stop => cases h
  | reject =>
    cases h
    have hvetoed : Step b (.endTag name span) { b with
        offset := span.stop, stack := parent :: rest, taken := release b.taken frame.ids } :=
      .vetoed hd hs hends
    exact hvetoed
  | skipChildren => exact attach h
  | descend => exact attach h

theorem take_startTag {σ : Type} (observers : List (Observer σ)) (b : Builder) (name : String)
    (attributes : List (String × String)) (span : Text.Span) (s : σ) :
    (b.take observers (.startTag name attributes span)).run s =
      match b.startTag name attributes span with
      | .error error => (.error error, s)
      | .ok (.done b') => (.ok b', s)
      | .ok (.ask opening) =>
        let answer := (consult (·.startElement opening.frame.element) observers).run s
        (settleOpening opening answer.1, answer.2) := by
  simp only [take]
  rcases b.startTag name attributes span with _ | ⟨_ | _⟩ <;> rfl

theorem take_endTag {σ : Type} (observers : List (Observer σ)) (b : Builder) (name : String)
    (span : Text.Span) (s : σ) :
    (b.take observers (.endTag name span)).run s =
      match b.endTag name span with
      | .error error => (.error error, s)
      | .ok (.done b') => (.ok b', s)
      | .ok (.ask closing) =>
        let answer :=
          (consult (·.endElement closing.parent.element closing.child.element) observers).run s
        (settleClosing closing answer.1, answer.2) := by
  simp only [take]
  rcases b.endTag name span with _ | ⟨_ | _⟩ <;> rfl

theorem take_step {σ : Type} {observers : List (Observer σ)} {b b' : Builder}
    {event : Markup.Event} {s s' : σ} (h : (b.take observers event).run s = (.ok b', s')) :
    Step b event b' := by
  cases event with
  | startTag name attributes span =>
    cases hstart : b.startTag name attributes span with
    | error e =>
      simp only [take, hstart] at h
      cases h
    | ok half =>
      simp only [take, hstart] at h
      rcases startTag_cases hstart with ⟨b₁, rfl, hstep⟩ | ⟨frame, taken, rfl, hd, -, hopens⟩
      · cases h
        exact hstep
      · exact settleOpening_step hd hopens (congrArg Prod.fst h)
  | text text offset => exact text_step (congrArg Prod.fst h)
  | endTag name span =>
    cases hend : b.endTag name span with
    | error e =>
      simp only [take, hend] at h
      cases h
    | ok half =>
      simp only [take, hend] at h
      rcases endTag_cases hend with ⟨b₁, rfl, hstep⟩ | ⟨frame, parent, rest, hd, hs, hends, rfl⟩
      · cases h
        exact hstep
      · exact settleClosing_step hd hs hends (congrArg Prod.fst h)

/-- A reading that takes all events is a run. -/
theorem takeAll_run {σ : Type} {observers : List (Observer σ)} {events : List Markup.Event}
    {b b' : Builder} {s s' : σ} (h : (b.takeAll observers events).run s = (.ok b', s')) :
    Run b events b' := by
  induction events generalizing b s with
  | nil =>
    cases h
    exact .nil
  | cons event rest ih =>
    rw [takeAll, Reading.run_bind] at h
    split at h
    · next htake => exact .cons (take_step htake) (ih h)
    · cases h

end Builder

theorem Document.read_run {σ : Type} (options : ReadOptions) (observers : List (Observer σ))
    (source : String) (s : σ) :
    (Document.read options observers source).run s =
      match (Document.ofSource options observers source).run s with
      | (.ok d, s') => (.ok { d with warnings := d.warnings.map (Warning.located source) }, s')
      | (.error error, s') => (.error (error.located source), s') := by
  simp only [Document.read, tryCatch, tryCatchThe, MonadExceptOf.tryCatch, ExceptT.tryCatch, ExceptT.run,
    ExceptT.mk, bind, StateT.bind, ExceptT.bind, ExceptT.bindCont]
  rcases Document.ofSource options observers source s with ⟨_ | _, _⟩ <;> rfl

end KmlTree
