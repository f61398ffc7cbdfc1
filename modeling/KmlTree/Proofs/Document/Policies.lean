import KmlTree.Proofs.Document.Reachable
import KmlTree.Proofs.Reading.Conformance

/-!
# The strict and the lenient policy

A strict reading takes the same steps as a lenient one, up to the first element that its parent has
no place for: where the lenient reading leaves a warning, the strict one fails. Main statement: each
outcome of the lenient reading tells the outcome of the strict one, whatever the observers answer.
-/
namespace KmlTree

/-- The error with which a strict reading meets what a lenient one warns about. -/
def Warning.violation? : Warning → Option ParseError
  | .misplaced parent child place => some (.schemaViolation parent child place)
  | .discardedAttributes .. => none

def firstViolation? (warnings : List Warning) : Option ParseError :=
  warnings.findSome? Warning.violation?

/-- What the outcome of a lenient reading tells about that of a strict one. -/
structure Agree {σ α : Type} (warnings : α → List Warning) (strictly : α → α)
    (lenient strict : Except ParseError α × σ) : Prop where
  /-- Where the lenient reading fails, so does the strict one. -/
  failed : ∀ error s, lenient = (.error error, s) → ∃ error' s', strict = (.error error', s')
  /-- Where nothing is misplaced, both have the same result. -/
  kept : ∀ a s, lenient = (.ok a, s) → firstViolation? (warnings a) = none →
    strict = (.ok (strictly a), s)
  /-- Where something is, the strict reading fails at what is misplaced first. -/
  refused : ∀ a s error, lenient = (.ok a, s) → firstViolation? (warnings a) = some error →
    ∃ s', strict = (.error error, s')

section Agree

variable {σ α β : Type} {warnings : α → List Warning} {strictly : α → α}

theorem firstViolation?_of_extension {ws ws' : List Warning} (h : ws <+: ws') {error : ParseError}
    (hfirst : firstViolation? ws = some error) : firstViolation? ws' = some error := by
  obtain ⟨more, rfl⟩ := h
  rw [firstViolation?, List.findSome?_append]
  rw [firstViolation?] at hfirst
  rw [hfirst]
  rfl

theorem agree_error (error error' : ParseError) (s s' : σ) :
    Agree warnings strictly (.error error, s) (.error error', s') where
  failed := fun _ _ _ => ⟨error', s', rfl⟩
  kept := by
    intro a t heq
    cases heq
  refused := by
    intro a t e heq
    cases heq

theorem agree_ok (a : α) (s : σ) (h : firstViolation? (warnings a) = none) :
    Agree warnings strictly (.ok a, s) (.ok (strictly a), s) where
  failed := by
    intro error s' heq
    cases heq
  kept := by
    rintro _ _ ⟨⟩ -
    rfl
  refused := by
    rintro _ _ error ⟨⟩ herror
    rw [h] at herror
    cases herror

theorem agree_refused (a : α) (s s' : σ) {error : ParseError}
    (h : firstViolation? (warnings a) = some error) :
    Agree warnings strictly (.ok a, s) (.error error, s') where
  failed := by
    intro e t heq
    cases heq
  kept := by
    rintro _ _ ⟨⟩ hnone
    rw [h] at hnone
    cases hnone
  refused := by
    rintro _ _ e ⟨⟩ he
    rw [h] at he
    cases he
    exact ⟨s', rfl⟩

theorem agree_map {outcome : Except ParseError α}
    (h : ∀ a, outcome = .ok a → firstViolation? (warnings a) = none) (s : σ) :
    Agree warnings strictly (outcome, s) (outcome.map strictly, s) := by
  cases outcome with
  | error error => exact agree_error error error s s
  | ok a => exact agree_ok a s (h a rfl)

/-- Readings that agree are gone on with in such a way that they still agree, as long as nothing was
refused; what was warned about once stays so. -/
theorem Agree.bind {warnings' : β → List Warning} {strictly' : β → β}
    {lenient strict : Reading σ α} {next nextStrict : α → Reading σ β} {s : σ}
    (h : Agree warnings strictly (lenient.run s) (strict.run s))
    (hnext : ∀ a s', lenient.run s = (.ok a, s') → firstViolation? (warnings a) = none →
      Agree warnings' strictly' ((next a).run s') ((nextStrict (strictly a)).run s'))
    (hkept : ∀ a b s' s'', (next a).run s' = (.ok b, s'') → warnings a <+: warnings' b) :
    Agree warnings' strictly' ((lenient >>= next).run s) ((strict >>= nextStrict).run s) := by
  rw [Reading.run_bind, Reading.run_bind]
  rcases hlenient : lenient.run s with ⟨error | a, s'⟩
  · obtain ⟨error', s'', hstrict⟩ := h.failed error s' hlenient
    rw [hstrict]
    exact agree_error _ _ _ _
  cases hfirst : firstViolation? (warnings a) with
  | none =>
    rw [h.kept a s' hlenient hfirst]
    exact hnext a s' hlenient hfirst
  | some error =>
    obtain ⟨s'', hstrict⟩ := h.refused a s' error hlenient hfirst
    rw [hstrict]
    dsimp only
    rcases hb : (next a).run s' with ⟨error' | b, t⟩
    · exact agree_error _ _ _ _
    · exact agree_refused b _ _ (firstViolation?_of_extension (hkept a b s' t hb) hfirst)

end Agree

namespace Builder

/-! ## One event -/

def strictly (b : Builder) : Builder := { b with options := { b.options with strict := true } }

def Half.strictly {α : Type} (question : α → α) : Half α → Half α
  | .done b => .done b.strictly
  | .ask a => .ask (question a)

def Opening.strictly (opening : Opening) : Opening :=
  { opening with builder := opening.builder.strictly }

def Closing.strictly (closing : Closing) : Closing :=
  { closing with builder := closing.builder.strictly }

variable {b : Builder}

-- In brackets, so that these are no equations by definition: `simp` then rewrites the `Decidable`
-- instances of the conditions in question as well.
theorem stack_strictly : b.strictly.stack = b.stack := (rfl)

theorem taken_strictly : b.strictly.taken = b.taken := (rfl)

theorem dropped?_strictly : b.strictly.dropped? = b.dropped? := (rfl)

theorem root?_strictly : b.strictly.root? = b.root? := (rfl)

theorem maxDepth_strictly : b.strictly.options.maxDepth = b.options.maxDepth := (rfl)

theorem drop_strictly (b : Builder) (name : String) (span : Text.Span) :
    b.strictly.drop name span = (b.drop name span).strictly := by
  unfold drop
  rw [dropped?_strictly]
  cases b.dropped? <;> rfl

theorem openElement_strictly (b : Builder) (name : String) (attributes : List (String × String))
    (span : Text.Span) : b.strictly.openElement name attributes span =
      (b.openElement name attributes span).map (Half.strictly Opening.strictly) := by
  unfold openElement
  simp only [root?_strictly, stack_strictly, taken_strictly, maxDepth_strictly]
  split
  · rfl
  split
  · rfl
  split
  · rfl
  split
  · rfl
  split <;> rfl

theorem startTag_strictly (b : Builder) (name : String) (attributes : List (String × String))
    (span : Text.Span) : b.strictly.startTag name attributes span =
      (b.startTag name attributes span).map (Half.strictly Opening.strictly) := by
  have hopen := openElement_strictly { b with offset := span.stop } name attributes span
  have hdrop := congrArg (fun b => Except.ok (Half.done (α := Opening) b) (ε := ParseError))
    (drop_strictly { b with offset := span.stop } name span)
  unfold startTag
  simp only [dropped?_strictly, stack_strictly]
  split
  · exact hdrop
  split
  · exact hopen
  · split
    · exact hdrop
    split
    · rfl
    · exact hopen

theorem settleOpening_strictly (opening : Opening) (flow : Flow) :
    settleOpening opening.strictly flow = (settleOpening opening flow).map strictly := by
  cases flow with
  | stop => rfl
  | reject =>
    obtain ⟨b, name, frame⟩ := opening
    exact congrArg Except.ok
      (drop_strictly { b with taken := release b.taken frame.ids } name frame.span)
  | skipChildren => rfl
  | descend => rfl

theorem text_strictly (b : Builder) (text : String) (offset : Nat) :
    b.strictly.text text offset = (b.text text offset).map strictly := by
  unfold Builder.text
  simp only [dropped?_strictly, stack_strictly]
  split
  · rfl
  split
  · split <;> rfl
  · split <;> rfl

theorem endTag_strictly (b : Builder) (name : String) (span : Text.Span) :
    b.strictly.endTag name span =
      (b.endTag name span).map (Half.strictly Closing.strictly) := by
  unfold endTag
  simp only [dropped?_strictly, stack_strictly]
  split
  · rfl
  · rfl
  · split
    · split <;> rfl
    · unfold closeElement
      simp only
      split
      · rfl
      · split <;> rfl

theorem firstViolation?_append_attributeWarnings (warnings : List Warning) (name : String)
    (child : Frame) :
    firstViolation? (warnings ++ attributeWarnings name child) = firstViolation? warnings := by
  have hnone : firstViolation? (attributeWarnings name child) = none := by
    unfold attributeWarnings
    dsimp only
    split <;> rfl
  rw [firstViolation?, List.findSome?_append]
  change (firstViolation? warnings).or (firstViolation? (attributeWarnings name child)) = _
  rw [hnone, Option.or_none]

/-- An element is taken in alike under both policies, unless there is no place for it. -/
theorem settleClosing_agree {σ : Type} {closing : Closing}
    (hlenient : closing.builder.options.strict = false)
    (hnone : firstViolation? closing.builder.warnings = none) (flow : Flow) (s : σ) :
    Agree Builder.warnings strictly (settleClosing closing flow, s)
      (settleClosing closing.strictly flow, s) := by
  obtain ⟨b, name, parent, child⟩ := closing
  have hattach : Agree Builder.warnings strictly (attachChild ⟨b, name, parent, child⟩, s)
      (attachChild (Closing.strictly ⟨b, name, parent, child⟩), s) := by
    have hlenient : b.options.strict = false := hlenient
    have hstrict : b.strictly.options.strict = true := rfl
    unfold attachChild
    simp only [Closing.strictly, hstrict, hlenient, if_true, Bool.false_eq_true, if_false]
    cases parent.element.attach child.element with
    | error rejected =>
      refine agree_refused _ s s ?_
      rw [firstViolation?, List.findSome?_append]
      rw [firstViolation?] at hnone
      rw [hnone]
      rfl
    | ok attached =>
      obtain ⟨element, _ | i, replaced?⟩ := attached
      · exact agree_ok _ s hnone
      · refine agree_ok _ s ?_
        rw [← hnone]
        exact firstViolation?_append_attributeWarnings b.warnings name child
  cases flow with
  | stop => exact agree_error _ _ _ _
  | reject => exact agree_ok _ s hnone
  | skipChildren => exact hattach
  | descend => exact hattach

theorem drop_warnings (b : Builder) (name : String) (span : Text.Span) :
    (b.drop name span).warnings = b.warnings := by
  unfold drop
  split <;> rfl

theorem Step.warnings_extends {b b' : Builder} {event : Markup.Event} (h : Step b event b') :
    b.warnings <+: b'.warnings := by
  cases h with
  | skipped _ =>
    simp only [drop_warnings, List.prefix_rfl]
  | rejected _ _ =>
    simp only [drop_warnings, List.prefix_rfl]
  | attached _ _ _ _ => exact List.prefix_append _ _
  | misplaced _ _ _ _ _ => exact List.prefix_append _ _
  | _ => exact List.prefix_rfl

theorem Run.warnings_extends {b b' : Builder} {events : List Markup.Event} (h : Run b events b') :
    b.warnings <+: b'.warnings :=
  h.preserves (P := fun b' => b.warnings <+: b'.warnings)
    (fun hstep hprefix => hprefix.trans hstep.warnings_extends) List.prefix_rfl

theorem Step.warnings_eq {b b' : Builder} {event : Markup.Event} (h : Step b event b')
    (hevent : ∀ name span, event ≠ .endTag name span) : b'.warnings = b.warnings := by
  cases h with
  | skipped _ => exact drop_warnings _ _ _
  | rejected _ _ => exact drop_warnings _ _ _
  | markupOpened _ _ _ _ => rfl
  | opened _ _ => rfl
  | textPassed _ => rfl
  | textKept _ _ _ => rfl
  | _ => exact absurd rfl (hevent _ _)

/-- An end tag is warned about only where it ends an element within another one. -/
theorem endTag_warnings {name : String} {span : Text.Span} {half : Half Closing}
    (h : b.endTag name span = .ok half) :
    (∃ b', half = .done b' ∧ b'.warnings = b.warnings) ∨
      ∃ closing, half = .ask closing ∧ closing.builder.warnings = b.warnings ∧
        closing.builder.options = b.options := by
  unfold endTag closeElement at h
  simp only at h
  split at h
  · cases h
    exact Or.inl ⟨_, rfl, rfl⟩
  · cases h
  split at h
  · split at h
    · cases h
      exact Or.inl ⟨_, rfl, rfl⟩
    · cases h
  split at h
  · cases h
  split at h
  · cases h
    exact Or.inl ⟨_, rfl, rfl⟩
  · cases h
    exact Or.inr ⟨_, rfl, rfl, rfl⟩

variable {σ : Type}

theorem take_agree (observers : List (Observer σ)) (hlenient : b.options.strict = false)
    (hnone : firstViolation? b.warnings = none) (event : Markup.Event) (s : σ) :
    Agree Builder.warnings strictly ((b.take observers event).run s)
      ((b.strictly.take observers event).run s) := by
  have hkept {b' : Builder} (hstep : Step b event b')
      (hevent : ∀ name span, event ≠ .endTag name span) : firstViolation? b'.warnings = none := by
    rw [hstep.warnings_eq hevent, hnone]
  cases event with
  | startTag name attributes span =>
    rw [take_startTag, take_startTag, startTag_strictly]
    cases hstart : b.startTag name attributes span with
    | error error => exact agree_error _ _ _ _
    | ok half =>
      rcases startTag_cases hstart with ⟨b', rfl, hstep⟩ | ⟨frame, taken, rfl, hd, -, hopens⟩
      · exact agree_ok b' s (hkept hstep (by simp))
      · have hsettle (flow : Flow) (s' : σ) : Agree Builder.warnings strictly
            (settleOpening ⟨{ b with offset := span.stop, taken }, name, frame⟩ flow, s')
            ((settleOpening ⟨{ b with offset := span.stop, taken }, name, frame⟩ flow).map
              strictly, s') :=
          agree_map (fun b' h => hkept (settleOpening_step hd hopens h) (by simp)) s'
        simp only [← settleOpening_strictly] at hsettle
        exact hsettle _ _
  | text text offset =>
    change Agree _ _ (b.text text offset, s) (b.strictly.text text offset, s)
    rw [text_strictly]
    exact agree_map (fun b' htext => hkept (text_step htext) (by simp)) s
  | endTag name span =>
    rw [take_endTag, take_endTag, endTag_strictly]
    cases hend : b.endTag name span with
    | error error => exact agree_error _ _ _ _
    | ok half =>
      rcases endTag_warnings hend with ⟨b', rfl, hwarnings⟩ | ⟨closing, rfl, hwarnings, hoptions⟩
      · exact agree_ok b' s (hwarnings ▸ hnone)
      · exact settleClosing_agree (hoptions ▸ hlenient) (hwarnings ▸ hnone) _ _

/-- Events are taken alike under both policies, up to the first element for which there is no
place. -/
theorem takeAll_agree (observers : List (Observer σ)) (events : List Markup.Event) {b : Builder}
    (hlenient : b.options.strict = false) (hnone : firstViolation? b.warnings = none) (s : σ) :
    Agree Builder.warnings strictly ((b.takeAll observers events).run s)
      ((b.strictly.takeAll observers events).run s) := by
  induction events generalizing b s with
  | nil => exact agree_ok b s hnone
  | cons event rest ih =>
    rw [takeAll, takeAll]
    refine (take_agree observers hlenient hnone event s).bind (fun b' s' htake hfirst => ?_)
      fun b' b'' s' s'' hrest => (takeAll_run hrest).warnings_extends
    exact ih ((take_step htake).options_eq ▸ hlenient) hfirst s'

theorem finish_strictly (b : Builder) : b.strictly.finish = b.finish := by
  rcases b with ⟨options, _ | _, taken, _ | _, _ | _, warnings, offset⟩ <;> rfl

theorem warnings_finish {d : Document} (h : b.finish = .ok d) : d.warnings = b.warnings := by
  obtain ⟨-, -, root, ids, -, rfl⟩ := finish_eq_ok_iff.1 h
  rfl

theorem finish_agree (hnone : firstViolation? b.warnings = none) (s : σ) :
    Agree Document.warnings id (b.finish, s) (b.strictly.finish, s) := by
  rw [finish_strictly]
  cases hfinish : b.finish with
  | error error => exact agree_error _ _ _ _
  | ok d => exact agree_ok d s (by rw [warnings_finish hfinish, hnone])

end Builder

namespace Document

variable {σ : Type} (maxDepth : Nat) (observers : List (Observer σ))

theorem ofEvents_agree (events : List Markup.Event) (s : σ) :
    Agree Document.warnings id
      ((ofEvents { strict := false, maxDepth } observers events).run s)
      ((ofEvents { strict := true, maxDepth } observers events).run s) := by
  have htake := Builder.takeAll_agree observers events (b := .new { strict := false, maxDepth })
    rfl rfl s
  refine htake.bind (fun b s' _ hnone => Builder.finish_agree hnone s') fun b d s' s'' hfinish => ?_
  have hfinish : b.finish = .ok d := congrArg Prod.fst hfinish
  simp only [Builder.warnings_finish hfinish, List.prefix_rfl]

theorem ofSource_agree (source : String) (s : σ) :
    Agree Document.warnings id
      ((ofSource { strict := false, maxDepth } observers source).run s)
      ((ofSource { strict := true, maxDepth } observers source).run s) := by
  have htake := Builder.takeAll_agree observers (Markup.events source).list
    (b := .new { strict := false, maxDepth }) rfl rfl s
  unfold ofSource
  refine htake.bind (fun b s' _ hnone => ?_) fun b d s' s'' hfinish => ?_
  · split
    · exact agree_error _ _ _ _
    · exact Builder.finish_agree hnone s'
  · split at hfinish
    · cases hfinish
    · have hfinish : b.finish = .ok d := congrArg Prod.fst hfinish
      simp only [Builder.warnings_finish hfinish, List.prefix_rfl]

end Document

theorem firstViolation?_located (source : String) (warnings : List Warning) :
    firstViolation? (warnings.map (Warning.located source)) =
      (firstViolation? warnings).map (ParseError.located source) := by
  have hone (w : Warning) :
      (w.located source).violation? = w.violation?.map (ParseError.located source) := by
    cases w <;> rfl
  rw [firstViolation?, firstViolation?]
  induction warnings with
  | nil => rfl
  | cons w warnings ih =>
    rw [List.map_cons, List.findSome?_cons, List.findSome?_cons, hone, ih]
    cases w.violation? <;> rfl

namespace Document

variable {σ : Type} (maxDepth : Nat) (observers : List (Observer σ))

theorem read_agree (source : String) (s : σ) :
    Agree Document.warnings id
      ((read { strict := false, maxDepth } observers source).run s)
      ((read { strict := true, maxDepth } observers source).run s) := by
  have hsource := ofSource_agree maxDepth observers source s
  rw [read_run, read_run]
  rcases hlenient : (ofSource { strict := false, maxDepth } observers source).run s with
    ⟨error | d, s'⟩
  · obtain ⟨error', s'', hstrict⟩ := hsource.failed error s' hlenient
    rw [hstrict]
    exact agree_error _ _ _ _
  have hlocated := firstViolation?_located source d.warnings
  cases hfirst : firstViolation? d.warnings with
  | none =>
    rw [hsource.kept d s' hlenient hfirst]
    exact agree_ok _ s' (by rw [hlocated, hfirst, Option.map_none])
  | some error =>
    obtain ⟨s'', hstrict⟩ := hsource.refused d s' error hlenient hfirst
    rw [hstrict]
    exact agree_refused _ s' s'' (by rw [hlocated, hfirst, Option.map_some])

/-- The strict policy fails where the lenient one does, and at the first element that the lenient
one warns about as misplaced; otherwise it gives the same document. -/
theorem strict_agrees_with_lenient (s : σ) :
    (∀ events, Agree Document.warnings id
      ((ofEvents { strict := false, maxDepth } observers events).run s)
      ((ofEvents { strict := true, maxDepth } observers events).run s)) ∧
    ∀ source, Agree Document.warnings id
      ((read { strict := false, maxDepth } observers source).run s)
      ((read { strict := true, maxDepth } observers source).run s) :=
  ⟨fun events => ofEvents_agree maxDepth observers events s,
    fun source => read_agree maxDepth observers source s⟩

end Document

end KmlTree
