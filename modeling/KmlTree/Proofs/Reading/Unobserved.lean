import KmlTree.Proofs.Reading.Step

/-!
# Reading without observers

When nobody observes a reading, each event has one outcome, and the reading is a plain fold over the
events. `Yields` says of an outcome when it is there and what it is like, so that both can be
followed through a fold at once.
-/
namespace KmlTree

/-! ## Outcomes -/

/-- There is a result just when a condition holds, and every result is as described. -/
structure Yields {ε α : Type} (outcome : Except ε α) (condition : Prop) (result : α → Prop) :
    Prop where
  isOk_iff : (∃ a, outcome = .ok a) ↔ condition
  result : ∀ a, outcome = .ok a → result a

namespace Yields

variable {ε α β : Type} {outcome : Except ε α} {condition condition' : Prop}
  {result result' : α → Prop}

theorem ok {a : α} (h : result a) : Yields (Except.ok a : Except ε α) True result where
  isOk_iff := ⟨fun _ => trivial, fun _ => ⟨a, rfl⟩⟩
  result := by
    rintro _ ⟨⟩
    exact h

theorem error {e : ε} : Yields (Except.error e : Except ε α) False result where
  isOk_iff := by simp
  result := by
    intro a heq
    cases heq

theorem of_ok {a : α} (h : outcome = .ok a) (hcondition : condition) (hresult : result a) :
    Yields outcome condition result where
  isOk_iff := ⟨fun _ => hcondition, fun _ => ⟨a, h⟩⟩
  result := by
    intro a' ha'
    rw [h] at ha'
    cases ha'
    exact hresult

theorem of_error {e : ε} (h : outcome = .error e) (hcondition : ¬condition) :
    Yields outcome condition result where
  isOk_iff := by simp [h, hcondition]
  result := by simp [h]

theorem imp (h : Yields outcome condition result) (hcondition : condition ↔ condition')
    (hresult : ∀ a, result a → result' a) : Yields outcome condition' result' where
  isOk_iff := h.isOk_iff.trans hcondition
  result := fun a heq => hresult a (h.result a heq)

/-- The condition may be used where the result is. -/
theorem assume (h : Yields outcome condition result) :
    Yields outcome condition fun a => condition ∧ result a where
  isOk_iff := h.isOk_iff
  result := fun a heq => ⟨h.isOk_iff.1 ⟨a, heq⟩, h.result a heq⟩

theorem bind {next : α → Except ε β} {result' : β → Prop}
    (h : Yields outcome condition result)
    (hnext : ∀ a, result a → Yields (next a) condition' result') :
    Yields (outcome >>= next) (condition ∧ condition') result' := by
  cases outcome with
  | error e =>
    have hnot : ¬condition := fun hc => by
      obtain ⟨a, heq⟩ := h.isOk_iff.2 hc
      cases heq
    have hfail : Yields (Except.error e : Except ε β) False result' := error
    exact hfail.imp (by simp [hnot]) fun _ => id
  | ok a =>
    have hc : condition := h.isOk_iff.1 ⟨a, rfl⟩
    exact (hnext a (h.result a rfl)).imp (by simp [hc]) fun _ => id

end Yields

namespace Builder

/-- The builder after an event, when nobody observes the reading. -/
def next (b : Builder) : Markup.Event → Except ParseError Builder
  | .startTag name attributes span =>
    match b.startTag name attributes span with
    | .error error => .error error
    | .ok (.done b) => .ok b
    | .ok (.ask opening) => settleOpening opening .descend
  | .text text offset => b.text text offset
  | .endTag name span =>
    match b.endTag name span with
    | .error error => .error error
    | .ok (.done b) => .ok b
    | .ok (.ask closing) => settleClosing closing .descend

variable {b : Builder} {σ : Type}

theorem take_nil (b : Builder) (event : Markup.Event) (s : σ) :
    (b.take ([] : List (Observer σ)) event).run s = (b.next event, s) := by
  cases event with
  | startTag name attributes span =>
    simp only [take, next]
    rcases b.startTag name attributes span with _ | ⟨_ | _⟩ <;> rfl
  | text text offset => rfl
  | endTag name span =>
    simp only [take, next]
    rcases b.endTag name span with _ | ⟨_ | _⟩ <;> rfl

theorem takeAll_nil (b : Builder) (events : List Markup.Event) (s : σ) :
    (b.takeAll ([] : List (Observer σ)) events).run s = (events.foldlM next b, s) := by
  induction events generalizing b with
  | nil => rfl
  | cons event rest ih =>
    rw [takeAll, Reading.run_bind, take_nil, List.foldlM_cons]
    cases hnext : b.next event with
    | error error => rfl
    | ok b' => exact ih b'

theorem next_step {b' : Builder} {event : Markup.Event} (h : b.next event = .ok b') :
    Step b event b' := by
  have htake : (b.take ([] : List (Observer Unit)) event).run () = (.ok b', ()) := by
    rw [take_nil, h]
  exact take_step htake

theorem foldlM_next_run {b' : Builder} {events : List Markup.Event}
    (h : events.foldlM next b = .ok b') : Run b events b' := by
  have htake : (b.takeAll ([] : List (Observer Unit)) events).run () = (.ok b', ()) := by
    rw [takeAll_nil, h]
  exact takeAll_run htake

theorem foldlM_next_singleton (event : Markup.Event) : [event].foldlM next b = b.next event := by
  rw [List.foldlM_cons]
  exact bind_pure _

theorem yields_append {first second : List Markup.Event} {condition condition' : Prop}
    {result result' : Builder → Prop} (h : Yields (first.foldlM next b) condition result)
    (hnext : ∀ b', result b' → Yields (second.foldlM next b') condition' result') :
    Yields ((first ++ second).foldlM next b) (condition ∧ condition') result' := by
  rw [List.foldlM_append]
  exact h.bind hnext

end Builder

theorem Document.ofEvents_unobserved {σ : Type} (options : ReadOptions)
    (events : List Markup.Event) (s : σ) :
    (Document.ofEvents options ([] : List (Observer σ)) events).run s =
      (events.foldlM Builder.next (.new options) >>= Builder.finish, s) := by
  rw [Document.ofEvents, Reading.run_bind, Builder.takeAll_nil]
  cases events.foldlM Builder.next (.new options) <;> rfl

theorem Document.parse_eq {source : String} {options : ReadOptions} {events : List Markup.Event}
    (h : Markup.events source = { list := events }) :
    Document.parse source options =
      match events.foldlM Builder.next (.new options) >>= Builder.finish with
      | .ok d => .ok { d with warnings := d.warnings.map (Warning.located source) }
      | .error error => .error (error.located source) := by
  have hsource : (Document.ofSource options ([] : List (Observer Unit)) source).run () =
      (events.foldlM Builder.next (.new options) >>= Builder.finish, ()) := by
    simp only [Document.ofSource, h]
    rw [Reading.run_bind, Builder.takeAll_nil]
    cases events.foldlM Builder.next (.new options) <;> rfl
  rw [Document.parse, Document.read_run, hsource]
  cases events.foldlM Builder.next (.new options) >>= Builder.finish <;> rfl

theorem Document.exists_events_of_parse {source : String} {options : ReadOptions} {d : Document}
    (h : Document.parse source options = .ok d) :
    ∃ events d', Markup.events source = { list := events } ∧
      events.foldlM Builder.next (.new options) >>= Builder.finish = .ok d' ∧
        d = { d' with warnings := d'.warnings.map (Warning.located source) } := by
  obtain ⟨events, fault?, hevents⟩ : ∃ events fault?,
      Markup.events source = { list := events, fault? } := ⟨_, _, rfl⟩
  cases fault? with
  | none =>
    rw [Document.parse_eq hevents] at h
    cases hfinish : events.foldlM Builder.next (.new options) >>= Builder.finish with
    | error error =>
      rw [hfinish] at h
      cases h
    | ok d' =>
      rw [hfinish] at h
      exact ⟨events, d', hevents, hfinish, (Except.ok.inj h).symm⟩
  | some fault =>
    rw [Document.parse, Document.read_run, Document.ofSource, hevents, Reading.run_bind,
      Builder.takeAll_nil] at h
    cases hrun : events.foldlM Builder.next (.new options) with
    | error error =>
      rw [hrun] at h
      cases h
    | ok b =>
      rw [hrun] at h
      cases h

end KmlTree
