import KmlTree.Proofs.Markup.Nesting
import KmlTree.Proofs.Reading.Step

/-!
# Elements that are open

A builder keeps count of the elements that were started and not ended, of those that are kept by its
stack and of those that are dropped by a number. Main statement: the events between two moments at
which no element is open are those of some nodes.
-/
namespace KmlTree

open Markup Text

namespace Builder

variable {b b' : Builder} {event : Event} {events : List Event}

/-- The number of elements that are open, those in fields included. -/
def level (b : Builder) : Nat := (b.stack.map fun frame => frame.markup.length + 1).sum

theorem level_eq {frame : Frame} {rest : List Frame} (hs : b.stack = frame :: rest) :
    b.level = frame.markup.length + 1 + (rest.map fun frame => frame.markup.length + 1).sum := by
  rw [level, hs]
  rfl

theorem markup_closeMarkup (frame : Frame) (name : String) (size : Nat)
    (markup : List (String × Nat)) : (closeMarkup frame name size markup).markup = markup := rfl

/-- The number of elements that are open, those that are dropped included. -/
def height (b : Builder) : Nat := b.level + (b.dropped?.map Dropped.depth).getD 0

def DropsOpen (b : Builder) : Prop := ∀ dropped ∈ b.dropped?, 1 ≤ dropped.depth

theorem height_of_not_dropped (h : b.dropped? = none) : b.height = b.level := by
  rw [height, h]
  rfl

theorem dropsOpen_of_not_dropped (h : b.dropped? = none) : b.DropsOpen := by
  simp [DropsOpen, h]

theorem height_of_nil (hs : b.stack = []) (hd : b.dropped? = none) : b.height = 0 := by
  rw [height_of_not_dropped hd, level, hs]
  rfl

theorem eq_nil_of_height (hb : b.DropsOpen) (h : b.height = 0) :
    b.stack = [] ∧ b.dropped? = none := by
  rw [height] at h
  refine ⟨?_, ?_⟩
  · cases hs : b.stack with
    | nil => rfl
    | cons frame rest =>
      rw [level_eq hs] at h
      omega
  · cases hd : b.dropped? with
    | none => rfl
    | some dropped =>
      have hdepth := hb dropped hd
      rw [hd, Option.map_some, Option.getD_some] at h
      omega

theorem height_drop (b : Builder) (name : String) (span : Span) :
    (b.drop name span).height = b.height + 1 ∧ (b.drop name span).DropsOpen := by
  unfold drop
  split
  · next dropped hd =>
    refine ⟨?_, ?_⟩
    · simp only [height, hd, Option.map_some, Option.getD_some]
      exact (Nat.add_assoc _ _ _).symm
    · rintro _ ⟨⟩
      exact Nat.le_add_left _ _
  · next hd =>
    refine ⟨?_, ?_⟩
    · simp only [height, hd, Option.map_some, Option.getD_some, Option.map_none, Option.getD_none]
      rfl
    · rintro _ ⟨⟩
      exact Nat.le_refl _

/-- Where nothing is dropped it is the stack that tells how many elements are open. -/
theorem height_of_level {n m : Nat} (hd : b.dropped? = none) (hd' : b'.dropped? = none)
    (h : b'.level + n = b.level + m) : b'.height + n = b.height + m ∧ b'.DropsOpen := by
  rw [height_of_not_dropped hd, height_of_not_dropped hd']
  exact ⟨h, dropsOpen_of_not_dropped hd'⟩

theorem level_closed {frame parent frame' : Frame} {rest : List Frame}
    (hs : b.stack = frame :: parent :: rest) (hmarkup : frame.markup = [])
    (hs' : b'.stack = frame' :: rest) (hmarkup' : frame'.markup = parent.markup) :
    b'.level + 1 = b.level := by
  rw [level_eq hs, level_eq hs', hmarkup, hmarkup', List.map_cons, List.sum_cons, List.length_nil]
  omega

/-- Each start tag makes the elements that are open one more, and each end tag one less. -/
theorem Step.height (h : Step b event b') (hb : b.DropsOpen) :
    b'.height + event.ends = b.height + event.starts ∧ b'.DropsOpen := by
  cases h with
  | skipped _ => exact height_drop _ _ _
  | rejected hd hopens => exact height_drop _ _ _
  | markupOpened hd hs _ _ =>
    refine height_of_level hd hd ?_
    rw [level_eq hs, level_eq rfl, openMarkup, List.length_cons]
    simp only [Event.ends, Event.starts]
    omega
  | opened hd hopens =>
    refine height_of_level hd hd ?_
    rw [level_eq rfl, hopens.markup_eq, List.length_nil, level]
    simp only [Event.ends, Event.starts]
    omega
  | textPassed _ => exact ⟨rfl, hb⟩
  | textKept hd hs _ =>
    refine height_of_level hd hd ?_
    rw [level_eq hs]
    rfl
  | @dropEnded name span dropped hd =>
    have hdepth := hb dropped hd
    have hbefore : b.height = b.level + dropped.depth := by
      rw [Builder.height, hd]
      rfl
    by_cases hone : dropped.depth ≤ 1
    · rw [hbefore, if_pos hone]
      refine ⟨?_, by rintro _ ⟨⟩⟩
      change b.level + 0 + 1 = b.level + dropped.depth + 0
      omega
    · rw [hbefore, if_neg hone]
      refine ⟨?_, ?_⟩
      · change b.level + (dropped.depth - 1) + 1 = b.level + dropped.depth + 0
        omega
      · rintro _ ⟨⟩
        change 1 ≤ dropped.depth - 1
        omega
  | markupClosed hd hs hm =>
    refine height_of_level hd hd ?_
    rw [level_eq hs, level_eq rfl, hm, markup_closeMarkup, List.length_cons]
    simp only [Event.ends, Event.starts]
    omega
  | rootEnded hd hs hends =>
    refine height_of_level hd hd ?_
    rw [level_eq hs, hends.markup_eq]
    rfl
  | vetoed hd hs hends | filed hd hs hends | misplaced hd hs hends | attached hd hs hends =>
    exact height_of_level hd hd (level_closed hs hends.markup_eq rfl rfl)

theorem Run.height (h : Run b events b') (hb : b.DropsOpen) :
    b'.height + ends events = b.height + starts events ∧ b'.DropsOpen := by
  induction h with
  | nil => exact ⟨rfl, hb⟩
  | cons hstep _ ih =>
    obtain ⟨h₁, hb₁⟩ := hstep.height hb
    obtain ⟨h₂, hb₂⟩ := ih hb₁
    refine ⟨?_, hb₂⟩
    rw [starts_cons, ends_cons]
    omega

theorem Run.append_cases {first second : List Event} (h : Run b (first ++ second) b') :
    ∃ b₁, Run b first b₁ ∧ Run b₁ second b' := by
  induction first generalizing b with
  | nil => exact ⟨b, .nil, h⟩
  | cons event rest ih =>
    cases h with
    | cons hstep hrest =>
      obtain ⟨b₁, hfirst, hsecond⟩ := ih hrest
      exact ⟨b₁, .cons hstep hfirst, hsecond⟩

/-- Events between two moments at which no element is open are those of some nodes. -/
theorem Run.exists_nodes (h : Run b events b') (hs : b.stack = []) (hd : b.dropped? = none)
    (hs' : b'.stack = []) (hd' : b'.dropped? = none) : ∃ ns, events = eventsOf ns := by
  have hb := dropsOpen_of_not_dropped hd
  have hheight := height_of_nil hs hd
  have hheight' := height_of_nil hs' hd'
  obtain ⟨ns, rest, rfl, rfl | ⟨stop, others, rfl⟩ | hlt⟩ := Markup.exists_nodes events
  · exact ⟨ns, List.append_nil _⟩
  · obtain ⟨b₁, hns, hrest⟩ := h.append_cases
    obtain ⟨h₁, hb₁⟩ := hns.height hb
    have hpairs := starts_eventsOf ns
    cases hrest with
    | cons hstep _ =>
      obtain ⟨h₂, -⟩ := hstep.height hb₁
      simp only [EndTag.event, Event.starts, Event.ends] at h₂
      omega
  · obtain ⟨hrun, -⟩ := h.height hb
    have hpairs := starts_eventsOf ns
    rw [starts_append, ends_append] at hrun
    omega

end Builder

end KmlTree
