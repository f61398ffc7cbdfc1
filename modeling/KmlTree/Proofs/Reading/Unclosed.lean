import KmlTree.Proofs.Reading.Conformance
import KmlTree.Proofs.Reading.Levels
import KmlTree.Proofs.Reading.Opened

/-!
# Elements that are not ended

A builder keeps the start tags of the elements that are open in three places: in the frames of its
stack, by their names alone in the text of a field, and of those that are dropped it counts all but
the outermost. Here the start tags are followed beside the builder. Main statement: where the events
leave elements open, the end of the source is an error that tells the start tag of an open element,
with just those passed over that are dropped in it or open in its text.
-/
namespace KmlTree

namespace Markup

def openAfter (tags : List StartTag) : Event → List StartTag
  | .startTag name attributes span => ⟨name, attributes, span⟩ :: tags
  | .text .. => tags
  | .endTag .. => tags.tail

/-- The start tags that some events leave open, the innermost first. -/
def openTags (events : List Event) : List StartTag := events.foldl openAfter []

end Markup

open Markup Text

namespace Builder

variable {b b' : Builder} {tags : List StartTag}

theorem names_openedElement (b : Builder) (name : String) (attributes : List (String × String)) :
    Names name (b.openedElement name attributes).name := by
  have hlocal := names_nameIn (declaredPrefixes attributes :: b.stack.map Frame.prefixes) name
  rw [← localName_eq] at hlocal
  rw [name_openedElement]
  unfold elementFor
  split
  · rwa [Element.name_ofName]
  · split
    · exact .inl rfl
    · rwa [Element.name_ofName]

/-! ## Start tags beside a builder -/

/-- A frame is that of a start tag. -/
structure OpenedBy (frame : Frame) (tag : StartTag) : Prop where
  span_eq : tag.span = frame.span
  named : Names tag.name frame.element.name

/-- Frames are those of start tags, each with the tags that are open in its text above its own. -/
inductive Stacked : List Frame → List StartTag → Prop
  | nil : Stacked [] []
  | cons {frame : Frame} {rest : List Frame} {inner tags : List StartTag} {tag : StartTag}
      (length_eq : inner.length = frame.markup.length) (own : OpenedBy frame tag)
      (around : Stacked rest tags) : Stacked (frame :: rest) (inner ++ tag :: tags)

/-- What is dropped has start tags, of which the outermost is known and the others are counted. -/
inductive Counted : Option Dropped → List StartTag → Prop
  | nothing : Counted none []
  | counted {dropped : Dropped} {inner : List StartTag} {tag : StartTag}
      (depth_eq : dropped.depth = inner.length + 1) (name_eq : dropped.name = tag.name)
      (span_eq : dropped.span = tag.span) : Counted (some dropped) (inner ++ [tag])

/-- The start tags that are open, first those of what is dropped. -/
def Tracks (b : Builder) (tags : List StartTag) : Prop :=
  ∃ dropped kept, tags = dropped ++ kept ∧ Counted b.dropped? dropped ∧ Stacked b.stack kept

theorem tracks_new (options : ReadOptions) : Tracks (new options) [] :=
  ⟨[], [], rfl, .nothing, .nil⟩

theorem Tracks.stacked (h : Tracks b tags) (hd : b.dropped? = none) : Stacked b.stack tags := by
  obtain ⟨dropped, kept, rfl, hcounted, hstacked⟩ := h
  rw [hd] at hcounted
  cases hcounted
  exact hstacked

theorem Stacked.tracks (h : Stacked b.stack tags) (hd : b.dropped? = none) : Tracks b tags :=
  ⟨[], tags, rfl, hd ▸ .nothing, h⟩

theorem Tracks.congr (h : Tracks b tags) (hdropped : b'.dropped? = b.dropped?)
    (hstack : b'.stack = b.stack) : Tracks b' tags := by
  obtain ⟨dropped, kept, heq, hcounted, hstacked⟩ := h
  exact ⟨dropped, kept, heq, hdropped ▸ hcounted, hstack ▸ hstacked⟩

theorem Tracks.drop (h : Tracks b tags) (name : String) (attributes : List (String × String))
    (span : Span) : Tracks (b.drop name span) (⟨name, attributes, span⟩ :: tags) := by
  obtain ⟨dropped, kept, rfl, hcounted, hstacked⟩ := h
  refine ⟨⟨name, attributes, span⟩ :: dropped, kept, rfl, ?_, by rwa [drop_stack]⟩
  unfold Builder.drop
  generalize b.dropped? = dropped? at hcounted
  cases hcounted with
  | nothing => exact @Counted.counted _ [] _ rfl rfl rfl
  | @counted _ inner _ hdepth hname hspan =>
    exact @Counted.counted _ (⟨name, attributes, span⟩ :: inner) _ (congrArg (· + 1) hdepth) hname
      hspan

theorem Counted.tail {dropped : Dropped} (h : Counted (some dropped) tags) :
    Counted (if dropped.depth ≤ 1 then none else some { dropped with depth := dropped.depth - 1 })
      tags.tail ∧ tags ≠ [] := by
  cases h with
  | @counted _ inner tag hdepth hname hspan =>
    refine ⟨?_, by simp⟩
    cases inner with
    | nil =>
      rw [hdepth, List.length_nil, if_pos (Nat.le_refl _)]
      exact .nothing
    | cons first inner =>
      rw [List.length_cons] at hdepth
      rw [if_neg (by omega)]
      exact .counted (by simp only [hdepth, Nat.add_sub_cancel]) hname hspan

section Stacked

variable {frame parent frame' : Frame} {rest : List Frame}

/-- What a frame holds does not matter, apart from its name. -/
theorem Stacked.congr (h : Stacked (frame :: rest) tags) (hspan : frame'.span = frame.span)
    (hname : frame'.element.name = frame.element.name) (hmarkup : frame'.markup = frame.markup) :
    Stacked (frame' :: rest) tags := by
  cases h with
  | cons hlength hown hrest =>
    exact .cons (hmarkup ▸ hlength) ⟨hown.span_eq.trans hspan.symm, hname ▸ hown.named⟩ hrest

theorem Stacked.openMarkup (h : Stacked (frame :: rest) tags) (tag : StartTag) :
    Stacked (openMarkup frame tag.name tag.attributes :: rest) (tag :: tags) := by
  cases h with
  | @cons _ _ inner tags own hlength hown hrest =>
    exact @Stacked.cons _ _ (tag :: inner) _ _ (congrArg (· + 1) hlength)
      ⟨hown.span_eq, hown.named⟩ hrest

theorem Stacked.closeMarkup (h : Stacked (frame :: rest) tags) {name : String} {size : Nat}
    {markup : List (String × Nat)} (hmarkup : frame.markup = (name, size) :: markup) :
    Stacked (closeMarkup frame name size markup :: rest) tags.tail := by
  cases h with
  | @cons _ _ inner tags own hlength hown hrest =>
    rw [hmarkup] at hlength
    cases inner with
    | nil => cases hlength
    | cons first inner => exact .cons (Nat.succ.inj hlength) ⟨hown.span_eq, hown.named⟩ hrest

theorem Stacked.tail (h : Stacked (frame :: rest) tags) (hmarkup : frame.markup = []) :
    Stacked rest tags.tail := by
  cases h with
  | @cons _ _ inner tags own hlength hown hrest =>
    rw [hmarkup] at hlength
    cases List.length_eq_zero_iff.1 hlength
    exact hrest

theorem Stacked.closed {element : Element} {ids : Declared}
    (h : Stacked (frame :: parent :: rest) tags) (hmarkup : frame.markup = [])
    (hname : element.name = parent.element.name) :
    Stacked ({ parent with element, ids } :: rest) tags.tail :=
  (h.tail hmarkup).congr rfl hname rfl

end Stacked

theorem Step.tracks {event : Event} (h : Step b event b') (hb : Tracks b tags) :
    Tracks b' (openAfter tags event) := by
  cases h with
  | skipped _ | rejected _ _ =>
    refine Tracks.drop ?_ _ _ _
    exact hb.congr rfl rfl
  | @markupOpened name attributes span frame rest hd hs _ _ =>
    have hstacked := hb.stacked hd
    rw [hs] at hstacked
    exact (hstacked.openMarkup ⟨name, attributes, span⟩).tracks hd
  | @opened name attributes span frame taken hd hopens =>
    have hmarkup : frame.markup.length = 0 := by rw [hopens.markup_eq, List.length_nil]
    have hnamed := b.names_openedElement name attributes
    rw [← hopens.element_eq] at hnamed
    have hown : OpenedBy frame ⟨name, attributes, span⟩ := ⟨hopens.span_eq.symm, hnamed⟩
    exact (@Stacked.cons _ _ [] _ _ hmarkup.symm hown (hb.stacked hd)).tracks hd
  | textPassed _ => exact hb.congr rfl rfl
  | textKept hd hs _ =>
    have hstacked := hb.stacked hd
    rw [hs] at hstacked
    exact Stacked.tracks (hstacked.congr rfl rfl rfl) hd
  | dropEnded hd =>
    obtain ⟨dropped, kept, rfl, hcounted, hstacked⟩ := hb
    rw [hd] at hcounted
    obtain ⟨htail, hne⟩ := hcounted.tail
    exact ⟨dropped.tail, kept, List.tail_append_of_ne_nil hne, htail, hstacked⟩
  | markupClosed hd hs hm =>
    have hstacked := hb.stacked hd
    rw [hs] at hstacked
    exact (hstacked.closeMarkup hm).tracks hd
  | rootEnded hd hs hends | vetoed hd hs hends =>
    have hstacked := hb.stacked hd
    rw [hs] at hstacked
    exact (hstacked.tail hends.markup_eq).tracks hd
  | attached hd hs hends ha | filed hd hs hends ha =>
    have hstacked := hb.stacked hd
    rw [hs] at hstacked
    exact (hstacked.closed hends.markup_eq (Element.attach_cases ha).name).tracks hd
  | @misplaced _ _ _ parent _ rejected hd hs hends _ _ =>
    have hstacked := hb.stacked hd
    rw [hs] at hstacked
    have hname : (parent.element.addUnknown rejected.child).name = parent.element.name := rfl
    exact (hstacked.closed hends.markup_eq hname).tracks hd

theorem Run.tracks {events : List Event} (h : Run b events b') (hb : Tracks b tags) :
    Tracks b' (events.foldl openAfter tags) := by
  induction h generalizing tags with
  | nil => exact hb
  | cons hstep _ ih => exact ih (hstep.tracks hb)

/-! ## The end of the source -/

/-- The number of open elements that the end of the source passes over: those that are dropped in
the innermost one of the stack and those that are open in its text, or without a stack all that are
dropped but the outermost. -/
def passedOver (b : Builder) : Nat :=
  let dropped := (b.dropped?.map Dropped.depth).getD 0
  match b.stack with
  | [] => dropped - 1
  | frame :: _ => dropped + frame.markup.length

theorem Counted.length_eq {dropped? : Option Dropped} (h : Counted dropped? tags) :
    tags.length = (dropped?.map Dropped.depth).getD 0 := by
  cases h with
  | nothing => rfl
  | counted hdepth _ _ => simp [hdepth]

/-- Where an element is open, the end of the source is an error about it. -/
theorem Tracks.finish_eq (h : Tracks b tags) (hopen : 0 < b.height) :
    ∃ tag name, tags[b.passedOver]? = some tag ∧ Names tag.name name ∧
      b.finish = .error (.incomplete name ⟨.ofOffset b.offset, tag.span⟩) := by
  obtain ⟨dropped, kept, rfl, hcounted, hstacked⟩ := h
  have hlength := hcounted.length_eq
  unfold passedOver finish
  rw [height, level] at hopen
  rw [← hlength] at hopen ⊢
  generalize b.stack = stack at hstacked hopen ⊢
  cases hstacked with
  | nil =>
    generalize b.dropped? = dropped? at hcounted ⊢
    cases hcounted with
    | nothing => cases hopen
    | @counted outermost inner tag hdepth hname hspan =>
      refine ⟨tag, outermost.name, ?_, .inl hname, ?_⟩
      · simp
      · simp [hspan]
  | @cons frame rest inner around tag hmarkup hown hrest =>
    refine ⟨tag, frame.element.name, ?_, hown.named, ?_⟩
    · simp only [← hmarkup]
      rw [← List.append_assoc, ← List.length_append, List.getElem?_append_right (Nat.le_refl _),
        Nat.sub_self, List.getElem?_cons_zero]
    · rw [hown.span_eq]

theorem innermost_span_iff {i : Nat} {tag : StartTag} (htag : tags[i]? = some tag)
    (hnodup : (tags.map StartTag.span).Nodup) :
    (∃ innermost ∈ tags.head?, innermost.span = tag.span) ↔ i = 0 := by
  rw [List.head?_eq_getElem?]
  constructor
  · rintro ⟨innermost, hinnermost, hspan⟩
    obtain ⟨hlt, -⟩ := List.getElem?_eq_some_iff.1 htag
    refine (List.getElem?_inj (by rwa [List.length_map]) hnodup).1 ?_
    rw [List.getElem?_map, List.getElem?_map, htag, hinnermost, Option.map_some, Option.map_some,
      hspan]
  · rintro rfl
    exact ⟨tag, htag, rfl⟩

end Builder

namespace Document

open Builder

variable {σ : Type}

/-- Where the events that are taken leave an element open, the end of the source is an error that
tells where the events end, and the start tag of an open element with its name. This is not always
the innermost one: it is so just where nothing is passed over. -/
theorem finish_unclosed {options : ReadOptions} {observers : List (Observer σ)}
    {events : List Event} {s s' : σ} {b : Builder}
    (hrun : ((Builder.new options).takeAll observers events).run s = (.ok b, s'))
    (hopen : ends events < starts events) :
    ∃ tag name, (openTags events)[b.passedOver]? = some tag ∧ Names tag.name name ∧
      b.finish = .error (.incomplete name ⟨.ofOffset b.offset, tag.span⟩) ∧
      (((openTags events).map StartTag.span).Nodup →
        ((∃ innermost ∈ (openTags events).head?, innermost.span = tag.span) ↔
          b.passedOver = 0)) := by
  have hb := takeAll_run hrun
  have htracks : Tracks b (openTags events) := hb.tracks (tracks_new options)
  obtain ⟨hheight, -⟩ := hb.height (dropsOpen_of_not_dropped rfl)
  rw [height_of_nil (b := Builder.new options) rfl rfl] at hheight
  obtain ⟨tag, name, htag, hnamed, hfinish⟩ := htracks.finish_eq (by omega)
  exact ⟨tag, name, htag, hnamed, hfinish, innermost_span_iff htag⟩

def droppingAll : Observer Unit where
  startElement _ := pure .reject

/-- A folder in a root that is dropped is passed over. -/
theorem finish_unclosed_dropped :
    let events : List Event := [.startTag "kml" [] ⟨0, 5⟩, .startTag "Folder" [] ⟨5, 13⟩]
    ∃ b, ((Builder.new {}).takeAll [droppingAll] events).run () = (.ok b, ()) ∧
      ends events < starts events ∧ b.passedOver = 1 ∧
      b.finish = .error (.incomplete "kml" ⟨.ofOffset 13, ⟨0, 5⟩⟩) := by
  intro events
  obtain ⟨b, hrun, hpassed, hoffset⟩ : ∃ b,
      ((Builder.new {}).takeAll [droppingAll] events).run () = (.ok b, ()) ∧
        b.passedOver = 1 ∧ b.offset = 13 :=
    ⟨_, rfl, rfl, rfl⟩
  obtain ⟨tag, name, htag, hnamed, hfinish, -⟩ := finish_unclosed hrun (by decide)
  rw [hpassed] at htag
  obtain rfl : (⟨"kml", [], ⟨0, 5⟩⟩ : StartTag) = tag := Option.some.inj htag
  have hname : name = "kml" := by
    rcases hnamed with hname | ⟨p, hsplit⟩
    · exact hname
    · cases hsplit
  rw [hname, hoffset] at hfinish
  exact ⟨b, hrun, by decide, hpassed, hfinish⟩

def withoutFolders : Observer Unit where
  startElement e := pure (if e.kind = .folder then .reject else .descend)

/-- Where a folder is dropped, the end of the source within it is an error that tells the element
around the folder, though its end is not the first that is missing. -/
theorem finish_passesOver_folder :
    let events : List Event := [.startTag "kml" [] ⟨0, 5⟩, .startTag "Document" [] ⟨5, 15⟩,
      .startTag "Folder" [] ⟨15, 23⟩]
    (∃ b, ((Builder.new {}).takeAll [withoutFolders] events).run () = (.ok b, ()) ∧
      b.finish = .error (.incomplete "Document" ⟨.ofOffset 23, ⟨5, 15⟩⟩)) ∧
    ends events < starts events ∧ (openTags events).head? = some ⟨"Folder", [], ⟨15, 23⟩⟩ :=
  ⟨⟨_, rfl, rfl⟩, by decide, rfl⟩

end Document

end KmlTree
