import KmlTree.Proofs.Document.Language
import KmlTree.Proofs.Document.Reachable
import KmlTree.Proofs.Markup.Spelling
import KmlTree.Proofs.Reading.Conformance

/-!
# How deep documents are nested

The limit on the elements that are open at once bounds the trees that are read. Main statement: in
every state of a reading, whatever observers answer, an open element has no more levels than the
elements around it leave to it, and neither has a document in the end; and a start tag that could be
taken otherwise is refused just where as many elements are open as may be.
-/
namespace KmlTree

open Markup Text

/-! ## Levels of a tree -/

mutual

/-- The number of levels of a tree. Fields count like elements, and unknown content like known. -/
def Element.height : Element → Nat
  | ⟨_, children, unknown⟩ => max (heightOfChildren children) (heightOfUnknown unknown) + 1

def heightOfChildren : List Child → Nat
  | [] => 0
  | .field .. :: rest => max 1 (heightOfChildren rest)
  | .element _ e :: rest => max e.height (heightOfChildren rest)

def heightOfUnknown : List Element → Nat
  | [] => 0
  | e :: rest => max e.height (heightOfUnknown rest)

end

theorem heightOfChildren_le_iff {children : List Child} {room : Nat} :
    heightOfChildren children ≤ room ↔ ∀ c ∈ children, c.node.height ≤ room := by
  induction children with
  | nil => simp [heightOfChildren]
  | cons c rest ih =>
    rw [List.forall_mem_cons, ← ih]
    cases c with
    | field slot f => exact Nat.max_le
    | element slot e => exact Nat.max_le

theorem heightOfUnknown_le_iff {unknown : List Element} {room : Nat} :
    heightOfUnknown unknown ≤ room ↔ ∀ u ∈ unknown, u.height ≤ room := by
  induction unknown with
  | nil => simp [heightOfUnknown]
  | cons u rest ih =>
    rw [List.forall_mem_cons, ← ih]
    exact Nat.max_le

namespace Element

variable {e : Element} {room : Nat}

theorem height_le_succ_iff : e.height ≤ room + 1 ↔ ∀ n ∈ e.nodes, n.height ≤ room := by
  obtain ⟨head, children, unknown⟩ := e
  rw [height, Nat.add_le_add_iff_right, Nat.max_le, heightOfChildren_le_iff,
    heightOfUnknown_le_iff, nodes, List.forall_mem_append, List.forall_mem_map]

theorem height_pos (e : Element) : 0 < e.height := by
  cases e
  exact Nat.succ_pos _

theorem nestsWithin_iff : e.NestsWithin room ↔ e.height ≤ room := by
  induction e using inductionOnNodes generalizing room with
  | step e ih =>
    constructor
    · rintro ⟨hnodes⟩
      exact height_le_succ_iff.2 fun n hn => (ih n hn).1 (hnodes n hn)
    · intro hheight
      obtain ⟨room, rfl⟩ : ∃ room', room = room' + 1 := ⟨room - 1, by have := e.height_pos; omega⟩
      exact .intro fun n hn => (ih n hn).2 (height_le_succ_iff.1 hheight n hn)

end Element

namespace Builder

variable {b : Builder}

/-! ## Open elements -/

/-- An open element leaves a level to each element that is open in it. -/
theorem Orderly.height_le {room : Nat} {stack : List Frame} (h : Orderly room stack) {i : Nat}
    {frame : Frame} (hi : stack[i]? = some frame) : frame.element.height ≤ room + 1 + i := by
  induction h generalizing i with
  | nil => cases hi
  | @cons room top rest _ growing _ _ ih =>
    cases i with
    | zero =>
      cases hi
      exact Element.height_le_succ_iff.2 fun n hn =>
        Element.nestsWithin_iff.1 (growing.nodes n hn).2
    | succ i =>
      have hle := ih hi
      omega

theorem Conformant.length_le (h : Conformant b) : b.stack.length ≤ b.options.maxDepth := by
  obtain ⟨room, -, hlength⟩ := h.stack
  omega

theorem Conformant.height_le (h : Conformant b) {i : Nat} {frame : Frame}
    (hi : b.stack.reverse[i]? = some frame) :
    frame.element.height ≤ b.options.maxDepth - i := by
  obtain ⟨room, horderly, hlength⟩ := h.stack
  obtain ⟨hlt, -⟩ := List.getElem?_eq_some_iff.1 hi
  rw [List.length_reverse] at hlt
  rw [List.getElem?_reverse hlt] at hi
  have hle := horderly.height_le hi
  omega

theorem level_eq_length (hsound : Sound b) (hconformant : Conformant b)
    (haround : ∀ f ∈ b.stack.head?, f.element.kind.isSimple = false) :
    b.level = b.stack.length := by
  have hsimple : ∀ f ∈ b.stack, f.element.kind.isSimple = false := by
    have htail := hsound.around
    cases hs : b.stack with
    | nil => simp
    | cons frame rest =>
      rw [hs] at haround htail
      exact List.forall_mem_cons.2 ⟨haround frame rfl, htail⟩
  obtain ⟨room, horderly, -⟩ := hconformant.stack
  rw [level]
  generalize b.stack = stack at hsimple horderly
  induction horderly with
  | nil => rfl
  | @cons room frame rest _ _ markup _ ih =>
    obtain ⟨hframe, hrest⟩ := List.forall_mem_cons.1 hsimple
    have hmarkup : frame.markup = [] := by
      by_contra hne
      rw [markup hne] at hframe
      cases hframe
    rw [List.map_cons, List.sum_cons, hmarkup, ih hrest, List.length_cons, List.length_nil]
    omega

/-! ## Room for one more -/

def withMaxDepth (b : Builder) (maxDepth : Nat) : Builder :=
  { b with options := { b.options with maxDepth } }

/-- A reading without observers takes an event, if only enough elements may be open at once. -/
def Permits (b : Builder) (event : Event) : Prop :=
  ∃ maxDepth b', (b.withMaxDepth maxDepth).next event = .ok b'

theorem Permits.next_startTag {name : String} {attributes : List (String × String)} {span : Span}
    (h : b.Permits (.startTag name attributes span)) (hd : b.dropped? = none)
    (haround : ∀ f ∈ b.stack.head?, f.skipsChildren = false ∧ f.element.kind.isSimple = false) :
    (b.options.maxDepth ≤ b.stack.length → b.next (.startTag name attributes span) =
      .error (.nestingTooDeep b.options.maxDepth (.ofSpan span))) ∧
    (b.stack.length < b.options.maxDepth → ∃ b', b.next (.startTag name attributes span) =
      .ok b') := by
  obtain ⟨maxDepth, b', hnext⟩ := h
  obtain ⟨frame, taken, hinner, hopens⟩ := next_opens (b := b.withMaxDepth maxDepth) hd haround hnext
  constructor
  · intro hfull
    have hnoRoot : b.root? = none := hopens.noRoot
    have hstart := startTag_eq hd haround name attributes span
    simp only [hnoRoot, Option.isSome_none, Bool.false_eq_true, if_false, hfull, if_true] at hstart
    rw [next, hstart]
  · intro hroom
    have hopens' : Opens b name attributes span frame taken :=
      ⟨hopens.noRoot, hroom, haround, hopens.outermost, hopens.element_eq, hopens.span_eq,
        hopens.ids_eq, hopens.free, hopens.prefixes_eq, hopens.markup_eq, hopens.taken_eq⟩
    exact ⟨_, hopens'.next_eq hd hinner.descends⟩

theorem take_nil_eq_iff {σ : Type} {event : Event} {outcome : Except ParseError Builder} {s : σ} :
    (b.take ([] : List (Observer σ)) event).run s = (outcome, s) ↔ b.next event = outcome := by
  rw [take_nil]
  exact ⟨congrArg Prod.fst, congrArg (·, s)⟩

/-- A reading without observers refuses a start tag that is permitted just where as many elements
are open as may be. -/
theorem Permits.iff_full {σ : Type} {options : ReadOptions} {events : List Event} {s s' : σ}
    {name : String} {attributes : List (String × String)} {span : Span}
    (h : b.Permits (.startTag name attributes span))
    (hrun : ((new options).takeAll ([] : List (Observer σ)) events).run s = (.ok b, s'))
    (haround : ∀ f ∈ b.stack.head?, f.element.kind.isSimple = false) :
    ((b.take ([] : List (Observer σ)) (.startTag name attributes span)).run s' =
        (.error (.nestingTooDeep options.maxDepth (.ofSpan span)), s') ↔
      b.stack.length = options.maxDepth) ∧
    ((∃ b', (b.take ([] : List (Observer σ)) (.startTag name attributes span)).run s' =
        (.ok b', s')) ↔ b.stack.length < options.maxDepth) := by
  have hfold : events.foldlM next (new options) = .ok b := by
    rw [takeAll_nil] at hrun
    exact congrArg Prod.fst hrun
  have hdescends : Descends b := foldlM_descends ⟨rfl, by simp [new]⟩ hfold
  have hle := ((takeAll_run hrun).conformant (conformant_new options)).length_le
  have hoptions : b.options = options := (takeAll_run hrun).options_eq
  obtain ⟨hfull, hroom⟩ := h.next_startTag hdescends.notDropped fun f hf =>
    ⟨hdescends.frames f (List.mem_of_mem_head? hf), haround f hf⟩
  rw [hoptions] at hle hfull hroom
  simp only [take_nil_eq_iff]
  rcases Nat.eq_or_lt_of_le hle with heq | hlt
  · rw [hfull (Nat.le_of_eq heq.symm)]
    simp [heq]
  · obtain ⟨b', hnext⟩ := hroom hlt
    rw [hnext]
    simp [hlt, Nat.ne_of_lt hlt]

end Builder

namespace Document

open Builder

variable {σ : Type}

theorem height_finish {options : ReadOptions} {events : List Event} {b : Builder} {d : Document}
    (hrun : Run (.new options) events b) (hfinish : b.finish = .ok d) :
    ∃ root, d.root? = some root ∧ root.height ≤ options.maxDepth := by
  have hconformant := hrun.conformant (conformant_new options)
  obtain ⟨-, -, root, ids, hroot, rfl⟩ := finish_eq_ok_iff.1 hfinish
  obtain ⟨-, hnests, -⟩ := hconformant.root (root, ids) hroot
  rw [hrun.options_eq] at hnests
  exact ⟨root, rfl, Element.nestsWithin_iff.1 hnests⟩

/-- The limit bounds the stack, the levels of each open element by what the elements around it leave
to it, and the levels of every document. Without observers, the stack outside of fields is as long
as there are elements open, and a start tag that is permitted is refused just where these are as
many as the limit says. -/
theorem nesting_bounded (options : ReadOptions) (observers : List (Observer σ)) :
    (∀ {events : List Event} {s s' : σ} {b : Builder},
      ((Builder.new options).takeAll observers events).run s = (.ok b, s') →
        b.stack.length ≤ options.maxDepth ∧
          ∀ i frame, b.stack.reverse[i]? = some frame →
            frame.element.height ≤ options.maxDepth - i) ∧
    (∀ {events : List Event} {s s' : σ} {d : Document},
      (ofEvents options observers events).run s = (.ok d, s') →
        ∃ root, d.root? = some root ∧ root.height ≤ options.maxDepth) ∧
    (∀ {source : String} {s s' : σ} {d : Document},
      (read options observers source).run s = (.ok d, s') →
        ∃ root, d.root? = some root ∧ root.height ≤ options.maxDepth) ∧
    ∀ {events : List Event} {s s' : σ} {b : Builder},
      ((Builder.new options).takeAll ([] : List (Observer σ)) events).run s = (.ok b, s') →
        (∀ f ∈ b.stack.head?, f.element.kind.isSimple = false) →
          starts events = ends events + b.stack.length ∧
          ∀ name attributes span, b.Permits (.startTag name attributes span) →
            ((b.take ([] : List (Observer σ)) (.startTag name attributes span)).run s' =
                (.error (.nestingTooDeep options.maxDepth (.ofSpan span)), s') ↔
              b.stack.length = options.maxDepth) ∧
            ((∃ b', (b.take ([] : List (Observer σ)) (.startTag name attributes span)).run s' =
                (.ok b', s')) ↔ b.stack.length < options.maxDepth) := by
  refine ⟨@fun events s s' b hrun => ?_, fun hrun => ?_, fun hrun => ?_,
    @fun events s s' b hrun haround => ⟨?_, ?_⟩⟩
  · have hconformant := (takeAll_run hrun).conformant (conformant_new options)
    have hoptions : b.options = options := (takeAll_run hrun).options_eq
    exact ⟨hoptions ▸ hconformant.length_le, fun i frame hi => hoptions ▸ hconformant.height_le hi⟩
  · obtain ⟨b, hb, hfinish⟩ := ofEvents_run hrun
    exact height_finish hb hfinish
  · rw [read_run] at hrun
    split at hrun
    · next d₀ s₀ hsource =>
      cases hrun
      obtain ⟨b, hb, hfinish⟩ := ofSource_run hsource
      exact height_finish (d := d₀) hb hfinish
    · cases hrun
  · have hb := takeAll_run hrun
    have hlevel := level_eq_length (hb.sound (sound_new options))
      (hb.conformant (conformant_new options)) haround
    have hnotDropped : b.dropped? = none := by
      rw [takeAll_nil] at hrun
      exact (foldlM_descends ⟨rfl, by simp [Builder.new]⟩ (congrArg Prod.fst hrun)).notDropped
    obtain ⟨hheight, -⟩ := hb.height (dropsOpen_of_not_dropped rfl)
    rw [height_of_not_dropped hnotDropped, hlevel, height_of_nil rfl rfl, Nat.zero_add] at hheight
    omega
  · exact fun name attributes span hpermits => hpermits.iff_full hrun haround

theorem read_folder : ∃ d,
    (read { maxDepth := 2 } ([] : List (Observer Unit)) "<kml><Folder/></kml>").run () =
      (.ok d, ()) := by
  have hchars : "<kml><Folder/></kml>" = String.ofList
      ('<' :: ("kml".toList ++ '>' :: '<' :: ("Folder".toList ++ '/' :: '>' ::
        '<' :: '/' :: ("kml".toList ++ ['>'])))) := by
    decide
  have hkml : IsTagName "kml" := by decide
  have hfolder : IsTagName "Folder" := by decide
  have hevents : events "<kml><Folder/></kml>" = { list :=
      [.startTag "kml" [] ⟨0, 5⟩, .startTag "Folder" [] ⟨5, 14⟩, .endTag "Folder" ⟨5, 14⟩,
        .endTag "kml" ⟨14, 20⟩] } := by
    rw [hchars, events_ofList_angle, eventsFrom_startTag hkml, eventsFrom_emptyTag hfolder,
      eventsFrom_endTag hkml, eventsFrom_end [] _ (by simp) rfl]
    rfl
  exact ⟨_, Prod.ext (@parse_eq _ { maxDepth := 2 } _ hevents) rfl⟩

/-- Where two elements may be open, a placemark in a document in `<kml>` is refused. -/
theorem nesting_bounded_placemark :
    let options : ReadOptions := { maxDepth := 2 }
    let opened : List Event := [.startTag "kml" [] ⟨0, 5⟩, .startTag "Document" [] ⟨5, 15⟩]
    let ended : List Event := [.endTag "Document" ⟨15, 26⟩, .endTag "kml" ⟨26, 32⟩]
    let unobserved : List (Observer Unit) := []
    (∃ b, ((Builder.new options).takeAll unobserved opened).run () = (.ok b, ()) ∧
      (b.stack.length ≤ 2 ∧
        ∀ i frame, b.stack.reverse[i]? = some frame → frame.element.height ≤ 2 - i) ∧
      (b.take unobserved (.startTag "Placemark" [] ⟨15, 26⟩)).run () =
        (.error (.nestingTooDeep 2 (.ofSpan ⟨15, 26⟩)), ())) ∧
    (∃ d, (ofEvents options unobserved (opened ++ ended)).run () = (.ok d, ()) ∧
      ∃ root, d.root? = some root ∧ root.height ≤ 2) ∧
    ∃ d, (read options unobserved "<kml><Folder/></kml>").run () = (.ok d, ()) ∧
      ∃ root, d.root? = some root ∧ root.height ≤ 2 := by
  intro options opened ended unobserved
  obtain ⟨hstates, hevents, hsource, htags⟩ := nesting_bounded options unobserved
  obtain ⟨b, hb, hlength, haround, hpermits⟩ : ∃ b,
      ((Builder.new options).takeAll unobserved opened).run () = (.ok b, ()) ∧
        b.stack.length = 2 ∧ (∀ f ∈ b.stack.head?, f.element.kind.isSimple = false) ∧
          b.Permits (.startTag "Placemark" [] ⟨15, 26⟩) :=
    ⟨_, rfl, rfl, by rintro _ ⟨⟩; rfl, 3, _, rfl⟩
  obtain ⟨d, hd⟩ : ∃ d, (ofEvents options unobserved (opened ++ ended)).run () = (.ok d, ()) :=
    ⟨_, rfl⟩
  obtain ⟨d', hread⟩ := read_folder
  obtain ⟨-, hplacemark⟩ := htags hb haround
  exact ⟨⟨b, hb, hstates hb, (hplacemark _ _ _ hpermits).1.2 hlength⟩, ⟨d, hd, hevents hd⟩, d',
    hread, hsource hread⟩

end Document

end KmlTree
