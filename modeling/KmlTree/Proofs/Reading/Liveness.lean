import KmlTree.Proofs.Document.Indexing
import KmlTree.Proofs.Reading.Starts

/-!
# Live identifiers

An identifier is live while an element that has it is open, or lies in the known content of an open
element. Main statement: a start tag is refused for its identifier exactly if the identifier is live,
and the error tells the start tag of the element that has it. An element that is dropped, kept as
unknown content or displaced gives back its identifiers, with those of all elements in it.
-/
namespace KmlTree

open Markup

namespace Builder

variable {σ : Type} {observers : List (Observer σ)} {b b' : Builder} {s s' : σ}

/-- An element that is open, or in the known content of an open element. -/
def Live (b : Builder) (x : Element) : Prop := ∃ frame ∈ b.stack, Element.Within frame.element x

def LiveAt (b : Builder) (starts : List Starts) (x : Element) (start : Nat) : Prop :=
  ∃ frame own path, (frame, own) ∈ b.stack.zip starts ∧ frame.element.at? path = some x ∧
    own path = some start

/-- No element that is open or in the known content of one has the identifier. -/
def Free (b : Builder) (id : String) : Prop := ∀ x, b.Live x → x.objectId? ≠ some id

/-- A start tag that is neither dropped nor part of the text of a field, and that may stand where it
does, up to the check of its identifier. -/
structure Checks (b : Builder) (name : String) (attributes : List (String × String)) (id : String) :
    Prop where
  notDropped : b.dropped? = none
  around : ∀ f ∈ b.stack.head?, f.skipsChildren = false ∧ f.element.kind.isSimple = false
  noRoot : b.root? = none
  depth_lt : b.stack.length < b.options.maxDepth
  outermost : b.stack = [] → (b.openedElement name attributes).kind ≠ .unknown ∧
    (b.openedElement name attributes).kind.isSimple = false
  objectId?_eq : (b.openedElement name attributes).objectId? = some id

/-- What is lost when an element ends: the element, if it is dropped or not taken in as known
content, or else the one that it displaces. -/
def Closing.lost? (closing : Closing) (flow : Flow) : Option Element :=
  if flow = .reject then some closing.child.element
  else
    match closing.parent.element.attach closing.child.element with
    | .ok ⟨_, some _, replaced?⟩ => replaced?.bind Child.element?
    | .ok ⟨_, none, _⟩ | .error _ => some closing.child.element

/-! ## Identifiers that are taken -/

section Taken

variable {events : List Event} {starts : List Starts} {id : String} {start : Nat} {x : Element}

theorem Located.live_iff (h : Located events b starts) :
    b.Live x ↔ ∃ start, b.LiveAt starts x start := by
  constructor
  · rintro ⟨frame, hframe, hwithin⟩
    obtain ⟨path, hx⟩ := Element.within_iff_at?.1 hwithin
    obtain ⟨i, hi⟩ := List.mem_iff_getElem?.1 hframe
    obtain ⟨hlt, -⟩ := List.getElem?_eq_some_iff.1 hi
    have hlt' : i < starts.length := h.marks.length_eq ▸ hlt
    have hmem : (frame, starts[i]) ∈ b.stack.zip starts :=
      List.mem_iff_getElem?.2
        ⟨i, List.getElem?_zip_eq_some.2 ⟨hi, List.getElem?_eq_getElem hlt'⟩⟩
    obtain ⟨start, hstart, -⟩ := List.forall₂_zip h.marks hmem path x hx
    exact ⟨start, frame, starts[i], path, hmem, hx, hstart⟩
  · rintro ⟨start, frame, own, path, hmem, hx, -⟩
    exact ⟨frame, (List.of_mem_zip hmem).1, Element.within_iff_at?.2 ⟨path, hx⟩⟩

theorem Located.mem_taken (h : Located events b starts) (hx : b.LiveAt starts x start)
    (hid : x.objectId? = some id) : (id, start) ∈ b.taken ∧ DeclaredAt events id start := by
  obtain ⟨frame, own, path, hmem, hx, hstart⟩ := hx
  obtain ⟨start', hstart', hmarks⟩ := List.forall₂_zip h.marks hmem path x hx
  rw [hstart] at hstart'
  cases hstart'
  exact hmarks id hid

/-- What is taken is live, as long as no root is complete. -/
theorem Sound.exists_live (h : Sound b) (hroot : b.root? = none)
    (hid : id ∈ b.taken.map Prod.fst) : ∃ x, b.Live x ∧ x.objectId? = some id := by
  have hlisted := (h.taken_perm_stack hroot).mem_iff.1 hid
  obtain ⟨frame, hframe, hmem⟩ := List.mem_flatMap.1 hlisted
  obtain ⟨⟨id', path⟩, hentry, heq⟩ := List.mem_map.1 hmem
  obtain rfl : id' = id := heq
  have hdeclared := (h.frames frame hframe).ids_perm.mem_iff.1 hentry
  obtain ⟨x, hx, hid⟩ := Element.mem_declared.1 hdeclared
  exact ⟨x, ⟨frame, hframe, Element.within_iff_at?.2 ⟨path, hx⟩⟩, hid⟩

theorem Sound.free_of_not_mem (h : Sound b) (hid : id ∉ b.taken.map Prod.fst) : b.Free id := by
  rintro x ⟨frame, hframe, hwithin⟩ hown
  obtain ⟨path, hx⟩ := Element.within_iff_at?.1 hwithin
  exact hid (h.mem_taken hframe hx hown)

theorem Located.lookup_taken (h : Located events b starts) (hroot : b.root? = none) :
    b.taken.lookup id = some start ↔ ∃ x, b.LiveAt starts x start ∧ x.objectId? = some id := by
  rw [lookup_eq_some_iff_mem h.sound.nodup]
  constructor
  · intro hmem
    obtain ⟨x, hlive, hid⟩ := h.sound.exists_live hroot (List.mem_map_of_mem hmem)
    obtain ⟨start', hx⟩ := h.live_iff.1 hlive
    have hmem' := (h.mem_taken hx hid).1
    have heq := (lookup_eq_some_iff_mem h.sound.nodup).2 hmem
    rw [(lookup_eq_some_iff_mem h.sound.nodup).2 hmem', Option.some.injEq] at heq
    exact ⟨x, heq ▸ hx, hid⟩
  · rintro ⟨x, hx, hid⟩
    exact (h.mem_taken hx hid).1

theorem Sound.lookup_taken_of_free (h : Sound b) (hroot : b.root? = none) (hfree : b.Free id) :
    b.taken.lookup id = none := by
  cases hlookup : b.taken.lookup id with
  | none => rfl
  | some start =>
    have hmem := (lookup_eq_some_iff_mem h.nodup).1 hlookup
    obtain ⟨x, hlive, hid⟩ := h.exists_live hroot (List.mem_map_of_mem hmem)
    exact absurd hid (hfree x hlive)

end Taken

/-! ## The check of an identifier -/

section Check

variable {name id : String} {attributes : List (String × String)} {span first : Text.Span}
  {place : Place} {start : Nat}

theorem Checks.startTag_eq (h : Checks b name attributes id) :
    b.startTag name attributes span =
      match b.taken.lookup id with
      | some start => .error (.duplicateId id (.ofSpan span) (.empty start))
      | none => .ok (.ask ⟨{ b with offset := span.stop, taken := (id, span.start) :: b.taken }, name,
          { element := b.openedElement name attributes, span, ids := [(id, [])],
            skipsChildren := false, prefixes := declaredPrefixes attributes }⟩) := by
  have hdepth : ¬b.options.maxDepth ≤ b.stack.length := Nat.not_le_of_lt h.depth_lt
  have hroot : ¬(b.stack = [] ∧ ((b.openedElement name attributes).kind = .unknown ∨
      (b.openedElement name attributes).kind.isSimple = true)) := by
    rintro ⟨hnil, hkind⟩
    obtain ⟨hknown, hsimple⟩ := h.outermost hnil
    simp [hknown, hsimple] at hkind
  rw [Builder.startTag_eq h.notDropped h.around]
  cases hlookup : b.taken.lookup id <;>
    simp only [h.noRoot, Option.isSome_none, Bool.false_eq_true, if_false, hdepth, hroot,
      h.objectId?_eq, hlookup]

theorem startTag_eq_duplicateId
    (h : b.startTag name attributes span = .error (.duplicateId id place first)) :
    Checks b name attributes id ∧ ∃ start, b.taken.lookup id = some start ∧
      place = .ofSpan span ∧ first = .empty start := by
  have hreached : b.dropped? = none ∧
      ∀ f ∈ b.stack.head?, f.skipsChildren = false ∧ f.element.kind.isSimple = false := by
    unfold startTag at h
    simp only at h
    split at h
    · cases h
    next hd =>
    refine ⟨by simpa using hd, fun f hf => ?_⟩
    obtain ⟨rest, hs⟩ := List.head?_eq_some_iff.1 hf
    simp only [hs] at h
    split at h
    · cases h
    next hskip =>
    split at h
    · cases h
    next hsimple => exact ⟨by simpa using hskip, by simpa using hsimple⟩
  obtain ⟨hd, haround⟩ := hreached
  simp only [startTag_eq hd haround] at h
  split at h
  · cases h
  next hroot =>
  split at h
  · cases h
  next hdepth =>
  split at h
  · cases h
  next hkind =>
  split at h
  · cases h
  next hid =>
  split at h
  · next start hlookup =>
    cases h
    refine ⟨⟨hd, haround, by simpa using hroot, Nat.lt_of_not_le hdepth, fun hnil => ?_, hid⟩,
      start, hlookup, rfl, rfl⟩
    simpa [hnil] using hkind
  · cases h

theorem settleOpening_ne_duplicateId (opening : Opening) (flow : Flow) :
    settleOpening opening flow ≠ .error (.duplicateId id place first) := by
  intro h
  cases flow <;> cases h

theorem text_ne_duplicateId (text : String) (offset : Nat) :
    b.text text offset ≠ .error (.duplicateId id place first) := by
  intro h
  unfold Builder.text at h
  simp only at h
  repeat' split at h
  all_goals cases h

theorem endTag_ne_duplicateId : b.endTag name span ≠ .error (.duplicateId id place first) := by
  intro h
  unfold endTag closeElement at h
  simp only at h
  repeat' split at h
  all_goals cases h

theorem settleClosing_ne_duplicateId (closing : Closing) (flow : Flow) :
    settleClosing closing flow ≠ .error (.duplicateId id place first) := by
  intro h
  unfold settleClosing attachChild at h
  simp only at h
  repeat' split at h
  all_goals cases h

/-- No event but a start tag whose identifier is checked leads to an error about an identifier, and
the start tag only if the identifier is taken. -/
theorem take_eq_duplicateId_iff {event : Event} :
    (b.take observers event).run s = (.error (.duplicateId id place first), s') ↔
      s' = s ∧ ∃ name attributes span start, event = .startTag name attributes span ∧
        Checks b name attributes id ∧ b.taken.lookup id = some start ∧ place = .ofSpan span ∧
          first = .empty start := by
  constructor
  · intro h
    cases event with
    | startTag name attributes span =>
      rw [take_startTag] at h
      split at h
      · next hstart =>
        cases h
        obtain ⟨hchecks, start, hlookup, hplace, hfirst⟩ := startTag_eq_duplicateId hstart
        exact ⟨rfl, name, attributes, span, start, rfl, hchecks, hlookup, hplace, hfirst⟩
      · cases h
      · exact absurd (congrArg Prod.fst h) (settleOpening_ne_duplicateId _ _)
    | text text offset => exact absurd (congrArg Prod.fst h) (text_ne_duplicateId _ _)
    | endTag name span =>
      rw [take_endTag] at h
      split at h
      · next hend =>
        cases h
        exact absurd hend endTag_ne_duplicateId
      · cases h
      · exact absurd (congrArg Prod.fst h) (settleClosing_ne_duplicateId _ _)
  · rintro ⟨rfl, name, attributes, span, start, rfl, hchecks, hlookup, rfl, rfl⟩
    rw [take_startTag, hchecks.startTag_eq, hlookup]

end Check

/-! ## Identifiers that are given back -/

section Lost

variable {name id : String} {attributes : List (String × String)} {span : Text.Span}

theorem Sound.free_of_release (h : Sound b) {taken : List (String × Nat)} {ids : Declared}
    (htaken : b.taken = release taken ids) (hid : id ∈ ids.map Prod.fst) : b.Free id := by
  refine h.free_of_not_mem fun hmem => ?_
  rw [htaken] at hmem
  obtain ⟨⟨id', start⟩, hentry, heq⟩ := List.mem_map.1 hmem
  obtain rfl : id' = id := heq
  exact (mem_release.1 hentry).2 hid

theorem free_of_rejected (h : Sound b) {opening : Opening}
    (hstart : b.startTag name attributes span = .ok (.ask opening))
    (hsettle : settleOpening opening .reject = .ok b')
    (hid : opening.frame.element.objectId? = some id) : b'.Free id := by
  obtain ⟨_, hdone, -⟩ | ⟨frame, taken, hask, hd, -, hopens⟩ := startTag_cases hstart
  · cases hdone
  cases hask
  have hsound := (settleOpening_step hd hopens hsettle).sound h
  cases hsettle
  refine hsound.free_of_release (drop_taken _ _ _) ?_
  rw [hopens.ids_eq]
  exact List.mem_map_of_mem (Element.mem_ownId.2 ⟨hid, rfl⟩)

/-- What a child displaces, or the child itself if it is not taken in as known content, is given
back. -/
theorem exists_release_of_attachChild {parent child : Frame} (hparent : Lists parent)
    (hchild : Lists child) (h : attachChild ⟨b, name, parent, child⟩ = .ok b') {lost : Element}
    (hlost : (Closing.mk b name parent child).lost? .descend = some lost) {path : Path}
    (hid : (id, path) ∈ lost.declared) :
    ∃ gone, b'.taken = release b.taken gone ∧ id ∈ gone.map Prod.fst := by
  have hwhole (heq : child.element = lost) : id ∈ child.ids.map Prod.fst :=
    List.mem_map_of_mem (hchild.ids_perm.mem_iff.2 (heq ▸ hid))
  cases ha : parent.element.attach child.element with
  | error rejected =>
    simp only [Closing.lost?, ha, reduceCtorEq, if_false, Option.some.injEq] at hlost
    simp only [attachChild, ha] at h
    split at h
    · cases h
    · cases h
      exact ⟨child.ids, rfl, hwhole hlost⟩
  | ok attached =>
    obtain ⟨element, i?, replaced?⟩ := attached
    simp only [attachChild, ha] at h
    simp only [Closing.lost?, ha, reduceCtorEq, if_false] at hlost
    have hattaches := Element.attach_cases ha
    cases hattaches with
    | unknown _ =>
      cases h
      exact ⟨child.ids, rfl, hwhole (Option.some.inj hlost)⟩
    | appended _ _ _ _ => cases hlost
    | @placed _ _ i c _ _ _ _ hi _ _ =>
      -- what was declared in the child that is displaced was declared at its position
      have hc : c.element? = some lost := hlost
      obtain ⟨x, hx, hown⟩ := Element.mem_declared.1 hid
      have hat : parent.element.at? (i :: path) = some x := by
        rw [Element.at?, hi, Option.bind_some, hc, Option.bind_some, hx]
      have hmem : (id, i :: path) ∈ parent.ids :=
        hparent.ids_perm.mem_iff.2 (Element.mem_declared.2 ⟨x, hat, hown⟩)
      simp only [Option.bind_some, hc, Option.isSome_some, if_true] at h
      cases h
      have hgone : (id, i :: path) ∈ (splitIds i parent.ids).2 :=
        List.mem_filter.2 ⟨hmem, by simp⟩
      exact ⟨(splitIds i parent.ids).2, rfl, List.mem_map_of_mem hgone⟩

theorem free_of_lost (h : Sound b) {closing : Closing} {flow : Flow}
    (hend : b.endTag name span = .ok (.ask closing)) (hsettle : settleClosing closing flow = .ok b')
    {lost x : Element} (hlost : closing.lost? flow = some lost) (hx : Element.Within lost x)
    (hid : x.objectId? = some id) : b'.Free id := by
  obtain ⟨_, hdone, -⟩ | ⟨frame, parent, rest, hd, hs, hends, hask⟩ := endTag_cases hend
  · cases hdone
  cases hask
  have hsound := (settleClosing_step hd hs hends hsettle).sound h
  have hframe := (h.frames frame (by simp [hs])).complete
  have hparent := h.frames parent (by simp [hs])
  obtain ⟨path, hat⟩ := Element.within_iff_at?.1 hx
  have hdeclared : (id, path) ∈ lost.declared := Element.mem_declared.2 ⟨x, hat, hid⟩
  cases flow with
  | stop => cases hsettle
  | reject =>
    cases hsettle
    cases hlost
    exact hsound.free_of_release rfl (List.mem_map_of_mem (hframe.ids_perm.mem_iff.2 hdeclared))
  | skipChildren =>
    obtain ⟨gone, htaken, hgone⟩ :=
      exists_release_of_attachChild hparent hframe hsettle hlost hdeclared
    exact hsound.free_of_release htaken hgone
  | descend =>
    obtain ⟨gone, htaken, hgone⟩ :=
      exists_release_of_attachChild hparent hframe hsettle hlost hdeclared
    exact hsound.free_of_release htaken hgone

end Lost

/-! ## Every reading -/

/-- In every state of a reading, each element that is open or in the known content of an open element
has a start tag that declares its identifier. A start tag whose identifier is checked is refused if
such an element has the identifier, and the error tells the start tag of that element; there is no
other error about an identifier, and where no such element has it, the observers decide about the new
element. The identifiers of what is dropped, kept as unknown content or displaced are free again. -/
theorem duplicateId_iff_live {options : ReadOptions} {events : List Event}
    (h : ((new options).takeAll observers events).run s = (.ok b, s')) :
    let starts := startsAfterAll observers (new options) s [] events
    (∀ x, b.Live x ↔ ∃ start, b.LiveAt starts x start) ∧
    (∀ x start id, b.LiveAt starts x start → x.objectId? = some id → DeclaredAt events id start) ∧
    (∀ event id place first s₁ s₂,
      (b.take observers event).run s₁ = (.error (.duplicateId id place first), s₂) ↔
        s₂ = s₁ ∧ ∃ name attributes span x start, event = .startTag name attributes span ∧
          Checks b name attributes id ∧ b.LiveAt starts x start ∧ x.objectId? = some id ∧
            place = .ofSpan span ∧ first = .empty start) ∧
    (∀ name attributes span id, Checks b name attributes id → b.Free id →
      ∃ opening, b.startTag name attributes span = .ok (.ask opening) ∧
        opening.frame.element = b.openedElement name attributes) ∧
    (∀ name attributes span opening b₁ id,
      b.startTag name attributes span = .ok (.ask opening) →
        settleOpening opening .reject = .ok b₁ → opening.frame.element.objectId? = some id →
          b₁.Free id) ∧
    ∀ name span closing flow b₁ lost x id, b.endTag name span = .ok (.ask closing) →
      settleClosing closing flow = .ok b₁ → closing.lost? flow = some lost →
        Element.Within lost x → x.objectId? = some id → b₁.Free id := by
  intro starts
  have hlocated : Located events b starts :=
    (located_new options).takeAll (fun _ hevent => hevent) h
  have hsound := hlocated.sound
  refine ⟨fun x => hlocated.live_iff, fun x start id hx hid => (hlocated.mem_taken hx hid).2,
    fun event id place first s₁ s₂ => ?_, fun name attributes span id hchecks hfree => ?_,
    fun name attributes span opening b₁ id => free_of_rejected hsound,
    fun name span closing flow b₁ lost x id hend hsettle => free_of_lost hsound hend hsettle⟩
  · rw [take_eq_duplicateId_iff]
    constructor
    · rintro ⟨rfl, name, attributes, span, start, rfl, hchecks, hlookup, hplace, hfirst⟩
      obtain ⟨x, hx, hid⟩ := (hlocated.lookup_taken hchecks.noRoot).1 hlookup
      exact ⟨rfl, name, attributes, span, x, start, rfl, hchecks, hx, hid, hplace, hfirst⟩
    · rintro ⟨rfl, name, attributes, span, x, start, rfl, hchecks, hx, hid, hplace, hfirst⟩
      have hlookup := (hlocated.lookup_taken hchecks.noRoot).2 ⟨x, hx, hid⟩
      exact ⟨rfl, name, attributes, span, start, rfl, hchecks, hlookup, hplace, hfirst⟩
  · have hstart : b.startTag name attributes span = _ := hchecks.startTag_eq
    rw [hsound.lookup_taken_of_free hchecks.noRoot hfree] at hstart
    exact ⟨_, hstart, rfl⟩

/-- A point where there is no place for it, and an open placemark in which a point takes the place of
another one. -/
def displacing : List Event :=
  [.startTag "Document" [] ⟨0, 10⟩,
    .startTag "Point" [("id", "p")] ⟨10, 25⟩, .endTag "Point" ⟨10, 25⟩,
    .startTag "Placemark" [("id", "p")] ⟨25, 43⟩,
    .startTag "Point" [("id", "q")] ⟨43, 58⟩, .endTag "Point" ⟨43, 58⟩,
    .startTag "Point" [("id", "r")] ⟨58, 73⟩, .endTag "Point" ⟨58, 73⟩]

def displaced : Builder where
  stack :=
    [{ element := ⟨{ kind := .placemark, attributes := ⟨[(.id, "p")]⟩ },
         [.element 13 ⟨{ kind := .point, attributes := ⟨[(.id, "r")]⟩ }, [], []⟩], []⟩
       span := ⟨25, 43⟩, ids := [("p", []), ("r", [0])], skipsChildren := false, prefixes := [] },
     { element := ⟨{ kind := .document }, [],
         [⟨{ kind := .point, attributes := ⟨[(.id, "p")]⟩ }, [], []⟩]⟩
       span := ⟨0, 10⟩, ids := [], skipsChildren := false, prefixes := [] }]
  taken := [("r", 58), ("p", 25)]
  warnings := [.misplaced "Document" "Point" (.ofSpan ⟨10, 25⟩)]
  offset := 73

/-- The identifier of the misplaced point went to the placemark, and that of the point that was
displaced is free. -/
theorem duplicateId_iff_live_displacing :
    ((new {}).takeAll ([] : List (Observer Unit)) displacing).run () = (.ok displaced, ()) ∧
      (displaced.take ([] : List (Observer Unit)) (.startTag "Point" [("id", "p")] ⟨73, 88⟩)).run () =
        (.error (.duplicateId "p" (.ofSpan ⟨73, 88⟩) (.empty 25)), ()) ∧
      (∃ x, displaced.LiveAt
          (startsAfterAll ([] : List (Observer Unit)) (new {}) () [] displacing) x 25 ∧
        x.objectId? = some "p") ∧
      displaced.Free "q" := by
  have hrun : ((new {}).takeAll ([] : List (Observer Unit)) displacing).run () =
      (.ok displaced, ()) := by
    have hsome : (((new {}).takeAll ([] : List (Observer Unit)) displacing).run ()).1.toOption =
        some displaced := by decide +kernel
    rcases hrun : ((new {}).takeAll ([] : List (Observer Unit)) displacing).run () with
      ⟨error | b, ⟨⟩⟩
    · rw [hrun] at hsome
      cases hsome
    · rw [hrun] at hsome
      exact congrArg (fun b => (Except.ok b, ())) (Option.some.inj hsome)
  have hp : (displaced.take ([] : List (Observer Unit))
      (.startTag "Point" [("id", "p")] ⟨73, 88⟩)).run () =
        (.error (.duplicateId "p" (.ofSpan ⟨73, 88⟩) (.empty 25)), ()) := rfl
  have hq : ∃ b', (displaced.take ([] : List (Observer Unit))
      (.startTag "Point" [("id", "q")] ⟨73, 88⟩)).run () = (.ok b', ()) := ⟨_, rfl⟩
  have hchecks : Checks displaced "Point" [("id", "q")] "q" := by
    refine ⟨rfl, ?_, rfl, ?_, ?_, rfl⟩
    · rintro _ ⟨⟩
      exact ⟨rfl, rfl⟩
    · decide +kernel
    · rintro ⟨⟩
  obtain ⟨hlive, -, herror, -⟩ := duplicateId_iff_live hrun
  refine ⟨hrun, hp, ?_, fun x hx hid => ?_⟩
  · obtain ⟨-, -, -, -, x, start, -, -, hx, hid, -, hfirst⟩ := (herror _ _ _ _ _ _).1 hp
    cases hfirst
    exact ⟨x, hx, hid⟩
  · obtain ⟨b', hq⟩ := hq
    obtain ⟨start, hx⟩ := (hlive x).1 hx
    have hrefused := (herror (.startTag "Point" [("id", "q")] ⟨73, 88⟩) "q" (.ofSpan ⟨73, 88⟩)
      (.empty start) () ()).2 ⟨rfl, _, _, _, x, start, rfl, hchecks, hx, hid, rfl, rfl⟩
    rw [hrefused] at hq
    cases hq

end Builder

end KmlTree
