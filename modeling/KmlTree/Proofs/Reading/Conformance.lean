import KmlTree.Proofs.Reading.Identifiers
import KmlTree.Proofs.Tree.Edits

/-!
# Trees that are read conform

While a source text is read, every open element fits the elements that it holds, and these are
complete. Main statement: no step can break this, whatever the observers answer.
-/
namespace KmlTree

namespace Kind

theorem of_isSimple {k : Kind} (h : k.isSimple = true) :
    k ≠ .unknown ∧ k.isAbstract = false ∧ k.hasText = true := by
  have hall := of_all
    (p := fun k => !k.isSimple || (k != .unknown && !k.isAbstract && k.hasText)) (by decide +kernel) k
  simpa [h, and_assoc] using hall

end Kind

namespace Element

variable {e child : Element} {room : Nat}

/-! ## Elements without anything in them -/

theorem fitting_empty {kind : Kind} {writtenName? : Option String}
    (hknown : kind ≠ .unknown → writtenName? = none ∧ kind.isAbstract = false)
    (hunknown : kind = .unknown → writtenName? ≠ none) :
    Fitting ⟨{ kind, writtenName? }, [], []⟩ where
  declared := by
    intro a ha
    cases ha
  declared_nodup := .nil
  other := by
    intro key hkey
    cases hkey
  other_nodup := .nil
  node := by
    intro c hc
    cases hc
  known := hknown
  unnamed := fun hkind => ⟨hunknown hkind, rfl, by simp⟩
  text := fun _ _ => rfl
  simple := fun _ => rfl
  placed := by
    intro c hc
    cases hc
  room := .nil
  kept := by simp

theorem fitting_unnamed (name : String) : Fitting (unnamed name) :=
  fitting_empty (fun hkind => absurd rfl hkind) (by simp)

theorem fitting_ofName (name : String) : Fitting (ofName name) := by
  unfold ofName
  split
  · exact fitting_unnamed name
  · next hkind =>
    exact fitting_empty (fun hknown => ⟨rfl, (Kind.ofTag_known hknown).2⟩)
      (fun hunknown => absurd hunknown hkind)

theorem ofTag_name_ofName {name : String} (h : (ofName name).kind = .unknown) :
    Kind.ofTag (ofName name).name = .unknown := by
  rwa [name_ofName, ← kind_ofName]

theorem Fitting.withText (h : Fitting e) {text : String}
    (htext : e.kind ≠ .unknown → e.kind.hasText = false → text = "") : Fitting { e with text } :=
  ⟨h.toStored.withText text, h.known, h.unnamed, htext, h.simple, h.placed, h.room, h.kept⟩

theorem Fitting.withFieldText (h : Fitting e) (hsimple : e.kind.isSimple = true) (text : String) :
    Fitting { e with text } := by
  refine h.withText fun _ hnone => ?_
  rw [(Kind.of_isSimple hsimple).2.2] at hnone
  cases hnone

theorem conforms_element {f : Field} (h : f.kind.isSimple = true) : Conforms f.element := by
  obtain ⟨hunknown, habstract, -⟩ := Kind.of_isSimple h
  have hempty : Fitting ⟨{ kind := f.kind, writtenName? := none }, [], []⟩ :=
    fitting_empty (fun _ => ⟨rfl, habstract⟩) (fun heq => absurd heq hunknown)
  have hfitting : Fitting f.element := hempty.withFieldText h f.text
  exact ⟨hfitting, fun hnodes => absurd rfl hnodes⟩

/-! ## Elements that grow -/

/-- What is in an element is complete and leaves room around it. -/
structure Growing (room : Nat) (e : Element) : Prop where
  fitting : Fitting e
  nodes : ∀ n ∈ e.nodes, n.Every Conforms ∧ n.NestsWithin room

theorem Growing.withText (h : Growing room e) {text : String}
    (htext : e.kind ≠ .unknown → e.kind.hasText = false → text = "") :
    Growing room { e with text } :=
  ⟨h.fitting.withText htext, h.nodes⟩

theorem Growing.withFieldText (h : Growing room e) (hsimple : e.kind.isSimple = true)
    (text : String) : Growing room { e with text } :=
  ⟨h.fitting.withFieldText hsimple text, h.nodes⟩

theorem Growing.complete (h : Growing room e) :
    (Builder.complete e).Every Conforms ∧ (Builder.complete e).NestsWithin (room + 1) := by
  unfold Builder.complete
  split
  · next hempty =>
    have hnil : e.nodes = [] := nodes_eq_nil_iff.2 (by simpa using hempty)
    exact ⟨.intro ⟨h.fitting, fun hnodes => absurd hnil hnodes⟩ fun n hn => (h.nodes n hn).1,
      .intro fun n hn => (h.nodes n hn).2⟩
  · have htext : e.kind ≠ .unknown → e.kind.hasText = false → Text.trim e.text = "" := by
      intro hkind hnone
      rw [h.fitting.text hkind hnone]
      rfl
    exact ⟨.intro ⟨h.fitting.withText htext, fun _ => Text.trim_trim e.text⟩
        fun n hn => (h.nodes n hn).1, .intro fun n hn => (h.nodes n hn).2⟩

theorem mem_nodes_of_attaches {e' n : Element} {i : Nat} {replaced? : Option Child}
    (ha : e.Attaches child ⟨e', some i, replaced?⟩) (hn : n ∈ e'.nodes) :
    n ∈ e.nodes ∨ ∃ position, n = (child.toChild position).node := by
  cases ha with
  | @placed position _ _ _ _ _ _ _ _ _ _ =>
    rcases List.mem_append.1 hn with hn | hn
    · obtain ⟨c, hc, rfl⟩ := List.mem_map.1 hn
      rcases List.mem_or_eq_of_mem_set hc with hc | rfl
      · exact Or.inl (List.mem_append_left _ (List.mem_map_of_mem hc))
      · exact Or.inr ⟨position, rfl⟩
    · exact Or.inl (List.mem_append_right _ hn)
  | @appended position _ _ _ _ _ =>
    rcases List.mem_append.1 hn with hn | hn
    · obtain ⟨c, hc, rfl⟩ := List.mem_map.1 hn
      rcases List.mem_append.1 hc with hc | hc
      · exact Or.inl (List.mem_append_left _ (List.mem_map_of_mem hc))
      · exact Or.inr ⟨position, congrArg Child.node (List.mem_singleton.1 hc)⟩
    · exact Or.inl (List.mem_append_right _ hn)

/-- A child is as complete as the element it was made of. -/
theorem every_node_toChild (hchild : child.Every Conforms ∧ child.NestsWithin room)
    (position : Nat) : (child.toChild position).node.Every Conforms ∧
      (child.toChild position).node.NestsWithin room := by
  unfold toChild
  split
  · next hsimple =>
    have hpos := hchild.2.pos
    obtain ⟨room, rfl⟩ := Nat.exists_eq_succ_of_ne_zero (Nat.ne_of_gt hpos)
    exact ⟨.intro (conforms_element hsimple) (by simp [Child.node, nodes_element]),
      .intro (by simp [Child.node, nodes_element])⟩
  · exact hchild

theorem Growing.attach (h : Growing room e) (hsimple : e.kind.isSimple = false)
    (hchild : child.Every Conforms ∧ child.NestsWithin room) {e' : Element} {i : Nat}
    {replaced? : Option Child} (ha : e.Attaches child ⟨e', some i, replaced?⟩) :
    Growing room e' := by
  refine ⟨h.fitting.attach hsimple ha, fun n hn => ?_⟩
  rcases mem_nodes_of_attaches ha hn with hn | ⟨position, rfl⟩
  · exact h.nodes n hn
  · exact every_node_toChild hchild position

theorem Growing.addUnknown (h : Growing room e) (hsimple : e.kind.isSimple = false)
    (hchild : child.Every Conforms ∧ child.NestsWithin room)
    (hunknown : e.kind = .unknown → child.kind = .unknown)
    (hkept : e.kind ≠ .unknown → (child.kind = .unknown ∧ Kind.ofTag child.name = .unknown) ∨
      (child.kind ≠ .unknown ∧ e.kind.slotFor? child.kind = none)) :
    Growing room (e.addUnknown child) := by
  refine ⟨h.fitting.addUnknown hsimple hunknown hkept, fun n hn => ?_⟩
  have hnodes : (e.addUnknown child).nodes = e.nodes ++ [child] := by
    rw [Element.nodes, Element.nodes, List.append_assoc]
    rfl
  rw [hnodes] at hn
  rcases List.mem_append.1 hn with hn | hn
  · exact h.nodes n hn
  · rw [List.mem_singleton.1 hn]
    exact hchild

end Element

namespace Builder

open Element

theorem fitting_openedElement (b : Builder) (name : String) (attributes : List (String × String)) :
    Fitting (b.openedElement name attributes) := by
  have hfor : Fitting
      (elementFor b.stack name (localName (declaredPrefixes attributes) b.stack name)) := by
    unfold elementFor
    split
    · exact fitting_ofName _
    · split
      · exact fitting_unnamed _
      · exact fitting_ofName _
  have hstored := hfor.toStored.setAttributes attributes
  change Stored (b.openedElement name attributes) at hstored
  obtain ⟨known, others, heq⟩ := b.openedElement_eq name attributes
  rw [heq] at hstored ⊢
  exact ⟨hstored, hfor.known, hfor.unnamed, hfor.text, hfor.simple, hfor.placed, hfor.room,
    hfor.kept⟩

/-! ## Open elements -/

/-- How an element stands to the element that it is open in, or as a root. -/
def Below : List Frame → Element → Prop
  | [], e => e.kind ≠ .unknown ∧ e.kind.isSimple = false
  | parent :: _, e => parent.element.kind.isSimple = false ∧
    (parent.element.kind = .unknown → e.kind = .unknown) ∧
      (parent.element.kind ≠ .unknown → e.kind = .unknown → Kind.ofTag e.name = .unknown)

theorem Below.congr {rest : List Frame} {e e' : Element} (h : Below rest e)
    (hkind : e'.kind = e.kind) (hname : e'.name = e.name) : Below rest e' := by
  cases rest with
  | nil =>
    rw [Below, hkind]
    exact h
  | cons parent rest =>
    rw [Below, hkind, hname]
    exact h

theorem Opens.below {b : Builder} {name : String} {attributes : List (String × String)}
    {span : Text.Span} {frame : Frame} {taken : List (String × Nat)}
    (h : Opens b name attributes span frame taken) : Below b.stack frame.element := by
  cases hs : b.stack with
  | nil => exact h.outermost hs
  | cons parent rest =>
    obtain ⟨known, others, heq⟩ := b.openedElement_eq name attributes
    have hkind := congrArg (fun e : Element => e.kind) (h.element_eq.trans heq)
    have hname := congrArg Element.name (h.element_eq.trans heq)
    dsimp only at hkind
    rw [hs, elementFor] at hkind hname
    refine ⟨(h.around parent (by simp [hs])).2, fun hparent => ?_, fun hparent hunknown => ?_⟩
    · rw [if_pos hparent] at hkind
      exact hkind
    · rw [if_neg hparent] at hkind hname
      have hofTag := ofTag_name_ofName (hkind.symm.trans hunknown)
      rwa [hname]

/-- The open elements grow, each with room for what it holds. -/
inductive Orderly : Nat → List Frame → Prop
  | nil {room : Nat} : Orderly room []
  | cons {room : Nat} {frame : Frame} {rest : List Frame} (below : Below rest frame.element)
      (growing : Growing room frame.element)
      (markup : frame.markup ≠ [] → frame.element.kind.isSimple = true)
      (around : Orderly (room + 1) rest) : Orderly room (frame :: rest)

/-- What was read conforms, and what is read may become a part of it. -/
structure Conformant (b : Builder) : Prop where
  stack : ∃ room, Orderly room b.stack ∧ b.stack.length + room = b.options.maxDepth
  root : ∀ r ∈ b.root?, r.1.Every Conforms ∧ r.1.NestsWithin b.options.maxDepth ∧
    r.1.kind ≠ .unknown ∧ r.1.kind.isSimple = false

theorem conformant_new (options : ReadOptions) : Conformant (.new options) where
  stack := ⟨options.maxDepth, .nil, Nat.zero_add _⟩
  root := by simp [new]

theorem Conformant.congr {b b' : Builder} (h : Conformant b) (hstack : b'.stack = b.stack)
    (hoptions : b'.options = b.options) (hroot : b'.root? = b.root?) : Conformant b' where
  stack := by
    rw [hstack, hoptions]
    exact h.stack
  root := by
    rw [hroot, hoptions]
    exact h.root

theorem Conformant.ended {b b' : Builder} (h : Conformant b) (room : Nat)
    (horderly : Orderly room b'.stack) (hlength : b'.stack.length + room = b.options.maxDepth)
    (hoptions : b'.options = b.options) (hroot : b'.root? = b.root?) : Conformant b' where
  stack := ⟨room, horderly, by rwa [hoptions]⟩
  root := by
    rw [hroot, hoptions]
    exact h.root

/-- Only an element with the shape of a field has markup in it that is kept as text. -/
theorem Conformant.isSimple_of_markup {b : Builder} {frame : Frame} {rest : List Frame}
    (h : Conformant b) (hs : b.stack = frame :: rest) (hmarkup : frame.markup ≠ []) :
    frame.element.kind.isSimple = true := by
  obtain ⟨room, horderly, -⟩ := h.stack
  rw [hs] at horderly
  cases horderly with
  | cons _ _ markup _ => exact markup hmarkup

theorem Conformant.replaceHead {b b' : Builder} {frame frame' : Frame} {rest : List Frame}
    (h : Conformant b) (hs : b.stack = frame :: rest) (hs' : b'.stack = frame' :: rest)
    (hoptions : b'.options = b.options) (hroot : b'.root? = b.root?)
    (hkind : frame'.element.kind = frame.element.kind)
    (hname : frame'.element.name = frame.element.name)
    (hgrowing : ∀ room, Growing room frame.element → Growing room frame'.element)
    (hmarkup : frame'.markup ≠ [] → frame.element.kind.isSimple = true) : Conformant b' := by
  obtain ⟨room, horderly, hlength⟩ := h.stack
  rw [hs] at horderly hlength
  cases horderly with
  | cons below growing _ around =>
    refine h.ended room ?_ (by rwa [hs']) hoptions hroot
    rw [hs']
    exact .cons (below.congr hkind hname) (hgrowing room growing) (by rwa [hkind]) around

theorem kind_name_complete (e : Element) :
    (complete e).kind = e.kind ∧ (complete e).name = e.name := by
  unfold complete
  split <;> exact ⟨rfl, rfl⟩

theorem Conformant.closed {b b' : Builder} {frame parent : Frame} {rest : List Frame}
    {element : Element} (h : Conformant b) (hs : b.stack = frame :: parent :: rest)
    {ids : Declared} (hs' : b'.stack = { parent with element, ids } :: rest)
    (hoptions : b'.options = b.options) (hroot : b'.root? = b.root?)
    (hkind : element.kind = parent.element.kind) (hname : element.name = parent.element.name)
    (hgrowing : ∀ room, Growing room parent.element → Below (parent :: rest) frame.element →
      (complete frame.element).Every Conforms ∧ (complete frame.element).NestsWithin room →
        Growing room element) : Conformant b' := by
  obtain ⟨room, horderly, hlength⟩ := h.stack
  rw [hs] at horderly hlength
  cases horderly with
  | cons below growing _ around =>
  cases around with
  | cons belowParent growingParent markup around =>
    refine h.ended (room + 1) ?_ ?_ hoptions hroot
    · rw [hs']
      exact .cons (belowParent.congr hkind hname)
        (hgrowing (room + 1) growingParent below growing.complete) (by rwa [hkind]) around
    · rw [hs']
      simp only [List.length_cons] at hlength ⊢
      omega

/-- No step breaks the invariant. -/
theorem Step.conformant {b b' : Builder} {event : Markup.Event} (h : Step b event b')
    (hb : Conformant b) : Conformant b' := by
  cases h with
  | skipped _ =>
    exact hb.congr (drop_stack _ _ _) (drop_options _ _ _) (drop_root? _ _ _)
  | @markupOpened name attributes span frame rest _ hs _ hsimple =>
    exact hb.replaceHead hs rfl rfl rfl rfl rfl
      (fun room hgrowing => hgrowing.withFieldText hsimple _) fun _ => hsimple
  | @opened name attributes span frame taken _ hopens =>
    obtain ⟨room, horderly, hlength⟩ := hb.stack
    have hlt := hopens.depth_lt
    obtain ⟨room, rfl⟩ : ∃ room', room = room' + 1 := ⟨room - 1, by omega⟩
    have hbelow := hopens.below
    have hgrowing : Growing room frame.element := by
      refine ⟨hopens.element_eq ▸ fitting_openedElement _ _ _, fun n hn => ?_⟩
      rw [hopens.element_eq, (openedElement_empty _ _ _).2.2] at hn
      cases hn
    have hmarkup : frame.markup ≠ [] → frame.element.kind.isSimple = true :=
      fun hne => absurd hopens.markup_eq hne
    refine hb.ended room (.cons hbelow hgrowing hmarkup horderly) ?_ rfl rfl
    simp only [List.length_cons]
    omega
  | @rejected name attributes span frame taken _ hopens =>
    exact hb.congr (drop_stack _ _ _) (drop_options _ _ _) (drop_root? _ _ _)
  | textPassed _ => exact hb.congr rfl rfl rfl
  | @textKept text offset frame rest _ hs hkind =>
    refine hb.replaceHead hs rfl rfl rfl rfl rfl (fun room hgrowing => hgrowing.withText ?_)
      fun hmarkup => hb.isSimple_of_markup hs hmarkup
    intro hknown hnone
    rcases hkind with hkind | hkind
    · exact absurd hkind hknown
    · rw [hkind] at hnone
      cases hnone
  | dropEnded _ => exact hb.congr rfl rfl rfl
  | @markupClosed name span frame rest size markup _ hs hmarkup =>
    have hsimple := hb.isSimple_of_markup hs (by simp [hmarkup])
    exact hb.replaceHead hs rfl rfl rfl rfl rfl
      (fun room hgrowing => hgrowing.withFieldText hsimple _) fun _ => hsimple
  | @rootEnded name span frame _ hs _ =>
    obtain ⟨room, horderly, hlength⟩ := hb.stack
    rw [hs] at horderly hlength
    cases horderly with
    | cons below growing markup around =>
    refine ⟨⟨b.options.maxDepth, .nil, Nat.zero_add _⟩, ?_⟩
    rintro r ⟨⟩
    obtain ⟨hconforms, hnests⟩ := growing.complete
    obtain ⟨hkind, -⟩ := kind_name_complete frame.element
    have hmax : room + 1 = b.options.maxDepth := by
      rw [← hlength]
      exact Nat.add_comm room 1
    refine ⟨hconforms, hmax ▸ hnests, ?_⟩
    rw [hkind]
    exact below
  | @vetoed name span frame parent rest _ hs _ =>
    exact hb.closed hs rfl rfl rfl rfl rfl fun _ hparent _ _ => hparent
  | @attached name span frame parent rest element i replaced? _ hs _ ha =>
    have hattaches := attach_cases ha
    refine hb.closed hs rfl rfl rfl hattaches.kind ?_ fun room hparent hbelow hchild =>
      hparent.attach hbelow.1 hchild hattaches
    cases hattaches <;> rfl
  | @filed name span frame parent rest element replaced? _ hs _ ha =>
    obtain ⟨hkind, hname⟩ := kind_name_complete frame.element
    cases attach_cases ha with
    | unknown hunknown =>
    refine hb.closed hs rfl rfl rfl rfl rfl fun room hparent hbelow hchild =>
      hparent.addUnknown hbelow.1 hchild ?_ ?_
    · rw [hkind]
      exact hbelow.2.1
    · intro hknown
      have hchildKind := hunknown.resolve_left hknown
      rw [hname]
      exact Or.inl ⟨hchildKind, hbelow.2.2 hknown (hkind ▸ hchildKind)⟩
  | @misplaced name span frame parent rest rejected _ hs _ ha _ =>
    obtain ⟨hknown, hchildKind, hslot, rfl⟩ := attach_eq_error_iff.1 ha
    exact hb.closed hs rfl rfl rfl rfl rfl fun room hparent hbelow hchild =>
      hparent.addUnknown hbelow.1 hchild (fun heq => absurd heq hknown)
        fun _ => Or.inr ⟨hchildKind, hslot⟩

theorem Run.conformant {b b' : Builder} {events : List Markup.Event} (h : Run b events b')
    (hb : Conformant b) : Conformant b' :=
  h.preserves Step.conformant hb

end Builder

end KmlTree
