import KmlTree.Proofs.Reading.Fields
import KmlTree.Proofs.Reading.Rereading

/-!
# Reading by recursion

A builder that takes the events of a node does what the recursion on the node says. Between the tags
of an element, it holds what the nodes up to there come to; the frames around it wait. Main
statement: the innermost element takes in just what a node is read as, and a node is accepted just
if its end tags match, its elements fit the depth, and its identifiers are fresh.
-/
namespace KmlTree

open Markup Text

namespace Builder

open Element

/-! ## Prefixes -/

theorem declaredPrefix?_eq_some_iff {key p : String} :
    declaredPrefix? key = some p ↔ key = "xmlns:" ++ p := by
  have hmark (cs : List Char) : cs.take 6 = "xmlns:".toList ∧ cs.drop 6 = p.toList ↔
      cs = "xmlns:".toList ++ p.toList := by
    constructor
    · rintro ⟨htake, hdrop⟩
      rw [← htake, ← hdrop, List.take_append_drop]
    · rintro rfl
      exact ⟨List.take_left' rfl, List.drop_left' rfl⟩
  rw [← String.toList_inj, String.toList_append, ← hmark, declaredPrefix?]
  simp [String.ext_iff]

theorem lookup_declaredPrefixes (attributes : List (String × String)) (p : String) :
    (declaredPrefixes attributes).lookup p =
      (attributes.lookup ("xmlns:" ++ p)).map fun value => kmlNamespaces.contains value := by
  induction attributes with
  | nil => rfl
  | cons entry rest ih =>
    obtain ⟨key, value⟩ := entry
    unfold declaredPrefixes at ih ⊢
    rw [List.filterMap_cons, List.lookup_cons]
    dsimp only
    by_cases hkey : key = "xmlns:" ++ p
    · simp [hkey, declaredPrefix?_eq_some_iff.2]
    · rw [beq_false_of_ne (Ne.symm hkey), ← ih]
      cases hdeclared : declaredPrefix? key with
      | none => rfl
      | some q =>
        have hq : p ≠ q := fun hq => hkey (declaredPrefix?_eq_some_iff.1 (hq ▸ hdeclared))
        simp only [Option.map_some, List.lookup_cons, beq_false_of_ne hq]

/-! ## Before a start tag -/

def setting (b : Builder) : Setting :=
  ⟨fun p => b.stack.findSome? fun frame => frame.prefixes.lookup p,
    b.stack.head?.any fun frame => frame.element.kind = .unknown⟩

theorem localName_eq_setting (b : Builder) (start : StartTag) (name : String) :
    localName (declaredPrefixes start.attributes) b.stack name =
      b.setting.localName start name := by
  unfold localName Setting.localName isKmlPrefix
  cases splitPrefix? name with
  | none => rfl
  | some parts =>
    have hdeclared : ((declaredPrefixes start.attributes).lookup parts.1).or
        (b.stack.findSome? fun frame => frame.prefixes.lookup parts.1) =
          b.setting.declared? start parts.1 := by
      rw [lookup_declaredPrefixes]
      rfl
    dsimp only
    rw [hdeclared]
    cases b.setting.declared? start parts.1 <;> simp

theorem openedElement_eq_opened (b : Builder) (start : StartTag) :
    b.openedElement start.name start.attributes = b.setting.opened start := by
  rw [openedElement, Setting.opened, ← localName_eq_setting, setting]
  cases b.stack with
  | nil => rfl
  | cons frame rest => simp [elementFor]

/-- A start tag that comes next opens an element, if there is room for it. -/
structure Receptive (b : Builder) : Prop where
  sound : Sound b
  lenient : b.options.strict = false
  noRoot : b.root? = none
  notDropped : b.dropped? = none
  around : ∀ f ∈ b.stack.head?, f.skipsChildren = false ∧ f.element.kind.isSimple = false

def frameOf (start : StartTag) (x : Element) (ids : Declared) : Frame :=
  { element := x, span := start.span, ids, skipsChildren := false,
    prefixes := declaredPrefixes start.attributes }

/-- Since some builder, a start tag opened an element, and some nodes in it were taken. By now it is
as given, and so are the warnings about these nodes. -/
structure Open (b₀ : Builder) (start : StartTag) (x : Element) (ws : List Warning) (b : Builder) :
    Prop where
  base : Receptive b₀
  depth_lt : b₀.stack.length < b₀.options.maxDepth
  sound : Sound b
  options_eq : b.options = b₀.options
  noRoot : b.root? = none
  notDropped : b.dropped? = none
  warnings_eq : b.warnings = b₀.warnings ++ ws
  stack_eq : ∃ ids, b.stack = frameOf start x ids :: b₀.stack

variable {b₀ b b' : Builder} {start start' : StartTag} {x y : Element} {ws ws' : List Warning}

theorem Open.innermost (h : Open b₀ start x ws b) :
    ∃ ids, Innermost b (frameOf start x ids) b₀.stack := by
  obtain ⟨ids, hs⟩ := h.stack_eq
  exact ⟨ids, h.notDropped, hs, rfl⟩

theorem Open.receptive (h : Open b₀ start x ws b) (hsimple : x.kind.isSimple = false) :
    Receptive b where
  sound := h.sound
  lenient := h.options_eq ▸ h.base.lenient
  noRoot := h.noRoot
  notDropped := h.notDropped
  around := by
    obtain ⟨ids, hs⟩ := h.stack_eq
    rw [hs]
    rintro _ ⟨⟩
    exact ⟨rfl, hsimple⟩

theorem Open.setting_eq (h : Open b₀ start x ws b) : b.setting = b₀.setting.inside start x := by
  obtain ⟨ids, hs⟩ := h.stack_eq
  have hscope : b.setting.scope = b₀.setting.declared? start := by
    funext p
    rw [Setting.declared?, StartTag.declares?, ← lookup_declaredPrefixes]
    simp only [setting, hs, List.findSome?_cons, frameOf]
    cases (declaredPrefixes start.attributes).lookup p <;> rfl
  have hbelow : b.setting.belowUnknown = decide (x.kind = .unknown) := by
    rw [setting, hs]
    rfl
  rw [Setting.inside, ← hscope, ← hbelow]

theorem Open.length_stack (h : Open b₀ start x ws b) : b.stack.length = b₀.stack.length + 1 := by
  obtain ⟨ids, hs⟩ := h.stack_eq
  rw [hs]
  rfl

theorem Open.mem_listed (h : Open b₀ start x ws b) (id : String) :
    id ∈ b.listed ↔ id ∈ b₀.listed ∨ id ∈ x.ids := by
  obtain ⟨ids, hs⟩ := h.stack_eq
  have hlists : (ids.map Prod.fst).Perm x.ids :=
    (h.sound.frames (frameOf start x ids) (by simp [hs])).ids_perm.map Prod.fst
  simp only [listed, hs, h.noRoot, h.base.noRoot, List.flatMap_cons, List.mem_append]
  simp only [frameOf, hlists.mem_iff, Option.map_none, Option.getD_none, List.map_nil,
    List.not_mem_nil, or_false]
  exact or_comm

/-! ## Start tags -/

/-- What a start tag opens depends on the room for it, on the outermost kind and on the identifiers
in use. -/
theorem Receptive.startTag_eq (h : Receptive b) (start : StartTag) :
    b.startTag start.name start.attributes start.span =
      let e := b.setting.opened start
      if b.options.maxDepth ≤ b.stack.length then
        .error (.nestingTooDeep b.options.maxDepth (.ofSpan start.span))
      else if b.stack = [] ∧ (e.kind = .unknown ∨ e.kind.isSimple = true) then
        .error (.unknownRoot start.name (.ofSpan start.span))
      else
        match e.objectId? with
        | none => .ok (.ask ⟨{ b with offset := start.span.stop }, start.name, frameOf start e []⟩)
        | some id =>
          match b.taken.lookup id with
          | some first => .error (.duplicateId id (.ofSpan start.span) (.empty first))
          | none =>
            .ok (.ask ⟨{ b with
                offset := start.span.stop, taken := (id, start.span.start) :: b.taken },
              start.name, frameOf start e [(id, [])]⟩) := by
  rw [Builder.startTag_eq h.notDropped h.around]
  simp only [h.noRoot, Option.isSome_none, Bool.false_eq_true, if_false, openedElement_eq_opened]
  rfl

theorem Receptive.opens (h : Receptive b) (hlt : b.stack.length < b.options.maxDepth)
    {ids : Declared} {taken : List (String × Nat)}
    (hask : b.startTag start.name start.attributes start.span =
      .ok (.ask ⟨{ b with offset := start.span.stop, taken }, start.name, frameOf start x ids⟩)) :
    ∃ b', b.next start.event = .ok b' ∧ Open b start x [] b' := by
  have hnext : b.next start.event = .ok { b with
      offset := start.span.stop, taken, stack := frameOf start x ids :: b.stack } := by
    rw [StartTag.event, next, hask]
    rfl
  exact ⟨_, hnext, h, hlt, (next_step hnext).sound h.sound, rfl, h.noRoot, h.notDropped,
    (List.append_nil _).symm, ids, rfl⟩

theorem Receptive.next_startTag (h : Receptive b) (start : StartTag) :
    Yields (b.next start.event)
      ((b.stack = [] → (b.setting.opened start).kind ≠ .unknown ∧
          (b.setting.opened start).kind.isSimple = false) ∧
        b.stack.length < b.options.maxDepth ∧
          ∀ id ∈ (b.setting.opened start).objectId?, id ∉ b.listed)
      (Open b start (b.setting.opened start) []) := by
  have hstart := h.startTag_eq start
  dsimp only at hstart
  generalize b.setting.opened start = x at hstart ⊢
  have hfails {error : ParseError}
      (herror : b.startTag start.name start.attributes start.span = .error error) :
      b.next start.event = .error error := by
    rw [StartTag.event, next, herror]
  by_cases hdepth : b.options.maxDepth ≤ b.stack.length
  · rw [if_pos hdepth] at hstart
    exact .of_error (hfails hstart) fun hall => Nat.not_lt_of_le hdepth hall.2.1
  by_cases houtermost : b.stack = [] ∧ (x.kind = .unknown ∨ x.kind.isSimple = true)
  · rw [if_neg hdepth, if_pos houtermost] at hstart
    refine .of_error (hfails hstart) fun hall => ?_
    obtain ⟨hunknown, hsimple⟩ := hall.1 houtermost.1
    exact houtermost.2.elim hunknown (by simp [hsimple])
  rw [if_neg hdepth, if_neg houtermost] at hstart
  have houter : b.stack = [] → x.kind ≠ .unknown ∧ x.kind.isSimple = false := by
    intro hs
    simpa using fun hkind => houtermost ⟨hs, hkind⟩
  have hlt : b.stack.length < b.options.maxDepth := Nat.lt_of_not_le hdepth
  cases hid : x.objectId? with
  | none =>
    simp only [hid] at hstart
    obtain ⟨b', hnext, hopen⟩ := h.opens hlt hstart
    exact .of_ok hnext ⟨houter, hlt, by simp⟩ hopen
  | some id =>
    have hlookup := lookup_taken_eq_none_iff h.sound id
    simp only [hid] at hstart
    cases htaken : b.taken.lookup id with
    | some first =>
      simp only [htaken] at hstart
      refine .of_error (hfails hstart) fun hall => ?_
      have hnone := hlookup.2 (hall.2.2 id rfl)
      rw [htaken] at hnone
      cases hnone
    | none =>
      simp only [htaken] at hstart
      obtain ⟨b', hnext, hopen⟩ := h.opens hlt hstart
      refine .of_ok hnext ⟨houter, hlt, ?_⟩ hopen
      rintro _ ⟨⟩
      exact hlookup.1 htaken

/-! ## Text -/

theorem Open.next_text (h : Open b₀ start x ws b) (s : String) (offset : Nat) :
    Yields (b.next (.text s offset)) True (Open b₀ start (x.takeText s) ws) := by
  obtain ⟨ids, hinner⟩ := h.innermost
  have hnext := hinner.next_text s offset
  exact .of_ok hnext trivial ⟨h.base, h.depth_lt, (next_step hnext).sound h.sound, h.options_eq,
    h.noRoot, h.notDropped, h.warnings_eq, ids, rfl⟩

theorem Open.field (h : Open b₀ start x ws b) (hsimple : x.kind.isSimple = true)
    (content : List Node) :
    Yields ((eventsOf content).foldlM next b) (PairedAll content)
      (Open b₀ start (x.takeText (writtenOf content)) ws) := by
  obtain ⟨ids, hinner⟩ := h.innermost
  refine (readsAsText_all (fun n _ => readsAsText n) hinner hsimple).imp Iff.rfl ?_
  rintro _ ⟨offset, rfl⟩
  have hlists : Lists (frameOf start x ids) := h.sound.frames _ (by simp [hinner.stack_eq])
  rw [takeText, if_pos (Or.inr (Kind.of_isSimple hsimple).2.2)]
  exact ⟨h.base, h.depth_lt, h.sound.replaceHead hinner.stack_eq rfl rfl rfl rfl
    (hlists.congr rfl rfl rfl rfl), h.options_eq, h.noRoot, h.notDropped, h.warnings_eq, ids, rfl⟩

/-! ## End tags -/

theorem complete_eq_ended (x : Element) : complete x = x.ended := by
  cases x
  simp only [complete, ended, Bool.and_eq_true, List.isEmpty_iff]
  split <;> rfl

section Ends

variable {frame parent : Frame} {rest : List Frame} {name : String}

theorem endTag_of_not_ends (hd : b.dropped? = none) (hs : b.stack = frame :: rest)
    (hmarkup : frame.markup = []) (h : ¬Ends frame rest name) (span : Span) :
    b.endTag name span =
      .error (.malformedAt (.mismatchedEnd frame.element.name name) span.start) := by
  have hname : frame.element.name ≠ name ∧
      frame.element.name ≠ localName frame.prefixes rest name :=
    not_or.1 fun hname => h ⟨hmarkup, hname⟩
  simp only [endTag, hd, hs, hmarkup, closeElement, hname, ne_eq, not_false_eq_true, and_self,
    if_true]

theorem Ends.not_mismatch (h : Ends frame rest name) : ¬(frame.element.name ≠ name ∧
    frame.element.name ≠ localName frame.prefixes rest name) := fun hname =>
  h.name_eq.elim hname.1 hname.2

theorem endTag_of_ends_root (hd : b.dropped? = none) (hs : b.stack = [frame])
    (h : Ends frame [] name) (span : Span) :
    b.endTag name span = .ok (.done { b with
      offset := span.stop, stack := [], root? := some (frame.element.ended, frame.ids) }) := by
  simp only [endTag, hd, hs, h.markup_eq, closeElement, h.not_mismatch, if_false,
    complete_eq_ended]

theorem endTag_of_ends (hd : b.dropped? = none) (hs : b.stack = frame :: parent :: rest)
    (h : Ends frame (parent :: rest) name) (span : Span) :
    b.endTag name span = .ok (.ask ⟨{ b with offset := span.stop, stack := rest }, name, parent,
      { frame with element := frame.element.ended }⟩) := by
  simp only [endTag, hd, hs, h.markup_eq, closeElement, h.not_mismatch, if_false,
    complete_eq_ended]

end Ends

theorem ends_iff (hlabel : x.label = (b.setting.opened start).label) (ids : Declared)
    (stop : EndTag) :
    Ends (frameOf start x ids) b.stack stop.name ↔ b.setting.Closes start stop := by
  have hcloses : b.setting.Closes start stop ↔ x.name = stop.name ∨
      x.name = localName (declaredPrefixes start.attributes) b.stack stop.name := by
    rw [Setting.Closes, ← name_of_label hlabel, localName_eq_setting]
    exact or_congr eq_comm eq_comm
  exact ⟨fun h => hcloses.2 h.name_eq, fun h => ⟨rfl, hcloses.1 h⟩⟩

theorem Open.next_endTag_error (h : Open b₀ start x ws b)
    (hlabel : x.label = (b₀.setting.opened start).label) {stop : EndTag}
    (hnot : ¬b₀.setting.Closes start stop) : b.next stop.event =
      .error (.malformedAt (.mismatchedEnd x.name stop.name) stop.span.start) := by
  obtain ⟨ids, hs⟩ := h.stack_eq
  have hends : ¬Ends (frameOf start x ids) b₀.stack stop.name :=
    fun hends => hnot ((ends_iff hlabel ids stop).1 hends)
  rw [EndTag.event, next, endTag_of_not_ends h.notDropped hs rfl hends]
  rfl

section Placing

variable {parent child : Frame} {name : String}

theorem placingWarnings_of_rejected {rejected : Rejected}
    (h : parent.element.attach child.element = .error rejected) :
    placingWarnings parent.element child.element name child.span =
      [.misplaced parent.element.name name (.ofSpan child.span)] := by
  obtain ⟨hparent, hchild, hslot, -⟩ := attach_eq_error_iff.1 h
  rw [placingWarnings, if_neg (not_or.2 ⟨hparent, hchild⟩), if_pos hslot]

theorem placingWarnings_of_unknown {element : Element} {replaced? : Option Child}
    (h : parent.element.attach child.element = .ok ⟨element, none, replaced?⟩) :
    placingWarnings parent.element child.element name child.span = [] := by
  cases attach_cases h with
  | unknown hunknown => rw [placingWarnings, if_pos hunknown]

theorem placingWarnings_of_placed {element : Element} {i : Nat} {replaced? : Option Child}
    (h : parent.element.attach child.element = .ok ⟨element, some i, replaced?⟩) :
    placingWarnings parent.element child.element name child.span =
      attributeWarnings name child := by
  have hplaced : (parent.element.kind ≠ .unknown ∧ child.element.kind ≠ .unknown) ∧
      parent.element.kind.slotFor? child.element.kind ≠ none := by
    cases attach_cases h with
    | placed hparent hchild hslot => exact ⟨⟨hparent, hchild⟩, by simp [hslot]⟩
    | appended hparent hchild hslot => exact ⟨⟨hparent, hchild⟩, by simp [hslot]⟩
  rw [placingWarnings, if_neg (not_or.2 hplaced.1), if_neg hplaced.2, attributeWarnings]
  simp only [Bool.and_eq_true, Bool.not_eq_true', Bool.and_eq_false_iff,
    Decidable.not_and_iff_not_or_not, Bool.not_eq_true]

theorem attachChild_eq (hlenient : b.options.strict = false) (name : String)
    (parent child : Frame) : ∃ ids taken,
      attachChild ⟨b, name, parent, child⟩ = .ok { b with
        stack := { parent with element := parent.element.takeIn child.element, ids } :: b.stack
        taken
        warnings := b.warnings ++
          placingWarnings parent.element child.element name child.span } := by
  unfold attachChild
  dsimp only
  cases ha : parent.element.attach child.element with
  | error rejected =>
    refine ⟨parent.ids, release b.taken child.ids, ?_⟩
    simp only [hlenient, Bool.false_eq_true, if_false, takeIn_of_rejected ha,
      placingWarnings_of_rejected ha]
  | ok a =>
    obtain ⟨element, index?, replaced?⟩ := a
    obtain rfl : element = parent.element.takeIn child.element := takeIn_of_attach ha
    cases index? with
    | none =>
      refine ⟨parent.ids, release b.taken child.ids, ?_⟩
      simp only [placingWarnings_of_unknown ha, List.append_nil]
    | some i =>
      simp only [placingWarnings_of_placed ha]
      exact ⟨_, _, rfl⟩

end Placing

theorem Open.next_endTag (h : Open b₀ start x ws b) (h' : Open b start' y ws' b')
    (hlabel : y.label = (b.setting.opened start').label) (stop : EndTag) :
    Yields (b'.next stop.event) (b.setting.Closes start' stop)
      (Open b₀ start (x.takeIn y.ended)
        (ws ++ (ws' ++ placingWarnings x (b.setting.opened start') stop.name start'.span))) := by
  by_cases hcloses : b.setting.Closes start' stop
  · obtain ⟨ids, hs⟩ := h.stack_eq
    obtain ⟨ids', hs'⟩ := h'.stack_eq
    have hends := (ends_iff hlabel ids' stop).2 hcloses
    rw [hs] at hs' hends
    have hlenient : b'.options.strict = false := by
      rw [h'.options_eq, h.options_eq, h.base.lenient]
    obtain ⟨ids'', taken, hattach⟩ := attachChild_eq
      (b := { b' with offset := stop.span.stop, stack := b₀.stack }) hlenient stop.name
      (frameOf start x ids) (frameOf start' y.ended ids')
    have hnext : b'.next stop.event = .ok { b' with
        offset := stop.span.stop
        stack := frameOf start (x.takeIn y.ended) ids'' :: b₀.stack
        taken
        warnings := b'.warnings ++ placingWarnings x y.ended stop.name start'.span } := by
      rw [EndTag.event, next, endTag_of_ends h'.notDropped hs' hends]
      exact hattach
    refine .of_ok hnext hcloses ⟨h.base, h.depth_lt, (next_step hnext).sound h'.sound,
      h'.options_eq.trans h.options_eq, h'.noRoot, h'.notDropped, ?_, ids'', rfl⟩
    have hplacing : placingWarnings x y.ended stop.name start'.span =
        placingWarnings x (b.setting.opened start') stop.name start'.span :=
      placingWarnings_of_label rfl ((label_ended y).trans hlabel) _ _
    simp only [h'.warnings_eq, h.warnings_eq, hplacing, List.append_assoc]
  · exact .of_error (h'.next_endTag_error hlabel hcloses) hcloses

theorem Open.next_endTag_root (h : Open b₀ start x ws b) (hs₀ : b₀.stack = [])
    (hlabel : x.label = (b₀.setting.opened start).label) (stop : EndTag) :
    Yields (b.next stop.event) (b₀.setting.Closes start stop) fun b' =>
      Outside b' ∧ b'.options = b₀.options ∧ (∃ ids, b'.root? = some (x.ended, ids)) ∧
        b'.warnings = b₀.warnings ++ ws := by
  by_cases hcloses : b₀.setting.Closes start stop
  · obtain ⟨ids, hs⟩ := h.stack_eq
    have hends := (ends_iff hlabel ids stop).2 hcloses
    rw [hs₀] at hs hends
    have hnext : b.next stop.event = .ok { b with
        offset := stop.span.stop, stack := [], root? := some (x.ended, ids) } := by
      rw [EndTag.event, next, endTag_of_ends_root h.notDropped hs hends]
      rfl
    exact .of_ok hnext hcloses ⟨⟨(next_step hnext).sound h.sound, rfl, h.notDropped⟩, h.options_eq,
      ⟨ids, rfl⟩, h.warnings_eq⟩
  · exact .of_error (h.next_endTag_error hlabel hcloses) hcloses

/-! ## Nodes -/

/-- The innermost element takes in a node, given the identifiers that are declared around it. -/
def TakesIn (n : Node) : Prop :=
  ∀ (b₀ b : Builder) (start : StartTag) (x : Element) (ws : List Warning) (taken : List String),
    Open b₀ start x ws b → x.kind.isSimple = false → (∀ id, id ∈ b₀.listed ↔ id ∈ taken) →
      Yields (n.events.foldlM next b)
        (n.Accepted b.setting b.stack.length b.options.maxDepth (taken ++ x.ids))
        (Open b₀ start (n.into b.setting x)
          (ws ++ (n.warnings b.setting ++ n.placing b.setting x)))

theorem takesIn_all {ns : List Node} (ih : ∀ n ∈ ns, TakesIn n) {taken : List String}
    (h : Open b₀ start x ws b) (hsimple : x.kind.isSimple = false)
    (htaken : ∀ id, id ∈ b₀.listed ↔ id ∈ taken) :
    Yields ((eventsOf ns).foldlM next b)
      (AcceptedAll b.setting b.stack.length b.options.maxDepth taken x ns)
      (Open b₀ start (ns.foldl (fun e n => n.into b.setting e) x)
        (ws ++ warningsOf b.setting x ns)) := by
  induction ns generalizing b x ws with
  | nil =>
    have hdepth : b.stack.length ≤ b.options.maxDepth := by
      rw [h.length_stack, h.options_eq]
      exact h.depth_lt
    refine .of_ok rfl (acceptedAll_nil hdepth) ?_
    rwa [warningsOf, List.append_nil]
  | cons n ns ihRest =>
    have hlabel : (n.into b.setting x).label = x.label := label_into _ _ _
    have hfirst := ih n List.mem_cons_self b₀ b start x ws taken h hsimple htaken
    have hrest (b' : Builder) (hb' : Open b₀ start (n.into b.setting x)
        (ws ++ (n.warnings b.setting ++ n.placing b.setting x)) b') :
        Yields ((eventsOf ns).foldlM next b')
          (AcceptedAll b.setting b.stack.length b.options.maxDepth taken (n.into b.setting x) ns)
          (Open b₀ start (ns.foldl (fun e n => n.into b.setting e) (n.into b.setting x))
            (ws ++ (n.warnings b.setting ++ n.placing b.setting x) ++
              warningsOf b.setting (n.into b.setting x) ns)) := by
      have hsetting : b'.setting = b.setting := by
        rw [hb'.setting_eq, Setting.inside_of_label _ _ hlabel, h.setting_eq]
      have hyields := ihRest (fun m hm => ih m (List.mem_cons_of_mem _ hm)) hb'
        (by rw [kind_of_label hlabel, hsimple])
      rwa [hsetting, hb'.length_stack, ← h.length_stack, hb'.options_eq, ← h.options_eq] at hyields
    refine (yields_append hfirst hrest).imp acceptedAll_cons.symm fun b' hb' => ?_
    rw [warningsOf_of_label _ hlabel, List.append_assoc ws] at hb'
    exact hb'

/-- The nodes between the tags of an element that is no field are taken in one by one. -/
theorem Open.content {content : List Node} (ih : ∀ n ∈ content, TakesIn n) {taken : List String}
    (h : Open b start (b.setting.opened start) [] b')
    (hsimple : (b.setting.opened start).kind.isSimple = false)
    (hlisted : ∀ id, id ∈ b.listed ↔ id ∈ taken) :
    Yields ((eventsOf content).foldlM next b')
      (AcceptedAll (b.setting.within start) (b.stack.length + 1) b.options.maxDepth taken
        (b.setting.opened start) content)
      (Open b start
        (content.foldl (fun e n => n.into (b.setting.within start) e) (b.setting.opened start))
        (warningsOf (b.setting.within start) (b.setting.opened start) content)) := by
  have hall := takesIn_all ih h hsimple hlisted
  rwa [h.setting_eq, h.length_stack, h.options_eq] at hall

theorem takesIn_element {content : List Node} {stop : EndTag} {taken : List String}
    {condition : Prop} (h : Open b₀ start x ws b) (hsimple : x.kind.isSimple = false)
    (htaken : ∀ id, id ∈ b₀.listed ↔ id ∈ taken)
    (hlabel : y.label = (b.setting.opened start').label)
    (hcontent : ∀ b', Open b start' (b.setting.opened start') [] b' →
      Yields ((eventsOf content).foldlM next b') condition (Open b start' y ws')) :
    Yields ((Node.element start' content stop).events.foldlM next b)
      ((b.stack.length < b.options.maxDepth ∧
        ∀ id ∈ (b.setting.opened start').objectId?, id ∉ taken ++ x.ids) ∧
          condition ∧ b.setting.Closes start' stop)
      (Open b₀ start (x.takeIn y.ended)
        (ws ++ (ws' ++ placingWarnings x (b.setting.opened start') stop.name start'.span))) := by
  have hstart := (h.receptive hsimple).next_startTag start'
  have hlisted (id : String) : id ∈ b.listed ↔ id ∈ taken ++ x.ids := by
    rw [h.mem_listed, htaken, List.mem_append]
  have hne : b.stack ≠ [] := by
    obtain ⟨ids, hs⟩ := h.stack_eq
    simp [hs]
  simp only [hlisted, hne, false_imp_iff, true_and] at hstart
  rw [Node.events, List.foldlM_cons]
  refine hstart.bind fun b₁ hb₁ => yields_append (hcontent b₁ hb₁) fun b₂ hb₂ => ?_
  rw [foldlM_next_singleton]
  exact h.next_endTag hb₂ hlabel stop

/-- The innermost element takes in a node as the recursion says. -/
theorem takesIn (n : Node) : TakesIn n := by
  induction n using Node.inductionOn with
  | text s offset =>
    intro b₀ b start x ws taken h hsimple htaken
    have hdepth : b.stack.length ≤ b.options.maxDepth := by
      rw [h.length_stack, h.options_eq]
      exact h.depth_lt
    rw [Node.events, foldlM_next_singleton]
    refine (h.next_text s offset).imp (iff_of_true trivial (accepted_text hdepth)) fun b' hb' => ?_
    rw [Node.warnings, Node.placing, List.append_nil, List.append_nil]
    exact hb'
  | element start' content stop ih =>
    intro b₀ b start x ws taken h hsimple htaken
    cases hfield : (b.setting.opened start').kind.isSimple with
    | true =>
      rw [accepted_field hfield, Node.into, read?_field _ hfield, Node.warnings, Node.placing]
      simp only [hfield, if_true]
      exact takesIn_element h hsimple htaken (label_takeText _ _) fun b' hb' =>
        hb'.field hfield content
    | false =>
      rw [accepted_element hfield, Node.into, read?_element _ hfield, Node.warnings, Node.placing]
      simp only [hfield, Bool.false_eq_true, if_false]
      refine takesIn_element h hsimple htaken (label_foldl_into _ _ _) fun b' hb' => ?_
      have hlisted (id : String) : id ∈ b.listed ↔ id ∈ taken ++ x.ids := by
        rw [h.mem_listed, htaken, List.mem_append]
      exact hb'.content ih hfield hlisted

end Builder

end KmlTree
