import KmlTree.Proofs.Markup.Spelling
import KmlTree.Proofs.Reading.Identifiers
import KmlTree.Proofs.Reading.Unobserved
import KmlTree.Proofs.Tree.Objects

/-!
# The element that is open

What a reading without observers does between the start tag of an element and its end tag: the
elements around the open one wait as they are. Main statements: what a start tag, a text and the end
tag of a part make of the open element.
-/
namespace KmlTree

namespace Element

def takeText (x : Element) (text : String) : Element :=
  if x.kind = .unknown ∨ x.kind.hasText = true then x.appendText text else x

theorem takeText_empty (x : Element) : x.takeText "" = x := by
  unfold takeText
  split
  · cases x
    simp [appendText]
  · rfl

theorem takeText_append (x : Element) (s t : String) :
    x.takeText (s ++ t) = (x.takeText s).takeText t := by
  unfold takeText
  by_cases hkind : x.kind = .unknown ∨ x.kind.hasText = true
  · have hkind' : (x.appendText s).kind = .unknown ∨ (x.appendText s).kind.hasText = true := hkind
    simp only [hkind, hkind', if_true]
    simp [appendText, String.append_assoc]
  · simp only [hkind, if_false]

end Element

/-- A name is that of a tag, with its prefix or without. -/
def Names (written name : String) : Prop :=
  name = written ∨ ∃ p, splitPrefix? written = some (p, name)

namespace Builder

open Element Text

/-! ## Scopes -/

theorem splitPrefix?_tag (k : Kind) : splitPrefix? k.tag = none := by
  have hall := Kind.of_all (p := fun k => splitPrefix? k.tag == none) (by decide +kernel) k
  exact beq_iff_eq.1 hall

/-- The name that an element is read with, given the prefixes declared by it and around it. -/
def nameIn (scope : List (List (String × Bool))) (name : String) : String :=
  match splitPrefix? name with
  | none => name
  | some (p, rest) => if (scope.findSome? (·.lookup p)).getD false then rest else name

theorem names_nameIn (scope : List (List (String × Bool))) (name : String) :
    Names name (nameIn scope name) := by
  unfold nameIn
  split
  · exact .inl rfl
  · next p rest hsplit =>
    split
    · exact .inr ⟨p, hsplit⟩
    · exact .inl rfl

theorem localName_eq (own : List (String × Bool)) (stack : List Frame) (name : String) :
    localName own stack name = nameIn (own :: stack.map Frame.prefixes) name := by
  unfold localName nameIn isKmlPrefix
  cases splitPrefix? name with
  | none => rfl
  | some parts =>
    have hscope : (own :: stack.map Frame.prefixes).findSome? (·.lookup parts.1) =
        (own.lookup parts.1).or (stack.findSome? fun frame => frame.prefixes.lookup parts.1) := by
      rw [List.findSome?_cons, List.findSome?_map]
      cases own.lookup parts.1 <;> rfl
    simp only [hscope]

def prefixesOf (e : Element) : List (String × Bool) := declaredPrefixes e.otherAttributes.entries

theorem declaredPrefix?_key (a : Attribute) : declaredPrefix? a.key = none := by
  cases a <;> decide

theorem declaredPrefixes_stored (e : Element) :
    declaredPrefixes e.storedAttributes = prefixesOf e := by
  have hdeclared : declaredPrefixes
      (e.attributes.entries.map fun entry => (entry.1.key, entry.2)) = [] := by
    refine List.filterMap_eq_nil_iff.2 fun entry hentry => ?_
    obtain ⟨⟨a, value⟩, -, rfl⟩ := List.mem_map.1 hentry
    simp only [declaredPrefix?_key, Option.map_none]
  rw [storedAttributes, declaredPrefixes, List.filterMap_append]
  change declaredPrefixes _ ++ declaredPrefixes _ = _
  rw [hdeclared]
  rfl

/-! ## Between the tags of an element -/

/-- An element is open and innermost, while all that was open before waits. -/
structure Inside (b₀ : Builder) (x : Element) (b : Builder) : Prop where
  sound : Sound b
  options_eq : b.options = b₀.options
  noRoot : b.root? = none
  notDropped : b.dropped? = none
  frame : ∃ frame, b.stack = frame :: b₀.stack ∧ frame.element = x ∧ frame.skipsChildren = false ∧
    frame.markup = [] ∧ frame.prefixes = prefixesOf x
  warnings : x.Neat → b.warnings = b₀.warnings

/-- A start tag can open an element. -/
structure Ready (b : Builder) (e : Element) : Prop where
  sound : Sound b
  noRoot : b.root? = none
  notDropped : b.dropped? = none
  around : ∀ f ∈ b.stack.head?, f.skipsChildren = false ∧ f.element.kind.isSimple = false
  outermost : b.stack = [] → e.kind ≠ .unknown ∧ e.kind.isSimple = false
  depth_lt : b.stack.length < b.options.maxDepth
  named : elementFor b.stack e.name (nameIn (prefixesOf e :: b.stack.map Frame.prefixes) e.name) =
    ⟨{ kind := e.kind, writtenName? := e.writtenName? }, [], []⟩

theorem lookup_taken_eq_none_iff {b : Builder} (h : Sound b) (id : String) :
    b.taken.lookup id = none ↔ id ∉ b.listed := by
  rw [← h.taken_perm.mem_iff, List.lookup_eq_none_iff]
  simp only [List.mem_map, not_exists, not_and, bne_iff_ne, ne_eq]
  exact forall₂_congr fun taken _ => ne_comm

/-- The frame of an element whose start tag was read, given the identifiers that the tag declares. -/
def openedFrame (e : Element) (span : Span) (ids : Declared) : Frame :=
  { element := e.bare, span, ids, skipsChildren := false, prefixes := prefixesOf e }

def opening (b : Builder) (e : Element) (span : Span) : Except ParseError (Half Opening) :=
  match e.objectId? with
  | none => .ok (.ask ⟨b, e.name, openedFrame e span []⟩)
  | some id =>
    match b.taken.lookup id with
    | some first => .error (.duplicateId id (.ofSpan span) (.empty first))
    | none =>
      .ok (.ask ⟨{ b with taken := (id, span.start) :: b.taken }, e.name,
        openedFrame e span [(id, [])]⟩)

theorem startTag_ready {b : Builder} {e : Element} (hready : Ready b e) (he : Fitting e)
    (span : Span) :
    b.startTag e.name e.storedAttributes span = { b with offset := span.stop }.opening e span := by
  have hopen : { b with offset := span.stop }.openElement e.name e.storedAttributes span =
      { b with offset := span.stop }.opening e span := by
    have houtermost : (b.stack.isEmpty && (e.kind == .unknown || e.kind.isSimple)) = false := by
      cases hs : b.stack with
      | nil => simpa using hready.outermost hs
      | cons frame rest => rfl
    have hdepth : ¬b.options.maxDepth ≤ b.stack.length := Nat.not_le_of_lt hready.depth_lt
    have hobject : e.bare.objectId? = e.objectId? := rfl
    unfold openElement
    simp only [localName_eq, declaredPrefixes_stored, hready.named, he.foldl_stored,
      hready.noRoot, Option.isSome_none, Bool.false_eq_true, if_false, hdepth, houtermost, hobject]
    rfl
  unfold startTag
  simp only [hready.notDropped, Option.isSome_none, Bool.false_eq_true, if_false]
  cases hs : b.stack with
  | nil => simpa only [hs, hready.notDropped] using hopen
  | cons frame rest =>
    obtain ⟨hskip, hsimple⟩ := hready.around frame (by simp [hs])
    simp only [hskip, hsimple, Bool.false_eq_true, if_false]
    simpa only [hs, hready.notDropped] using hopen

/-- A start tag opens an element unless the identifier that it declares is taken. -/
theorem next_startTag {b : Builder} {e : Element} (hready : Ready b e) (he : Fitting e)
    (span : Span) :
    Yields (b.next (.startTag e.name e.storedAttributes span))
      (∀ id ∈ e.objectId?, id ∉ b.listed) (Inside b e.bare) := by
  have hinside {b' : Builder} {ids : Declared} {taken : List (String × Nat)}
      (hnext : b.next (.startTag e.name e.storedAttributes span) = .ok b')
      (hb' : b' = { b with
        offset := span.stop, taken, stack := openedFrame e span ids :: b.stack }) :
      Inside b e.bare b' := by
    have hsound := (next_step hnext).sound hready.sound
    subst hb'
    exact ⟨hsound, rfl, hready.noRoot, hready.notDropped, ⟨_, rfl, rfl, rfl, rfl, rfl⟩, fun _ => rfl⟩
  have hstart := startTag_ready hready he span
  unfold opening at hstart
  cases hid : e.objectId? with
  | none =>
    simp only [hid] at hstart
    have hnext : b.next (.startTag e.name e.storedAttributes span) = .ok { b with
        offset := span.stop, stack := openedFrame e span [] :: b.stack } := by
      rw [next, hstart]
      rfl
    rw [hnext]
    exact (Yields.ok (hinside hnext rfl)).imp (by simp) fun _ h => h
  | some id =>
    have hlookup := lookup_taken_eq_none_iff hready.sound id
    simp only [hid] at hstart
    cases htaken : b.taken.lookup id with
    | some first =>
      simp only [htaken] at hstart
      rw [next, hstart]
      refine Yields.error.imp ⟨False.elim, fun hfree => ?_⟩ fun _ h => h
      have hnone := hlookup.2 (hfree id rfl)
      rw [htaken] at hnone
      cases hnone
    | none =>
      simp only [htaken] at hstart
      have hnext : b.next (.startTag e.name e.storedAttributes span) = .ok { b with
          offset := span.stop, taken := (id, span.start) :: b.taken,
          stack := openedFrame e span [(id, [])] :: b.stack } := by
        rw [next, hstart]
        rfl
      rw [hnext]
      refine (Yields.ok (hinside hnext rfl)).imp (iff_of_true trivial ?_) fun _ h => h
      rintro _ ⟨⟩
      exact hlookup.1 htaken

/-! ## Text -/

theorem next_text {b₀ b : Builder} {x : Element} (h : Inside b₀ x b) (text : String)
    (offset : Nat) :
    Yields (b.next (.text text offset)) True (Inside b₀ (x.takeText text)) := by
  obtain ⟨frame, hs, rfl, hskip, hmarkup, hprefixes⟩ := h.frame
  by_cases hkind : frame.element.kind = .unknown ∨ frame.element.kind.hasText = true
  · have hnext : b.next (.text text offset) = .ok { b with
        offset := offset + text.utf8ByteSize
        stack := { frame with element := frame.element.appendText text } :: b₀.stack } := by
      simp only [next, Builder.text, h.notDropped, Option.isSome_none, Bool.false_eq_true, if_false,
        hs, hkind, if_true]
    have hsound := (next_step hnext).sound h.sound
    rw [hnext, takeText, if_pos hkind]
    refine .ok ⟨hsound, h.options_eq, h.noRoot, h.notDropped, ⟨_, rfl, rfl, hskip, hmarkup, hprefixes⟩,
      fun hneat => h.warnings ?_⟩
    exact (neat_congr (x := frame.element.appendText text) (y := frame.element) rfl rfl rfl).1 hneat
  · have hnext : b.next (.text text offset) =
        .ok { b with offset := offset + text.utf8ByteSize } := by
      simp only [next, Builder.text, h.notDropped, Option.isSome_none, Bool.false_eq_true, if_false,
        hs, hkind]
    have hsound := (next_step hnext).sound h.sound
    rw [hnext, takeText, if_neg hkind]
    exact .ok ⟨hsound, h.options_eq, h.noRoot, h.notDropped,
      ⟨frame, hs, rfl, hskip, hmarkup, hprefixes⟩, h.warnings⟩

theorem foldlM_texts {b₀ b : Builder} {x : Element} {text : String} {events : List Markup.Event}
    (htexts : Markup.Texts text events) (h : Inside b₀ x b) :
    Yields (events.foldlM next b) True (Inside b₀ (x.takeText text)) := by
  induction htexts generalizing x b with
  | nil =>
    rw [takeText_empty]
    exact .ok h
  | @cons text rest offset events htexts ih =>
    rw [List.foldlM_cons, takeText_append]
    exact ((next_text h text offset).bind fun b' hb' => ih hb').imp (by simp) fun _ h => h

/-! ## The end of a part -/

section Part

variable {b₀ b bn : Builder} {x n n' : Element}

theorem name_complete (e : Element) : (complete e).name = e.name := by
  unfold complete
  split <;> rfl

theorem next_endTag (h : Inside b₀ x b) (hn : Inside b n' bn) (hcomplete : complete n' = n)
    (span : Span) : ∃ parent child : Frame,
      bn.stack = child :: parent :: b₀.stack ∧ parent.element = x ∧ parent.skipsChildren = false ∧
        parent.markup = [] ∧ parent.prefixes = prefixesOf x ∧
          bn.next (.endTag n.name span) = attachChild
            ⟨{ bn with offset := span.stop, stack := b₀.stack }, n.name, parent,
              { child with element := n }⟩ := by
  obtain ⟨parent, hparent, hx, hskip, hmarkup, hprefixes⟩ := h.frame
  obtain ⟨child, hchild, hn', -, hchildMarkup, -⟩ := hn.frame
  rw [hparent] at hchild
  refine ⟨parent, child, hchild, hx, hskip, hmarkup, hprefixes, ?_⟩
  have hname : child.element.name = n.name := by
    rw [hn', ← hcomplete, name_complete]
  simp only [next, endTag, hn.notDropped, hchild, hchildMarkup, closeElement, hname, ne_eq,
    not_true_eq_false, false_and, if_false]
  rw [hn', hcomplete]
  rfl

theorem next_endTag_attached (h : Inside b₀ x b) (hn : Inside b n' bn) (hcomplete : complete n' = n)
    {i : Nat} {children : List Child}
    (ha : x.attach n = .ok ⟨{ x with children }, some i, none⟩)
    (hfield : n.kind.isSimple = true →
      n.attributes.entries = [] ∧ n.otherAttributes.entries = [])
    (hneat : ({ x with children } : Element).Neat → x.Neat ∧ n'.Neat) (span : Span) :
    Yields (bn.next (.endTag n.name span)) True (Inside b₀ { x with children }) := by
  obtain ⟨parent, child, hstack, hx, hskip, hmarkup, hprefixes, hnext⟩ :=
    next_endTag h hn hcomplete span
  have hwarnings : attributeWarnings n.name { child with element := n } = [] := by
    unfold attributeWarnings
    dsimp only
    cases hsimple : n.kind.isSimple with
    | false => rfl
    | true =>
      obtain ⟨hattributes, hother⟩ := hfield hsimple
      simp [AttributeMap.isEmpty, hattributes, hother]
  rw [attachChild, hx, ha] at hnext
  simp only [Option.bind_none, Option.isSome_none, Bool.false_eq_true, if_false, hwarnings,
    List.append_nil] at hnext
  have hsound := (next_step hnext).sound hn.sound
  rw [hnext]
  refine .ok ⟨hsound, hn.options_eq.trans h.options_eq, hn.noRoot, hn.notDropped,
    ⟨_, rfl, rfl, hskip, hmarkup, hprefixes⟩, fun hx' => ?_⟩
  exact (hn.warnings (hneat hx').2).trans (h.warnings (hneat hx').1)

theorem next_endTag_unknown (h : Inside b₀ x b) (hn : Inside b n' bn) (hcomplete : complete n' = n)
    (ha : x.attach n = .ok ⟨x.addUnknown n, none, none⟩ ∨
      (x.attach n = .error ⟨x.kind, n⟩ ∧ b₀.options.strict = false))
    (hneat : (x.addUnknown n).Neat → x.Neat ∧ n'.Neat ∧ x.attach n = .ok ⟨x.addUnknown n, none, none⟩)
    (span : Span) :
    Yields (bn.next (.endTag n.name span)) True (Inside b₀ (x.addUnknown n)) := by
  obtain ⟨parent, child, hstack, hx, hskip, hmarkup, hprefixes, hnext⟩ :=
    next_endTag h hn hcomplete span
  have hoptions : bn.options = b₀.options := hn.options_eq.trans h.options_eq
  rcases ha with ha | ⟨ha, hlenient⟩
  · rw [attachChild, hx, ha] at hnext
    simp only at hnext
    have hsound := (next_step hnext).sound hn.sound
    rw [hnext]
    refine .ok ⟨hsound, hoptions, hn.noRoot, hn.notDropped, ⟨_, rfl, rfl, hskip, hmarkup, hprefixes⟩,
      fun hx' => ?_⟩
    exact (hn.warnings (hneat hx').2.1).trans (h.warnings (hneat hx').1)
  · rw [attachChild, hx, ha] at hnext
    have hstrict : bn.options.strict = false := by rwa [hoptions]
    simp only [hstrict, Bool.false_eq_true, if_false] at hnext
    have hsound := (next_step hnext).sound hn.sound
    rw [hnext]
    refine .ok ⟨hsound, hoptions, hn.noRoot, hn.notDropped, ⟨_, rfl, rfl, hskip, hmarkup, hprefixes⟩,
      fun hx' => ?_⟩
    have hattach := (hneat hx').2.2
    rw [ha] at hattach
    cases hattach

theorem next_endTag_root (hn : Inside b n' bn) (hb : b.stack = []) (hcomplete : complete n' = n)
    (span : Span) : ∃ b', bn.next (.endTag n.name span) = .ok b' ∧ b'.stack = [] ∧
      b'.dropped? = none ∧ (∃ ids, b'.root? = some (n, ids)) ∧ Sound b' ∧
        b'.warnings = bn.warnings := by
  obtain ⟨frame, hframe, hn', -, hmarkup, -⟩ := hn.frame
  rw [hb] at hframe
  have hname : frame.element.name = n.name := by
    rw [hn', ← hcomplete, name_complete]
  have hnext : bn.next (.endTag n.name span) = .ok { bn with
      offset := span.stop, stack := [], root? := some (n, frame.ids) } := by
    simp only [next, endTag, hn.notDropped, hframe, hmarkup, closeElement, hname, ne_eq,
      not_true_eq_false, false_and, if_false]
    rw [hn', hcomplete]
  exact ⟨_, hnext, rfl, hn.notDropped, ⟨_, rfl⟩, (next_step hnext).sound hn.sound, rfl⟩

end Part

end Builder

end KmlTree
