import KmlTree.Proofs.Document.Language
import KmlTree.Proofs.Markup.BuildOrder

/-!
# Prefixes that stand for the schema

A prefix that the root binds to a namespace of the schema may stand before the names of elements, or
not. Main statement: whichever elements have the prefix, they are read as without it, and nothing
else in the document changes but for the attribute that binds the prefix.
-/
namespace KmlTree

namespace Markup

/-! ## Names with a prefix -/

def qualified (p : String) (chosen : Bool) (name : String) : String :=
  if chosen then p ++ ":" ++ name else name

/-- Events with a prefix before the names of the chosen elements, in start tags and end tags alike.
Elements are chosen by the number of start tags before their own, of which the first events have
seen some already; and for each of the open elements, the innermost first, it is known whether it is
chosen. -/
def qualifyAll (p : String) (chosen : Nat → Bool) (seen : Nat) (around : List Bool) :
    List Event → List Event
  | [] => []
  | .startTag name attributes span :: rest =>
    .startTag (qualified p (chosen seen) name) attributes span ::
      qualifyAll p chosen (seen + 1) (chosen seen :: around) rest
  | .text s offset :: rest => .text s offset :: qualifyAll p chosen seen around rest
  | .endTag name span :: rest =>
    .endTag (qualified p (around.headD false) name) span ::
      qualifyAll p chosen seen around.tail rest

def appendAttribute (key value : String) : List Event → List Event
  | [] => []
  | .startTag name attributes span :: rest =>
    .startTag name (attributes ++ [(key, value)]) span :: rest
  | .text s offset :: rest => .text s offset :: appendAttribute key value rest
  | .endTag name span :: rest => .endTag name span :: appendAttribute key value rest

/-- Events without any prefix: no attribute declares one, the schema knows the name in each start
tag, and there is nothing but text in fields. It is given whether the events begin in a field. -/
def Unqualified (inField : Bool) : List Event → Prop
  | [] => True
  | .startTag name attributes _ :: rest =>
    (inField = false ∧ Kind.ofTag name ≠ .unknown ∧ declaredPrefixes attributes = []) ∧
      Unqualified (Kind.ofTag name).isSimple rest
  | .text .. :: rest => Unqualified inField rest
  | .endTag .. :: rest => Unqualified false rest

end Markup

open Markup Text

theorem splitPrefix?_qualified {p : String} (hp : ':' ∉ p.toList) (name : String) :
    splitPrefix? (p ++ ":" ++ name) = some (p, name) := by
  have hchars : (p ++ ":" ++ name).toList = p.toList ++ ':' :: name.toList := by simp
  have hpass : ∀ c ∈ p.toList, (c != ':') = true := by
    intro c hc
    simpa using fun heq : c = ':' => hp (heq ▸ hc)
  have hstop : ∀ c ∈ (':' :: name.toList).head?, (c != ':') = false := by simp
  have htake := takeWhile_append_stop hpass hstop
  have hdrop := dropWhile_append_stop hpass hstop
  simp [splitPrefix?, hchars, htake, hdrop]

theorem splitPrefix?_of_known {name : String} (h : Kind.ofTag name ≠ .unknown) :
    splitPrefix? name = none := by
  rw [← (Kind.ofTag_known h).1]
  exact Builder.splitPrefix?_tag _

/-! ## The attribute of the root -/

section Declaring

variable (p ns : String)

/-- An element with one more unknown attribute, which binds a prefix to a namespace. -/
def Element.declaring (e : Element) : Element :=
  { e with otherAttributes := ⟨e.otherAttributes.entries ++ [("xmlns:" ++ p, ns)]⟩ }

namespace Element

theorem kind_declaring (e : Element) : (e.declaring p ns).kind = e.kind := rfl

theorem children_declaring (e : Element) : (e.declaring p ns).children = e.children := rfl

theorem takeText_declaring (e : Element) (text : String) :
    (e.takeText text).declaring p ns = (e.declaring p ns).takeText text := by
  unfold takeText
  rw [kind_declaring]
  by_cases hkind : e.kind = .unknown ∨ e.kind.hasText = true
  · rw [if_pos hkind, if_pos hkind]
    rfl
  · rw [if_neg hkind, if_neg hkind]

theorem attach_declaring (e child : Element) :
    (e.declaring p ns).attach child =
      (e.attach child).map fun a => { a with parent := a.parent.declaring p ns } := by
  have hplace (repeats : Bool) (c : Child) : (e.declaring p ns).place repeats c =
      { e.place repeats c with parent := (e.place repeats c).parent.declaring p ns } := by
    unfold place
    simp only [children_declaring]
    split <;> rfl
  unfold attach
  rw [kind_declaring]
  by_cases hunknown : e.kind = .unknown ∨ child.kind = .unknown
  · rw [if_pos hunknown, if_pos hunknown]
    rfl
  · rw [if_neg hunknown, if_neg hunknown]
    cases e.kind.slotFor? child.kind with
    | none => rfl
    | some slot => exact congrArg Except.ok (hplace _ _)

end Element

def Frame.declaring (frame : Frame) : Frame :=
  { frame with element := frame.element.declaring p ns, prefixes := [(p, true)] }

namespace Builder

open Element

def frameWith (frame : Frame) (rest : List Frame) : Frame :=
  if rest.isEmpty then frame.declaring p ns else frame

def stackWith : List Frame → List Frame
  | [] => []
  | frame :: rest => frameWith p ns frame rest :: stackWith rest

/-- The builder with the prefix bound by the root. Warnings tell names as they are written, so they
are given. -/
def declaring (ws : List Warning) (b : Builder) : Builder :=
  { b with
    stack := stackWith p ns b.stack
    root? := b.root?.map fun (e, ids) => (e.declaring p ns, ids)
    warnings := ws }

/-- A frame of an element that the schema knows and that declares no prefix, with nothing open in
its text. -/
structure PlainFrame (frame : Frame) : Prop where
  known : frame.element.kind ≠ .unknown
  prefixes_eq : frame.prefixes = []
  markup_eq : frame.markup = []
  descends : frame.skipsChildren = false

/-- The root was opened, nothing has a prefix so far, and nothing is dropped. It is given whether
the innermost element is a field. -/
structure Plain (b : Builder) (inField : Bool) : Prop where
  sound : Sound b
  notDropped : b.dropped? = none
  begun : b.stack = [] → b.root?.isSome = true
  frames : ∀ f ∈ b.stack, PlainFrame f
  innermost : ∀ f ∈ b.stack.head?, f.element.kind.isSimple = inField

section Events

variable {p ns} {b b' : Builder} {frame parent : Frame} {rest : List Frame} {inField : Bool}
  {name : String} {attributes : List (String × String)} {span : Span} {events : List Event}

@[simp] theorem stack_declaring (b : Builder) (ws : List Warning) :
    (b.declaring p ns ws).stack = stackWith p ns b.stack := rfl

@[simp] theorem dropped?_declaring (b : Builder) (ws : List Warning) :
    (b.declaring p ns ws).dropped? = b.dropped? := rfl

@[simp] theorem root?_declaring (b : Builder) (ws : List Warning) : (b.declaring p ns ws).root? =
    b.root?.map fun (e, ids) => (e.declaring p ns, ids) := rfl

theorem frameWith_cons (frame parent : Frame) (rest : List Frame) :
    frameWith p ns frame (parent :: rest) = frame := rfl

/-- What is true of a frame, whether it binds the prefix or not. -/
theorem frameWith_of {P : Frame → Prop} (h : P frame) (hdeclaring : P (frame.declaring p ns)) :
    P (frameWith p ns frame rest) := by
  unfold frameWith
  split
  · exact hdeclaring
  · exact h

theorem length_stackWith (stack : List Frame) : (stackWith p ns stack).length = stack.length := by
  induction stack with
  | nil => rfl
  | cons frame rest ih => rw [stackWith, List.length_cons, List.length_cons, ih]

theorem isKmlPrefix_stackWith (hs : rest ≠ []) (hplain : ∀ f ∈ rest, PlainFrame f) :
    isKmlPrefix [] (stackWith p ns rest) p = true := by
  induction rest with
  | nil => exact absurd rfl hs
  | cons frame rest ih =>
    obtain ⟨hframe, hrest⟩ := List.forall_mem_cons.1 hplain
    cases rest with
    | nil => simp [isKmlPrefix, stackWith, frameWith, Frame.declaring]
    | cons parent rest =>
      have hparent := ih (by simp) hrest
      simp only [isKmlPrefix, List.lookup_nil, Option.none_or] at hparent ⊢
      rwa [stackWith, frameWith_cons, List.findSome?_cons, hframe.prefixes_eq, List.lookup_nil]

theorem isKmlPrefix_cons (frame : Frame) (stack : List Frame) (p : String) :
    isKmlPrefix [] (frame :: stack) p = isKmlPrefix frame.prefixes stack p := by
  unfold isKmlPrefix
  rw [List.findSome?_cons]
  cases frame.prefixes.lookup p <;> rfl

theorem localName_plain (hplain : ∀ f ∈ rest, PlainFrame f) (name : String) :
    localName [] rest name = name := by
  have hnone (q : String) : isKmlPrefix [] rest q = false := by
    have hfind : rest.findSome? (fun frame => frame.prefixes.lookup q) = none := by
      refine List.findSome?_eq_none_iff.2 fun frame hframe => ?_
      rw [(hplain frame hframe).prefixes_eq, List.lookup_nil]
    rw [isKmlPrefix, hfind]
    rfl
  unfold localName
  split
  · rfl
  · next q _ _ => rw [hnone q, if_neg (by simp)]

/-- Where the prefix is bound, a name stands for itself with the prefix and without it. -/
theorem localName_qualified (hp : ':' ∉ p.toList) {own : List (String × Bool)}
    {stack : List Frame} (hbound : isKmlPrefix own stack p = true)
    (hknown : Kind.ofTag name ≠ .unknown) (c : Bool) :
    localName own stack (qualified p c name) = name := by
  unfold localName qualified
  cases c with
  | true => simp only [if_true, splitPrefix?_qualified hp, hbound]
  | false => simp only [Bool.false_eq_true, if_false, splitPrefix?_of_known hknown]

/-! ## Text -/

theorem Plain.replaceTop (h : Plain b inField) {frame' : Frame} (before : List Frame)
    (hs : b.stack = before ++ frame :: rest) (hb' : Sound b') (hd : b'.dropped? = none)
    (hs' : b'.stack = frame' :: rest) (hkind : frame'.element.kind = frame.element.kind)
    (hsame : frame'.prefixes = frame.prefixes ∧ frame'.markup = frame.markup ∧
      frame'.skipsChildren = frame.skipsChildren) : Plain b' frame.element.kind.isSimple := by
  obtain ⟨hprefixes, hmarkup, hskip⟩ := hsame
  have hframes := h.frames
  rw [hs, List.forall_mem_append, List.forall_mem_cons] at hframes
  obtain ⟨-, hframe, hrest⟩ := hframes
  have hframe' : PlainFrame frame' :=
    ⟨hkind ▸ hframe.known, hprefixes.trans hframe.prefixes_eq, hmarkup.trans hframe.markup_eq,
      hskip.trans hframe.descends⟩
  refine ⟨hb', hd, by simp [hs'], ?_, ?_⟩
  · rw [hs']
    exact List.forall_mem_cons.2 ⟨hframe', hrest⟩
  · rw [hs']
    rintro _ ⟨⟩
    rw [hkind]

theorem Plain.text (h : Plain b inField) {s : String} {offset : Nat}
    (hnext : b.next (.text s offset) = .ok b') : Plain b' inField := by
  have hstep := next_step hnext
  have hsound := hstep.sound h.sound
  cases hstep with
  | textPassed => exact ⟨hsound, h.notDropped, h.begun, h.frames, h.innermost⟩
  | textKept _ hs _ =>
    have hinner := h.innermost _ (by rw [hs]; rfl)
    exact hinner ▸ h.replaceTop [] hs hsound h.notDropped rfl rfl ⟨rfl, rfl, rfl⟩

theorem Plain.next_text (h : Plain b inField) {s : String} {offset : Nat}
    (hnext : b.next (.text s offset) = .ok b') (ws : List Warning) :
    (b.declaring p ns ws).next (.text s offset) = .ok (b'.declaring p ns ws) := by
  cases hs : b.stack with
  | nil =>
    simp only [next, Builder.text, stack_declaring, dropped?_declaring, h.notDropped, hs, stackWith,
      Option.isSome_none, Bool.false_eq_true, if_false] at hnext ⊢
    split at hnext
    · next hblank =>
      cases hnext
      rw [if_pos hblank]
      rfl
    · cases hnext
  | cons frame rest =>
    have hframe := h.frames frame (by simp [hs])
    have hinner : Innermost b frame rest := ⟨h.notDropped, hs, hframe.descends⟩
    have hinner' : Innermost (b.declaring p ns ws) (frameWith p ns frame rest)
        (stackWith p ns rest) :=
      ⟨h.notDropped, by rw [stack_declaring, hs, stackWith],
        frameWith_of (P := fun f => f.skipsChildren = false) hframe.descends hframe.descends⟩
    have hframeWith : frameWith p ns { frame with element := frame.element.takeText s } rest =
        { frameWith p ns frame rest with
          element := (frameWith p ns frame rest).element.takeText s } := by
      cases rest with
      | nil =>
        exact congrArg (fun element => ({ frame with element, prefixes := [(p, true)] } : Frame))
          (frame.element.takeText_declaring p ns s)
      | cons => rfl
    rw [hinner.next_text] at hnext
    cases hnext
    rw [hinner'.next_text, ← hframeWith]
    rfl

/-! ## Start tags -/

theorem openedElement_of_known (hknown : ∀ f ∈ b.stack.head?, f.element.kind ≠ .unknown)
    (name : String) (attributes : List (String × String)) : b.openedElement name attributes =
      (ofName (localName (declaredPrefixes attributes) b.stack name)).setAttributes attributes := by
  have hfor (localName : String) : elementFor b.stack name localName = ofName localName := by
    unfold elementFor
    split
    · rfl
    · next frame rest hs => exact if_neg (hknown frame (by simp [hs]))
  rw [openedElement, hfor]
  rfl

theorem openedElement_plain (hplain : ∀ f ∈ b.stack, PlainFrame f)
    (hown : declaredPrefixes attributes = []) (name : String) :
    b.openedElement name attributes = (ofName name).setAttributes attributes := by
  have hknown : ∀ f ∈ b.stack.head?, f.element.kind ≠ .unknown := fun f hf =>
    (hplain f (List.mem_of_mem_head? hf)).known
  rw [openedElement_of_known hknown, hown, localName_plain hplain]

theorem plain_opened (hb' : Sound b') (hd : b'.dropped? = none)
    (hplain : ∀ f ∈ b.stack, PlainFrame f) (hknown : Kind.ofTag name ≠ .unknown)
    (hown : declaredPrefixes attributes = []) {opened : Frame} {taken : List (String × Nat)}
    (hinner : Innermost b' opened b.stack) (hopens : Opens b name attributes span opened taken) :
    Plain b' (Kind.ofTag name).isSimple := by
  have hkind : opened.element.kind = Kind.ofTag name := by
    rw [hopens.element_eq, openedElement_plain hplain hown, kind_setAttributes, kind_ofName]
  have hopened : PlainFrame opened :=
    ⟨hkind ▸ hknown, hopens.prefixes_eq.trans hown, hopens.markup_eq, hinner.descends⟩
  refine ⟨hb', hd, by simp [hinner.stack_eq], ?_, ?_⟩
  · rw [hinner.stack_eq]
    exact List.forall_mem_cons.2 ⟨hopened, hplain⟩
  · rw [hinner.stack_eq]
    rintro _ ⟨⟩
    rw [hkind]

theorem head?_stackWith {P : Frame → Prop} {stack : List Frame}
    (h : ∀ f ∈ stack.head?, P f ∧ P (f.declaring p ns)) :
    ∀ f ∈ (stackWith p ns stack).head?, P f := by
  cases stack with
  | nil => simp [stackWith]
  | cons frame rest =>
    rintro _ ⟨⟩
    exact frameWith_of (h frame rfl).1 (h frame rfl).2

theorem stackWith_ne_nil (hs : rest ≠ []) : stackWith p ns rest ≠ [] := by
  rw [← List.length_pos_iff] at hs ⊢
  exact (length_stackWith (p := p) rest).symm ▸ hs

theorem Plain.openedElement_declaring (h : Plain b inField) (hs : b.stack ≠ [])
    (hp : ':' ∉ p.toList) (hknown : Kind.ofTag name ≠ .unknown)
    (hown : declaredPrefixes attributes = []) (c : Bool) (ws : List Warning) :
    (b.declaring p ns ws).openedElement (qualified p c name) attributes =
      b.openedElement name attributes := by
  have hkinds : ∀ f ∈ (b.declaring p ns ws).stack.head?, f.element.kind ≠ .unknown :=
    head?_stackWith fun f hf =>
      have hframe := h.frames f (List.mem_of_mem_head? hf)
      ⟨hframe.known, hframe.known⟩
  have hbound : isKmlPrefix [] (b.declaring p ns ws).stack p = true :=
    isKmlPrefix_stackWith hs h.frames
  rw [openedElement_of_known hkinds, hown, localName_qualified hp hbound hknown,
    openedElement_plain h.frames hown]

theorem Plain.opens_declaring (h : Plain b inField) (hs : b.stack ≠ []) (hp : ':' ∉ p.toList)
    (hknown : Kind.ofTag name ≠ .unknown) (hown : declaredPrefixes attributes = [])
    {opened : Frame} {taken : List (String × Nat)}
    (hopens : Opens b name attributes span opened taken) (c : Bool) (ws : List Warning) :
    Opens (b.declaring p ns ws) (qualified p c name) attributes span opened taken where
  noRoot := by simp [hopens.noRoot]
  depth_lt := by
    rw [stack_declaring, length_stackWith]
    exact hopens.depth_lt
  around := head?_stackWith fun f hf => ⟨hopens.around f hf, hopens.around f hf⟩
  outermost := fun hnil => absurd hnil (stackWith_ne_nil hs)
  element_eq := by rw [h.openedElement_declaring hs hp hknown hown, hopens.element_eq]
  span_eq := hopens.span_eq
  ids_eq := hopens.ids_eq
  free := hopens.free
  prefixes_eq := hopens.prefixes_eq
  markup_eq := hopens.markup_eq
  taken_eq := hopens.taken_eq

theorem Plain.around (h : Plain b false) : ∀ f ∈ b.stack.head?,
    f.skipsChildren = false ∧ f.element.kind.isSimple = false := fun f hf =>
  ⟨(h.frames f (List.mem_of_mem_head? hf)).descends, h.innermost f hf⟩

theorem Plain.started (h : Plain b false) (hknown : Kind.ofTag name ≠ .unknown)
    (hown : declaredPrefixes attributes = [])
    (hnext : b.next (.startTag name attributes span) = .ok b') :
    Plain b' (Kind.ofTag name).isSimple := by
  obtain ⟨opened, taken, hinner, hopens⟩ := next_opens h.notDropped h.around hnext
  have hsound := (next_step hnext).sound h.sound
  exact plain_opened hsound hinner.notDropped h.frames hknown hown hinner hopens

theorem Plain.next_startTag (h : Plain b false) (hp : ':' ∉ p.toList)
    (hknown : Kind.ofTag name ≠ .unknown) (hown : declaredPrefixes attributes = [])
    (hnext : b.next (.startTag name attributes span) = .ok b') (c : Bool) (ws : List Warning) :
    (b.declaring p ns ws).next (.startTag (qualified p c name) attributes span) =
      .ok (b'.declaring p ns ws) := by
  obtain ⟨opened, taken, hinner, hopens⟩ := next_opens h.notDropped h.around hnext
  have hs : b.stack ≠ [] := by
    intro hnil
    have hroot := h.begun hnil
    rw [hopens.noRoot] at hroot
    cases hroot
  have hopened : frameWith p ns opened b.stack = opened := by
    obtain ⟨frame, rest, hstack⟩ := List.exists_cons_of_ne_nil hs
    rw [hstack, frameWith_cons]
  have hafter := hopens.next_eq h.notDropped hinner.descends
  rw [hnext] at hafter
  cases hafter
  rw [(h.opens_declaring hs hp hknown hown hopens c ws).next_eq h.notDropped hinner.descends]
  simp only [declaring, stackWith, hopened]

/-! ## End tags -/

/-- An end tag ends an element with the prefix and without it. -/
theorem Ends.declaring (h : Ends frame rest name) (hplain : ∀ f ∈ frame :: rest, PlainFrame f)
    (hp : ':' ∉ p.toList) (c : Bool) :
    Ends (frameWith p ns frame rest) (stackWith p ns rest) (qualified p c name) := by
  obtain ⟨hframe, hrest⟩ := List.forall_mem_cons.1 hplain
  have hname : (frameWith p ns frame rest).element.name = name := by
    have hname := h.name_eq
    rw [hframe.prefixes_eq, localName_plain hrest, or_self] at hname
    exact frameWith_of (P := fun f => f.element.name = name) hname hname
  refine ⟨frameWith_of (P := fun f => f.markup = []) hframe.markup_eq hframe.markup_eq, ?_⟩
  cases c with
  | false => exact .inl hname
  | true =>
    have hbound : isKmlPrefix [] (stackWith p ns (frame :: rest)) p = true :=
      isKmlPrefix_stackWith (List.cons_ne_nil frame rest) hplain
    rw [stackWith, isKmlPrefix_cons] at hbound
    refine .inr (hname.trans ?_)
    simp only [localName, qualified, if_true, splitPrefix?_qualified hp, hbound]

theorem addUnknown_frameWith (parent : Frame) (stack : List Frame) (child : Element) :
    (frameWith p ns parent stack).element.addUnknown child =
      (frameWith p ns { parent with element := parent.element.addUnknown child } stack).element := by
  unfold frameWith
  split <;> rfl

theorem attach_frameWith (parent : Frame) (stack : List Frame) (child : Element) :
    (frameWith p ns parent stack).element.attach child =
      (parent.element.attach child).map fun a => { a with
        parent := (frameWith p ns { parent with element := a.parent } stack).element } := by
  unfold frameWith
  split
  · exact parent.element.attach_declaring p ns child
  · cases parent.element.attach child <;> rfl

theorem attachChild_declaring {child : Frame}
    (h : attachChild ⟨b, name, parent, child⟩ = .ok b') (name' : String) (ws : List Warning) :
    ∃ ws', attachChild ⟨b.declaring p ns ws, name', frameWith p ns parent b.stack, child⟩ =
      .ok (b'.declaring p ns ws') := by
  have hids : (frameWith p ns parent b.stack).ids = parent.ids :=
    frameWith_of (P := fun f => f.ids = parent.ids) rfl rfl
  have hframe (element : Element) (ids : Declared) :
      { frameWith p ns parent b.stack with
        element := (frameWith p ns { parent with element } b.stack).element, ids } =
      frameWith p ns { parent with element, ids } b.stack := by
    unfold frameWith
    split <;> rfl
  unfold attachChild at h ⊢
  dsimp only at h ⊢
  rw [attach_frameWith]
  cases ha : parent.element.attach child.element with
  | error rejected =>
    simp only [ha] at h
    split at h
    · cases h
    · next hlenient =>
      have hlenient' : (b.declaring p ns ws).options.strict = false := eq_false_of_ne_true hlenient
      cases h
      simp only [Except.map, hlenient', Bool.false_eq_true, if_false, addUnknown_frameWith, hids,
        hframe]
      exact ⟨_, rfl⟩
  | ok a =>
    obtain ⟨element, index?, replaced?⟩ := a
    simp only [ha] at h
    cases index? with
    | none =>
      cases h
      simp only [Except.map, hids, hframe]
      exact ⟨_, rfl⟩
    | some i =>
      cases h
      simp only [Except.map, hids, hframe]
      exact ⟨_, rfl⟩

theorem Plain.ended (h : Plain b inField) (hnext : b.next (.endTag name span) = .ok b') :
    Plain b' false := by
  have hstep := next_step hnext
  have hsound := hstep.sound h.sound
  have haround {frame parent : Frame} {rest : List Frame} (hs : b.stack = frame :: parent :: rest) :
      parent.element.kind.isSimple = false := h.sound.around parent (by simp [hs])
  cases hstep with
  | dropEnded hd =>
    rw [h.notDropped] at hd
    cases hd
  | markupClosed _ hs hmarkup =>
    rw [(h.frames _ (by simp [hs])).markup_eq] at hmarkup
    cases hmarkup
  | rootEnded => exact ⟨hsound, h.notDropped, fun _ => rfl, by simp, by simp⟩
  | vetoed _ hs _ | misplaced _ hs _ _ =>
    exact haround hs ▸ h.replaceTop [_] hs hsound h.notDropped rfl rfl ⟨rfl, rfl, rfl⟩
  | filed _ hs _ ha | attached _ hs _ ha =>
    have hkind := (attach_cases ha).kind
    exact haround hs ▸ h.replaceTop [_] hs hsound h.notDropped rfl hkind ⟨rfl, rfl, rfl⟩

theorem Plain.next_endTag (h : Plain b inField) (hp : ':' ∉ p.toList)
    (hnext : b.next (.endTag name span) = .ok b') (c : Bool) (ws : List Warning) :
    ∃ ws', (b.declaring p ns ws).next (.endTag (qualified p c name) span) =
      .ok (b'.declaring p ns ws') := by
  cases hs : b.stack with
  | nil =>
    simp only [next, endTag, h.notDropped, hs] at hnext
    cases hnext
  | cons frame rest =>
    have hplain : ∀ f ∈ frame :: rest, PlainFrame f := hs ▸ h.frames
    have hends : Ends frame rest name := by
      by_contra hnot
      rw [next, endTag_of_not_ends h.notDropped hs (hplain frame List.mem_cons_self).markup_eq hnot]
        at hnext
      cases hnext
    have hends' : Ends (frameWith p ns frame rest) (stackWith p ns rest) (qualified p c name) :=
      hends.declaring hplain hp c
    have hd : (b.declaring p ns ws).dropped? = none := h.notDropped
    have hs' : (b.declaring p ns ws).stack = frameWith p ns frame rest :: stackWith p ns rest := by
      rw [stack_declaring, hs, stackWith]
    cases rest with
    | nil =>
      rw [next, endTag_of_ends_root h.notDropped hs hends] at hnext
      cases hnext
      rw [next, endTag_of_ends_root hd hs' hends']
      exact ⟨ws, rfl⟩
    | cons parent rest =>
      rw [next, endTag_of_ends h.notDropped hs hends] at hnext
      rw [next, endTag_of_ends hd hs' hends']
      exact attachChild_declaring hnext (qualified p c name) ws

/-! ## Runs -/

/-- Once the root is open, all is read alike. -/
theorem Plain.run (h : Plain b inField) (hp : ':' ∉ p.toList) (hun : Unqualified inField events)
    (hrun : events.foldlM next b = .ok b') (chosen : Nat → Bool) (seen : Nat) (around : List Bool)
    (ws : List Warning) :
    ∃ ws', (qualifyAll p chosen seen around events).foldlM next (b.declaring p ns ws) =
      .ok (b'.declaring p ns ws') := by
  induction events generalizing b inField seen around ws with
  | nil =>
    cases hrun
    exact ⟨ws, rfl⟩
  | cons event rest ih =>
    obtain ⟨b₁, hnext, hrest⟩ := foldlM_cons_ok hrun
    cases event with
    | startTag name attributes span =>
      obtain ⟨⟨rfl, hknown, hown⟩, hrestUn⟩ := hun
      rw [qualifyAll, List.foldlM_cons, h.next_startTag hp hknown hown hnext]
      exact ih (h.started hknown hown hnext) hrestUn hrest _ _ ws
    | text s offset =>
      rw [qualifyAll, List.foldlM_cons, h.next_text hnext]
      exact ih (h.text hnext) hun hrest _ _ ws
    | endTag name span =>
      -- An element is ended under either name, so it need not be known here which one was chosen.
      obtain ⟨ws', hstep⟩ := h.next_endTag hp hnext (around.headD false) ws
      rw [qualifyAll, List.foldlM_cons, hstep]
      exact ih (h.ended hnext) hun hrest _ _ ws'

/-! ## The root -/

theorem mem_keys_setAttributes {e : Element} {key : String}
    (h : key ∈ (e.setAttributes attributes).otherAttributes.keys) :
    key ∈ e.otherAttributes.keys ∨ key ∈ attributes.map Prod.fst := by
  induction attributes generalizing e with
  | nil => exact .inl h
  | cons entry rest ih =>
    rw [List.map_cons, List.mem_cons]
    rcases ih h with hkey | hkey
    · change key ∈ (e.setAttribute entry.1 entry.2).otherAttributes.keys at hkey
      unfold setAttribute at hkey
      split at hkey
      · exact .inl hkey
      · rcases AttributeMap.mem_keys_insert hkey with hkey | hkey
        · exact .inl hkey
        · exact .inr (.inl hkey)
    · exact .inr (.inr hkey)

theorem keys_ofName (name : String) : (ofName name).otherAttributes.keys = [] := by
  unfold ofName
  split <;> rfl

theorem setAttribute_declaring {e : Element} (hnew : "xmlns:" ++ p ∉ e.otherAttributes.keys) :
    e.setAttribute ("xmlns:" ++ p) ns = e.declaring p ns := by
  have hunknown : e.kind.attribute? ("xmlns:" ++ p) = none := by
    cases ha : e.kind.attribute? ("xmlns:" ++ p) with
    | none => rfl
    | some a =>
      have hkey := Kind.key_of_attribute? ha
      have hdeclared := declaredPrefix?_key a
      rw [hkey, declaredPrefix?_eq_some_iff.2 rfl] at hdeclared
      cases hdeclared
  rw [setAttribute, hunknown]
  simp only [AttributeMap.insert, replaceOrAppend_of_not_mem ns hnew]
  rfl

theorem Outside.next_startTag (h : Outside b) (hp : ':' ∉ p.toList) (hns : ns ∈ kmlNamespaces)
    (hknown : Kind.ofTag name ≠ .unknown) (hown : declaredPrefixes attributes = [])
    (hnext : b.next (.startTag name attributes span) = .ok b') (c : Bool) :
    b.next (.startTag (qualified p c name) (attributes ++ [("xmlns:" ++ p, ns)]) span) =
        .ok (b'.declaring p ns b.warnings) ∧
      Plain b' (Kind.ofTag name).isSimple := by
  have hplain : ∀ f ∈ b.stack, PlainFrame f := by simp [h.stack_eq]
  obtain ⟨opened, taken, hinner, hopens⟩ := next_opens h.notDropped (by simp [h.stack_eq]) hnext
  have hsound := (next_step hnext).sound h.sound
  refine ⟨?_, plain_opened hsound hinner.notDropped hplain hknown hown hinner hopens⟩
  have hdeclared : declaredPrefixes (attributes ++ [("xmlns:" ++ p, ns)]) = [(p, true)] := by
    have hlast : declaredPrefixes [("xmlns:" ++ p, ns)] = [(p, true)] := by
      simp [declaredPrefixes, declaredPrefix?_eq_some_iff.2, hns]
    rw [← hlast, ← List.nil_append (declaredPrefixes [_]), ← hown]
    exact List.filterMap_append
  have hnew : "xmlns:" ++ p ∉ ((ofName name).setAttributes attributes).otherAttributes.keys := by
    intro hkey
    rcases mem_keys_setAttributes hkey with hkey | hkey
    · rw [keys_ofName] at hkey
      cases hkey
    · obtain ⟨⟨_, value⟩, hmem, rfl⟩ := List.mem_map.1 hkey
      have hnone := List.filterMap_eq_nil_iff.1 hown _ hmem
      simp [declaredPrefix?_eq_some_iff.2] at hnone
  have helement : b.openedElement (qualified p c name) (attributes ++ [("xmlns:" ++ p, ns)]) =
      opened.element.declaring p ns := by
    have hbound : isKmlPrefix [(p, true)] b.stack p = true := by simp [isKmlPrefix]
    rw [openedElement_of_known (by simp [h.stack_eq]), hdeclared,
      localName_qualified hp hbound hknown, setAttributes_append, hopens.element_eq,
      openedElement_plain hplain hown]
    exact setAttribute_declaring hnew
  have hopens' : Opens b (qualified p c name) (attributes ++ [("xmlns:" ++ p, ns)]) span
      (opened.declaring p ns) taken :=
    ⟨hopens.noRoot, hopens.depth_lt, hopens.around, hopens.outermost, helement.symm,
      hopens.span_eq, hopens.ids_eq, hopens.free, hdeclared.symm, hopens.markup_eq,
      hopens.taken_eq⟩
  have hafter := hopens.next_eq h.notDropped hinner.descends
  rw [hnext] at hafter
  cases hafter
  rw [hopens'.next_eq h.notDropped hinner.descends]
  simp [declaring, stackWith, frameWith, h.stack_eq, hopens.noRoot]

/-- Until the root is open, nothing but blank text is read, and the start tag of the root then binds
the prefix. -/
theorem Outside.run (h : Outside b) (hroot : b.root? = none) (hp : ':' ∉ p.toList)
    (hns : ns ∈ kmlNamespaces) (hun : Unqualified false events)
    (hrun : events.foldlM next b = .ok b') (hb' : b'.root? ≠ none) (chosen : Nat → Bool) :
    ∃ ws, (appendAttribute ("xmlns:" ++ p) ns (qualifyAll p chosen 0 [] events)).foldlM next b =
      .ok (b'.declaring p ns ws) := by
  induction events generalizing b with
  | nil =>
    cases hrun
    exact absurd hroot hb'
  | cons event rest ih =>
    obtain ⟨b₁, hnext, hrest⟩ := foldlM_cons_ok hrun
    cases event with
    | startTag name attributes span =>
      obtain ⟨⟨-, hknown, hown⟩, hrestUn⟩ := hun
      obtain ⟨hstep, hplain⟩ := h.next_startTag hp hns hknown hown hnext (chosen 0)
      rw [qualifyAll, appendAttribute, List.foldlM_cons, hstep]
      exact hplain.run hp hrestUn hrest chosen _ _ _
    | text s offset =>
      rw [qualifyAll, appendAttribute, List.foldlM_cons, hnext]
      rw [h.next_text] at hnext
      split at hnext
      · cases hnext
        exact ih (h.withOffset _) hroot hun hrest
      · cases hnext
    | endTag name span =>
      simp only [next, endTag, h.notDropped, h.stack_eq] at hnext
      cases hnext

end Events

end Builder

end Declaring

/-- **Prefixes that stand for the schema are transparent.** If a document is read from events without
any prefix, then the same is read when a prefix stands before the names of any of its elements and
the root binds it to a namespace of the schema, but for the attribute that does. -/
theorem Document.prefixes_transparent {σ : Type} {options : ReadOptions} {events : List Event}
    {s s' : σ} {d : Document} {p ns : String} (chosen : Nat → Bool)
    (hun : Unqualified false events) (hp : ':' ∉ p.toList) (hns : ns ∈ kmlNamespaces)
    (h : (Document.ofEvents options ([] : List (Observer σ)) events).run s = (.ok d, s')) :
    ∃ d' root,
      (Document.ofEvents options ([] : List (Observer σ))
          (appendAttribute ("xmlns:" ++ p) ns (qualifyAll p chosen 0 [] events))).run s =
        (.ok d', s') ∧
      d'.index = d.index ∧ d.root? = some root ∧ d'.root? = some (root.declaring p ns) := by
  rw [Document.ofEvents_unobserved, Prod.mk.injEq] at h
  obtain ⟨hd, rfl⟩ := h
  obtain ⟨b, hrun, hfinish⟩ := Builder.foldlM_finish_ok hd
  obtain ⟨hstack, hdropped, root, ids, hroot, rfl⟩ := Builder.finish_eq_ok_iff.1 hfinish
  have hnew : Builder.Outside (.new options) := ⟨Builder.sound_new options, rfl, rfl⟩
  obtain ⟨ws, hrun'⟩ := hnew.run rfl hp hns hun hrun (by simp [hroot]) chosen
  have hfinish' : (b.declaring p ns ws).finish =
      .ok { root? := some (root.declaring p ns), index := .ofList ids, warnings := ws } := by
    have hstack' : (b.declaring p ns ws).stack = [] := by
      rw [Builder.stack_declaring, hstack, Builder.stackWith]
    have hroot' : (b.declaring p ns ws).root? = some (root.declaring p ns, ids) := by
      rw [Builder.root?_declaring, hroot, Option.map_some]
    exact Builder.finish_eq_ok_iff.2 ⟨hstack', hdropped, _, ids, hroot', rfl⟩
  refine ⟨{ root? := some (root.declaring p ns), index := .ofList ids, warnings := ws }, root, ?_,
    rfl, rfl, rfl⟩
  rw [Document.ofEvents_unobserved, hrun']
  exact congrArg (fun outcome => (outcome, s)) hfinish'

def namedPlacemark : List Event :=
  [.startTag "kml" [] ⟨0, 5⟩, .startTag "Placemark" [("id", "p")] ⟨5, 23⟩,
    .startTag "name" [] ⟨23, 29⟩, .text "a" 29, .endTag "name" ⟨30, 37⟩,
    .endTag "Placemark" ⟨37, 49⟩, .endTag "kml" ⟨49, 55⟩]

/-- The root and the name of its placemark may have a prefix, while the placemark has none. -/
theorem Document.prefixes_transparent_namedPlacemark :
    Unqualified false namedPlacemark ∧ ':' ∉ "k".toList ∧
    "http://www.opengis.net/kml/2.2" ∈ kmlNamespaces ∧
    ∃ d d' root,
      (Document.ofEvents {} ([] : List (Observer Unit)) namedPlacemark).run () = (.ok d, ()) ∧
      (Document.ofEvents {} ([] : List (Observer Unit))
          [.startTag "k:kml" [("xmlns:k", "http://www.opengis.net/kml/2.2")] ⟨0, 5⟩,
            .startTag "Placemark" [("id", "p")] ⟨5, 23⟩, .startTag "k:name" [] ⟨23, 29⟩,
            .text "a" 29, .endTag "k:name" ⟨30, 37⟩, .endTag "Placemark" ⟨37, 49⟩,
            .endTag "k:kml" ⟨49, 55⟩]).run () = (.ok d', ()) ∧
      d'.index = d.index ∧ d.root? = some root ∧
      d'.root? = some (root.declaring "k" "http://www.opengis.net/kml/2.2") := by
  have hun : Unqualified false namedPlacemark := by
    refine ⟨⟨rfl, ?_, rfl⟩, ⟨?_, ?_, rfl⟩, ⟨?_, ?_, rfl⟩, trivial⟩ <;> decide +kernel
  have hp : ':' ∉ "k".toList := by decide
  have hns : "http://www.opengis.net/kml/2.2" ∈ kmlNamespaces := List.mem_cons_self
  obtain ⟨d, hd⟩ : ∃ d, (Document.ofEvents {} ([] : List (Observer Unit)) namedPlacemark).run () =
      (.ok d, ()) := ⟨_, rfl⟩
  obtain ⟨d', root, hd', hresult⟩ :=
    Document.prefixes_transparent (fun i => i != 1) hun hp hns hd
  exact ⟨hun, hp, hns, d, d', root, hd, hd', hresult⟩

end KmlTree
