import KmlTree.Proofs.Markup.Nesting
import KmlTree.Proofs.Reading.Opened

/-!
# What nested markup is read as

The reading by recursion on the nodes of a text, without stack or builder: what element a node is,
what is warned about in it, and what it takes for a reading to accept it. Main statements: nodes
that are taken in one by one are taken in as the recursion says, and nothing but the text and the
children of an element changes until it ends.
-/
namespace KmlTree

open Markup Text

/-! ## Taking in a child -/

/-- Children with one more: in place of the first one that stands where it is to stand, and after
all others where none does. -/
def putChild (child : Child) : List Child → List Child
  | [] => [child]
  | c :: rest => if c.slot = child.slot then child :: rest else c :: putChild child rest

theorem putChild_of_none {child : Child} {children : List Child}
    (h : ∀ c ∈ children, c.slot ≠ child.slot) : putChild child children = children ++ [child] := by
  induction children with
  | nil => rfl
  | cons c rest ih =>
    rw [putChild, if_neg (h c List.mem_cons_self), ih fun d hd => h d (List.mem_cons_of_mem _ hd)]
    rfl

theorem putChild_of_first {child c : Child} {children : List Child} {i : Nat}
    (hi : children[i]? = some c) (hc : c.slot = child.slot)
    (hfirst : ∀ j < i, ∀ d, children[j]? = some d → d.slot ≠ child.slot) :
    putChild child children = children.set i child := by
  induction children generalizing i with
  | nil => simp at hi
  | cons d rest ih =>
    cases i with
    | zero =>
      cases hi
      rw [putChild, if_pos hc]
      rfl
    | succ i =>
      have hrest := ih (i := i) hi fun j hj d hd => hfirst (j + 1) (by omega) d hd
      rw [putChild, if_neg (hfirst 0 (by omega) d rfl), hrest]
      rfl

namespace Element

/-- An element with a child taken in: among its children where the schema has a place for it, and
as unknown content otherwise. -/
def takeIn (e child : Element) : Element :=
  if e.kind = .unknown ∨ child.kind = .unknown then e.addUnknown child
  else
    match e.kind.slotFor? child.kind with
    | none => e.addUnknown child
    | some (position, slot) =>
      let kept := child.toChild position
      { e with children := if slot.repeats then e.children ++ [kept] else putChild kept e.children }

variable {e child : Element}

theorem takeIn_of_attach {a : Attached} (h : e.attach child = .ok a) :
    a.parent = e.takeIn child := by
  cases attach_cases h with
  | unknown hunknown => rw [takeIn, if_pos hunknown]
  | @placed position slot i c hparent hchild hslot hone hi hc hfirst =>
    have hput : putChild (child.toChild position) e.children =
        e.children.set i (child.toChild position) :=
      putChild_of_first hi (by rwa [slot_toChild]) (by rwa [slot_toChild])
    rw [takeIn, if_neg (not_or.2 ⟨hparent, hchild⟩), hslot]
    simp only [hone, Bool.false_eq_true, if_false, hput]
  | @appended position slot hparent hchild hslot hroom =>
    rw [takeIn, if_neg (not_or.2 ⟨hparent, hchild⟩), hslot]
    cases hrepeats : slot.repeats with
    | true => simp only [hrepeats, if_true]
    | false =>
      have hnone := hroom.resolve_left (by simp [hrepeats])
      have hput : putChild (child.toChild position) e.children =
          e.children ++ [child.toChild position] :=
        putChild_of_none (by rwa [slot_toChild])
      simp only [hrepeats, Bool.false_eq_true, if_false, hput]

theorem takeIn_of_rejected {rejected : Rejected} (h : e.attach child = .error rejected) :
    e.takeIn child = e.addUnknown rejected.child := by
  obtain ⟨hparent, hchild, hslot, rfl⟩ := attach_eq_error_iff.1 h
  rw [takeIn, if_neg (not_or.2 ⟨hparent, hchild⟩), hslot]

def label (e : Element) : Head := { e.toHead with text := "" }

theorem label_takeText (e : Element) (text : String) : (e.takeText text).label = e.label := by
  unfold takeText
  split <;> rfl

theorem label_takeIn (e child : Element) : (e.takeIn child).label = e.label := by
  unfold takeIn
  split
  · rfl
  · split <;> rfl

/-- An element that is ended: the text around what is in it does not count at its ends. -/
def ended (e : Element) : Element :=
  { e with text := if e.children = [] ∧ e.unknown = [] then e.text else trim e.text }

theorem label_ended (e : Element) : e.ended.label = e.label := rfl

variable {e' : Element}

theorem kind_of_label (h : e.label = e'.label) : e.kind = e'.kind := by
  have hkind : e.label.kind = e'.label.kind := by rw [h]
  exact hkind

theorem name_of_label (h : e.label = e'.label) : e.name = e'.name := by
  have hname : e.label.writtenName?.getD e.label.kind.tag =
      e'.label.writtenName?.getD e'.label.kind.tag := by rw [h]
  exact hname

theorem takeIn_appendText (e child : Element) (text : String) :
    (e.appendText text).takeIn child = (e.takeIn child).appendText text := by
  have hkind : (e.appendText text).kind = e.kind := rfl
  unfold takeIn
  rw [hkind]
  by_cases hunknown : e.kind = .unknown ∨ child.kind = .unknown
  · rw [if_pos hunknown, if_pos hunknown]
    rfl
  · rw [if_neg hunknown, if_neg hunknown]
    cases e.kind.slotFor? child.kind <;> rfl

/-- It makes no difference whether a text or a child comes first. -/
theorem takeIn_takeText (e child : Element) (text : String) :
    (e.takeText text).takeIn child = (e.takeIn child).takeText text := by
  have hkind : (e.takeIn child).kind = e.kind := kind_of_label (label_takeIn e child)
  unfold takeText
  rw [hkind]
  split
  · exact takeIn_appendText e child text
  · rfl

end Element

/-! ## The reading of a node -/

/-- Whether a start tag has a prefix stand for a namespace of the schema, if it declares the
prefix. -/
def Markup.StartTag.declares? (start : StartTag) (p : String) : Option Bool :=
  (start.attributes.lookup ("xmlns:" ++ p)).map fun value => kmlNamespaces.contains value

/-- Where a node stands. -/
structure Setting where
  /-- Whether a prefix stands for a namespace of the schema by the next declaration around the node,
  if there is any. -/
  scope : String → Option Bool := fun _ => none
  /-- Whether the schema does not know the element right around the node. -/
  belowUnknown : Bool := false

namespace Setting

def declared? (around : Setting) (start : StartTag) (p : String) : Option Bool :=
  (start.declares? p).or (around.scope p)

/-- The name without a prefix that the element itself or the next one around it with a declaration
of the prefix puts in a namespace of the schema. -/
def localName (around : Setting) (start : StartTag) (name : String) : String :=
  match splitPrefix? name with
  | none => name
  | some (p, rest) => if around.declared? start p = some true then rest else name

/-- The element that a start tag opens. Below an element that the schema does not know, it knows
none. -/
def opened (around : Setting) (start : StartTag) : Element :=
  start.attributes.foldl (fun e (key, value) => e.setAttribute key value)
    (if around.belowUnknown then .unnamed start.name
      else .ofName (around.localName start start.name))

theorem opened_empty (around : Setting) (start : StartTag) :
    (around.opened start).text = "" ∧ (around.opened start).children = [] ∧
      (around.opened start).unknown = [] := by
  have hbare : ∃ kind writtenName?, (if around.belowUnknown then Element.unnamed start.name
      else .ofName (around.localName start start.name)) = ⟨{ kind, writtenName? }, [], []⟩ := by
    split
    · exact ⟨_, _, rfl⟩
    · exact Element.ofName_eq _
  obtain ⟨kind, writtenName?, hbare⟩ := hbare
  obtain ⟨known, others, heq⟩ := Element.foldl_setAttribute_eq start.attributes
    ⟨{ kind, writtenName? }, [], []⟩
  rw [opened, hbare, heq]
  exact ⟨rfl, rfl, rfl⟩

def inside (around : Setting) (start : StartTag) (e : Element) : Setting :=
  ⟨around.declared? start, e.kind = .unknown⟩

def within (around : Setting) (start : StartTag) : Setting :=
  around.inside start (around.opened start)

theorem inside_of_label (around : Setting) (start : StartTag) {e e' : Element}
    (h : e.label = e'.label) : around.inside start e = around.inside start e' := by
  rw [inside, inside, Element.kind_of_label h]

end Setting

def Markup.Node.ownText : Node → String
  | .text s _ => s
  | .element .. => ""

def Markup.StartTag.written (start : StartTag) : String :=
  "<" ++ start.name ++ String.join (start.attributes.map fun (key, value) =>
    " " ++ key ++ "=\"" ++ escapeQuoted value ++ "\"")

mutual

/-- A node as part of the text of a field: an element that holds nothing becomes an empty tag. -/
def Markup.Node.written : Node → String
  | .text s _ => s
  | .element start content _ =>
    let inner := writtenOf content
    start.written ++ if inner = "" then "/>" else ">" ++ inner ++ "</" ++ start.name ++ ">"

def writtenOf : List Node → String
  | [] => ""
  | n :: rest => n.written ++ writtenOf rest

end

mutual

def Markup.Node.read? (around : Setting) : Node → Option Element
  | .text .. => none
  | .element start content _ =>
    let e := around.opened start
    let filled :=
      if e.kind.isSimple then e.takeText (writtenOf content)
      else
        (readAll (around.within start) content).foldl Element.takeIn
          (e.takeText (String.join (content.map Node.ownText)))
    some filled.ended

def readAll (around : Setting) : List Node → List Element
  | [] => []
  | n :: rest => (n.read? around).toList ++ readAll around rest

end

/-- What is warned about when an element takes in a child that is ended with a name: that it has no
place for the child, or that the attributes of a field are not kept. -/
def placingWarnings (parent child : Element) (name : String) (span : Span) : List Warning :=
  if parent.kind = .unknown ∨ child.kind = .unknown then []
  else if parent.kind.slotFor? child.kind = none then [.misplaced parent.name name (.ofSpan span)]
  else if child.kind.isSimple ∧ ¬(child.attributes.isEmpty ∧ child.otherAttributes.isEmpty) then
    [.discardedAttributes name (.ofSpan span)]
  else []

def Markup.Node.placing (around : Setting) (parent : Element) : Node → List Warning
  | .text .. => []
  | .element start _ stop => placingWarnings parent (around.opened start) stop.name start.span

mutual

/-- What is warned about in a node, in the order in which elements end. -/
def Markup.Node.warnings (around : Setting) : Node → List Warning
  | .text .. => []
  | .element start content _ =>
    let e := around.opened start
    if e.kind.isSimple then [] else warningsOf (around.within start) e content

def warningsOf (around : Setting) (parent : Element) : List Node → List Warning
  | [] => []
  | n :: rest => n.warnings around ++ n.placing around parent ++ warningsOf around parent rest

end

/-! ## What is accepted -/

mutual

/-- Each end tag in a node has the name in the start tag. -/
def Markup.Node.Paired : Node → Prop
  | .text .. => True
  | .element start content stop => stop.name = start.name ∧ PairedAll content

def PairedAll : List Node → Prop
  | [] => True
  | n :: rest => n.Paired ∧ PairedAll rest

end

/-- An end tag can end an element: it has its name, be it with a prefix or not. -/
def Setting.Closes (around : Setting) (start : StartTag) (stop : EndTag) : Prop :=
  stop.name = (around.opened start).name ∨
    around.localName start stop.name = (around.opened start).name

mutual

/-- Each end tag in a node can end its element. In a field, it has the name in the start tag. -/
def Markup.Node.Matched (around : Setting) : Node → Prop
  | .text .. => True
  | .element start content stop =>
    around.Closes start stop ∧
      if (around.opened start).kind.isSimple then PairedAll content
      else MatchedAll (around.within start) content

def MatchedAll (around : Setting) : List Node → Prop
  | [] => True
  | n :: rest => n.Matched around ∧ MatchedAll around rest

end

mutual

/-- The greatest number of elements of a node that are open at once. Those in fields do not
count. -/
def Markup.Node.depth (around : Setting) : Node → Nat
  | .text .. => 0
  | .element start content _ =>
    if (around.opened start).kind.isSimple then 1 else depthOf (around.within start) content + 1

def depthOf (around : Setting) : List Node → Nat
  | [] => 0
  | n :: rest => max (n.depth around) (depthOf around rest)

end

def Markup.Node.into (around : Setting) (parent : Element) (n : Node) : Element :=
  match n.read? around with
  | none => parent.takeText n.ownText
  | some e => parent.takeIn e

mutual

/-- No start tag in a node declares an identifier that is declared around it: one of some given
ones, or one that an open element has by then, be it its own or one of its known content. -/
def Markup.Node.Fresh (around : Setting) (taken : List String) : Node → Prop
  | .text .. => True
  | .element start content _ =>
    let e := around.opened start
    (∀ id ∈ e.objectId?, id ∉ taken) ∧
      (e.kind.isSimple = false → FreshAll (around.within start) taken e content)

def FreshAll (around : Setting) (taken : List String) (parent : Element) : List Node → Prop
  | [] => True
  | n :: rest =>
    n.Fresh around (taken ++ parent.ids) ∧ FreshAll around taken (n.into around parent) rest

end

/-- A node is accepted after some identifiers where a number of elements are open already, if no
more elements than the limit may be open at once. -/
structure Markup.Node.Accepted (around : Setting) (nested limit : Nat) (taken : List String)
    (n : Node) : Prop where
  matched : n.Matched around
  depth_le : nested + n.depth around ≤ limit
  fresh : n.Fresh around taken

/-- Nodes are accepted one by one by the element that they are in. -/
structure AcceptedAll (around : Setting) (nested limit : Nat) (taken : List String)
    (parent : Element) (ns : List Node) : Prop where
  matched : MatchedAll around ns
  depth_le : nested + depthOf around ns ≤ limit
  fresh : FreshAll around taken parent ns

section Accepted

variable {around : Setting} {nested limit : Nat} {taken : List String}

theorem acceptedAll_nil {parent : Element} (h : nested ≤ limit) :
    AcceptedAll around nested limit taken parent [] := ⟨trivial, h, trivial⟩

theorem acceptedAll_cons {parent : Element} {n : Node} {ns : List Node} :
    AcceptedAll around nested limit taken parent (n :: ns) ↔
      n.Accepted around nested limit (taken ++ parent.ids) ∧
        AcceptedAll around nested limit taken (n.into around parent) ns := by
  constructor
  · rintro ⟨⟨hmatched, hmatchedRest⟩, hdepth, hfresh, hfreshRest⟩
    rw [depthOf] at hdepth
    exact ⟨⟨hmatched, by omega, hfresh⟩, hmatchedRest, by omega, hfreshRest⟩
  · rintro ⟨⟨hmatched, hdepth, hfresh⟩, hmatchedRest, hdepthRest, hfreshRest⟩
    exact ⟨⟨hmatched, hmatchedRest⟩, by rw [depthOf]; omega, hfresh, hfreshRest⟩

theorem accepted_text {s : String} {offset : Nat} (h : nested ≤ limit) :
    (Node.text s offset).Accepted around nested limit taken := ⟨trivial, h, trivial⟩

variable {start : StartTag} {content : List Node} {stop : EndTag}

theorem accepted_field (h : (around.opened start).kind.isSimple = true) :
    (Node.element start content stop).Accepted around nested limit taken ↔
      (nested < limit ∧ ∀ id ∈ (around.opened start).objectId?, id ∉ taken) ∧
        PairedAll content ∧ around.Closes start stop := by
  constructor
  · rintro ⟨⟨hcloses, hpaired⟩, hdepth, hfresh, -⟩
    rw [Markup.Node.depth, if_pos h] at hdepth
    rw [if_pos h] at hpaired
    exact ⟨⟨by omega, hfresh⟩, hpaired, hcloses⟩
  · rintro ⟨⟨hlt, hfresh⟩, hpaired, hcloses⟩
    exact ⟨⟨hcloses, by rwa [if_pos h]⟩, by rw [Markup.Node.depth, if_pos h]; omega, hfresh,
      by simp [h]⟩

theorem accepted_element (h : (around.opened start).kind.isSimple = false) :
    (Node.element start content stop).Accepted around nested limit taken ↔
      (nested < limit ∧ ∀ id ∈ (around.opened start).objectId?, id ∉ taken) ∧
        AcceptedAll (around.within start) (nested + 1) limit taken (around.opened start) content ∧
          around.Closes start stop := by
  have hnot : ¬(around.opened start).kind.isSimple = true := by simp [h]
  constructor
  · rintro ⟨⟨hcloses, hmatched⟩, hdepth, hfresh, hfreshIn⟩
    rw [Markup.Node.depth, if_neg hnot] at hdepth
    rw [if_neg hnot] at hmatched
    exact ⟨⟨by omega, hfresh⟩, ⟨hmatched, by omega, hfreshIn h⟩, hcloses⟩
  · rintro ⟨⟨hlt, hfresh⟩, ⟨hmatched, hdepth, hfreshIn⟩, hcloses⟩
    exact ⟨⟨hcloses, by rwa [if_neg hnot]⟩, by rw [Markup.Node.depth, if_neg hnot]; omega, hfresh,
      fun _ => hfreshIn⟩

end Accepted

/-! ## One node after the other -/

section Into

variable (around : Setting)

theorem label_into (parent : Element) (n : Node) : (n.into around parent).label = parent.label := by
  unfold Markup.Node.into
  split
  · exact parent.label_takeText _
  · exact parent.label_takeIn _

theorem label_foldl_into (ns : List Node) (parent : Element) :
    (ns.foldl (fun e n => n.into around e) parent).label = parent.label := by
  induction ns generalizing parent with
  | nil => rfl
  | cons n rest ih => rw [List.foldl_cons, ih, label_into]

/-- Texts and children may as well be taken in apart from each other. -/
theorem foldl_into (ns : List Node) (e : Element) :
    ns.foldl (fun e n => n.into around e) e =
      (readAll around ns).foldl Element.takeIn
        (e.takeText (String.join (ns.map Node.ownText))) := by
  induction ns generalizing e with
  | nil => exact (e.takeText_empty).symm
  | cons n rest ih =>
    rw [List.foldl_cons, ih, readAll, List.foldl_append, List.map_cons, String.join_cons]
    cases n with
    | text s offset =>
      rw [Element.takeText_append]
      rfl
    | element start content stop =>
      simp only [Markup.Node.into, Markup.Node.read?, Markup.Node.ownText, Option.toList_some,
        List.foldl_cons, List.foldl_nil, String.empty_append, Element.takeIn_takeText]

theorem read?_element {start : StartTag} {content : List Node} {stop : EndTag}
    (h : (around.opened start).kind.isSimple = false) :
    (Node.element start content stop).read? around =
      some (content.foldl (fun e n => n.into (around.within start) e)
        (around.opened start)).ended := by
  rw [Markup.Node.read?, foldl_into]
  simp only [h, Bool.false_eq_true, if_false]

theorem read?_field {start : StartTag} {content : List Node} {stop : EndTag}
    (h : (around.opened start).kind.isSimple = true) :
    (Node.element start content stop).read? around =
      some ((around.opened start).takeText (writtenOf content)).ended := by
  rw [Markup.Node.read?]
  simp only [h, if_true]

/-! ## Warnings -/

theorem placingWarnings_of_label {parent parent' child child' : Element}
    (hparent : parent.label = parent'.label) (hchild : child.label = child'.label) (name : String)
    (span : Span) : placingWarnings parent child name span =
      placingWarnings parent' child' name span := by
  have hattributes : child.label.attributes = child'.label.attributes ∧
      child.label.otherAttributes = child'.label.otherAttributes := by rw [hchild]; exact ⟨rfl, rfl⟩
  obtain ⟨hknown, hothers⟩ : child.attributes = child'.attributes ∧
      child.otherAttributes = child'.otherAttributes := hattributes
  rw [placingWarnings, placingWarnings, Element.kind_of_label hparent,
    Element.name_of_label hparent, Element.kind_of_label hchild, hknown, hothers]

theorem warningsOf_of_label {parent parent' : Element} (h : parent.label = parent'.label)
    (ns : List Node) : warningsOf around parent ns = warningsOf around parent' ns := by
  induction ns with
  | nil => rfl
  | cons n rest ih =>
    have hplacing : n.placing around parent = n.placing around parent' := by
      cases n with
      | text s offset => rfl
      | element start content stop => exact placingWarnings_of_label h rfl _ _
    rw [warningsOf, warningsOf, ih, hplacing]

end Into

end KmlTree
