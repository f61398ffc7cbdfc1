import KmlTree.Reading.ParseError
import KmlTree.Text.Blank
import KmlTree.Tree.Edit
import KmlTree.Tree.Flow

/-!
# Building a document from events

A builder takes the events of a source text one by one. Each open element has a frame; when its end
tag comes, the element is taken in by the element around it, or kept as unknown content where the
schema has no place for it. Identifiers are taken when a start tag declares them, and given back
when what declares them is dropped. Tags within a field become part of its text.

What becomes of an element is for an observer to decide: once at its start tag, and once when it is
complete. Here both steps come in two halves, with the question between them.
-/
namespace KmlTree

open Text

structure ReadOptions where
  /-- Whether an element that its parent has no place for is an error. -/
  strict : Bool := false
  /-- The greatest number of elements that may be open at once. -/
  maxDepth : Nat := 100
  deriving DecidableEq, Repr, Inhabited

/-- The namespaces in which an element with a prefix is read as if it had none. -/
def kmlNamespaces : List String :=
  ["http://www.opengis.net/kml/2.2", "http://earth.google.com/kml/2.2",
   "http://earth.google.com/kml/2.1", "http://earth.google.com/kml/2.0"]

/-- The parts of a name before and after its first colon, if it has one. -/
def splitPrefix? (name : String) : Option (String × String) :=
  let cs := name.toList
  match cs.dropWhile (· != ':') with
  | [] => none
  | _ :: rest => some (String.ofList (cs.takeWhile (· != ':')), String.ofList rest)

/-- The prefix that an attribute with a key declares, if it declares one. -/
def declaredPrefix? (key : String) : Option String :=
  let mark := ['x', 'm', 'l', 'n', 's', ':']
  if key.toList.take mark.length = mark then some (String.ofList (key.toList.drop mark.length))
  else none

/-- The prefixes that attributes declare, each with whether its namespace is one of those above. -/
def declaredPrefixes (attributes : List (String × String)) : List (String × Bool) :=
  attributes.filterMap fun (key, value) =>
    (declaredPrefix? key).map (·, kmlNamespaces.contains value)

/-- The identifiers that an element and the elements below it declare, with the paths to these. -/
abbrev Declared := List (String × Path)

/-- An element that is open. -/
structure Frame where
  element : Element
  span : Span
  /-- The identifiers declared by it and its known content. -/
  ids : Declared
  skipsChildren : Bool
  prefixes : List (String × Bool)
  /-- The tags that are open in the text of a field, the innermost first, each with the size of the
  text right after it. -/
  markup : List (String × Nat) := []
  deriving DecidableEq

/-- An element that is being dropped with all that it holds. -/
structure Dropped where
  /-- The number of elements that are open, from this one on. -/
  depth : Nat
  name : String
  span : Span
  deriving DecidableEq, Repr

/-- The state of the reading between two events. -/
structure Builder where
  options : ReadOptions := {}
  /-- The open elements, the innermost first. -/
  stack : List Frame := []
  /-- The identifiers that are taken, with the positions of the start tags that declare them. -/
  taken : List (String × Nat) := []
  dropped? : Option Dropped := none
  /-- The root, once it is complete. -/
  root? : Option (Element × Declared) := none
  warnings : List Warning := []
  /-- The position after the latest event. -/
  offset : Nat := 0
  deriving DecidableEq

namespace Builder

def new (options : ReadOptions) : Builder := { options }

/-- Whether a prefix stands for one of the namespaces above: the innermost declaration of the prefix
decides, be it one of `own` or one of an open element. -/
def isKmlPrefix (own : List (String × Bool)) (stack : List Frame) (p : String) : Bool :=
  ((own.lookup p).or (stack.findSome? fun frame => frame.prefixes.lookup p)).getD false

/-- A name without its prefix, if the prefix stands for one of the namespaces above. -/
def localName (own : List (String × Bool)) (stack : List Frame) (name : String) : String :=
  match splitPrefix? name with
  | none => name
  | some (p, rest) => if isKmlPrefix own stack p then rest else name

def release (taken : List (String × Nat)) (ids : Declared) : List (String × Nat) :=
  taken.filter fun entry => !ids.any fun declared => declared.1 == entry.1

/-- The builder in front of an element that is dropped. -/
def drop (b : Builder) (name : String) (span : Span) : Builder :=
  match b.dropped? with
  | some dropped => { b with dropped? := some { dropped with depth := dropped.depth + 1 } }
  | none => { b with dropped? := some ⟨1, name, span⟩ }

def markupTag (name : String) (attributes : List (String × String)) : String :=
  "<" ++ name ++
    String.join (attributes.map fun (key, value) =>
      " " ++ key ++ "=\"" ++ escapeQuoted value ++ "\"") ++ ">"

def openMarkup (frame : Frame) (name : String) (attributes : List (String × String)) : Frame :=
  let element := frame.element.appendText (markupTag name attributes)
  { frame with element, markup := (name, element.text.utf8ByteSize) :: frame.markup }

/-- A field with the end of a tag added to its text. A tag that holds nothing becomes an empty
tag. -/
def closeMarkup (frame : Frame) (name : String) (size : Nat) (markup : List (String × Nat)) :
    Frame :=
  let text := frame.element.text
  let text :=
    if text.utf8ByteSize = size then (text.dropEnd 1).copy ++ "/>"
    else text ++ "</" ++ name ++ ">"
  { frame with element := { frame.element with text }, markup }

/-- The element that a start tag stands for, before its attributes. Below an element that the schema
does not know, it knows none. -/
def elementFor (stack : List Frame) (name localName : String) : Element :=
  match stack with
  | [] => Element.ofName localName
  | frame :: _ =>
    if frame.element.kind = .unknown then Element.unnamed name else Element.ofName localName

/-- What comes of the first half of a step: either the step is done, or the answer of an observer is
needed for its second half. -/
inductive Half (α : Type)
  | done (b : Builder)
  | ask (question : α)

/-- An element whose start tag was read, with the builder that it is to be opened in. -/
structure Opening where
  builder : Builder
  /-- The name in the start tag. -/
  name : String
  frame : Frame

/-- An element that is complete, with the builder that it is to be taken in by. -/
structure Closing where
  /-- The builder without the frames of the element and the one around it. -/
  builder : Builder
  /-- The name in the end tag. -/
  name : String
  parent : Frame
  child : Frame

/-- Opens an element, up to the question what becomes of it. -/
def openElement (b : Builder) (name : String) (attributes : List (String × String)) (span : Span) :
    Except ParseError (Half Opening) :=
  let own := declaredPrefixes attributes
  let element := elementFor b.stack name (localName own b.stack name)
  if b.root?.isSome then .error (.malformedAt .secondRoot span.start)
  else if b.options.maxDepth ≤ b.stack.length then
    .error (.nestingTooDeep b.options.maxDepth (.ofSpan span))
  else if b.stack.isEmpty && (element.kind == .unknown || element.kind.isSimple) then
    .error (.unknownRoot name (.ofSpan span))
  else
    let element := attributes.foldl (fun e (key, value) => e.setAttribute key value) element
    let frame : Frame :=
      { element, span, ids := [], skipsChildren := false, prefixes := own }
    match element.objectId? with
    | none => .ok (.ask ⟨b, name, frame⟩)
    | some id =>
      match b.taken.lookup id with
      | some first => .error (.duplicateId id (.ofSpan span) (.empty first))
      | none =>
        let b := { b with taken := (id, span.start) :: b.taken }
        .ok (.ask ⟨b, name, { frame with ids := [(id, [])] }⟩)

def startTag (b : Builder) (name : String) (attributes : List (String × String)) (span : Span) :
    Except ParseError (Half Opening) :=
  let b := { b with offset := span.stop }
  if b.dropped?.isSome then .ok (.done (b.drop name span))
  else
    match b.stack with
    | [] => b.openElement name attributes span
    | frame :: rest =>
      if frame.skipsChildren then .ok (.done (b.drop name span))
      else if frame.element.kind.isSimple then
        .ok (.done { b with stack := openMarkup frame name attributes :: rest })
      else b.openElement name attributes span

/-- Opens an element as an observer decides. -/
def settleOpening (opening : Opening) (flow : Flow) : Except ParseError Builder :=
  let ⟨b, name, frame⟩ := opening
  match flow with
  | .stop => .error (.stopped (.ofSpan frame.span))
  | .reject => .ok ({ b with taken := release b.taken frame.ids }.drop name frame.span)
  | .skipChildren => .ok { b with stack := { frame with skipsChildren := true } :: b.stack }
  | .descend => .ok { b with stack := frame :: b.stack }

/-- Takes text, which is kept where the schema does not know the element, or lets it have text. -/
def text (b : Builder) (text : String) (offset : Nat) : Except ParseError Builder :=
  let b := { b with offset := offset + text.utf8ByteSize }
  if b.dropped?.isSome then .ok b
  else
    match b.stack with
    | [] =>
      if isAllBlank text then .ok b else .error (.malformedAt .textOutsideRoot offset)
    | frame :: rest =>
      if frame.element.kind = .unknown ∨ frame.element.kind.hasText then
        .ok { b with stack := { frame with element := frame.element.appendText text } :: rest }
      else .ok b

/-- An element that is complete: text around children does not count at its ends. -/
def complete (e : Element) : Element :=
  if e.children.isEmpty && e.unknown.isEmpty then e else { e with text := trim e.text }

def closeElement (b : Builder) (frame : Frame) (rest : List Frame) (name : String) (span : Span) :
    Except ParseError (Half Closing) :=
  let expected := frame.element.name
  if expected ≠ name ∧ expected ≠ localName frame.prefixes rest name then
    .error (.malformedAt (.mismatchedEnd expected name) span.start)
  else
    let child := { frame with element := complete frame.element }
    match rest with
    | [] => .ok (.done { b with stack := [], root? := some (child.element, child.ids) })
    | parent :: rest => .ok (.ask ⟨{ b with stack := rest }, name, parent, child⟩)

def endTag (b : Builder) (name : String) (span : Span) : Except ParseError (Half Closing) :=
  let b := { b with offset := span.stop }
  match b.dropped?, b.stack with
  | some dropped, _ =>
    .ok (.done { b with
      dropped? :=
        if dropped.depth ≤ 1 then none else some { dropped with depth := dropped.depth - 1 } })
  | none, [] => .error (.malformedAt (.unexpectedEnd name) span.start)
  | none, frame :: rest =>
    match frame.markup with
    | (opened, size) :: markup =>
      if opened = name then
        .ok (.done { b with stack := closeMarkup frame name size markup :: rest })
      else .error (.malformedAt (.mismatchedEnd opened name) span.start)
    | [] => b.closeElement frame rest name span

/-- Identifiers within the child at a position, as identifiers within its parent. -/
def lift (i : Nat) (ids : Declared) : Declared := ids.map fun (id, path) => (id, i :: path)

/-- The identifiers of an element without those within the child at a position, and these. -/
def splitIds (i : Nat) (ids : Declared) : Declared × Declared :=
  (ids.filter fun entry => entry.2.head? != some i, ids.filter fun entry => entry.2.head? == some i)

def attributeWarnings (name : String) (child : Frame) : List Warning :=
  let e := child.element
  if e.kind.isSimple && !(e.attributes.isEmpty && e.otherAttributes.isEmpty) then
    [.discardedAttributes name (.ofSpan child.span)]
  else []

def attachChild (closing : Closing) : Except ParseError Builder :=
  let ⟨b, name, parent, child⟩ := closing
  match parent.element.attach child.element with
  | .ok ⟨element, some i, replaced?⟩ =>
    let (kept, gone) :=
      if (replaced?.bind Child.element?).isSome then splitIds i parent.ids else (parent.ids, [])
    let parent := { parent with element, ids := kept ++ lift i child.ids }
    .ok { b with
      stack := parent :: b.stack
      taken := release b.taken gone
      warnings := b.warnings ++ attributeWarnings name child }
  | .ok ⟨element, none, _⟩ =>
    .ok { b with stack := { parent with element } :: b.stack, taken := release b.taken child.ids }
  | .error rejected =>
    let place := Place.ofSpan child.span
    if b.options.strict then .error (.schemaViolation parent.element.name name place)
    else
      let element := parent.element.addUnknown rejected.child
      .ok { b with
        stack := { parent with element } :: b.stack
        taken := release b.taken child.ids
        warnings := b.warnings ++ [.misplaced parent.element.name name place] }

def settleClosing (closing : Closing) (flow : Flow) : Except ParseError Builder :=
  let ⟨b, _, parent, child⟩ := closing
  match flow with
  | .stop => .error (.stopped (.ofSpan child.span))
  | .reject => .ok { b with stack := parent :: b.stack, taken := release b.taken child.ids }
  | .skipChildren | .descend => attachChild closing

/-- The document, once all events were taken. -/
def finish (b : Builder) : Except ParseError Document :=
  let unfinished (name : String) (span : Span) : ParseError :=
    .incomplete name ⟨.ofOffset b.offset, span⟩
  match b.stack, b.dropped?, b.root? with
  | frame :: _, _, _ => .error (unfinished frame.element.name frame.span)
  | [], some dropped, _ => .error (unfinished dropped.name dropped.span)
  | [], none, none => .error .empty
  | [], none, some (root, ids) =>
    .ok { root? := some root, index := .ofList ids, warnings := b.warnings }

end Builder

end KmlTree
