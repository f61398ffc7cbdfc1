import KmlTree.Text.Escape

/-!
# Writing markup

A writer takes start tags, attributes, text and end tags one by one and holds the text written so
far. A start tag is left open until the next call shows whether attributes follow, so that an
element without content ends as an empty tag. Calls that make no sense where they stand are refused.
-/
namespace KmlTree.Markup

inductive WriteError
  | nothingOpen
  | attributeOutsideTag
  | declarationNotFirst
  | textOutsideElement
  /-- A literal section is to hold the mark that ends it. -/
  | literalEnd
  deriving DecidableEq, Repr

def WriteError.message : WriteError → String
  | .nothingOpen => "closed an element while none was open"
  | .attributeOutsideTag => "attempted to write an attribute outside of a start tag"
  | .declarationNotFirst => "attempted to write a declaration after other content"
  | .textOutsideElement => "attempted to write text outside of an element"
  | .literalEnd => "attempted to write CDATA containing `]]>`"

/-- What was written last. -/
inductive Stage
  | empty
  /-- Something complete. -/
  | document
  /-- A start tag that attributes may be added to. -/
  | startTag
  deriving DecidableEq, Repr, Inhabited

structure OpenElement where
  name : String
  /-- Whether its start tag is closed. -/
  closed : Bool := false
  hasChildren : Bool := false
  deriving DecidableEq, Repr

/-- A writer with the text that it has written. -/
structure Writer where
  /-- The number of spaces for each level. Without one, all stands on one line. -/
  indent? : Option Nat := none
  output : String := ""
  stage : Stage := .empty
  /-- The elements that are not ended, the innermost first. -/
  openElements : List OpenElement := []
  deriving DecidableEq, Repr, Inhabited

def declaration : String := "<?xml version=\"1.0\" encoding=\"utf-8\"?>"

/-- Whether a text has the mark in it that ends a literal section. -/
def hasLiteralEnd : List Char → Bool
  | ']' :: ']' :: '>' :: _ => true
  | _ :: cs => hasLiteralEnd cs
  | [] => false

def literal (text : String) : String := "<![CDATA[" ++ text ++ "]]>"

namespace Writer

/-- What separates a tag on a line of its own from what comes before it. -/
def lineBreak (w : Writer) : String := if w.indent?.isSome then "\n" else ""

def spaces (w : Writer) (level : Nat) : String :=
  String.ofList (List.replicate (level * w.indent?.getD 0) ' ')

def write (w : Writer) (text : String) : Writer := { w with output := w.output ++ text }

def modifyInnermost (w : Writer) (f : OpenElement → OpenElement) : Writer :=
  { w with openElements := w.openElements.modifyHead f }

/-- The writer with its latest start tag closed, if it is not closed yet. -/
def closeTag (w : Writer) : Writer :=
  match w.stage with
  | .startTag =>
    { (w.write ">").modifyInnermost ({ · with closed := true }) with stage := .document }
  | .empty | .document => w

def writeDeclaration (w : Writer) : Except WriteError Writer :=
  if w.stage = .empty then .ok { w.write declaration with stage := .document }
  else .error .declarationNotFirst

def start (w : Writer) (name : String) : Writer :=
  let w := w.closeTag.modifyInnermost ({ · with hasChildren := true })
  let w := if w.stage = .empty then w else w.write w.lineBreak
  let w := (w.write (w.spaces w.openElements.length)).write ("<" ++ name)
  { w with stage := .startTag, openElements := { name } :: w.openElements }

/-- Adds an attribute to the start tag that was written last. -/
def writeAttribute (w : Writer) (name value : String) : Except WriteError Writer :=
  if w.stage = .startTag then
    .ok (w.write (" " ++ name ++ "=\"" ++ Text.escapeAttribute value ++ "\""))
  else .error .attributeOutsideTag

/-- Writes markup as it stands into the innermost element. -/
def writeRaw (w : Writer) (markup : String) : Except WriteError Writer :=
  if w.openElements.isEmpty then .error .textOutsideElement
  else .ok { w.closeTag.write markup with stage := .document }

def writeText (w : Writer) (text : String) : Except WriteError Writer :=
  w.writeRaw (Text.escapeText text)

/-- Writes text into the innermost element as a literal section. -/
def writeLiteral (w : Writer) (text : String) : Except WriteError Writer :=
  if hasLiteralEnd text.toList then .error .literalEnd else w.writeRaw (literal text)

/-- The end of an element that `rest` are open around. -/
def endOf (w : Writer) (e : OpenElement) (rest : List OpenElement) : String :=
  if !e.closed then "/>"
  else if e.hasChildren then w.lineBreak ++ w.spaces rest.length ++ "</" ++ e.name ++ ">"
  else "</" ++ e.name ++ ">"

def endElement (w : Writer) : Except WriteError Writer :=
  match w.openElements with
  | [] => .error .nothingOpen
  | e :: rest => .ok { w.write (w.endOf e rest) with stage := .document, openElements := rest }

/-- The ends of open elements, the innermost first. -/
def endsOf (w : Writer) : List OpenElement → String
  | [] => ""
  | e :: rest => w.endOf e rest ++ w.endsOf rest

/-- The text of the document, with all open elements ended. -/
def finish (w : Writer) : String :=
  w.output ++ w.endsOf w.openElements ++ if w.stage = .empty then "" else w.lineBreak

end Writer

end KmlTree.Markup
