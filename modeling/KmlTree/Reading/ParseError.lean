import KmlTree.Document.Basic
import KmlTree.Markup.Events

/-!
# Why a source text cannot be read

The causes for which no document comes of a source text, each with the place that a reader should
look at.
-/
namespace KmlTree

open Text

inductive Malformation
  | markup (error : Markup.MarkupError)
  | secondRoot
  | textOutsideRoot
  | mismatchedEnd (expected found : String)
  | unexpectedEnd (found : String)
  deriving DecidableEq, Repr

def Malformation.message : Malformation → String
  | .markup error => error.message
  | .secondRoot => "multiple root elements"
  | .textOutsideRoot => "text outside of the root element"
  | .mismatchedEnd expected found => s!"expected `</{expected}>`, but found `</{found}>`"
  | .unexpectedEnd found => s!"unexpected closing tag `</{found}>`"

/-- Why no document comes of a source text. -/
inductive ParseError
  | malformed (cause : Malformation) (place : Place)
  | incomplete (name : String) (place : Place)
  | empty
  | unknownRoot (name : String) (place : Place)
  | duplicateId (id : String) (place : Place) (first : Span)
  | schemaViolation (parent child : String) (place : Place)
  | nestingTooDeep (limit : Nat) (place : Place)
  | stopped (place : Place)
  deriving DecidableEq, Repr

namespace ParseError

def malformedAt (cause : Malformation) (offset : Nat) : ParseError :=
  .malformed cause (.ofOffset offset)

def place? : ParseError → Option Place
  | .empty => none
  | .malformed _ place | .incomplete _ place | .unknownRoot _ place | .duplicateId _ place _
  | .schemaViolation _ _ place | .nestingTooDeep _ place | .stopped place => some place

def mapPlace (f : Place → Place) : ParseError → ParseError
  | .empty => .empty
  | .malformed cause place => .malformed cause (f place)
  | .incomplete name place => .incomplete name (f place)
  | .unknownRoot name place => .unknownRoot name (f place)
  | .duplicateId id place first => .duplicateId id (f place) first
  | .schemaViolation parent child place => .schemaViolation parent child (f place)
  | .nestingTooDeep limit place => .nestingTooDeep limit (f place)
  | .stopped place => .stopped (f place)

/-- The error with its position told in lines and columns of the source. -/
def located (source : String) : ParseError → ParseError := mapPlace (Place.located source)

def message : ParseError → String
  | .malformed cause place => s!"malformed XML at {place.location.describe}: {cause.message}"
  | .incomplete name place =>
    s!"document ended at {place.location.describe} while `<{name}>` was still open"
  | .empty => "document has no root element"
  | .unknownRoot name place =>
    s!"`<{name}>` at {place.location.describe} is not a recognised root element"
  | .duplicateId id place _ => s!"duplicate id \"{id}\" at {place.location.describe}"
  | .schemaViolation parent child place =>
    s!"`<{child}>` at {place.location.describe} is not permitted within `<{parent}>`"
  | .nestingTooDeep limit place =>
    s!"elements are nested deeper than {limit} at {place.location.describe}"
  | .stopped place => s!"the parse was stopped at {place.location.describe}"

/-- The name of the sort of problem. -/
def code : ParseError → String
  | .malformed .. => "malformed"
  | .incomplete .. => "incomplete"
  | .empty => "empty"
  | .unknownRoot .. => "unknown_root"
  | .duplicateId .. => "duplicate_id"
  | .schemaViolation .. => "schema_violation"
  | .nestingTooDeep .. => "nesting_too_deep"
  | .stopped .. => "stopped"

/-- What a reader may do about the problem. -/
def help? : ParseError → Option String
  | .incomplete .. => some "the document may have been truncated"
  | .duplicateId .. => some uniqueIdHelp
  | _ => none

def labels : ParseError → List (String × Span)
  | .malformed cause place => [(cause.message, place.span)]
  | .incomplete _ place => [("opened here", place.span)]
  | .empty => []
  | .unknownRoot _ place => [("unknown element", place.span)]
  | .duplicateId _ place first =>
    [("declared again here", place.span), ("first declared here", first)]
  | .schemaViolation _ _ place => [("not permitted here", place.span)]
  | .nestingTooDeep _ place => [("too deep", place.span)]
  | .stopped place => [("stopped here", place.span)]

end ParseError

end KmlTree
