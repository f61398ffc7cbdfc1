import KmlTree.Document.Index
import KmlTree.Markup.Render
import KmlTree.Text.Position

/-!
# Documents

A document is a tree together with the index of the objects in it. The tree of a document is not
changed, so the index is always that of the tree: to change it, its root is taken out and indexed
anew.
-/
namespace KmlTree

/-- Where a problem lies: the position that is told to a reader, and the bytes in question. -/
structure Place where
  location : Text.Location
  span : Text.Span
  deriving DecidableEq, Repr, Inhabited

namespace Place

/-- The bytes in question, told by their start. -/
def ofSpan (span : Text.Span) : Place := ⟨.ofOffset span.start, span⟩

def ofOffset (offset : Nat) : Place := ⟨.ofOffset offset, .empty offset⟩

def located (source : String) (place : Place) : Place :=
  { place with location := .inSource source place.location.offset }

end Place

/-- Something in a source text that is not as it should be, but does not keep it from being read. -/
inductive Warning
  /-- An element that its parent has no place for was kept as unknown content. -/
  | misplaced (parent child : String) (place : Place)
  /-- A field had attributes, which a field cannot keep. -/
  | discardedAttributes (field : String) (place : Place)
  deriving DecidableEq, Repr

namespace Warning

def place : Warning → Place
  | .misplaced _ _ place | .discardedAttributes _ place => place

def message : Warning → String
  | .misplaced parent child place =>
    s!"`<{child}>` at {place.location.describe} is not permitted within `<{parent}>` " ++
      "and was kept as unknown content"
  | .discardedAttributes field place =>
    s!"attributes of `<{field}>` at {place.location.describe} were discarded"

/-- The name of the sort of problem. -/
def code : Warning → String
  | .misplaced .. => "misplaced"
  | .discardedAttributes .. => "discarded_attributes"

def label : Warning → String
  | .misplaced .. => "not permitted here"
  | .discardedAttributes .. => "attributes discarded"

def located (source : String) : Warning → Warning
  | .misplaced parent child place => .misplaced parent child (place.located source)
  | .discardedAttributes field place => .discardedAttributes field (place.located source)

end Warning

def uniqueIdHelp : String := "every `id` within a document must be unique"

/-- An identifier that two objects of one tree have. -/
structure RepeatedId where
  id : String
  deriving DecidableEq, Repr

def RepeatedId.message (e : RepeatedId) : String := s!"duplicate id \"{e.id}\" within the tree"

def RepeatedId.code (_ : RepeatedId) : String := "duplicate_id"

def RepeatedId.help (_ : RepeatedId) : String := uniqueIdHelp

/-- A tree with the index of the objects in it. -/
structure Document where
  /-- The root of the tree, which only the empty document does without. -/
  root? : Option Element := none
  index : ObjectIndex := ∅
  warnings : List Warning := []
  deriving DecidableEq

namespace Document

instance : Inhabited Document := ⟨{}⟩

/-- The visitor that indexes the objects outside of unknown content. -/
def indexer : Visitor (StateT ObjectIndex (Except RepeatedId)) where
  element context e := do
    if context.withinUnknown then return .reject
    match e.objectId? with
    | none => return .descend
    | some id =>
      match (← get).insert? id context.path with
      | none => throw ⟨id⟩
      | some index =>
        set index
        return .descend
  leave _ _ := pure ()
  field _ _ := pure .descend

/-- The document with a tree. Objects in unknown content are not indexed. -/
def ofRoot (root : Element) : Except RepeatedId Document :=
  ((indexer.walk root).run ∅).map fun (_, index) => { root? := some root, index }

def lookup? (d : Document) (id : String) : Option Element :=
  d.root?.bind fun root => (d.index.get? id).bind root.at?

/-- The document as text, which starts with a declaration. The empty document has no text. -/
def render (d : Document) (options : Markup.RenderOptions) :
    Except Markup.WriteError String :=
  match d.root? with
  | none => .ok ""
  | some root => root.render { options with declaration := true }

end Document

end KmlTree
