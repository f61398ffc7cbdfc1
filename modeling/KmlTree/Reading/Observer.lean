import KmlTree.Reading.Builder

/-!
# Reading under observation

Observers are asked about every element while a source text is read, and may drop it before it is
kept. They are asked in order, and the first that does not let the reading go on as usual decides.
What an observer remembers lives in a state that all observers of a reading share, and that outlasts
a reading that fails.
-/
namespace KmlTree

/-- What decides about the elements of a source text, with a state of its own. -/
structure Observer (σ : Type) where
  /-- Asked at the start tag, about an element that has its attributes and nothing else. -/
  startElement : Element → StateM σ Flow := fun _ => pure .descend
  /-- Asked at the end tag, about the element around it and the complete element. -/
  endElement : Element → Element → StateM σ Flow := fun _ _ => pure .descend

/-- The answer of the first observer that does not answer `descend`. The others are not asked. -/
def consult {σ : Type} (ask : Observer σ → StateM σ Flow) : List (Observer σ) → StateM σ Flow
  | [] => pure .descend
  | observer :: rest => do
    match ← ask observer with
    | .descend => consult ask rest
    | flow => pure flow

/-- A reading: it may fail, but what the observers remember is kept. -/
abbrev Reading (σ : Type) := ExceptT ParseError (StateM σ)

namespace Builder

variable {σ : Type}

def take (observers : List (Observer σ)) (b : Builder) : Markup.Event → Reading σ Builder
  | .startTag name attributes span => do
    match ← b.startTag name attributes span with
    | .done b => return b
    | .ask opening =>
      settleOpening opening (← consult (·.startElement opening.frame.element) observers)
  | .text text offset => b.text text offset
  | .endTag name span => do
    match ← b.endTag name span with
    | .done b => return b
    | .ask closing =>
      settleClosing closing
        (← consult (·.endElement closing.parent.element closing.child.element) observers)

def takeAll (observers : List (Observer σ)) (b : Builder) : List Markup.Event → Reading σ Builder
  | [] => return b
  | event :: rest => do (← b.take observers event).takeAll observers rest

end Builder

/-- The document that some events describe. -/
def Document.ofEvents {σ : Type} (options : ReadOptions) (observers : List (Observer σ))
    (events : List Markup.Event) : Reading σ Document := do
  (← (Builder.new options).takeAll observers events).finish

/-- The document that a source text describes, with the places of problems not yet told in lines and
columns. -/
def Document.ofSource {σ : Type} (options : ReadOptions) (observers : List (Observer σ))
    (source : String) : Reading σ Document := do
  let events := Markup.events source
  let b ← (Builder.new options).takeAll observers events.list
  match events.fault? with
  | some fault => throw (.malformedAt (.markup fault.error) fault.offset)
  | none => b.finish

def Document.read {σ : Type} (options : ReadOptions) (observers : List (Observer σ))
    (source : String) : Reading σ Document := do
  try
    let d ← Document.ofSource options observers source
    return { d with warnings := d.warnings.map (Warning.located source) }
  catch error => throw (error.located source)

namespace Document

/-- The document that a source text describes, read without observers. -/
def parse (source : String) (options : ReadOptions := {}) : Except ParseError Document :=
  ((Document.read options ([] : List (Observer Unit)) source).run ()).1

/-- What becomes of a document that is to hold what a source text describes. If there is an error,
the document is empty. -/
def reload (source : String) : Document × Option ParseError :=
  match parse source with
  | .ok d => (d, none)
  | .error error => ({}, some error)

end Document

end KmlTree
