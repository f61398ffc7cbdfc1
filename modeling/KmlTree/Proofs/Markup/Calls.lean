import KmlTree.Markup.Writer

/-!
# Calls on a writer

A writer that is changed in place, as its callers use it: each call looks at the writer and changes it
piece by piece, and may break off on the way. Main statement: a call does what the plain functions of
the writer do, so a call that is refused has changed nothing.
-/
namespace KmlTree.Markup

inductive Call
  | declaration
  | start (name : String)
  | attr (name value : String)
  | text (t : String)
  | literal (t : String)
  | stop
  deriving DecidableEq, Repr

/-- A computation on a writer that is changed in place, and stays changed where it breaks off. -/
abbrev InPlace := EStateM WriteError Writer

namespace Call

def prepareText : InPlace Unit := do
  if (← get).openElements.isEmpty then
    throw .textOutsideElement
  modify Writer.closeTag
  modify ({ · with stage := .document })

/-- The steps of a call, in their order. -/
def perform : Call → InPlace Unit
  | .declaration => do
    if (← get).stage ≠ .empty then
      throw .declarationNotFirst
    modify (·.write Markup.declaration)
    modify ({ · with stage := .document })
  | .start name => do
    modify Writer.closeTag
    modify (·.modifyInnermost ({ · with hasChildren := true }))
    if (← get).stage ≠ .empty then
      modify fun w => w.write w.lineBreak
    modify fun w => w.write (w.spaces w.openElements.length)
    modify (·.write ("<" ++ name))
    modify fun w => { w with openElements := { name } :: w.openElements }
    modify ({ · with stage := .startTag })
  | .attr name value => do
    if (← get).stage ≠ .startTag then
      throw .attributeOutsideTag
    modify (·.write (" " ++ name ++ "=\""))
    modify (·.write (Text.escapeAttribute value))
    modify (·.write "\"")
  | .text t => do
    prepareText
    modify (·.write (Text.escapeText t))
  | .literal t => do
    if hasLiteralEnd t.toList then
      throw .literalEnd
    prepareText
    modify (·.write (Markup.literal t))
  | .stop => do
    match (← get).openElements with
    | [] => throw .nothingOpen
    | e :: rest =>
      modify ({ · with openElements := rest })
      if e.closed then
        if e.hasChildren then
          modify fun w => w.write w.lineBreak
          modify fun w => w.write (w.spaces w.openElements.length)
        modify (·.write ("</" ++ e.name ++ ">"))
      else
        modify (·.write "/>")
      modify ({ · with stage := .document })

/-- The function of the writer that a call stands for. -/
def apply (w : Writer) : Call → Except WriteError Writer
  | .declaration => w.writeDeclaration
  | .start name => .ok (w.start name)
  | .attr name value => w.writeAttribute name value
  | .text t => w.writeText t
  | .literal t => w.writeLiteral t
  | .stop => w.endElement

/-- The steps of a call come to what its function gives, and a call breaks off before its first
change. -/
theorem run_perform (c : Call) (w : Writer) :
    c.perform.run w = match c.apply w with
      | .ok w' => .ok () w'
      | .error e => .error e w := by
  obtain ⟨indent?, output, stage, openElements⟩ := w
  cases c with
  | declaration => cases stage <;> rfl
  | start name => cases stage <;> rfl
  | attr name value =>
    cases stage with
    | empty | document => rfl
    | startTag =>
      simp [perform, apply, Writer.writeAttribute, Writer.write, String.append_assoc]
  | text t => cases openElements <;> rfl
  | literal t =>
    cases hend : hasLiteralEnd t.toList with
    | true => simp [perform, apply, Writer.writeLiteral, hend]
    | false =>
      simp only [perform, apply, Writer.writeLiteral, hend]
      cases openElements <;> rfl
  | stop =>
    rcases openElements with _ | ⟨⟨name, closed, hasChildren⟩, rest⟩
    · rfl
    · cases closed with
      | false => rfl
      | true =>
        cases hasChildren with
        | false => rfl
        | true =>
          simp [perform, apply, Writer.endElement, Writer.endOf, Writer.write, Writer.lineBreak,
            Writer.spaces, String.append_assoc]

theorem eq_of_refused {c : Call} {w w' : Writer} {e : WriteError}
    (h : c.perform.run w = .error e w') : w' = w := by
  rw [c.run_perform] at h
  cases happly : c.apply w <;> rw [happly] at h <;> cases h
  rfl

end Call

namespace Writer

/-- The writer after some calls, whether they are refused or not. -/
def after (w : Writer) : List Call → Writer
  | [] => w
  | c :: cs =>
    match c.perform.run w with
    | .ok _ w' | .error _ w' => w'.after cs

def accepted (w : Writer) : List Call → List Call
  | [] => []
  | c :: cs =>
    match c.perform.run w with
    | .ok _ w' => c :: w'.accepted cs
    | .error _ w' => w'.accepted cs

theorem accepted_sublist (w : Writer) (cs : List Call) : (w.accepted cs).Sublist cs := by
  induction cs generalizing w with
  | nil => exact .slnil
  | cons c cs ih =>
    rw [accepted]
    split
    · exact (ih _).cons_cons c
    · exact (ih _).cons c

theorem not_hasLiteralEnd_of_mem_accepted {w : Writer} {cs : List Call} {t : String}
    (h : .literal t ∈ w.accepted cs) : hasLiteralEnd t.toList = false := by
  induction cs generalizing w with
  | nil => cases h
  | cons c cs ih =>
    rw [accepted] at h
    split at h
    · next w' hrun =>
      rcases List.mem_cons.1 h with rfl | hmem
      · cases hend : hasLiteralEnd t.toList with
        | false => rfl
        | true =>
          rw [Call.run_perform, Call.apply, writeLiteral, if_pos hend] at hrun
          cases hrun
      · exact ih hmem
    · exact ih h

end Writer

end KmlTree.Markup
