import KmlTree.Proofs.Markup.Calls
import KmlTree.Proofs.Markup.Rendering

/-!
# What a writer has written so far

A draft is a document together with the elements around the place where the next call goes on. Each call
has a place in it or is refused. Main statements: a writer that has written a draft does to its text
what a call does to the draft, its calls read in order are those that were not refused, and it ends up
with the text of the draft's document.
-/
namespace KmlTree.Markup

/-! ## Documents and their texts -/

def Call.ofAttribute (entry : String × String) : Call := .attr entry.1 entry.2

/-- What stands in an element, the latest outermost. -/
inductive Content
  | empty
  | text (before : Content) (t : String)
  | literal (before : Content) (t : String)
  | element (before : Content) (name : String) (attributes : List (String × String))
      (content : Content)
  deriving DecidableEq, Repr

namespace Content

/-- Whether nothing was written. Text may have no characters, and still it is written. -/
def isEmpty : Content → Bool
  | empty => true
  | text .. | literal .. | element .. => false

def hasChildren : Content → Bool
  | empty => false
  | text before _ | literal before _ => before.hasChildren
  | element .. => true

def ending (content : Content) (indent? : Option Nat) (level : Nat) (name : String) : List Char :=
  if content.isEmpty then ['/', '>']
  else (if content.hasChildren then gap indent? level else []) ++ '<' :: '/' :: (name.toList ++ ['>'])

def chars (indent? : Option Nat) (level : Nat) : Content → List Char
  | empty => []
  | text before t => before.chars indent? level ++ (Text.escapeText t).toList
  | literal before t => before.chars indent? level ++ (Markup.literal t).toList
  | element before name attributes content =>
    before.chars indent? level ++ gap indent? level ++
      ('<' :: (name.toList ++ attributesChars attributes) ++ (if content.isEmpty then [] else ['>']) ++
        content.chars indent? (level + 1) ++ content.ending indent? level name)

def calls : Content → List Call
  | empty => []
  | text before t => before.calls ++ [.text t]
  | literal before t => before.calls ++ [.literal t]
  | element before name attributes content =>
    before.calls ++
      (.start name :: (attributes.map Call.ofAttribute) ++ content.calls ++ [.stop])

end Content

structure Written where
  name : String
  attributes : List (String × String) := []
  content : Content := .empty
  deriving DecidableEq, Repr

namespace Written

/-- The text of an element at a level without its end. -/
def opening (e : Written) (closed : Bool) (indent? : Option Nat) (level : Nat) : List Char :=
  '<' :: (e.name.toList ++ attributesChars e.attributes) ++ (if closed then ['>'] else []) ++
    e.content.chars indent? (level + 1)

def chars (e : Written) (indent? : Option Nat) (level : Nat) : List Char :=
  e.opening (!e.content.isEmpty) indent? level ++ e.content.ending indent? level e.name

def calls (e : Written) : List Call :=
  .start e.name :: (e.attributes.map Call.ofAttribute) ++ e.content.calls

/-- What a writer keeps of an element around one that is not ended. -/
def outer (e : Written) : OpenElement := ⟨e.name, true, true⟩

/-- An element with another one in it, after all else that it holds. -/
def holding (e inner : Written) : Written :=
  { e with content := .element e.content inner.name inner.attributes inner.content }

def within (e : Written) : List Written → Written
  | [] => e
  | next :: around => (next.holding e).within around

section Holding

variable (e inner : Written)

@[simp] theorem holding_name : (e.holding inner).name = e.name := rfl
@[simp] theorem holding_isEmpty : (e.holding inner).content.isEmpty = false := rfl
@[simp] theorem holding_hasChildren : (e.holding inner).content.hasChildren = true := rfl

end Holding

end Written

namespace Content

variable (before content : Content) (name : String) (attributes : List (String × String))

theorem chars_element (indent? : Option Nat) (level : Nat) :
    (element before name attributes content).chars indent? level =
      before.chars indent? level ++ gap indent? level ++
        Written.chars ⟨name, attributes, content⟩ indent? level := by
  cases hempty : content.isEmpty <;> simp [chars, Written.chars, Written.opening, hempty]

theorem calls_element :
    (element before name attributes content).calls =
      before.calls ++ (Written.calls ⟨name, attributes, content⟩ ++ [.stop]) :=
  rfl

end Content

structure Document where
  declared : Bool := false
  roots : List Written := []
  deriving DecidableEq, Repr

namespace Document

def parts (doc : Document) (indent? : Option Nat) : List (List Char) :=
  (if doc.declared then [declaration.toList] else []) ++ doc.roots.map (·.chars indent? 0)

/-- The text of a document, with the end of the line after each of its parts. -/
def chars (doc : Document) (indent? : Option Nat) : List Char :=
  (doc.parts indent?).flatMap (· ++ gap indent? 0)

def calls (doc : Document) : List Call :=
  (if doc.declared then [.declaration] else []) ++ doc.roots.flatMap fun e => e.calls ++ [.stop]

theorem mem_calls {doc : Document} {e : Written} {c : Call} (he : e ∈ doc.roots) (hc : c ∈ e.calls) :
    c ∈ doc.calls :=
  List.mem_append_right _ (List.mem_flatMap.2 ⟨e, he, List.mem_append_left _ hc⟩)

end Document

/-- A document that is being written. -/
structure Draft where
  ended : Document := {}
  /-- The elements that are not ended, the innermost first, each without the one within it. -/
  unended : List Written := []
  deriving DecidableEq, Repr

/-- The text of elements that are not ended, the innermost of them first. Its start tag may be open,
those around it are closed. -/
def openChars (indent? : Option Nat) (closed : Bool) : List Written → List Char
  | [] => []
  | e :: around =>
    openChars indent? true around ++ (if around.isEmpty then [] else gap indent? around.length) ++
      e.opening closed indent? around.length

namespace Draft

def add (d : Draft) : Call → Except WriteError Draft
  | .declaration =>
    if d = {} then .ok { ended.declared := true } else .error .declarationNotFirst
  | .start name => .ok { d with unended := { name } :: d.unended }
  | .attr name value =>
    match d.unended with
    | ⟨tag, attributes, .empty⟩ :: around =>
      .ok { d with unended := ⟨tag, attributes ++ [(name, value)], .empty⟩ :: around }
    | _ => .error .attributeOutsideTag
  | .text t =>
    match d.unended with
    | e :: around => .ok { d with unended := { e with content := .text e.content t } :: around }
    | [] => .error .textOutsideElement
  | .literal t =>
    if hasLiteralEnd t.toList then .error .literalEnd
    else
      match d.unended with
      | e :: around => .ok { d with unended := { e with content := .literal e.content t } :: around }
      | [] => .error .textOutsideElement
  | .stop =>
    match d.unended with
    | [] => .error .nothingOpen
    | [e] => .ok { ended := { d.ended with roots := d.ended.roots ++ [e] } }
    | e :: next :: around => .ok { d with unended := next.holding e :: around }

/-- The draft after some calls, of which those that are refused are passed over. -/
def after (d : Draft) : List Call → Draft
  | [] => d
  | c :: cs =>
    match d.add c with
    | .ok d' => d'.after cs
    | .error _ => d.after cs

def calls (d : Draft) : List Call :=
  d.ended.calls ++ d.unended.reverse.flatMap Written.calls

def whole (d : Draft) : Document :=
  match d.unended with
  | [] => d.ended
  | e :: around => { d.ended with roots := d.ended.roots ++ [e.within around] }

/-- The text of a draft. The innermost start tag is closed once something is in its element. -/
def chars (d : Draft) (indent? : Option Nat) : List Char :=
  match d.unended with
  | [] => (gap indent? 0).intercalate (d.ended.parts indent?)
  | e :: around => d.ended.chars indent? ++ openChars indent? (!e.content.isEmpty) (e :: around)

def stage (d : Draft) : Stage :=
  match d.unended with
  | [] => if d.ended = {} then .empty else .document
  | e :: _ => if e.content.isEmpty then .startTag else .document

def openElements (d : Draft) : List OpenElement :=
  match d.unended with
  | [] => []
  | e :: around =>
    ⟨e.name, !e.content.isEmpty, e.content.hasChildren⟩ :: around.map Written.outer

theorem stage_eq_empty_iff {d : Draft} : d.stage = .empty ↔ d = {} := by
  obtain ⟨ended, _ | ⟨e, around⟩⟩ := d
  · simp [stage]
  · cases hempty : e.content.isEmpty <;> simp [stage, hempty]

theorem length_openElements (d : Draft) : d.openElements.length = d.unended.length := by
  obtain ⟨ended, _ | ⟨e, around⟩⟩ := d <;> simp [openElements]

/-- The writer that has written a draft. -/
def writer (d : Draft) (indent? : Option Nat) : Writer :=
  ⟨indent?, String.ofList (d.chars indent?), d.stage, d.openElements⟩

@[simp] theorem writer_stage (d : Draft) (indent? : Option Nat) :
    (d.writer indent?).stage = d.stage :=
  rfl

end Draft

namespace Writer

theorem lineBreak_eq (w : Writer) : w.lineBreak = String.ofList (gap w.indent? 0) := by
  simp [w.ofList_gap 0, spaces]

theorem start_closeTag (w : Writer) (name : String) : w.closeTag.start name = w.start name := by
  obtain ⟨indent?, output, stage, openElements⟩ := w
  cases stage with
  | startTag => cases openElements <;> rfl
  | empty | document => rfl

theorem start_document (indent? : Option Nat) (cs : List Char) (openElements : List OpenElement)
    (name : String) :
    Writer.start ⟨indent?, String.ofList cs, .document, openElements⟩ name =
      ⟨indent?, String.ofList (cs ++ gap indent? openElements.length ++ '<' :: name.toList), .startTag,
        { name } :: openElements.modifyHead ({ · with hasChildren := true })⟩ := by
  cases indent? <;>
    simp [start, closeTag, modifyInnermost, write, gap, lineBreak, spaces, String.ofList_append,
      String.append_assoc, String.ofList_cons]

theorem endOf_eq (w : Writer) (e : Written) (around : List OpenElement) :
    w.endOf ⟨e.name, !e.content.isEmpty, e.content.hasChildren⟩ around =
      String.ofList (e.content.ending w.indent? around.length e.name) := by
  have hgap := w.ofList_gap around.length
  cases hempty : e.content.isEmpty <;> cases hchildren : e.content.hasChildren <;>
    simp [endOf, Content.ending, hempty, hchildren, hgap, String.ofList_append, String.ofList_cons,
      String.append_assoc, ← String.toList_inj]

end Writer

/-! ## Steps of the writer on a draft -/

section Separators

variable {α : Type} {sep last : List α} {parts : List (List α)}

theorem intercalate_append_sep (h : parts ≠ []) :
    sep.intercalate parts ++ sep = parts.flatMap (· ++ sep) := by
  induction parts with
  | nil => exact absurd rfl h
  | cons part rest ih =>
    cases rest with
    | nil => simp
    | cons next rest =>
      rw [List.intercalate_cons_cons, List.append_assoc, ih (List.cons_ne_nil _ _)]
      rfl

theorem intercalate_concat :
    sep.intercalate (parts ++ [last]) = parts.flatMap (· ++ sep) ++ last := by
  induction parts with
  | nil => simp
  | cons part rest ih =>
    cases rest <;> simp_all [List.intercalate_cons_cons]

end Separators

section Texts

variable {indent? : Option Nat} (e : Written) (around : List Written)

theorem Content.chars_eq_nil {content : Content} (h : content.isEmpty) (level : Nat) :
    content.chars indent? level = [] := by
  cases content with
  | empty => rfl
  | text | literal | element => cases h

theorem openChars_start (name : String) :
    openChars indent? false ({ name } :: around) =
      openChars indent? true around ++ (if around.isEmpty then [] else gap indent? around.length) ++
        '<' :: name.toList := by
  simp [openChars, Written.opening, attributesChars, Content.chars]

/-- The mark that closes the start tag of an element without content is the last of its text. -/
theorem openChars_close (h : e.content.isEmpty) :
    openChars indent? false (e :: around) ++ ['>'] = openChars indent? true (e :: around) := by
  simp [openChars, Written.opening, Content.chars_eq_nil h]

theorem openChars_content (content : Content) {added : List Char}
    (h : ∀ level, content.chars indent? level = e.content.chars indent? level ++ added) :
    openChars indent? true ({ e with content } :: around) =
      openChars indent? true (e :: around) ++ added := by
  simp [openChars, Written.opening, h]

theorem openChars_holding (next : Written) :
    openChars indent? (!e.content.isEmpty) (e :: next :: around) ++
        e.content.ending indent? (around.length + 1) e.name =
      openChars indent? true (next.holding e :: around) := by
  simp [openChars, Written.opening, Written.holding, Content.chars_element, Written.chars]

end Texts

namespace Document

variable {indent? : Option Nat}

theorem parts_eq_nil_iff {doc : Document} : doc.parts indent? = [] ↔ doc = {} := by
  obtain ⟨declared, roots⟩ := doc
  cases declared <;> simp [parts]

theorem parts_concat (doc : Document) (e : Written) :
    parts { doc with roots := doc.roots ++ [e] } indent? = doc.parts indent? ++ [e.chars indent? 0] := by
  simp [parts]

end Document

namespace Draft

variable {indent? : Option Nat}

section Writers

variable (indent? : Option Nat) (ended : Document) (around : List Written)

theorem writer_new : writer {} indent? = { indent? } := by
  simp [writer, Draft.chars, Draft.stage, Draft.openElements, Document.parts]

theorem writer_ended (h : ended ≠ {}) :
    writer ⟨ended, []⟩ indent? =
      ⟨indent?, String.ofList ((gap indent? 0).intercalate (ended.parts indent?)), .document, []⟩ := by
  simp [writer, Draft.chars, Draft.stage, Draft.openElements, h]

theorem writer_startTag (name : String) (attributes : List (String × String)) :
    writer ⟨ended, ⟨name, attributes, .empty⟩ :: around⟩ indent? =
      ⟨indent?, String.ofList (ended.chars indent? ++
        openChars indent? false (⟨name, attributes, .empty⟩ :: around)), .startTag,
        { name } :: around.map Written.outer⟩ :=
  rfl

theorem writer_content {e : Written} (h : e.content.isEmpty = false) :
    writer ⟨ended, e :: around⟩ indent? =
      ⟨indent?, String.ofList (ended.chars indent? ++ openChars indent? true (e :: around)), .document,
        ⟨e.name, true, e.content.hasChildren⟩ :: around.map Written.outer⟩ := by
  simp [writer, Draft.chars, Draft.stage, Draft.openElements, h]

theorem closeTag_writer (e : Written) :
    (writer ⟨ended, e :: around⟩ indent?).closeTag =
      ⟨indent?, String.ofList (ended.chars indent? ++ openChars indent? true (e :: around)), .document,
        ⟨e.name, true, e.content.hasChildren⟩ :: around.map Written.outer⟩ := by
  cases hempty : e.content.isEmpty with
  | true =>
    rw [← openChars_close e around hempty]
    simp [writer, Draft.chars, Draft.stage, Draft.openElements, hempty, Writer.closeTag,
      Writer.write, Writer.modifyInnermost, String.ofList_append, String.append_assoc]
  | false =>
    rw [writer_content indent? ended around hempty]
    rfl

end Writers

theorem writeRaw_writer (ended : Document) (e : Written) (around : List Written) (content : Content)
    {markup : String} (hempty : content.isEmpty = false)
    (hchildren : content.hasChildren = e.content.hasChildren)
    (h : ∀ level, content.chars indent? level = e.content.chars indent? level ++ markup.toList) :
    (writer ⟨ended, e :: around⟩ indent?).writeRaw markup =
      .ok (writer ⟨ended, { e with content } :: around⟩ indent?) := by
  have hopen : (writer ⟨ended, e :: around⟩ indent?).openElements.isEmpty = false := rfl
  rw [Writer.writeRaw, hopen, closeTag_writer, writer_content indent? ended around hempty,
    openChars_content e around content h, hchildren]
  simp [Writer.write, String.ofList_append, String.append_assoc]

theorem start_writer (d : Draft) (name : String) :
    (d.writer indent?).start name = writer { d with unended := { name } :: d.unended } indent? := by
  obtain ⟨ended, _ | ⟨e, around⟩⟩ := d
  · rw [writer_startTag, openChars_start]
    by_cases hnew : ended = {}
    · subst hnew
      rw [writer_new]
      simp [Writer.start, Writer.closeTag, Writer.modifyInnermost, Writer.write, Writer.spaces,
        Document.chars, Document.parts, openChars, String.ofList_cons]
    · have hparts : ended.parts indent? ≠ [] := fun h => hnew (Document.parts_eq_nil_iff.1 h)
      rw [writer_ended indent? ended hnew, Writer.start_document, List.length_nil,
        intercalate_append_sep hparts]
      rfl
  · rw [← Writer.start_closeTag, closeTag_writer, Writer.start_document, writer_startTag,
      openChars_start]
    simp [Written.outer]

theorem endElement_writer (d : Draft) :
    (d.writer indent?).endElement = (d.add .stop).map (·.writer indent?) := by
  obtain ⟨ended, _ | ⟨e, around⟩⟩ := d
  · rfl
  · have hend := (writer ⟨ended, e :: around⟩ indent?).endOf_eq e (around.map Written.outer)
    have hopen : (writer ⟨ended, e :: around⟩ indent?).openElements =
        ⟨e.name, !e.content.isEmpty, e.content.hasChildren⟩ :: around.map Written.outer := rfl
    simp only [Writer.endElement, hopen, hend, List.length_map]
    cases around with
    | nil =>
      have hroots : (⟨ended.declared, ended.roots ++ [e]⟩ : Document) ≠ {} := by simp
      simp only [add, Except.map]
      rw [writer_ended indent? _ hroots, Document.parts_concat, intercalate_concat]
      simp [writer, Draft.chars, Writer.write, Document.chars, openChars, Written.chars,
        String.append_assoc]
    | cons next around =>
      simp only [add, Except.map]
      rw [writer_content indent? ended around (next.holding_isEmpty e), ← openChars_holding]
      simp [writer, Draft.chars, Writer.write, String.append_assoc, Written.outer]

theorem writeDeclaration_writer (d : Draft) :
    (d.writer indent?).writeDeclaration = (d.add .declaration).map (·.writer indent?) := by
  by_cases hnew : d = {}
  · subst hnew
    have hdeclared : (⟨true, []⟩ : Document) ≠ {} := by simp
    simp only [writer_new, add, if_true, Except.map, writer_ended indent? _ hdeclared]
    simp [Writer.writeDeclaration, Writer.write, Document.parts]
  · have hstarted : (d.writer indent?).stage ≠ .empty := fun h => hnew (stage_eq_empty_iff.1 h)
    rw [Writer.writeDeclaration, if_neg hstarted, add, if_neg hnew]
    rfl

theorem writeAttribute_writer (d : Draft) (name value : String) :
    (d.writer indent?).writeAttribute name value =
      (d.add (.attr name value)).map (·.writer indent?) := by
  obtain ⟨ended, _ | ⟨⟨tag, attributes, content⟩, around⟩⟩ := d
  · by_cases hnew : ended = {} <;>
      simp [Writer.writeAttribute, writer, Draft.stage, add, hnew, Except.map]
  · cases content with
    | empty =>
      simp only [add, Except.map, writer_startTag, Writer.writeAttribute, if_true]
      simp [Writer.write, openChars, Written.opening, Content.chars, attributesChars,
        Writer.ofList_attributeChars, String.append_assoc]
    | text | literal | element => rfl

/-- The writer does to its text what a call does to the draft, and refuses the calls that the draft
has no place for. -/
theorem apply_writer (d : Draft) (c : Call) :
    c.apply (d.writer indent?) = (d.add c).map (·.writer indent?) := by
  obtain ⟨ended, unended⟩ := d
  cases c with
  | declaration => exact writeDeclaration_writer _
  | start name => exact congrArg Except.ok (start_writer _ name)
  | attr name value => exact writeAttribute_writer _ name value
  | text t =>
    cases unended with
    | nil => rfl
    | cons e around => exact writeRaw_writer ended e around _ rfl rfl fun level => rfl
  | literal t =>
    simp only [Call.apply, Writer.writeLiteral, add]
    cases hasLiteralEnd t.toList with
    | true => rfl
    | false =>
      cases unended with
      | nil => rfl
      | cons e around => exact writeRaw_writer ended e around _ rfl rfl fun level => rfl
  | stop => exact endElement_writer _

theorem run_writer (d : Draft) (c : Call) :
    c.perform.run (d.writer indent?) = match d.add c with
      | .ok d' => .ok () (d'.writer indent?)
      | .error e => .error e (d.writer indent?) := by
  rw [c.run_perform, apply_writer]
  cases d.add c <;> rfl

/-! ## Runs of a writer -/

theorem add_calls {d d' : Draft} {c : Call} (h : d.add c = .ok d') : d'.calls = d.calls ++ [c] := by
  obtain ⟨ended, unended⟩ := d
  cases c with
  | declaration =>
    rw [add] at h
    split at h
    · next hnew =>
      cases hnew
      cases h
      rfl
    · cases h
  | start name =>
    cases h
    simp [Draft.calls, Written.calls, Content.calls]
  | attr name value =>
    rcases unended with _ | ⟨⟨tag, attributes, _ | _ | _ | _⟩, around⟩ <;> cases h
    simp [Draft.calls, Written.calls, Content.calls, Call.ofAttribute]
  | text t =>
    cases unended <;> cases h
    simp [Draft.calls, Written.calls, Content.calls]
  | literal t =>
    rw [add] at h
    split at h
    · cases h
    · cases unended <;> cases h
      simp [Draft.calls, Written.calls, Content.calls]
  | stop =>
    rcases unended with _ | ⟨e, _ | ⟨next, around⟩⟩ <;> cases h
    · simp [Draft.calls, Document.calls]
    · simp [Draft.calls, Written.calls, Written.holding, Content.calls]

/-- A writer that goes on with a draft writes the draft that its calls lead to, in which all of them have
a place that were not refused. -/
theorem after_writer (d : Draft) (cs : List Call) :
    (d.writer indent?).after cs = (d.after cs).writer indent? ∧
      (d.after cs).calls = d.calls ++ (d.writer indent?).accepted cs := by
  induction cs generalizing d with
  | nil => exact ⟨rfl, (List.append_nil _).symm⟩
  | cons c cs ih =>
    rw [Writer.after, Writer.accepted, after, run_writer]
    cases hadd : d.add c with
    | error e => exact ih d
    | ok d' =>
      obtain ⟨hafter, hcalls⟩ := ih d'
      refine ⟨hafter, ?_⟩
      simp [hcalls, add_calls hadd]

/-! ## The finished document -/

theorem within_calls (e : Written) (around : List Written) :
    (e.within around).calls ++ [.stop] =
      (e :: around).reverse.flatMap Written.calls ++ List.replicate (around.length + 1) .stop := by
  induction around generalizing e with
  | nil => simp [Written.within]
  | cons next around ih =>
    rw [Written.within, ih]
    simp [Written.calls, Written.holding, Content.calls, List.replicate_succ]

theorem whole_calls (d : Draft) :
    d.whole.calls = d.calls ++ List.replicate d.unended.length .stop := by
  obtain ⟨ended, _ | ⟨e, around⟩⟩ := d
  · simp [whole, Draft.calls]
  · simp only [whole, Draft.calls, Document.calls, List.flatMap_append, List.flatMap_singleton,
      within_calls, List.length_cons, List.append_assoc]
    rfl

theorem endsOf_within (w : Writer) (e : Written) (around : List Written) :
    openChars w.indent? (!e.content.isEmpty) (e :: around) ++
      (w.endsOf (⟨e.name, !e.content.isEmpty, e.content.hasChildren⟩ ::
        around.map Written.outer)).toList =
      (e.within around).chars w.indent? 0 := by
  induction around generalizing e with
  | nil => simp [Writer.endsOf, Writer.endOf_eq, openChars, Written.within, Written.chars]
  | cons next around ih =>
    rw [Written.within, ← ih, Writer.endsOf, Writer.endOf_eq]
    simp [← openChars_holding, Written.outer]

theorem finish_writer (d : Draft) :
    (d.writer indent?).finish = String.ofList (d.whole.chars indent?) := by
  have hbreak : (d.writer indent?).lineBreak = String.ofList (gap indent? 0) :=
    Writer.lineBreak_eq _
  rw [Writer.finish, hbreak]
  obtain ⟨ended, _ | ⟨e, around⟩⟩ := d
  · by_cases hnew : ended = {}
    · subst hnew
      simp [writer_new, Writer.endsOf, whole, Document.chars, Document.parts]
    · have hparts : ended.parts indent? ≠ [] := fun h => hnew (Document.parts_eq_nil_iff.1 h)
      rw [writer_ended indent? ended hnew, whole, Document.chars, ← intercalate_append_sep hparts]
      simp [Writer.endsOf]
  · have hends : openChars indent? (!e.content.isEmpty) (e :: around) ++
        ((writer ⟨ended, e :: around⟩ indent?).endsOf
          (writer ⟨ended, e :: around⟩ indent?).openElements).toList =
        (e.within around).chars indent? 0 :=
      endsOf_within (writer ⟨ended, e :: around⟩ indent?) e around
    have houtput : (writer ⟨ended, e :: around⟩ indent?).output.toList =
        ended.chars indent? ++ openChars indent? (!e.content.isEmpty) (e :: around) :=
      String.toList_ofList
    have hstarted : Draft.stage ⟨ended, e :: around⟩ ≠ .empty :=
      fun h => List.cons_ne_nil e around (congrArg unended (stage_eq_empty_iff.1 h))
    have hwhole : (whole ⟨ended, e :: around⟩).chars indent? =
        ended.chars indent? ++ ((e.within around).chars indent? 0 ++ gap indent? 0) := by
      simp [whole, Document.chars, Document.parts_concat]
    rw [writer_stage, if_neg hstarted, hwhole, ← hends, ← String.toList_inj]
    simp only [String.toList_append, houtput, String.toList_ofList, List.append_assoc]

end Draft

end KmlTree.Markup
