import KmlTree.Markup.Render
import KmlTree.Proofs.Markup.Tags
import KmlTree.Proofs.Tree.Arranged

/-!
# What is written for a tree

The text of a tree without the steps of the writer: each element encloses what is written for the
elements and fields in it. Main statement: rendering always succeeds, and gives the text of the
arranged tree.
-/
namespace KmlTree

namespace Markup

def gap (indent? : Option Nat) (level : Nat) : List Char :=
  match indent? with
  | none => []
  | some n => '\n' :: List.replicate (level * n) ' '

def contentChars (text : String) : List Char :=
  if text.toList.any (fun c => c == '<' || c == '&') && !hasLiteralEnd text.toList then
    (literal text).toList
  else (Text.escapeText text).toList

end Markup

open Markup

namespace Element

/-- What comes after the name of an element at a level, given what comes after the `<` of each part
of the element. -/
def enclose (e : Element) (indent? : Option Nat) (level : Nat) (parts : List (List Char)) :
    List Char :=
  attributesChars e.storedAttributes ++
    if e.text.isEmpty && parts.isEmpty then ['/', '>']
    else
      '>' :: (contentChars e.text ++
        (parts.flatMap (fun part => gap indent? (level + 1) ++ '<' :: part) ++
          ((if parts.isEmpty then [] else gap indent? level) ++
            '<' :: '/' :: (e.name.toList ++ ['>']))))

end Element

mutual

/-- What is written for an element at a level, after its `<`. -/
def Element.markup (indent? : Option Nat) (level : Nat) : Element → List Char
  | e@⟨_, children, unknown⟩ =>
    e.name.toList ++ e.enclose indent? level
      (markupOfChildren indent? (level + 1) children ++ markupOfAll indent? (level + 1) unknown)

def markupOfChildren (indent? : Option Nat) (level : Nat) : List Child → List (List Char)
  | [] => []
  | .field _ f :: rest =>
    (f.element.name.toList ++ f.element.enclose indent? level []) ::
      markupOfChildren indent? level rest
  | .element _ e :: rest => e.markup indent? level :: markupOfChildren indent? level rest

def markupOfAll (indent? : Option Nat) (level : Nat) : List Element → List (List Char)
  | [] => []
  | e :: rest => e.markup indent? level :: markupOfAll indent? level rest

end

section Parts

variable {indent? : Option Nat} {level : Nat}

theorem markupOfAll_eq (es : List Element) :
    markupOfAll indent? level es = es.map fun e => e.markup indent? level := by
  induction es with
  | nil => rfl
  | cons e rest ih => rw [markupOfAll, ih, List.map_cons]

theorem markupOfChildren_eq (children : List Child) :
    markupOfChildren indent? level children =
      children.map fun c => c.node.markup indent? level := by
  induction children with
  | nil => rfl
  | cons c rest ih =>
    cases c with
    | field slot f =>
      rw [markupOfChildren, ih]
      rfl
    | element slot e =>
      rw [markupOfChildren, ih]
      rfl

def Element.tail (e : Element) (indent? : Option Nat) (level : Nat) : List Char :=
  e.enclose indent? level (e.nodes.map fun n => n.markup indent? (level + 1))

theorem Element.markup_eq (e : Element) :
    e.markup indent? level = e.name.toList ++ e.tail indent? level := by
  cases e
  rw [markup, tail, markupOfChildren_eq, markupOfAll_eq, nodes, List.map_append, List.map_map]
  rfl

end Parts

theorem Element.writtenAttributes_eq (e : Element) :
    e.writtenAttributes = e.arrange.storedAttributes := by
  obtain ⟨head, children, unknown⟩ := e
  simp only [writtenAttributes, storedAttributes, arrange, Head.arrange, List.map_filterMap]
  congr 2
  funext a
  rw [attribute?, Option.map_map]
  rfl

namespace Markup.Writer

/-! ## Steps of the writer -/

theorem ofList_attributeChars (entry : String × String) :
    String.ofList (attributeChars entry) =
      " " ++ entry.1 ++ "=\"" ++ Text.escapeAttribute entry.2 ++ "\"" := by
  rw [← String.toList_inj]
  simp [attributeChars]

theorem writeAttributes_eq (attributes : List (String × String)) {w : Writer}
    (hstage : w.stage = .startTag) :
    w.writeAttributes attributes = .ok (w.write (String.ofList (attributesChars attributes))) := by
  induction attributes generalizing w with
  | nil =>
    cases w
    simp [writeAttributes, attributesChars, write]
  | cons entry rest ih =>
    obtain ⟨name, value⟩ := entry
    have hrest := ih (w := w.write (String.ofList (attributeChars (name, value)))) hstage
    rw [ofList_attributeChars] at hrest
    simp only [writeAttributes, writeAttribute, hstage, if_true]
    refine hrest.trans ?_
    rw [← ofList_attributeChars]
    simp [write, attributesChars, String.ofList_append, String.append_assoc]

theorem writeContent_eq (w : Writer) (text : String) (hopen : w.openElements ≠ []) :
    w.writeContent text = .ok (if text.isEmpty then w else
      { w.closeTag.write (String.ofList (contentChars text)) with stage := .document }) := by
  have hopen' : w.openElements.isEmpty = false := by simpa using hopen
  unfold writeContent contentChars
  split
  · rfl
  · split
    · next hliteral =>
      have hend : hasLiteralEnd text.toList = false := by
        simpa using (Bool.and_eq_true_iff.1 hliteral).2
      simp only [writeLiteral, hend, writeRaw, hopen', String.ofList_toList]
      rfl
    · simp only [writeText, writeRaw, hopen', String.ofList_toList]
      rfl

theorem ofList_gap (w : Writer) (level : Nat) :
    String.ofList (gap w.indent? level) = w.lineBreak ++ w.spaces level := by
  unfold gap lineBreak spaces
  cases w.indent? with
  | none => simp
  | some n => simp [String.ofList_cons]

/-- The writer after an element, given what comes after the element's name. -/
def add (w : Writer) (name : String) (tail : List Char) : Writer :=
  { (w.start name).write (String.ofList tail) with
    stage := .document, openElements := (w.start name).openElements.tail }

def addElement (w : Writer) (e : Element) : Writer :=
  w.add e.name (e.tail w.indent? w.openElements.length)

theorem addElement_closeTag (w : Writer) (e : Element) :
    w.closeTag.addElement e = w.addElement e := by
  obtain ⟨indent?, output, stage, openElements⟩ := w
  cases stage with
  | startTag =>
    cases openElements <;> rfl
  | empty => rfl
  | document => rfl

theorem foldl_addElement (ns : List Element) (indent? : Option Nat) (output : String)
    (o : OpenElement) (rest : List OpenElement) :
    ns.foldl addElement ⟨indent?, output, .document, o :: rest⟩ =
      ⟨indent?, output ++ String.ofList ((ns.map fun n => n.markup indent? (rest.length + 1)).flatMap
          fun part => gap indent? (rest.length + 1) ++ '<' :: part),
        .document, { o with hasChildren := o.hasChildren || !ns.isEmpty } :: rest⟩ := by
  induction ns generalizing output o with
  | nil => simp
  | cons n ns ih =>
    have hadd : (Writer.mk indent? output .document (o :: rest)).addElement n =
        ⟨indent?, output ++ String.ofList (gap indent? (rest.length + 1) ++
            '<' :: n.markup indent? (rest.length + 1)), .document,
          { o with hasChildren := true } :: rest⟩ := by
      have hgap := ofList_gap ⟨indent?, output, .document, o :: rest⟩ (rest.length + 1)
      simp only at hgap
      rw [Element.markup_eq, String.ofList_append, hgap]
      simp [addElement, add, start, closeTag, modifyInnermost, write, String.ofList_append,
        String.append_assoc, lineBreak, spaces, String.ofList_cons]
    rw [List.foldl_cons, hadd, ih]
    simp [String.ofList_append, String.append_assoc]

/-! ## Visits -/

def writes (e : Element) : StateT Writer (Except WriteError) Bool :=
  fun w => .ok (false, w.addElement e)

theorem inTurn_writes (ns : List Element) (w : Writer) :
    Visitor.inTurn (ns.map writes) w = .ok (false, ns.foldl addElement w) := by
  induction ns generalizing w with
  | nil => rfl
  | cons n ns ih =>
    rw [List.map_cons, Visitor.inTurn, List.foldl_cons]
    exact ih (w.addElement n)

theorem start_eq (w : Writer) (name : String) : ∃ output around,
    w.start name = ⟨w.indent?, output, .startTag, { name } :: around⟩ ∧
      around.length = w.openElements.length := by
  obtain ⟨indent?, output, stage, openElements⟩ := w
  cases stage <;> exact ⟨_, _, rfl, by simp [closeTag, modifyInnermost, write]⟩

/-- The start tag is closed by the text, or else by the first element. -/
theorem foldl_addElement_startTag (indent? : Option Nat) (output name text : String)
    (around : List OpenElement) {ns : List Element} (h : ¬(text.isEmpty = true ∧ ns = [])) :
    let w : Writer := ⟨indent?, output, .startTag, { name } :: around⟩
    ns.foldl addElement (if text.isEmpty then w else
        { w.closeTag.write (String.ofList (contentChars text)) with stage := .document }) =
      ns.foldl addElement ⟨indent?, output ++ ">" ++ String.ofList (contentChars text), .document,
        { name, closed := true } :: around⟩ := by
  intro w
  split
  · next htext =>
    obtain ⟨n, ns, rfl⟩ := List.exists_cons_of_ne_nil (fun hnil => h ⟨htext, hnil⟩)
    have hnoText : text = "" := by simpa using htext
    rw [List.foldl_cons, List.foldl_cons, ← addElement_closeTag, hnoText]
    simp [w, write, closeTag, modifyInnermost, contentChars, hasLiteralEnd, Text.escapeText,
      Text.escapeChars]
  · rfl

/-- An element is written by its attributes, its text and the elements in it, one after the other. -/
theorem addElement_eq (e : Element) (w : Writer) : ∃ w₁ w₂,
    (w.start e.name).writeAttributes e.storedAttributes = .ok w₁ ∧
      w₁.writeContent e.text = .ok w₂ ∧
        (e.nodes.foldl addElement w₂).endElement = .ok (w.addElement e) := by
  obtain ⟨output, around, hstart, hlength⟩ := w.start_eq e.name
  have hattributes := writeAttributes_eq (w := w.start e.name) e.storedAttributes (by rw [hstart])
  have hcontent := ((w.start e.name).write
    (String.ofList (attributesChars e.storedAttributes))).writeContent_eq e.text
    (by simp [hstart, write])
  refine ⟨_, _, hattributes, hcontent, ?_⟩
  have hadd : w.addElement e = ⟨w.indent?, output ++ String.ofList (e.tail w.indent? around.length),
      .document, around⟩ := by
    simp only [addElement, add, hstart, hlength]
    rfl
  rw [hadd, hstart, Element.tail, Element.enclose]
  by_cases hempty : e.text.isEmpty = true ∧ e.nodes = []
  · simp [hempty.1, hempty.2, write, endElement, endOf, String.ofList_append, String.append_assoc,
      String.ofList_cons]
  · have hclosed := foldl_addElement_startTag w.indent?
      (output ++ String.ofList (attributesChars e.storedAttributes)) e.name e.text around hempty
    refine (congrArg endElement hclosed).trans ?_
    rw [foldl_addElement]
    have hparts : (e.text.isEmpty && (e.nodes.map fun n =>
        n.markup w.indent? (around.length + 1)).isEmpty) = false := by
      simpa using hempty
    have hgap := ofList_gap ⟨w.indent?, output, .document, around⟩ around.length
    simp only at hgap
    have hslash (s : String) : "<" ++ ("/" ++ s) = "</" ++ s := by
      rw [← String.append_assoc]
      rfl
    rw [hparts]
    cases hnodes : e.nodes with
    | nil =>
      simp [endElement, endOf, write, String.ofList_append, String.append_assoc, String.ofList_cons,
        hslash]
    | cons n ns =>
      simp [endElement, endOf, write, String.ofList_append, String.append_assoc, String.ofList_cons,
        hslash, hgap, lineBreak, spaces]

end Markup.Writer

open Markup.Writer

/-! ## The whole tree -/

theorem renderer_field (context : Context) (f : Field) :
    renderer.visitField context f = writes f.element := by
  funext w
  obtain ⟨w₁, w₂, hattributes, hcontent, hend⟩ := addElement_eq f.element w
  cases hattributes
  change (w.start f.kind.tag).writeContent f.text = .ok w₂ at hcontent
  change w₂.endElement = .ok (w.addElement f.element) at hend
  have hfield : renderer.field context f w = .ok (.descend, w.addElement f.element) := by
    change ((w.start f.kind.tag).writeContent f.text >>= fun w =>
      w.endElement >>= fun w => pure (Flow.descend, w)) = _
    rw [hcontent]
    change (w₂.endElement >>= fun w => pure (Flow.descend, w)) = _
    rw [hend]
    rfl
  simp only [writes, Visitor.visitField, bind, StateT.bind, hfield]
  rfl

theorem renderer_visitChildren {children : List Child}
    (ih : ∀ e ∈ children.filterMap Child.element?, ∀ context,
      renderer.visit context e = writes e.arrange) (context : Context) (i : Nat) :
    renderer.visitChildren context i children =
      children.map fun c => (c.slot, writes c.arrange.node) := by
  induction children generalizing i with
  | nil => rfl
  | cons c rest ihRest =>
    cases c with
    | field slot f =>
      rw [Visitor.visitChildren, ihRest ih, renderer_field]
      rfl
    | element slot e =>
      rw [Visitor.visitChildren, ihRest (fun e' he' => ih e' (List.mem_cons_of_mem _ he')),
        ih e List.mem_cons_self]
      rfl

theorem renderer_visitUnknown {unknown : List Element}
    (ih : ∀ u ∈ unknown, ∀ context, renderer.visit context u = writes u.arrange)
    (context : Context) (i : Nat) :
    renderer.visitUnknown context i unknown = unknown.map fun u => writes u.arrange := by
  induction unknown generalizing i with
  | nil => rfl
  | cons u rest ihRest =>
    rw [Visitor.visitUnknown, ihRest (fun u' hu' => ih u' (List.mem_cons_of_mem _ hu')),
      ih u List.mem_cons_self]
    rfl

/-- A walk of the renderer writes the arranged tree as it is stored. -/
theorem renderer_visit (e : Element) (context : Context) :
    renderer.visit context e = writes e.arrange := by
  induction e using Element.inductionOn generalizing context with
  | step e known unknown =>
    have hchildren := renderer_visitChildren known context 0
    have hunknown := renderer_visitUnknown unknown context 0
    have hnodes : renderer.order.arrange (renderer.visitChildren context 0 e.children) ++
        renderer.visitUnknown context 0 e.unknown = e.arrange.nodes.map writes := by
      have hslot : (Prod.fst : Nat × StateT Writer (Except WriteError) Bool → Nat) ∘
          (fun c : Child => (c.slot, writes c.arrange.node)) = Child.slot := rfl
      rw [hchildren, hunknown]
      change (sortByKey Prod.fst _).map Prod.snd ++ _ = _
      rw [sortByKey_map, hslot, Element.nodes, e.children_arrange, e.unknown_arrange]
      simp [Function.comp_def]
    funext w
    obtain ⟨w₁, w₂, hattributes, hcontent, hend⟩ := addElement_eq e.arrange w
    rw [e.name_arrange, ← e.writtenAttributes_eq] at hattributes
    rw [e.text_arrange] at hcontent
    have helement : renderer.element context e w = .ok (.descend, w₂) := by
      change ((w.start e.name).writeAttributes e.writtenAttributes >>= fun w =>
        w.writeContent e.text >>= fun w => pure (Flow.descend, w)) = _
      rw [hattributes]
      change (w₁.writeContent e.text >>= fun w => pure (Flow.descend, w)) = _
      rw [hcontent]
      rfl
    have hleave : renderer.leave context e (e.arrange.nodes.foldl addElement w₂) =
        .ok ((), w.addElement e.arrange) := by
      change ((e.arrange.nodes.foldl addElement w₂).endElement >>= fun w => pure ((), w)) = _
      rw [hend]
      rfl
    obtain ⟨head, children, unknown⟩ := e
    rw [Visitor.visit]
    dsimp only at hnodes
    simp only [bind, StateT.bind, helement, Except.bind, hnodes, inTurn_writes, Bool.false_eq_true,
      if_false]
    change (renderer.leave context _ _ >>= fun result => pure (false, result.2)) = _
    rw [hleave]
    rfl

/-- The number of spaces for each level, if each element is to stand on a line of its own. -/
def Markup.RenderOptions.indentation? (options : RenderOptions) : Option Nat :=
  if options.pretty then some options.indent else none

def Markup.RenderOptions.preamble (options : RenderOptions) : List Char :=
  if options.declaration then Markup.declaration.toList ++ gap options.indentation? 0 else []

def Element.written (e : Element) (options : RenderOptions) : String :=
  String.ofList (options.preamble ++
    '<' :: (e.markup options.indentation? 0 ++ gap options.indentation? 0))

theorem Markup.RenderOptions.ofList_gap_zero (options : RenderOptions) :
    String.ofList (gap options.indentation? 0) = if options.pretty = true then "\n" else "" := by
  unfold indentation?
  split <;> simp [gap, String.ofList_cons]

theorem Markup.RenderOptions.writer_eq (options : RenderOptions) : ∃ w,
    (if options.declaration then options.writer.writeDeclaration else .ok options.writer) = .ok w ∧
      w.indent? = options.indentation? ∧ w.openElements = [] ∧
        ∀ name, w.start name = ⟨options.indentation?,
          String.ofList (options.preamble ++ '<' :: name.toList), .startTag, [{ name }]⟩ := by
  have hgap := options.ofList_gap_zero
  rw [indentation?] at hgap
  unfold preamble
  cases options.declaration with
  | false =>
    refine ⟨_, rfl, rfl, rfl, fun name => ?_⟩
    simp [start, writer, closeTag, modifyInnermost, write, spaces, String.ofList_cons, indentation?]
  | true =>
    refine ⟨_, rfl, rfl, rfl, fun name => ?_⟩
    simp [start, writer, closeTag, modifyInnermost, write, spaces, String.ofList_cons,
      String.ofList_append, String.append_assoc, hgap, lineBreak, indentation?]

/-- Rendering always succeeds, and gives the text of the arranged tree. -/
theorem Element.render_eq (root : Element) (options : RenderOptions) :
    root.render options = .ok (root.arrange.written options) := by
  obtain ⟨w, hw, hindent, hopen, hstart⟩ := options.writer_eq
  have hrender : root.render options =
      (renderer.visit {} root w >>= fun result => .ok result.2.finish) := by
    unfold Element.render
    split at hw
    · next hdeclaration =>
      simp only [hdeclaration, if_true, hw]
      rfl
    · next hdeclaration =>
      simp only [hdeclaration, Bool.false_eq_true, if_false, hw]
      rfl
  have hgap := options.ofList_gap_zero
  rw [hrender, renderer_visit]
  change Except.ok (w.addElement root.arrange).finish = _
  rw [addElement, hindent, hopen, add, hstart]
  rw [RenderOptions.indentation?] at hgap ⊢
  simp [finish, endsOf, write, Element.written, Element.markup_eq, String.ofList_append,
    String.ofList_cons, String.append_assoc, hgap, lineBreak, RenderOptions.indentation?]

end KmlTree
