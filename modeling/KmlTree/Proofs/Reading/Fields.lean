import KmlTree.Proofs.Reading.Conformance
import KmlTree.Proofs.Reading.Innermost
import KmlTree.Proofs.Reading.Nested

/-!
# Markup in a field

A field keeps the tags between its own as they would be written. Main statement: nested markup in a
field adds just its own text, and is read if each end tag has the name in its start tag.
-/
namespace KmlTree

open Markup Text

namespace Builder

def addText (frame : Frame) (text : String) : Frame :=
  { frame with element := frame.element.appendText text }

theorem addText_addText (frame : Frame) (s t : String) :
    addText (addText frame s) t = addText frame (s ++ t) := by
  simp [addText, Element.appendText, String.append_assoc]

theorem addText_empty (frame : Frame) : addText frame "" = frame := by
  obtain ⟨⟨head, children, unknown⟩, span, ids, skipsChildren, prefixes, markup⟩ := frame
  simp [addText, Element.appendText]

theorem markupTag_eq (start : StartTag) :
    markupTag start.name start.attributes = start.written ++ ">" := rfl

theorem closeMarkup_openMarkup (frame : Frame) (start : StartTag) (inner : String) :
    closeMarkup (addText (openMarkup frame start.name start.attributes) inner) start.name
        (openMarkup frame start.name start.attributes).element.text.utf8ByteSize frame.markup =
      addText frame (start.written ++
        if inner = "" then "/>" else ">" ++ inner ++ "</" ++ start.name ++ ">") := by
  have hsize : (frame.element.text ++ markupTag start.name start.attributes ++ inner).utf8ByteSize =
      (frame.element.text ++ markupTag start.name start.attributes).utf8ByteSize ↔ inner = "" := by
    rw [String.utf8ByteSize_append, Nat.add_eq_left, String.utf8ByteSize_eq_zero_iff]
  have hdrop (s : String) : ((s ++ ">").dropEnd 1).copy = s := by
    rw [← String.toList_inj, String.toList_copy_dropEnd]
    simp
  simp only [closeMarkup, addText, openMarkup, Element.appendText, hsize]
  by_cases hinner : inner = ""
  · subst hinner
    simp only [if_true, String.append_empty, markupTag_eq, ← String.append_assoc, hdrop]
  · simp only [hinner, if_false, markupTag_eq, String.append_assoc]

variable {b : Builder} {frame : Frame} {rest : List Frame}

theorem next_endTag_openMarkup {start : StartTag} {inner : String}
    (h : Innermost b (addText (openMarkup frame start.name start.attributes) inner) rest)
    (stop : EndTag) :
    Yields (b.next stop.event) (stop.name = start.name) fun b' => ∃ offset, b' = { b with
      offset
      stack := addText frame (start.written ++
        if inner = "" then "/>" else ">" ++ inner ++ "</" ++ start.name ++ ">") :: rest } := by
  have hmarkup : (addText (openMarkup frame start.name start.attributes) inner).markup =
      (start.name, (openMarkup frame start.name start.attributes).element.text.utf8ByteSize) ::
        frame.markup := rfl
  rw [EndTag.event, h.next_endTag_field hmarkup]
  by_cases hname : stop.name = start.name
  · rw [if_pos hname.symm, hname, closeMarkup_openMarkup]
    exact (Yields.ok ⟨_, rfl⟩).imp (by simp) fun _ => id
  · rw [if_neg (Ne.symm hname)]
    exact Yields.error.imp (by simp [hname]) fun _ => id

/-- A node is read as text by a field around it. -/
def ReadsAsText (n : Node) : Prop :=
  ∀ (b : Builder) (frame : Frame) (rest : List Frame), Innermost b frame rest →
    frame.element.kind.isSimple = true →
      Yields (n.events.foldlM next b) n.Paired fun b' => ∃ offset,
        b' = { b with offset, stack := addText frame n.written :: rest }

theorem readsAsText_all {ns : List Node} (ih : ∀ n ∈ ns, ReadsAsText n)
    (h : Innermost b frame rest) (hsimple : frame.element.kind.isSimple = true) :
    Yields ((eventsOf ns).foldlM next b) (PairedAll ns) fun b' => ∃ offset,
      b' = { b with offset, stack := addText frame (writtenOf ns) :: rest } := by
  induction ns generalizing b frame with
  | nil =>
    refine .ok ⟨b.offset, ?_⟩
    rw [writtenOf, addText_empty, ← h.stack_eq]
  | cons n ns ihRest =>
    refine yields_append (ih n List.mem_cons_self b frame rest h hsimple) ?_
    rintro _ ⟨offset, rfl⟩
    have hafter : Innermost { b with offset, stack := addText frame n.written :: rest }
        (addText frame n.written) rest := ⟨h.notDropped, rfl, h.descends⟩
    refine (ihRest (fun m hm => ih m (List.mem_cons_of_mem _ hm)) hafter hsimple).imp Iff.rfl ?_
    rintro _ ⟨offset', rfl⟩
    exact ⟨offset', by rw [addText_addText, writtenOf]⟩

/-- Nested markup in a field adds its own text and changes nothing else. -/
theorem readsAsText (n : Node) : ReadsAsText n := by
  induction n using Node.inductionOn with
  | text s offset =>
    intro b frame rest h hsimple
    have hnext := h.next_text s offset
    rw [Element.takeText, if_pos (Or.inr (Kind.of_isSimple hsimple).2.2)] at hnext
    rw [Node.events, foldlM_next_singleton, hnext]
    exact .ok ⟨_, rfl⟩
  | element start content stop ih =>
    intro b frame rest h hsimple
    have hopened : Innermost { b with
          offset := start.span.stop
          stack := openMarkup frame start.name start.attributes :: rest }
        (openMarkup frame start.name start.attributes) rest := ⟨h.notDropped, rfl, h.descends⟩
    rw [Node.events, List.foldlM_cons, StartTag.event, h.next_startTag_field hsimple, Node.Paired,
      and_comm]
    refine yields_append (readsAsText_all ih hopened hsimple) ?_
    rintro _ ⟨offset, rfl⟩
    have hinner : Innermost { b with
          offset
          stack := addText (openMarkup frame start.name start.attributes) (writtenOf content) ::
            rest }
        (addText (openMarkup frame start.name start.attributes) (writtenOf content)) rest :=
      ⟨h.notDropped, rfl, h.descends⟩
    rw [foldlM_next_singleton]
    refine (next_endTag_openMarkup hinner stop).imp Iff.rfl ?_
    rintro _ ⟨offset', rfl⟩
    exact ⟨offset', by rw [Node.written]⟩

end Builder

end KmlTree
