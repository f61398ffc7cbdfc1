import Mathlib.Algebra.Ring.Nat
import KmlTree.Proofs.Markup.Rendering
import KmlTree.Proofs.Tree.Objects

/-!
# Colons in what is written

A name that loses its prefix loses a colon, and nothing that the writer adds by itself has one. Main
statement: a tree is written with as many colons under all options.
-/
namespace KmlTree

open Markup Text

/-! ## Texts -/

theorem Text.count_reference (c : Char) : (reference c).count ':' = [c].count ':' := by
  unfold reference entityName?
  split
  · next heq =>
    split at heq <;> cases heq <;> decide
  · rfl

theorem Text.count_escapeChars (guarded cs : List Char) :
    (escapeChars guarded cs).count ':' = cs.count ':' := by
  induction cs with
  | nil => rfl
  | cons c cs ih =>
    have hc : (if guarded.contains c then reference c else [c]).count ':' = [c].count ':' := by
      split
      · exact count_reference c
      · rfl
    have hcs : (c :: cs).count ':' = [c].count ':' + cs.count ':' := by
      rw [← List.count_append]
      rfl
    rw [escapeChars, List.flatMap_cons, List.count_append, hc, hcs, ← escapeChars, ih]

namespace Markup

def colons (s : String) : Nat := s.toList.count ':'

theorem colons_append (s t : String) : colons (s ++ t) = colons s + colons t := by
  rw [colons, String.toList_append, List.count_append]
  rfl

theorem count_contentChars (text : String) : (contentChars text).count ':' = colons text := by
  unfold contentChars
  split
  · simp [literal, colons]
  · rw [escapeText, String.toList_ofList, count_escapeChars]
    rfl

theorem count_gap (indent? : Option Nat) (level : Nat) : (gap indent? level).count ':' = 0 := by
  rw [List.count_eq_zero]
  unfold gap
  split <;> simp

def colonsOf (attributes : List (String × String)) : Nat :=
  (attributes.map fun entry => colons entry.1 + colons entry.2).sum

theorem count_attributesChars (attributes : List (String × String)) :
    (attributesChars attributes).count ':' = colonsOf attributes := by
  induction attributes with
  | nil => rfl
  | cons entry rest ih =>
    have hentry : (attributeChars entry).count ':' = colons entry.1 + colons entry.2 := by
      have hvalue : (escapeAttribute entry.2).toList.count ':' = colons entry.2 := by
        rw [escapeAttribute, String.toList_ofList, count_escapeChars]
        rfl
      simp [attributeChars, hvalue, colons]
    rw [attributesChars, List.flatMap_cons, List.count_append, hentry, ← attributesChars, ih]
    rfl

end Markup

namespace Element

/-! ## Trees -/

/-- The number of colons in what is written for an element. -/
def writtenColons (e : Element) : Nat := (e.markup none 0).count ':'

/-- The number of colons in what is written for an element, but for those in its name. -/
def heldColons (e : Element) : Nat :=
  colonsOf e.storedAttributes + colons e.text + (e.nodes.map writtenColons).sum

theorem count_enclose (e : Element) (indent? : Option Nat) (level : Nat) (parts : List (List Char)) :
    (e.enclose indent? level parts).count ':' =
      colonsOf e.storedAttributes + colons e.text + (parts.map (List.count ':')).sum +
        if e.text.isEmpty && parts.isEmpty then 0 else colons e.name := by
  have hparts : (parts.flatMap fun part => gap indent? (level + 1) ++ '<' :: part).count ':' =
      (parts.map (List.count ':')).sum := by
    induction parts with
    | nil => rfl
    | cons part rest ih =>
      rw [List.flatMap_cons, List.count_append, List.count_append, count_gap, ih]
      simp
  rw [enclose, List.count_append, count_attributesChars]
  split
  · next hempty =>
    simp only [Bool.and_eq_true, String.isEmpty_iff, List.isEmpty_iff] at hempty
    simp [hempty.1, hempty.2, colons]
  · have hgap : (if parts.isEmpty then [] else gap indent? level).count ':' = 0 := by
      split
      · rfl
      · exact count_gap _ _
    have hname : ('<' :: '/' :: (e.name.toList ++ ['>'])).count ':' = colons e.name := by
      simp [colons]
    rw [List.count_cons_of_ne (by decide), List.count_append, List.count_append, List.count_append,
      count_contentChars, hparts, hgap, hname]
    omega

theorem count_tail (e : Element) (indent? : Option Nat) (level : Nat)
    (h : ∀ n ∈ e.nodes, (n.markup indent? (level + 1)).count ':' = n.writtenColons) :
    (e.tail indent? level).count ':' =
      e.heldColons + if e.text = "" ∧ e.nodes = [] then 0 else colons e.name := by
  have hsum : ((e.nodes.map fun n => n.markup indent? (level + 1)).map (List.count ':')).sum =
      (e.nodes.map writtenColons).sum := by
    rw [List.map_map]
    exact congrArg List.sum (List.map_congr_left h)
  rw [tail, count_enclose, hsum, heldColons]
  simp

/-- However it is indented, a tree is written with as many colons. -/
theorem count_markup (e : Element) (indent? : Option Nat) (level : Nat) :
    (e.markup indent? level).count ':' = e.writtenColons := by
  induction e using inductionOnNodes generalizing indent? level with
  | step e ih =>
    rw [writtenColons, markup_eq, markup_eq, List.count_append, List.count_append,
      e.count_tail indent? level fun n hn => ih n hn _ _, e.count_tail none 0 fun n hn => ih n hn _ _]

theorem writtenColons_eq (e : Element) :
    e.writtenColons = colons e.name + e.heldColons +
      if e.text = "" ∧ e.nodes = [] then 0 else colons e.name := by
  rw [writtenColons, markup_eq, List.count_append, e.count_tail none 0 fun n _ => count_markup n _ _,
    Nat.add_assoc]
  rfl

/-- All colons in the text of a tree are those in what is written for its root. -/
theorem colons_written (e : Element) (options : RenderOptions) :
    colons (e.written options) = e.writtenColons := by
  have hpreamble : options.preamble.count ':' = 0 := by
    unfold RenderOptions.preamble
    split
    · rw [List.count_append, count_gap]
      decide
    · rfl
  rw [written, colons, String.toList_ofList, List.count_append, hpreamble,
    List.count_cons_of_ne (by decide), List.count_append, count_gap, count_markup]
  omega

theorem writtenColons_arrange {e : Element} (h : e.Every Conforms) :
    e.arrange.writtenColons = e.writtenColons := by
  induction h with
  | @intro e self _ ih =>
    have hattributes : colonsOf e.arrange.storedAttributes = colonsOf e.storedAttributes :=
      (self.storedAttributes_arrange_perm.map _).sum_nat
    have hnodes : (e.arrange.nodes.map writtenColons).sum = (e.nodes.map writtenColons).sum := by
      refine (e.nodes_arrange_perm.map writtenColons).sum_nat.trans ?_
      rw [List.map_map]
      exact congrArg List.sum (List.map_congr_left ih)
    simp only [writtenColons_eq, heldColons, name_arrange, text_arrange, nodes_arrange_eq_nil_iff,
      hattributes, hnodes]

end Element

end KmlTree
