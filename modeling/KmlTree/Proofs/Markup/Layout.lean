import KmlTree.Proofs.Markup.Rendering
import Mathlib.Data.List.Infix

/-!
# Layout of a tree as text

The text of a tree by plain recursion over it, with no writer: the tags of an element around its text
and the texts of all that it holds, each of these on a line of its own if the options ask for it. Main
statement: rendering never fails, and gives this text between the declaration and a last line break.
-/
namespace KmlTree

/-- Arranging by a key is a stable sort. -/
theorem sortByKey_eq_mergeSort {α : Type} (key : α → Nat) (xs : List α) :
    sortByKey key xs = xs.mergeSort fun x y => key x ≤ key y := by
  have htrans (x y z : α) (hxy : decide (key x ≤ key y) = true)
      (hyz : decide (key y ≤ key z) = true) : decide (key x ≤ key z) = true := by
    simp only [decide_eq_true_eq] at hxy hyz ⊢
    exact Nat.le_trans hxy hyz
  have htotal (x y : α) : (decide (key x ≤ key y) || decide (key y ≤ key x)) = true := by
    simpa using Nat.le_total (key x) (key y)
  have hsorted := List.pairwise_mergeSort htrans htotal xs
  refine eq_of_filter_key_eq key (sortByKey_pairwise key xs) (by simpa using hsorted) fun k => ?_
  have hsort : (sortByKey key xs).filter (fun x => key x == k) =
      xs.filter fun x => key x == k :=
    filter_sortByKey key fun x _ y _ hx hy => (eq_of_beq hx).trans (eq_of_beq hy).symm
  -- items with one key ascend already, so the stable sort keeps them in their order
  have hequal : (xs.filter fun x => key x == k).Pairwise
      fun x y => decide (key x ≤ key y) = true := by
    refine List.pairwise_of_forall_mem_list fun x hx y hy => ?_
    have hx : key x = k := by simpa using (List.mem_filter.1 hx).2
    have hy : key y = k := by simpa using (List.mem_filter.1 hy).2
    simp [hx, hy]
  have hkept : (xs.filter fun x => key x == k).Sublist
      ((xs.mergeSort fun x y => key x ≤ key y).filter fun x => key x == k) := by
    have hsub := List.sublist_mergeSort htrans htotal hequal List.filter_sublist
    simpa using hsub.filter fun x => key x == k
  have hlength := ((List.mergeSort_perm xs fun x y => key x ≤ key y).filter
    fun x => key x == k).length_eq
  rw [hsort, hkept.eq_of_length hlength.symm]

namespace Markup

theorem hasLiteralEnd_iff {cs : List Char} : hasLiteralEnd cs = true ↔ [']', ']', '>'] <:+: cs := by
  fun_induction hasLiteralEnd cs with
  | case1 cs => simpa using (List.prefix_append [']', ']', '>'] cs).isInfix
  | case2 c cs hnot ih =>
    have hprefix : ¬[']', ']', '>'] <+: c :: cs := by
      rintro ⟨rest, hrest⟩
      cases hrest
      exact hnot rest rfl rfl
    rw [ih, List.infix_cons_iff, or_iff_right hprefix]
  | case3 => simp

/-! ## Tags around texts -/

/-- A text as it stands between tags: as a literal section where it has characters that mark tags or
references and a section can hold it, and with references for these characters otherwise. -/
def encodedText (text : String) : String :=
  if text = "" then ""
  else if ('<' ∈ text.toList ∨ '&' ∈ text.toList) ∧ ¬[']', ']', '>'] <:+: text.toList then
    "<![CDATA[" ++ text ++ "]]>"
  else Text.escapeText text

def attributesText (attributes : List (String × String)) : String :=
  String.join (attributes.map fun (name, value) =>
    " " ++ name ++ "=\"" ++ Text.escapeAttribute value ++ "\"")

def RenderOptions.newLine (options : RenderOptions) (level : Nat) : String :=
  if options.pretty then "\n" ++ String.ofList (List.replicate (level * options.indent) ' ') else ""

def RenderOptions.tagged (options : RenderOptions) (level : Nat) (name : String)
    (attributes : List (String × String)) (text : String) (parts : List String) : String :=
  "<" ++ name ++ attributesText attributes ++
    if text = "" ∧ parts = [] then "/>"
    else
      ">" ++ encodedText text ++
        String.join (parts.map fun part => options.newLine (level + 1) ++ part) ++
        (if parts = [] then "" else options.newLine level) ++ "</" ++ name ++ ">"

end Markup

open Markup

mutual

/-- The text of an element at a level and of all below it. Attributes that the kind declares come in
the order of the schema and before all others, which come as they are stored; known children come in
the order of their places, and before unknown content. -/
def Element.layout (options : RenderOptions) (level : Nat) : Element → String
  | e@⟨_, children, unknown⟩ =>
    let declared := e.kind.attributes.filterMap fun a =>
      (e.attributes.get? a).map fun value => (a.key, value)
    let known := (layoutsBySlot options (level + 1) children).mergeSort fun a b => a.1 ≤ b.1
    options.tagged level e.name (declared ++ e.otherAttributes.entries) e.text
      (known.map Prod.snd ++ layouts options (level + 1) unknown)

def layoutsBySlot (options : RenderOptions) (level : Nat) : List Child → List (Nat × String)
  | [] => []
  | .field slot f :: rest =>
    (slot, options.tagged level f.kind.tag [] f.text []) :: layoutsBySlot options level rest
  | .element slot e :: rest => (slot, e.layout options level) :: layoutsBySlot options level rest

def layouts (options : RenderOptions) (level : Nat) : List Element → List String
  | [] => []
  | e :: rest => e.layout options level :: layouts options level rest

end

/-! ## What is written is the layout -/

namespace Markup

theorem ofList_contentChars (text : String) :
    String.ofList (contentChars text) = encodedText text := by
  have hmarks : (text.toList.any fun c => c == '<' || c == '&') = true ↔
      '<' ∈ text.toList ∨ '&' ∈ text.toList := by
    rw [List.any_eq_true]
    constructor
    · rintro ⟨c, hc, hmark⟩
      rcases Bool.or_eq_true_iff.1 hmark with hmark | hmark
      · exact Or.inl (eq_of_beq hmark ▸ hc)
      · exact Or.inr (eq_of_beq hmark ▸ hc)
    · rintro (hc | hc)
      · exact ⟨'<', hc, rfl⟩
      · exact ⟨'&', hc, rfl⟩
  unfold contentChars encodedText
  by_cases hempty : text = ""
  · subst hempty
    rfl
  · simp only [Bool.and_eq_true, hmarks, Bool.not_eq_true', ← Bool.not_eq_true, hasLiteralEnd_iff,
      if_neg hempty]
    split
    · rw [String.ofList_toList]
      rfl
    · rw [String.ofList_toList]

theorem ofList_attributesChars (attributes : List (String × String)) :
    String.ofList (attributesChars attributes) = attributesText attributes := by
  rw [← String.toList_inj]
  simp only [attributesChars, attributesText, String.toList_ofList, String.toList_join,
    List.flatMap_map]
  congr 1
  funext entry
  rw [← Writer.ofList_attributeChars, String.toList_ofList]

theorem RenderOptions.ofList_gap (options : RenderOptions) (level : Nat) :
    String.ofList (gap options.indentation? level) = options.newLine level := by
  unfold gap indentation? newLine
  cases options.pretty with
  | false => rfl
  | true => simp [String.ofList_cons]

theorem RenderOptions.ofList_enclose (options : RenderOptions) (level : Nat) (e : Element)
    (parts : List (List Char)) :
    String.ofList ('<' :: (e.name.toList ++ e.enclose options.indentation? level parts)) =
      options.tagged level e.name e.storedAttributes e.text
        (parts.map fun part => String.ofList ('<' :: part)) := by
  have hjoin : String.ofList (parts.flatMap fun part =>
        gap options.indentation? (level + 1) ++ '<' :: part) =
      String.join ((parts.map fun part => String.ofList ('<' :: part)).map fun part =>
        options.newLine (level + 1) ++ part) := by
    rw [← String.toList_inj]
    simp only [String.toList_ofList, String.toList_join, List.flatMap_map, String.toList_append,
      ← options.ofList_gap]
  have hlast : String.ofList (if parts.isEmpty then [] else gap options.indentation? level) =
      if parts = [] then "" else options.newLine level := by
    cases parts with
    | nil => rfl
    | cons part rest => simpa using options.ofList_gap level
  unfold tagged Element.enclose
  simp only [List.map_eq_nil_iff, ← hjoin, ← hlast, ← ofList_attributesChars, ← ofList_contentChars]
  by_cases hempty : e.text = "" ∧ parts = []
  · rw [if_pos hempty, if_pos (by simpa using hempty)]
    simp [String.ofList_append, String.ofList_cons, String.append_assoc]
  · rw [if_neg hempty, if_neg (by simpa using hempty)]
    simp only [String.ofList_append, String.ofList_cons, String.append_assoc, String.ofList_toList]
    rfl

end Markup

def Child.layout (options : RenderOptions) (level : Nat) : Child → String
  | .field _ f => options.tagged level f.kind.tag [] f.text []
  | .element _ e => e.layout options level

section Layouts

variable {options : RenderOptions} {level : Nat}

theorem layoutsBySlot_eq (children : List Child) :
    layoutsBySlot options level children = children.map fun c => (c.slot, c.layout options level) := by
  induction children with
  | nil => rfl
  | cons c rest ih => cases c <;> rw [layoutsBySlot, ih] <;> rfl

theorem layouts_eq (es : List Element) :
    layouts options level es = es.map fun e => e.layout options level := by
  induction es with
  | nil => rfl
  | cons e rest ih => rw [layouts, ih, List.map_cons]

theorem Element.layout_eq (e : Element) :
    e.layout options level = options.tagged level e.name e.writtenAttributes e.text
      ((sortByKey Child.slot e.children).map (Child.layout options (level + 1)) ++
        e.unknown.map fun u => u.layout options (level + 1)) := by
  have hsort := sortByKey_map Prod.fst (fun c : Child => (c.slot, c.layout options (level + 1)))
    e.children
  have hkey : (Prod.fst ∘ fun c : Child => (c.slot, c.layout options (level + 1))) = Child.slot := rfl
  rw [hkey, sortByKey_eq_mergeSort, ← layoutsBySlot_eq] at hsort
  cases e
  rw [layout]
  simp only [hsort, layouts_eq, List.map_map]
  rfl

end Layouts

/-- The arranged tree is written as the layout of the tree. -/
theorem Element.ofList_markup_arrange (options : RenderOptions) (level : Nat) (e : Element) :
    String.ofList ('<' :: e.arrange.markup options.indentation? level) = e.layout options level := by
  induction e using inductionOn generalizing level with
  | step e known unknown =>
    rw [markup_eq, tail, options.ofList_enclose, layout_eq, name_arrange, text_arrange,
      ← writtenAttributes_eq]
    congr 1
    rw [nodes, children_arrange, unknown_arrange]
    simp only [List.map_append, List.map_map]
    congr 1
    · refine List.map_congr_left fun c hc => ?_
      cases c with
      | field slot f => exact options.ofList_enclose (level + 1) f.element []
      | element slot e =>
        have hmem : Child.element slot e ∈ _ := (sortByKey_perm Child.slot _).mem_iff.1 hc
        exact known e (List.mem_filterMap.2 ⟨_, hmem, rfl⟩) (level + 1)
    · exact List.map_congr_left fun u hu => unknown u hu (level + 1)

/-- Rendering never fails, and gives the layout of the tree after the declaration, if that is asked
for, and before a line break. -/
theorem Element.render_eq_layout (root : Element) (options : RenderOptions) :
    root.render options = .ok
      ((if options.declaration then Markup.declaration ++ options.newLine 0 else "") ++
        root.layout options 0 ++ options.newLine 0) := by
  rw [render_eq, written, ← List.cons_append, String.ofList_append, String.ofList_append,
    root.ofList_markup_arrange, options.ofList_gap, RenderOptions.preamble, String.append_assoc]
  cases options.declaration with
  | false => rfl
  | true => simp [String.ofList_append, options.ofList_gap]

/-- Places decide the order of children, and what the schema does not know comes last. -/
example : Element.layout { pretty := true } 0
      { kind := .placemark
        children := [.element 21 { kind := .point }, .field 0 ⟨.name, "a<b"⟩]
        unknown := [{ kind := .unknown, writtenName? := some "extra" }] } =
    "<Placemark>\n  <name><![CDATA[a<b]]></name>\n  <Point/>\n  <extra/>\n</Placemark>" := by
  cbv

end KmlTree
