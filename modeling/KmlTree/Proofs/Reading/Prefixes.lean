import Mathlib.Data.List.TakeWhile
import KmlTree.Proofs.Markup.Colons
import KmlTree.Proofs.Reading.Innermost
import KmlTree.Proofs.Reading.Rereading

/-!
# Prefixes that are lost

What is kept of a text has no more colons than the text, and fewer if a name was read without its
prefix. Main statement: a tree that is read with as many colons as it was written with lost no prefix.
-/
namespace KmlTree

open Markup Text Builder

/-! ## Names and attributes -/

/-- A name without its prefix has lost the colon after it. -/
theorem colons_of_splitPrefix? {name p rest : String} (h : splitPrefix? name = some (p, rest)) :
    colons rest < colons name := by
  unfold splitPrefix? at h
  simp only at h
  split at h
  · cases h
  · next c tail hdrop =>
    cases h
    have hc : c = ':' := by
      have hhead := List.head?_dropWhile_not (· != ':') name.toList
      rw [hdrop] at hhead
      simpa using hhead
    subst hc
    have hsplit : name.toList.takeWhile (· != ':') ++ ':' :: tail = name.toList := by
      rw [← hdrop, List.takeWhile_append_dropWhile]
    rw [colons, colons, ← hsplit, List.count_append, List.count_cons_self, String.toList_ofList]
    omega

theorem colons_nameIn_lt {scope : List (List (String × Bool))} {name : String}
    (h : nameIn scope name ≠ name) : colons (nameIn scope name) < colons name := by
  unfold nameIn at h ⊢
  cases hsplit : splitPrefix? name with
  | none =>
    rw [hsplit] at h
    exact absurd rfl h
  | some parts =>
    rw [hsplit] at h
    simp only at h ⊢
    split
    · exact colons_of_splitPrefix? hsplit
    · next hnot =>
      rw [if_neg hnot] at h
      exact absurd rfl h

theorem colons_nameIn_le (scope : List (List (String × Bool))) (name : String) :
    colons (nameIn scope name) ≤ colons name := by
  by_cases h : nameIn scope name = name
  · exact Nat.le_of_eq (congrArg colons h)
  · exact Nat.le_of_lt (colons_nameIn_lt h)

theorem colons_tag (k : Kind) : colons k.tag = 0 := by
  have hsplit := splitPrefix?_tag k
  unfold splitPrefix? at hsplit
  simp only at hsplit
  split at hsplit
  · next hdrop =>
    have hall := List.dropWhile_eq_nil_iff.1 hdrop
    exact List.count_eq_zero.2 fun hmem => by simpa using hall ':' hmem
  · cases hsplit

theorem colonsOf_append (xs ys : List (String × String)) :
    colonsOf (xs ++ ys) = colonsOf xs + colonsOf ys := by
  rw [colonsOf, List.map_append, List.sum_append]
  rfl

theorem colonsOf_replaceOrAppend_le {κ : Type} [DecidableEq κ] (text : κ → String) (key : κ)
    (value : String) (entries : List (κ × String)) :
    colonsOf ((AttributeMap.replaceOrAppend key value entries).map fun entry =>
        (text entry.1, entry.2)) ≤
      colonsOf (entries.map fun entry => (text entry.1, entry.2)) +
        (colons (text key) + colons value) := by
  induction entries with
  | nil => simp [AttributeMap.replaceOrAppend, colonsOf]
  | cons entry rest ih =>
    obtain ⟨k, v⟩ := entry
    simp only [colonsOf, List.map_map] at ih
    rw [AttributeMap.replaceOrAppend]
    split
    · next hk =>
      subst hk
      simp only [colonsOf, List.map_map, List.map_cons, List.sum_cons]
      omega
    · simp only [colonsOf, List.map_map, List.map_cons, List.sum_cons] at ih ⊢
      omega

namespace Element

/-! ## What an element takes in -/

variable {e parent child : Element}

theorem heldColons_setAttribute_le (e : Element) (key value : String) :
    (e.setAttribute key value).heldColons ≤ e.heldColons + (colons key + colons value) := by
  have hle : colonsOf (e.setAttribute key value).storedAttributes ≤
      colonsOf e.storedAttributes + (colons key + colons value) := by
    unfold setAttribute
    split
    · next a ha =>
      have hkey : a.key = key := Kind.key_of_attribute? ha
      have hinsert := colonsOf_replaceOrAppend_le Attribute.key a value e.attributes.entries
      rw [hkey] at hinsert
      simp only [storedAttributes, colonsOf_append, AttributeMap.insert]
      omega
    · have hinsert := colonsOf_replaceOrAppend_le id key value e.otherAttributes.entries
      have hid (entries : List (String × String)) :
          (entries.map fun entry => (id entry.1, entry.2)) = entries := List.map_id _
      rw [hid, hid, id] at hinsert
      simp only [storedAttributes, colonsOf_append, AttributeMap.insert]
      omega
  have htext : (e.setAttribute key value).text = e.text := by
    unfold setAttribute
    split <;> rfl
  have hnodes : (e.setAttribute key value).nodes = e.nodes := by
    unfold setAttribute
    split <;> rfl
  rw [heldColons, heldColons, htext, hnodes]
  omega

theorem heldColons_setAttributes_le (attributes : List (String × String)) (e : Element) :
    (attributes.foldl (fun e (key, value) => e.setAttribute key value) e).heldColons ≤
      e.heldColons + colonsOf attributes := by
  induction attributes generalizing e with
  | nil => exact Nat.le_add_right _ _
  | cons entry rest ih =>
    obtain ⟨key, value⟩ := entry
    have hfirst := e.heldColons_setAttribute_le key value
    have hsum : colonsOf ((key, value) :: rest) = colons key + colons value + colonsOf rest := rfl
    refine Nat.le_trans (ih (e.setAttribute key value)) ?_
    omega

theorem heldColons_appendText (e : Element) (text : String) :
    (e.appendText text).heldColons = e.heldColons + colons text := by
  have hheld : (e.appendText text).heldColons =
      colonsOf e.storedAttributes + colons (e.text ++ text) + (e.nodes.map writtenColons).sum := rfl
  rw [hheld, colons_append, heldColons]
  omega

theorem heldColons_takeText_le (e : Element) (text : String) :
    (e.takeText text).heldColons ≤ e.heldColons + colons text := by
  unfold takeText
  split
  · exact Nat.le_of_eq (e.heldColons_appendText text)
  · exact Nat.le_add_right _ _

theorem colons_trim_le (s : String) : colons (Text.trim s) ≤ colons s := by
  rw [colons, colons, Text.trim, String.toList_ofList, trimChars, List.count_reverse]
  have hback := (List.dropWhile_sublist isBlank (l := (s.toList.dropWhile isBlank).reverse)).count_le ':'
  have hfront := (List.dropWhile_sublist isBlank (l := s.toList)).count_le ':'
  rw [List.count_reverse] at hback
  omega

theorem writtenColons_complete_le (e : Element) :
    (complete e).writtenColons ≤ e.writtenColons := by
  unfold complete
  split
  · exact Nat.le_refl _
  · next hempty =>
    have hnodes : e.nodes ≠ [] := fun hnil => hempty (by simpa using nodes_eq_nil_iff.1 hnil)
    have hname : ({ e with text := Text.trim e.text } : Element).name = e.name := rfl
    have hheld : ({ e with text := Text.trim e.text } : Element).heldColons =
      colonsOf e.storedAttributes + colons (Text.trim e.text) + (e.nodes.map writtenColons).sum := rfl
    have hnodes' : ({ e with text := Text.trim e.text } : Element).nodes = e.nodes := rfl
    have htrim := colons_trim_le e.text
    rw [writtenColons_eq, writtenColons_eq, hname, hheld, hnodes', heldColons,
      if_neg fun h => hnodes h.2, if_neg fun h => hnodes h.2]
    omega

theorem writtenColons_toChild_le (e : Element) (slot : Nat) :
    (e.toChild slot).node.writtenColons ≤ e.writtenColons := by
  unfold toChild
  split
  · have hname : colons (Field.element ⟨e.kind, e.text⟩).name = 0 := colons_tag e.kind
    have hheld : (Field.element ⟨e.kind, e.text⟩).heldColons = colons e.text := Nat.zero_add _
    rw [Child.node, writtenColons_eq, writtenColons_eq, hname, hheld, heldColons]
    split <;> omega
  · exact Nat.le_refl _

theorem sum_map_set_le {α : Type} (f : α → Nat) (a : α) (i : Nat) (as : List α) :
    ((as.set i a).map f).sum ≤ (as.map f).sum + f a := by
  induction as generalizing i with
  | nil => simp
  | cons b rest ih =>
    cases i with
    | zero =>
      simp only [List.set_cons_zero, List.map_cons, List.sum_cons]
      omega
    | succ i =>
      have hrest := ih i
      simp only [List.set_cons_succ, List.map_cons, List.sum_cons]
      omega

theorem heldColons_addUnknown (parent child : Element) :
    (parent.addUnknown child).heldColons = parent.heldColons + child.writtenColons := by
  have hnodes : (parent.addUnknown child).nodes = parent.nodes ++ [child] := by
    simp [nodes, addUnknown]
  have hheld : (parent.addUnknown child).heldColons = colonsOf parent.storedAttributes +
      colons parent.text + ((parent.addUnknown child).nodes.map writtenColons).sum := rfl
  rw [hheld, hnodes, List.map_append, List.sum_append, heldColons]
  simp only [List.map_cons, List.map_nil, List.sum_cons, List.sum_nil]
  omega

theorem heldColons_withChildren (parent : Element) (children : List Child) :
    ({ parent with children } : Element).heldColons + (parent.children.map
        fun c => c.node.writtenColons).sum =
      parent.heldColons + (children.map fun c => c.node.writtenColons).sum := by
  have hheld : ({ parent with children } : Element).heldColons = colonsOf parent.storedAttributes +
      colons parent.text + ((children.map Child.node ++ parent.unknown).map writtenColons).sum := rfl
  have hparent : parent.heldColons = colonsOf parent.storedAttributes + colons parent.text +
      ((parent.children.map Child.node ++ parent.unknown).map writtenColons).sum := rfl
  rw [hheld, hparent, List.map_append, List.map_append, List.map_map, List.map_map, List.sum_append,
    List.sum_append]
  simp only [Function.comp_def]
  omega

theorem heldColons_attach_le {a : Attached} (h : parent.attach child = .ok a) :
    a.parent.heldColons ≤ parent.heldColons + child.writtenColons := by
  cases attach_cases h with
  | unknown _ => exact Nat.le_of_eq (heldColons_addUnknown parent child)
  | @placed position _ i _ _ _ _ _ _ _ _ =>
    have hheld := heldColons_withChildren parent
      (parent.children.set i (child.toChild position))
    have hset := sum_map_set_le (fun c => c.node.writtenColons) (child.toChild position) i
      parent.children
    have hchild := child.writtenColons_toChild_le position
    dsimp only
    omega
  | @appended position _ _ _ _ _ =>
    have hheld := heldColons_withChildren parent
      (parent.children ++ [child.toChild position])
    have hchild := child.writtenColons_toChild_le position
    simp only [List.map_append, List.sum_append, List.map_cons, List.map_nil, List.sum_cons,
      List.sum_nil] at hheld
    dsimp only
    omega

end Element

namespace Builder

open Element

/-! ## The innermost element -/

/-- A frame took in no more than a number of colons, and is what it was otherwise. -/
structure Takes (n : Nat) (frame frame' : Frame) : Prop where
  kind_eq : frame'.element.kind = frame.element.kind
  name_eq : frame'.element.name = frame.element.name
  prefixes_eq : frame'.prefixes = frame.prefixes
  markup_eq : frame'.markup = frame.markup
  le : frame'.element.heldColons ≤ frame.element.heldColons + n

variable {b b' : Builder} {frame frame' : Frame} {rest : List Frame}

theorem Takes.refl (frame : Frame) : Takes 0 frame frame := ⟨rfl, rfl, rfl, rfl, Nat.le_refl _⟩

theorem Takes.trans {frame'' : Frame} {n m : Nat} (h : Takes n frame frame')
    (h' : Takes m frame' frame'') : Takes (n + m) frame frame'' where
  kind_eq := h'.kind_eq.trans h.kind_eq
  name_eq := h'.name_eq.trans h.name_eq
  prefixes_eq := h'.prefixes_eq.trans h.prefixes_eq
  markup_eq := h'.markup_eq.trans h.markup_eq
  le := by
    have hle := h.le
    have hle' := h'.le
    omega

theorem Takes.congr {n m : Nat} (h : Takes n frame frame') (heq : n = m) : Takes m frame frame' :=
  heq ▸ h

theorem takes_takeText (frame : Frame) (text : String) :
    Takes (colons text) frame { frame with element := frame.element.takeText text } := by
  refine ⟨?_, ?_, rfl, rfl, heldColons_takeText_le _ _⟩
  all_goals
    unfold takeText
    split <;> rfl

theorem heldColons_openMarkup (frame : Frame) (name : String) (attributes : List (String × String)) :
    (openMarkup frame name attributes).element.heldColons =
      frame.element.heldColons + (colons name + colonsOf attributes) := by
  have hjoin : colons (String.join (attributes.map fun (key, value) =>
      " " ++ key ++ "=\"" ++ escapeQuoted value ++ "\"")) = colonsOf attributes := by
    induction attributes with
    | nil => rfl
    | cons entry rest ih =>
      have hvalue : colons (escapeQuoted entry.2) = colons entry.2 := by
        rw [colons, escapeQuoted, String.toList_ofList, count_escapeChars]
        rfl
      have hspace : colons " " = 0 := rfl
      have hequals : colons "=\"" = 0 := rfl
      have hquote : colons "\"" = 0 := rfl
      rw [List.map_cons, String.join_cons, colons_append, ih]
      simp only [colons_append, hvalue, hspace, hequals, hquote, Nat.zero_add, Nat.add_zero]
      rfl
  have htag : colons (markupTag name attributes) = colons name + colonsOf attributes := by
    have hopen : colons "<" = 0 := rfl
    have hclose : colons ">" = 0 := rfl
    rw [markupTag, colons_append, colons_append, colons_append, hjoin, hopen, hclose]
    omega
  rw [openMarkup, heldColons_appendText, htag]

theorem heldColons_closeMarkup_le (frame : Frame) (name : String) (size : Nat)
    (markup : List (String × Nat)) :
    (closeMarkup frame name size markup).element.heldColons ≤ frame.element.heldColons +
      if frame.element.text.utf8ByteSize = size then 0 else colons name := by
  have hheld (text : String) : ({ frame.element with text } : Element).heldColons =
      colonsOf frame.element.storedAttributes + colons text +
        (frame.element.nodes.map writtenColons).sum := rfl
  have hself := hheld frame.element.text
  rw [closeMarkup]
  dsimp only
  rw [hheld, heldColons]
  split
  · have hdrop : colons (frame.element.text.dropEnd 1).copy ≤ colons frame.element.text := by
      rw [colons, String.toList_copy_dropEnd]
      exact (List.take_sublist _ _).count_le ':'
    have hend : colons "/>" = 0 := rfl
    rw [colons_append, hend]
    omega
  · have hopen : colons "</" = 0 := rfl
    have hclose : colons ">" = 0 := rfl
    rw [colons_append, colons_append, colons_append, hopen, hclose]
    omega

theorem Innermost.closed {opened parent : Frame} (h : Innermost b opened (parent :: rest))
    (hmarkup : opened.markup = []) (hparent : parent.skipsChildren = false) {name : String}
    {span : Span} (hnext : b.next (.endTag name span) = .ok b') :
    ∃ parent', Innermost b' parent' rest ∧ Takes opened.element.writtenColons parent parent' := by
  have hcomplete := opened.element.writtenColons_complete_le
  cases next_step hnext with
  | dropEnded hd =>
    rw [h.notDropped] at hd
    cases hd
  | markupClosed _ hs hm =>
    rw [h.stack_eq] at hs
    cases hs
    rw [hmarkup] at hm
    cases hm
  | rootEnded _ hs =>
    rw [h.stack_eq] at hs
    cases hs
  | vetoed _ hs =>
    rw [h.stack_eq] at hs
    cases hs
    exact ⟨parent, ⟨h.notDropped, rfl, hparent⟩, rfl, rfl, rfl, rfl, Nat.le_add_right _ _⟩
  | attached _ hs _ ha | filed _ hs _ ha =>
    rw [h.stack_eq] at hs
    cases hs
    have hle := heldColons_attach_le ha
    have hattaches := attach_cases ha
    exact ⟨_, ⟨h.notDropped, rfl, hparent⟩, hattaches.kind, hattaches.name, rfl, rfl,
      Nat.le_trans hle (Nat.add_le_add_left hcomplete _)⟩
  | misplaced _ hs _ ha =>
    rw [h.stack_eq] at hs
    cases hs
    obtain ⟨-, -, -, rfl⟩ := attach_eq_error_iff.1 ha
    have hle := Nat.le_of_eq (heldColons_addUnknown parent.element (complete opened.element))
    exact ⟨_, ⟨h.notDropped, rfl, hparent⟩, rfl, rfl, rfl, rfl,
      Nat.le_trans hle (Nat.add_le_add_left hcomplete _)⟩

theorem Innermost.rootClosed {opened : Frame} (h : Innermost b opened [])
    (hmarkup : opened.markup = []) {name : String} {span : Span}
    (hnext : b.next (.endTag name span) = .ok b') :
    b'.root? = some (complete opened.element, opened.ids) ∧ b'.dropped? = none ∧ b'.stack = [] := by
  have hstack := h.stack_eq
  cases next_step hnext with
  | dropEnded hd =>
    rw [h.notDropped] at hd
    cases hd
  | markupClosed _ hs hm =>
    rw [hstack] at hs
    cases hs
    rw [hmarkup] at hm
    cases hm
  | rootEnded _ hs =>
    rw [hstack] at hs
    cases hs
    exact ⟨rfl, h.notDropped, rfl⟩
  | vetoed _ hs | attached _ hs | filed _ hs | misplaced _ hs =>
    rw [hstack] at hs
    cases hs

/-! ## How a tree is read -/

/-- From one builder to another, what is between the tags of an element is read. -/
structure ReadsContent (n : Element) (b b' : Builder) : Prop where
  content : ∃ blank texts inner, Padding n blank ∧ Texts (n.text ++ String.ofList blank) texts ∧
    SpellsAll n.nodes inner ∧ (texts ++ inner).foldlM next b = .ok b'

/-- An element is read in three parts: its start tag, what is between its tags and its end tag. -/
theorem reads_of_spells {n : Element} {events : List Event} (hspells : Spells n events)
    (hrun : events.foldlM next b = .ok b') : ∃ span span' b₁ b₂,
      b.next (.startTag n.name n.storedAttributes span) = .ok b₁ ∧ ReadsContent n b₁ b₂ ∧
        b₂.next (.endTag n.name span') = .ok b' := by
  cases hspells with
  | @intro _ span span' blank texts inner hblank hnone htexts hinner =>
  obtain ⟨b₁, hstart, hrun⟩ := foldlM_cons_ok hrun
  rw [← List.append_assoc] at hrun
  obtain ⟨b₂, hcontent, hend⟩ := foldlM_append_ok hrun
  rw [foldlM_next_singleton] at hend
  exact ⟨span, span', b₁, b₂, hstart,
    ⟨blank, texts, inner, ⟨hblank, hnone⟩, htexts, hinner, hcontent⟩, hend⟩

/-! ## What is taken in of a tree -/

theorem colons_blank {blank : List Char} (h : ∀ c ∈ blank, isBlank c) :
    colons (String.ofList blank) = 0 := by
  rw [colons, String.toList_ofList, List.count_eq_zero]
  intro hmem
  exact absurd (h ':' hmem) (by decide)

/-- The innermost element takes in no more colons than are written for a tree. -/
def Bounded (n : Element) : Prop :=
  ∀ (b b' : Builder) (frame : Frame) (rest : List Frame) (events : List Event),
    Innermost b frame rest → Spells n events → events.foldlM next b = .ok b' →
      ∃ frame', Innermost b' frame' rest ∧ Takes n.writtenColons frame frame'

theorem takes_blank (h : Innermost b frame rest) {blank : List Char}
    (hblank : ∀ c ∈ blank, isBlank c) {texts : List Event}
    (htexts : Texts (String.ofList blank) texts) (hrun : texts.foldlM next b = .ok b') :
    ∃ frame', Innermost b' frame' rest ∧ Takes 0 frame frame' := by
  have htakes := takes_takeText frame (String.ofList blank)
  rw [colons_blank hblank] at htakes
  exact ⟨_, h.texts htexts hrun, htakes⟩

theorem takes_all {ns : List Element} (ih : ∀ n ∈ ns, Bounded n) (h : Innermost b frame rest)
    {events : List Event} (hspells : SpellsAll ns events) (hrun : events.foldlM next b = .ok b') :
    ∃ frame', Innermost b' frame' rest ∧ Takes (ns.map writtenColons).sum frame frame' := by
  induction ns generalizing b frame events with
  | nil =>
    cases hspells
    cases hrun
    exact ⟨frame, h, .refl frame⟩
  | cons n ns ihRest =>
    cases hspells with
    | @cons _ _ blank first texts others hfirst hblank htexts hothers =>
    obtain ⟨b₁, hrun₁, hrun⟩ := foldlM_append_ok hrun
    obtain ⟨b₂, hrun₂, hrun₃⟩ := foldlM_append_ok hrun
    obtain ⟨frame₁, h₁, htakes₁⟩ := ih n List.mem_cons_self _ _ _ _ _ h hfirst hrun₁
    obtain ⟨frame₂, h₂, htakes₂⟩ := takes_blank h₁ hblank htexts hrun₂
    obtain ⟨frame₃, h₃, htakes₃⟩ :=
      ihRest (fun m hm => ih m (List.mem_cons_of_mem _ hm)) h₂ hothers hrun₃
    exact ⟨frame₃, h₃, htakes₁.trans ((htakes₂.trans htakes₃).congr (Nat.zero_add _))⟩

/-- Between its tags, an element takes in no more colons than are written there, and nothing if
nothing is. -/
theorem takes_content {n : Element} (ih : ∀ m ∈ n.nodes, Bounded m) (h : Innermost b frame rest)
    (hreads : ReadsContent n b b') :
    ∃ frame', Innermost b' frame' rest ∧
      Takes (colons n.text + (n.nodes.map writtenColons).sum) frame frame' ∧
        (n.text = "" ∧ n.nodes = [] → frame' = frame) := by
  obtain ⟨blank, texts, inner, hblank, htexts, hinner, hrun⟩ := hreads.content
  obtain ⟨b₁, hrun₁, hrun₂⟩ := foldlM_append_ok hrun
  have h₁ := h.texts htexts hrun₁
  have htakes₁ := takes_takeText frame (n.text ++ String.ofList blank)
  rw [colons_append, colons_blank hblank.isBlank, Nat.add_zero] at htakes₁
  obtain ⟨frame₂, h₂, htakes₂⟩ := takes_all ih h₁ hinner hrun₂
  refine ⟨frame₂, h₂, htakes₁.trans htakes₂, ?_⟩
  rintro ⟨htext, hnodes⟩
  rw [hnodes] at hinner
  cases hinner
  cases hrun₂
  have hnothing : n.text ++ String.ofList blank = "" := by
    rw [htext, hblank.none hnodes]
    rfl
  simp only [hnothing, takeText_empty] at h₁
  exact h₂.unique h₁

/-! ### Opened elements -/

theorem heldColons_openedElement_le (b : Builder) (name : String)
    (attributes : List (String × String)) :
    (b.openedElement name attributes).heldColons ≤ colonsOf attributes := by
  have hle := heldColons_setAttributes_le attributes
    (elementFor b.stack name (localName (declaredPrefixes attributes) b.stack name))
  obtain ⟨kind, writtenName?, heq⟩ :=
    elementFor_eq b.stack name (localName (declaredPrefixes attributes) b.stack name)
  have hnone : (elementFor b.stack name
      (localName (declaredPrefixes attributes) b.stack name)).heldColons = 0 := by
    rw [heq]
    rfl
  rw [hnone, Nat.zero_add] at hle
  exact hle

theorem colons_openedElement_le (b : Builder) (name : String) (attributes : List (String × String)) :
    colons (b.openedElement name attributes).name ≤ colons name := by
  have hofName : colons (Element.ofName
      (localName (declaredPrefixes attributes) b.stack name)).name ≤ colons name := by
    rw [Element.name_ofName, localName_eq]
    exact colons_nameIn_le _ _
  rw [name_openedElement]
  unfold elementFor
  split
  · exact hofName
  · split
    · exact Nat.le_refl _
    · exact hofName

/-- An element that was opened for another one has no more colons in the end, and as many only if it
has as many in its name and took in as many between its tags. -/
theorem writtenColons_opened_le {n : Element} {span : Span} {opened opened' : Frame}
    {taken : List (String × Nat)} (hopens : Opens b n.name n.storedAttributes span opened taken)
    (htakes : Takes (colons n.text + (n.nodes.map writtenColons).sum) opened opened')
    (hsame : n.text = "" ∧ n.nodes = [] → opened' = opened) :
    opened'.element.writtenColons ≤ n.writtenColons ∧
      (n.writtenColons ≤ opened'.element.writtenColons →
        colons n.name ≤ colons opened.element.name ∧
          opened.element.heldColons + (colons n.text + (n.nodes.map writtenColons).sum) ≤
            opened'.element.heldColons) := by
  have hheld : opened.element.heldColons ≤ colonsOf n.storedAttributes := by
    rw [hopens.element_eq]
    exact b.heldColons_openedElement_le _ _
  have hname : colons opened.element.name ≤ colons n.name := by
    rw [hopens.element_eq]
    exact b.colons_openedElement_le _ _
  have hle := htakes.le
  have hempty : n.text = "" ∧ n.nodes = [] →
      opened'.element.text = "" ∧ opened'.element.nodes = [] := by
    intro hn
    obtain ⟨htext, -, hnodes⟩ := b.openedElement_empty n.name n.storedAttributes
    rw [hsame hn, hopens.element_eq]
    exact ⟨htext, hnodes⟩
  have hheldIn : n.heldColons = colonsOf n.storedAttributes + colons n.text +
      (n.nodes.map writtenColons).sum := rfl
  rw [writtenColons_eq, writtenColons_eq, htakes.name_eq]
  by_cases hn : n.text = "" ∧ n.nodes = []
  · rw [if_pos hn, if_pos (hempty hn)]
    omega
  · rw [if_neg hn]
    split <;> omega

theorem bounded (n : Element) : Bounded n := by
  induction n using inductionOnNodes with
  | step n ih =>
  intro b b' frame rest events h hspells hrun
  obtain ⟨span, span', b₁, b₂, hstart, hcontent, hend⟩ := reads_of_spells hspells hrun
  cases hsimple : frame.element.kind.isSimple with
  | true =>
    have h₁ := h.markupOpened hsimple hstart
    obtain ⟨frame₂, h₂, htakes, hsame⟩ := takes_content ih h₁ hcontent
    refine ⟨_, h₂.markupClosed htakes.markup_eq hend, htakes.kind_eq, htakes.name_eq,
      htakes.prefixes_eq, rfl, ?_⟩
    have hopened := heldColons_openMarkup frame n.name n.storedAttributes
    have hclosed := heldColons_closeMarkup_le frame₂ n.name
      (frame.element.text ++ markupTag n.name n.storedAttributes).utf8ByteSize frame.markup
    have hle := htakes.le
    have hheld : n.heldColons = colonsOf n.storedAttributes + colons n.text +
        (n.nodes.map writtenColons).sum := rfl
    rw [writtenColons_eq]
    by_cases hempty : n.text = "" ∧ n.nodes = []
    · rw [if_pos hempty]
      have hsize : frame₂.element.text.utf8ByteSize =
          (frame.element.text ++ markupTag n.name n.storedAttributes).utf8ByteSize := by
        rw [hsame hempty]
        rfl
      rw [if_pos hsize] at hclosed
      refine Nat.le_trans hclosed ?_
      omega
    · rw [if_neg hempty]
      refine Nat.le_trans hclosed ?_
      split <;> omega
  | false =>
    obtain ⟨opened, taken, h₁, hopens⟩ := h.opened hsimple hstart
    obtain ⟨opened', h₂, htakes, hsame⟩ := takes_content ih h₁ hcontent
    obtain ⟨frame', h', htakes'⟩ :=
      h₂.closed (htakes.markup_eq.trans hopens.markup_eq) h.descends hend
    have hle := (writtenColons_opened_le hopens htakes hsame).1
    exact ⟨frame', h', htakes'.kind_eq, htakes'.name_eq, htakes'.prefixes_eq, htakes'.markup_eq,
      Nat.le_trans htakes'.le (Nat.add_le_add_left hle _)⟩

/-! ## As many colons -/

/-- A part of an element keeps its prefix and those in it, given the prefixes declared around the
element. -/
def Keeps (scope : List (List (String × Bool))) (e n : Element) : Prop :=
  (e.kind ≠ .unknown → n.kind = .unknown →
    nameIn (prefixesOf n :: prefixesOf e :: scope) n.name = n.name) ∧
      n.Unprefixed (prefixesOf e :: scope)

/-- If the innermost element takes in as many colons as are written for a part, then no prefix is
lost. -/
def Tight (n : Element) : Prop :=
  ∀ (e : Element) (b b' : Builder) (frame frame' : Frame) (rest : List Frame) (events : List Event),
    e.Every Conforms → n ∈ e.nodes → frame.element.kind = e.kind → frame.prefixes = prefixesOf e →
      Innermost b frame rest → Spells n events → events.foldlM next b = .ok b' →
        Innermost b' frame' rest →
          frame.element.heldColons + n.writtenColons ≤ frame'.element.heldColons →
            Keeps (rest.map Frame.prefixes) e n

theorem keeps_all {e : Element} (he : e.Every Conforms) {ns : List Element}
    (ih : ∀ n ∈ ns, Tight n) (hmem : ∀ n ∈ ns, n ∈ e.nodes) (hkind : frame.element.kind = e.kind)
    (hprefixes : frame.prefixes = prefixesOf e) (h : Innermost b frame rest) {events : List Event}
    (hspells : SpellsAll ns events) (hrun : events.foldlM next b = .ok b')
    (h' : Innermost b' frame' rest)
    (hle : frame.element.heldColons + (ns.map writtenColons).sum ≤ frame'.element.heldColons) :
    ∀ n ∈ ns, Keeps (rest.map Frame.prefixes) e n := by
  induction ns generalizing b frame events with
  | nil => simp
  | cons n ns ihRest =>
    cases hspells with
    | @cons _ _ blank first texts others hfirst hblank htexts hothers =>
    obtain ⟨b₁, hrun₁, hrun⟩ := foldlM_append_ok hrun
    obtain ⟨b₂, hrun₂, hrun₃⟩ := foldlM_append_ok hrun
    obtain ⟨frame₁, h₁, htakes₁⟩ := bounded n _ _ _ _ _ h hfirst hrun₁
    obtain ⟨frame₂, h₂, htakes₂⟩ := takes_blank h₁ hblank htexts hrun₂
    obtain ⟨frame₃, h₃, htakes₃⟩ := takes_all (fun m _ => bounded m) h₂ hothers hrun₃
    have hframe := h'.unique h₃
    have hle₁ := htakes₁.le
    have hle₂ := htakes₂.le
    have hle₃ := htakes₃.le
    rw [hframe, List.map_cons, List.sum_cons] at hle
    have hmems : ∀ m ∈ ns, m ∈ e.nodes := fun m hm => hmem m (List.mem_cons_of_mem _ hm)
    have hfirstKeeps : Keeps (rest.map Frame.prefixes) e n :=
      ih n List.mem_cons_self e _ _ _ _ _ _ he (hmem n List.mem_cons_self) hkind hprefixes h hfirst
        hrun₁ h₁ (by omega)
    have hrestKeeps := ihRest (fun m hm => ih m (List.mem_cons_of_mem _ hm)) hmems
      ((htakes₂.kind_eq.trans htakes₁.kind_eq).trans hkind)
      ((htakes₂.prefixes_eq.trans htakes₁.prefixes_eq).trans hprefixes) h₂ hothers hrun₃
      (by rw [hframe]; omega)
    intro m hm
    rcases List.mem_cons.1 hm with rfl | hm
    · exact hfirstKeeps
    · exact hrestKeeps m hm

/-- An element that takes in as many colons as are written between its tags keeps all prefixes. -/
theorem unprefixed_of_content {n : Element} (hn : n.Every Conforms) (ih : ∀ m ∈ n.nodes, Tight m)
    (h : Innermost b frame rest) (hkind : frame.element.kind = n.kind)
    (hprefixes : frame.prefixes = prefixesOf n) (hreads : ReadsContent n b b')
    (h' : Innermost b' frame' rest)
    (hle : frame.element.heldColons + (colons n.text + (n.nodes.map writtenColons).sum) ≤
      frame'.element.heldColons) : n.Unprefixed (rest.map Frame.prefixes) := by
  obtain ⟨blank, texts, inner, hblank, htexts, hinner, hrun⟩ := hreads.content
  obtain ⟨b₁, hrun₁, hrun₂⟩ := foldlM_append_ok hrun
  have h₁ := h.texts htexts hrun₁
  have htakes := takes_takeText frame (n.text ++ String.ofList blank)
  rw [colons_append, colons_blank hblank.isBlank, Nat.add_zero] at htakes
  have hheld := htakes.le
  have hkeeps := keeps_all hn ih (fun _ hm => hm) (htakes.kind_eq.trans hkind)
    (htakes.prefixes_eq.trans hprefixes) h₁ hinner hrun₂ h' (by omega)
  refine .intro (fun hknown u hu hunknown => ?_) fun m hm => (hkeeps m hm).2
  exact (hkeeps u (List.mem_append_right _ hu)).1 hknown hunknown

theorem elementFor_part {e : Element} (n : Element) (h : Innermost b frame rest)
    (hkind : frame.element.kind = e.kind) (hprefixes : frame.prefixes = prefixesOf e) :
    elementFor b.stack n.name (localName (declaredPrefixes n.storedAttributes) b.stack n.name) =
      if e.kind = .unknown then Element.unnamed n.name
      else Element.ofName
        (nameIn (prefixesOf n :: prefixesOf e :: rest.map Frame.prefixes) n.name) := by
  have hscope : b.stack.map Frame.prefixes = prefixesOf e :: rest.map Frame.prefixes := by
    rw [h.stack_eq, List.map_cons, hprefixes]
  rw [localName_eq, declaredPrefixes_stored, hscope, h.stack_eq]
  simp only [elementFor, hkind]

theorem tight (n : Element) : Tight n := by
  induction n using inductionOnNodes with
  | step n ih =>
  intro e b b' frame frame' rest events he hmem hkind hprefixes h hspells hrun h' hle
  have hfitting := he.self.toFitting
  have hn := he.nodes n hmem
  have hsimple : frame.element.kind.isSimple = false := by
    rw [hkind]
    exact isSimple_of_mem_nodes hfitting hmem
  obtain ⟨span, span', b₁, b₂, hstart, hcontent, hend⟩ := reads_of_spells hspells hrun
  obtain ⟨opened, taken, h₁, hopens⟩ := h.opened hsimple hstart
  obtain ⟨opened', h₂, htakes, hsame⟩ := takes_content (fun m _ => bounded m) h₁ hcontent
  obtain ⟨frame₃, h₃, htakes₃⟩ :=
    h₂.closed (htakes.markup_eq.trans hopens.markup_eq) h.descends hend
  have hle₃ := htakes₃.le
  rw [h'.unique h₃] at hle
  obtain ⟨hname, hheld⟩ := (writtenColons_opened_le hopens htakes hsame).2 (by omega)
  have hfor := elementFor_part n h hkind hprefixes
  have hkept : e.kind ≠ .unknown → n.kind = .unknown →
      nameIn (prefixesOf n :: prefixesOf e :: rest.map Frame.prefixes) n.name = n.name := by
    intro hknown _
    apply Classical.byContradiction
    intro hlost
    have hlt := colons_nameIn_lt hlost
    rw [hopens.element_eq, name_openedElement, hfor, if_neg hknown, Element.name_ofName] at hname
    omega
  refine ⟨hkept, ?_⟩
  have hopened : opened.element.kind = n.kind := by
    obtain ⟨known, others, heq⟩ := b.openedElement_eq n.name n.storedAttributes
    rw [hopens.element_eq, heq, hfor, ofName_part hfitting hn.self.toFitting hmem hkept]
  have hopenedPrefixes : opened.prefixes = prefixesOf n := by
    rw [hopens.prefixes_eq, declaredPrefixes_stored]
  have hunprefixed := unprefixed_of_content hn ih h₁ hopened hopenedPrefixes hcontent h₂ hheld
  rwa [List.map_cons, hprefixes] at hunprefixed

/-- A root has no more colons than are written for the tree that it was read from, and if it has as
many then no prefix was lost. -/
theorem root_tight {e : Element} (he : e.Every Conforms) (hknown : e.kind ≠ .unknown)
    (hd : b.dropped? = none) (hs : b.stack = []) {events : List Event} (hspells : Spells e events)
    (hrun : events.foldlM next b = .ok b') : ∃ root ids, b'.root? = some (root, ids) ∧
      b'.dropped? = none ∧ b'.stack = [] ∧ root.writtenColons ≤ e.writtenColons ∧
        (e.writtenColons ≤ root.writtenColons → e.Unprefixed []) := by
  obtain ⟨span, span', b₁, b₂, hstart, hcontent, hend⟩ := reads_of_spells hspells hrun
  obtain ⟨opened, taken, h₁, hopens⟩ := next_opens hd (by simp [hs]) hstart
  rw [hs] at h₁
  obtain ⟨opened', h₂, htakes, hsame⟩ := takes_content (fun m _ => bounded m) h₁ hcontent
  obtain ⟨hle, htight⟩ := writtenColons_opened_le hopens htakes hsame
  have hcomplete := opened'.element.writtenColons_complete_le
  obtain ⟨hroot, hdropped, hstack⟩ :=
    h₂.rootClosed (htakes.markup_eq.trans hopens.markup_eq) hend
  refine ⟨_, _, hroot, hdropped, hstack, Nat.le_trans hcomplete hle, fun hroot => ?_⟩
  have hheld := (htight (Nat.le_trans hroot hcomplete)).2
  have hkind : opened.element.kind = e.kind := by
    obtain ⟨known, others, heq⟩ := b.openedElement_eq e.name e.storedAttributes
    have htag := ofName_tag he.self.toFitting hknown
    have hname := he.self.toFitting.name_of_known hknown
    rw [hopens.element_eq, heq, localName_eq, hs, hname, nameIn_tag, elementFor, htag]
  have hprefixes : opened.prefixes = prefixesOf e := by
    rw [hopens.prefixes_eq, declaredPrefixes_stored]
  exact unprefixed_of_content he (fun m _ => tight m) h₁ hkind hprefixes hcontent h₂ hheld

end Builder

end KmlTree
