import KmlTree.Proofs.Markup.Drafts
import KmlTree.Proofs.Markup.Encoding

/-!
# Balanced markup

A text is balanced where each start tag in it has its end tag. Main statement: whatever a writer is
asked for, it refuses a call without a change, knows whether a start tag is open, and ends up with the
text of a document of balanced elements in which each call has its place.
-/
namespace KmlTree.Markup

open Text

/-! ## Balanced texts -/

def marks : List Char := ['<', '>', '&', '"', '\'', '/', '=', '!', '?']

/-- Characters of which none marks up a text. -/
def Unmarked (cs : List Char) : Prop := ∀ c ∈ cs, c ∉ marks

/-- The attributes in a tag. No value has a mark in it that could end it or the tag. -/
inductive TagAttributes : List Char → Prop
  | nil : TagAttributes []
  | cons {name value rest : List Char} (hname : Unmarked name)
      (hvalue : '"' ∉ value ∧ '<' ∉ value ∧ '>' ∉ value) (hrest : TagAttributes rest) :
      TagAttributes (' ' :: (name ++ '=' :: '"' :: (value ++ '"' :: rest)))

mutual

/-- An element: an empty tag, or a start tag and an end tag with one name and what is between them. -/
inductive BalancedElement : List Char → Prop
  | emptyTag {name attributes : List Char} (hname : Unmarked name)
      (hattributes : TagAttributes attributes) :
      BalancedElement ('<' :: (name ++ attributes ++ ['/', '>']))
  | tags {name attributes content : List Char} (hname : Unmarked name)
      (hattributes : TagAttributes attributes) (hcontent : BalancedContent content) :
      BalancedElement
        ('<' :: (name ++ attributes ++ '>' :: (content ++ '<' :: '/' :: (name ++ ['>']))))

/-- What may be between two tags: plain text, literal sections and elements. -/
inductive BalancedContent : List Char → Prop
  | plain {cs : List Char} (hcs : '<' ∉ cs ∧ '>' ∉ cs) : BalancedContent cs
  | literal {cs : List Char} (hcs : ¬[']', ']', '>'] <:+: cs) :
      BalancedContent ("<![CDATA[".toList ++ cs ++ "]]>".toList)
  | element {cs : List Char} (hcs : BalancedElement cs) : BalancedContent cs
  | append {cs ds : List Char} (hcs : BalancedContent cs) (hds : BalancedContent ds) :
      BalancedContent (cs ++ ds)

end

def Call.Unmarked : Call → Prop
  | .start name | .attr name _ => Markup.Unmarked name.toList
  | .declaration | .text _ | .literal _ | .stop => True

/-- What a call writes does not go beyond its own tag or section. -/
structure Call.Contained (c : Call) : Prop where
  names : c.Unmarked
  literals : ∀ t, c = .literal t → hasLiteralEnd t.toList = false

section Texts

variable {indent? : Option Nat}

theorem tagAttributes_attributesChars {attributes : List (String × String)}
    (h : ∀ entry ∈ attributes, Unmarked entry.1.toList) :
    TagAttributes (attributesChars attributes) := by
  induction attributes with
  | nil => exact .nil
  | cons entry rest ih =>
    have hrest := ih fun entry hentry => h entry (List.mem_cons_of_mem _ hentry)
    have hvalue := (encodesValue_escapeAttribute entry.2).marks
    have hcons := TagAttributes.cons (h entry List.mem_cons_self) hvalue hrest
    simpa [attributesChars, attributeChars] using hcons

theorem balancedContent_gap (level : Nat) : BalancedContent (gap indent? level) := by
  refine .plain ?_
  cases indent? <;> simp [gap]

theorem balancedContent_escapeText (t : String) : BalancedContent (escapeText t).toList := by
  rw [escapeText, String.toList_ofList]
  exact .plain ⟨not_mem_escapeChars (by decide) (by decide) _,
    not_mem_escapeChars (by decide) (by decide) _⟩

theorem balancedContent_literal {t : String} (h : hasLiteralEnd t.toList = false) :
    BalancedContent (literal t).toList := by
  have hend : ¬[']', ']', '>'] <:+: t.toList := by
    rw [← hasLiteralEnd_iff, h]
    exact Bool.false_ne_true
  simpa [Markup.literal] using BalancedContent.literal hend

theorem balancedElement_chars {e : Written} (h : ∀ c ∈ e.calls, c.Contained)
    (hcontent : ∀ level, BalancedContent (e.content.chars indent? level)) (level : Nat) :
    BalancedElement (e.chars indent? level) := by
  have hname : Unmarked e.name.toList := (h (.start e.name) (by simp [Written.calls])).names
  have hattributes : TagAttributes (attributesChars e.attributes) := by
    refine tagAttributes_attributesChars fun entry hentry => ?_
    have hmem := List.mem_map_of_mem (f := Call.ofAttribute) hentry
    exact (h (.ofAttribute entry) (by simp [Written.calls, hmem])).names
  cases hempty : e.content.isEmpty with
  | true =>
    have htag := BalancedElement.emptyTag hname hattributes
    simpa [Written.chars, Written.opening, Content.ending, hempty, Content.chars_eq_nil hempty]
      using htag
  | false =>
    have hgap : BalancedContent (if e.content.hasChildren then gap indent? level else []) := by
      split
      · exact balancedContent_gap level
      · exact .plain (by simp)
    have htags := BalancedElement.tags hname hattributes ((hcontent (level + 1)).append hgap)
    simpa [Written.chars, Written.opening, Content.ending, hempty] using htags

theorem Content.balanced {content : Content} (h : ∀ c ∈ content.calls, c.Contained) (level : Nat) :
    BalancedContent (content.chars indent? level) := by
  induction content generalizing level with
  | empty => exact .plain (by simp [chars])
  | text before t ih =>
    have hbefore := ih (fun c hc => h c (by simp [calls, hc])) level
    exact hbefore.append (balancedContent_escapeText t)
  | literal before t ih =>
    have hbefore := ih (fun c hc => h c (by simp [calls, hc])) level
    have hend := (h (.literal t) (by simp [calls])).literals t rfl
    exact hbefore.append (balancedContent_literal hend)
  | element before name attributes content ihbefore ih =>
    rw [calls_element] at h
    rw [chars_element]
    have hbefore := ihbefore (fun c hc => h c (by simp [hc])) level
    have hinner := ih fun c hc => h c (by simp [Written.calls, hc])
    have helement := balancedElement_chars (e := ⟨name, attributes, content⟩)
      (fun c hc => h c (by simp [hc])) hinner level
    exact (hbefore.append (balancedContent_gap level)).append (.element helement)

theorem Written.balanced {e : Written} (h : ∀ c ∈ e.calls, c.Contained) (level : Nat) :
    BalancedElement (e.chars indent? level) := by
  have hcontent : ∀ c ∈ e.content.calls, c.Contained := fun c hc => h c (by simp [calls, hc])
  exact balancedElement_chars h (Content.balanced hcontent) level

end Texts

/-! ## Open start tags -/

/-- Whether a call leaves a start tag open. -/
def Call.inStartTag : Call → Bool
  | .start _ | .attr .. => true
  | .declaration | .text _ | .literal _ | .stop => false

theorem Content.calls_eq_concat {content : Content} (h : content.isEmpty = false) :
    ∃ before c, content.calls = before ++ [c] ∧ c.inStartTag = false := by
  cases content with
  | empty => cases h
  | text before t => exact ⟨_, _, rfl, rfl⟩
  | literal before t => exact ⟨_, _, rfl, rfl⟩
  | element before name attributes content =>
    rw [calls_element, ← List.append_assoc]
    exact ⟨_, _, rfl, rfl⟩

theorem Written.calls_eq_concat (e : Written) :
    ∃ before c, e.calls = before ++ [c] ∧ c.inStartTag = e.content.isEmpty := by
  obtain ⟨name, attributes, content⟩ := e
  cases hempty : content.isEmpty with
  | false =>
    obtain ⟨before, c, hcalls, hc⟩ := Content.calls_eq_concat hempty
    rw [calls, hcalls, ← List.append_assoc]
    exact ⟨_, c, rfl, hc⟩
  | true =>
    have hcontent : content.calls = [] := by
      cases content <;> first | rfl | cases hempty
    rcases List.eq_nil_or_concat attributes with rfl | ⟨before, entry, rfl⟩
    · exact ⟨[], .start name, by simp [calls, hcontent], rfl⟩
    · exact ⟨.start name :: before.map .ofAttribute, .ofAttribute entry,
        by simp [calls, hcontent], rfl⟩

theorem Document.calls_eq_concat {doc : Document} (h : doc ≠ {}) :
    ∃ before c, doc.calls = before ++ [c] ∧ c.inStartTag = false := by
  obtain ⟨declared, roots⟩ := doc
  rcases List.eq_nil_or_concat roots with rfl | ⟨before, e, rfl⟩
  · cases declared with
    | false => exact absurd rfl h
    | true => exact ⟨[], .declaration, rfl, rfl⟩
  · refine ⟨(if declared then [.declaration] else []) ++
      (before.flatMap fun e => e.calls ++ [.stop]) ++ e.calls, .stop, ?_, rfl⟩
    simp [calls]

theorem Draft.stage_eq_startTag_iff (d : Draft) :
    d.stage = .startTag ↔ ∃ c, d.calls.getLast? = some c ∧ c.inStartTag = true := by
  obtain ⟨ended, _ | ⟨e, around⟩⟩ := d
  · by_cases hnew : ended = {}
    · subst hnew
      simp [Draft.stage, Draft.calls, Document.calls]
    · obtain ⟨before, c, hcalls, hc⟩ := Document.calls_eq_concat hnew
      simp [Draft.stage, Draft.calls, hnew, hcalls, hc]
  · obtain ⟨before, c, hcalls, hc⟩ := e.calls_eq_concat
    cases hempty : e.content.isEmpty <;>
      simp [Draft.stage, Draft.calls, hcalls, hc, hempty, ← List.append_assoc]

theorem Draft.openElements_of_startTag {d : Draft} (h : d.stage = .startTag) :
    ∃ innermost around, d.openElements = innermost :: around ∧
      innermost.closed = false ∧ ∀ outer ∈ around, outer.closed = true := by
  obtain ⟨ended, _ | ⟨e, around⟩⟩ := d
  · by_cases hnew : ended = {} <;> simp [Draft.stage, hnew] at h
  · have hempty : e.content.isEmpty = true := by
      by_contra hempty
      simp [Draft.stage, hempty] at h
    exact ⟨_, _, rfl, by simp [hempty], by simp [Written.outer]⟩

/-! ## Any use of a writer -/

namespace Writer

/-- Whatever a new writer is asked for, a call that is refused changes nothing, and the others write a
draft: an attribute joins the start tag of the innermost element, and a text its content. A start tag
is open just after the calls that write one, and then it is that of the innermost element and no other.
The text at the end is that of the draft with its elements ended. It has an element for each root, and
all of them are balanced if no name has a mark in it. -/
theorem after_balanced (indent? : Option Nat) (calls : List Call) :
    let w := after { indent? } calls
    let written := accepted { indent? } calls
    let d := Draft.after {} calls
    (∀ (c : Call) (v v' : Writer) (e : WriteError), c.perform.run v = .error e v' → v' = v) ∧
    (w = d.writer indent? ∧ d.calls = written) ∧
    (w.stage = .startTag ↔ ∃ c, written.getLast? = some c ∧ c.inStartTag = true) ∧
    (w.stage = .startTag → ∃ innermost around, w.openElements = innermost :: around ∧
      innermost.closed = false ∧ ∀ outer ∈ around, outer.closed = true) ∧
    (w.finish = String.ofList (d.whole.chars indent?) ∧
      d.whole.calls = written ++ List.replicate w.openElements.length .stop) ∧
    ((∀ c ∈ calls, c.Unmarked) → ∀ e ∈ d.whole.roots, BalancedElement (e.chars indent? 0)) := by
  intro w written d
  obtain ⟨hw, hcalls⟩ : w = d.writer indent? ∧ d.calls = written :=
    Draft.after_writer {} calls
  refine ⟨fun c v v' e => Call.eq_of_refused, ⟨hw, hcalls⟩, ?_, ?_, ⟨?_, ?_⟩, ?_⟩
  · rw [hw, ← hcalls]
    exact d.stage_eq_startTag_iff
  · intro hstage
    rw [hw] at hstage ⊢
    exact Draft.openElements_of_startTag hstage
  · rw [hw]
    exact d.finish_writer
  · have hlength : w.openElements.length = d.unended.length := by
      rw [hw]
      exact d.length_openElements
    rw [hlength, ← hcalls]
    exact d.whole_calls
  · intro hunmarked e he
    have hcontained : ∀ c ∈ d.whole.calls, c.Contained := by
      intro c hc
      rw [d.whole_calls, hcalls, List.mem_append] at hc
      rcases hc with hc | hc
      · refine ⟨hunmarked c ((accepted_sublist _ calls).subset hc), ?_⟩
        rintro t rfl
        exact not_hasLiteralEnd_of_mem_accepted hc
      · rw [(List.mem_replicate.1 hc).2]
        exact ⟨trivial, fun t ht => by cases ht⟩
    exact Written.balanced (fun c hc => hcontained c (Document.mem_calls he hc)) 0

/-- Two roots, the first with text and a section around an empty element. An attribute after the
element and a declaration after the root are refused. -/
theorem after_balanced_two_roots :
    let calls : List Call := [.start "kml", .text "a", .start "Point", .stop, .attr "id" "b",
      .literal "c", .stop, .declaration, .start "name"]
    (∀ c ∈ calls, c.Unmarked) ∧
    (after {} calls).finish = "<kml>a<Point/><![CDATA[c]]></kml><name/>" ∧
    (Draft.after {} calls).calls =
      [.start "kml", .text "a", .start "Point", .stop, .literal "c", .stop, .start "name"] ∧
    ∀ e ∈ (Draft.after {} calls).whole.roots, BalancedElement (e.chars none 0) := by
  intro calls
  have hunmarked : ∀ c ∈ calls, c.Unmarked := by simp [calls, Call.Unmarked, Unmarked, marks]
  obtain ⟨-, ⟨-, hcalls⟩, -, -, -, hbalanced⟩ := after_balanced none calls
  exact ⟨hunmarked, by decide, hcalls.trans (by decide), hbalanced hunmarked⟩

end Writer

end KmlTree.Markup
