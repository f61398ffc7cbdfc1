import KmlTree.Proofs.Markup.Names
import KmlTree.Proofs.Markup.Pieces
import KmlTree.Proofs.Markup.Rendering
import KmlTree.Text.Blank

/-!
# The events of a written tree

The text of a tree is read as the tags of its elements, with their texts between them. Text may come
in several pieces, and blank text may come between elements. Main statement: this is so wherever the
tree stands, if names and keys are read back by themselves.
-/
namespace KmlTree.Markup

open Text

/-! ## Reading in pieces -/

theorem prepend_prepend (events : Events) (first second : List Event) :
    (events.prepend second).prepend first = events.prepend (first ++ second) := by
  simp [Events.prepend]

def textEvents (text : String) (offset : Nat) (cs : List Char) : List Event :=
  if cs.isEmpty then [] else [.text text offset]

section Reading

variable {cs more : List Char} {text : String} (openTags : List String) (offset : Nat)

theorem takeWhile_not_angle (more : List Char) (hcs : '<' ∉ cs) :
    (cs ++ '<' :: more).takeWhile (· != '<') = cs ∧
      (cs ++ '<' :: more).dropWhile (· != '<') = '<' :: more := by
  have hpass : ∀ c ∈ cs, (c != '<') = true := by
    intro c hc
    simpa using fun heq : c = '<' => hcs (heq ▸ hc)
  exact ⟨takeWhile_append_stop hpass (by simp), dropWhile_append_stop hpass (by simp)⟩

theorem readText_eq (hread : unescape (String.ofList cs) = .ok text) :
    readText offset cs = .ok (textEvents text offset cs) := by
  rw [readText, hread, textEvents]
  split <;> rfl

theorem eventsFrom_angle (more : List Char) (hcs : '<' ∉ cs)
    (hread : unescape (String.ofList cs) = .ok text) :
    eventsFrom id openTags offset (cs ++ '<' :: more) =
      match readMarkup (offset + byteLength cs) openTags (offset + byteLength cs) more with
      | .error fault => { list := textEvents text offset cs, fault? := some fault }
      | .ok step => (eventsFrom id step.openTags step.offset step.rest).prepend
          (textEvents text offset cs ++ step.events) := by
  obtain ⟨htake, hdrop⟩ := takeWhile_not_angle more hcs
  have hevents := eventsFrom_eq id openTags offset (cs ++ '<' :: more)
  simp only [htake, hdrop, readText_eq offset hread] at hevents
  exact hevents

theorem eventsFrom_text (more : List Char) (hcs : '<' ∉ cs)
    (hread : unescape (String.ofList cs) = .ok text) :
    eventsFrom id openTags offset (cs ++ '<' :: more) =
      (eventsFrom id openTags (offset + byteLength cs) ('<' :: more)).prepend
        (textEvents text offset cs) := by
  have hnone : unescape (String.ofList []) = .ok "" := rfl
  have hempty := eventsFrom_angle openTags (offset + byteLength cs) more List.not_mem_nil hnone
  rw [eventsFrom_angle openTags offset more hcs hread]
  rw [List.nil_append, byteLength_nil, Nat.add_zero] at hempty
  rw [hempty]
  cases readMarkup (offset + byteLength cs) openTags (offset + byteLength cs) more with
  | error fault => simp [Events.prepend, textEvents]
  | ok step => simp [Events.prepend, textEvents]

theorem eventsFrom_end (hcs : '<' ∉ cs) (hread : unescape (String.ofList cs) = .ok text) :
    eventsFrom id openTags offset cs = { list := textEvents text offset cs } := by
  have hpass : ∀ c ∈ cs, (c != '<') = true := by
    intro c hc
    simpa using fun heq : c = '<' => hcs (heq ▸ hc)
  have hstop : ∀ c ∈ ([] : List Char).head?, (c != '<') = false := by simp
  have htake := takeWhile_append_stop hpass hstop
  have hdrop := dropWhile_append_stop hpass hstop
  rw [List.append_nil] at htake hdrop
  rw [eventsFrom_eq]
  simp only [htake, hdrop, readText_eq offset hread]

end Reading

section Tags

variable {name : String} (hname : IsTagName name) (openTags : List String) (position : Nat)
  (rest : List Char)

include hname

theorem eventsFrom_startTag :
    eventsFrom id openTags position ('<' :: (name.toList ++ '>' :: rest)) =
      (eventsFrom id (name :: openTags) (tagStop position name.toList) rest).prepend
        [.startTag name [] ⟨position, tagStop position name.toList⟩] := by
  have hread := eventsFrom_markup id openTags position
    (@readMarkup_startTag name [] hname (by simp) (by simp) openTags position rest)
  simpa [attributesChars] using hread

theorem eventsFrom_emptyTag :
    eventsFrom id openTags position ('<' :: (name.toList ++ '/' :: '>' :: rest)) =
      (eventsFrom id openTags (tagStop position (name.toList ++ ['/'])) rest).prepend
        [.startTag name [] ⟨position, tagStop position (name.toList ++ ['/'])⟩,
          .endTag name ⟨position, tagStop position (name.toList ++ ['/'])⟩] := by
  have hread := eventsFrom_markup id openTags position
    (@readMarkup_emptyTag name [] hname (by simp) (by simp) openTags position rest)
  simpa [attributesChars] using hread

theorem eventsFrom_endTag :
    eventsFrom id (name :: openTags) position ('<' :: '/' :: (name.toList ++ '>' :: rest)) =
      (eventsFrom id openTags (tagStop position ('/' :: name.toList)) rest).prepend
        [.endTag name ⟨position, tagStop position ('/' :: name.toList)⟩] :=
  eventsFrom_markup id (name :: openTags) position (readMarkup_endTag hname openTags position rest)

end Tags

/-! ## Spelling -/

/-- Events that give a text in pieces. -/
inductive Texts : String → List Event → Prop
  | nil : Texts "" []
  | cons {text rest : String} {offset : Nat} {events : List Event} (h : Texts rest events) :
      Texts (text ++ rest) (.text text offset :: events)

theorem texts_textEvents {cs : List Char} {text : String} (offset : Nat)
    (hread : unescape (String.ofList cs) = .ok text) : Texts text (textEvents text offset cs) := by
  unfold textEvents
  split
  · next hempty =>
    rw [List.isEmpty_iff.1 hempty] at hread
    cases hread
    exact .nil
  · have hcons : Texts (text ++ "") [.text text offset] := .cons .nil
    simpa using hcons

theorem isBlank_gap (indent? : Option Nat) (level : Nat) : ∀ c ∈ gap indent? level, isBlank c := by
  intro c hc
  unfold gap at hc
  split at hc
  · cases hc
  · rcases List.mem_cons.1 hc with rfl | hc
    · rfl
    · rw [List.eq_of_mem_replicate hc]
      rfl

theorem not_mem_of_blank {cs : List Char} (h : ∀ c ∈ cs, isBlank c) : '<' ∉ cs ∧ '&' ∉ cs :=
  ⟨fun hmem => absurd (h _ hmem) (by decide), fun hmem => absurd (h _ hmem) (by decide)⟩

section Blanks

variable {blank : List Char} (hblank : ∀ c ∈ blank, isBlank c) (openTags : List String)
  (offset : Nat) (more : List Char)

include hblank

theorem unescape_blank : unescape (String.ofList blank) = .ok (String.ofList blank) := by
  have hguarded : '&' ∈ ['&', '<', '>'] := by decide
  simpa [escapeChars] using unescape_escapeChars hguarded [] blank (not_mem_of_blank hblank).2

theorem eventsFrom_blank : ∃ texts offset',
    Texts (String.ofList blank) texts ∧
      eventsFrom id openTags offset (blank ++ '<' :: more) =
        (eventsFrom id openTags offset' ('<' :: more)).prepend texts :=
  ⟨_, _, texts_textEvents offset (unescape_blank hblank),
    eventsFrom_text openTags offset more (not_mem_of_blank hblank).1 (unescape_blank hblank)⟩

/-- What is written for a text is read back, with the blank text after it. -/
theorem eventsFrom_content (text : String) : ∃ texts offset',
    Texts (text ++ String.ofList blank) texts ∧
      eventsFrom id openTags offset (contentChars text ++ (blank ++ '<' :: more)) =
        (eventsFrom id openTags offset' ('<' :: more)).prepend texts := by
  unfold contentChars
  split
  · next hliteral =>
    have hend : hasLiteralEnd text.toList = false := by
      simpa using (Bool.and_eq_true_iff.1 hliteral).2
    have hchars : (literal text).toList ++ (blank ++ '<' :: more) =
        '<' :: '!' :: '[' :: 'C' :: 'D' :: 'A' :: 'T' :: 'A' :: '[' :: (text.toList ++
          ']' :: ']' :: '>' :: (blank ++ '<' :: more)) := by
      simp [literal]
    obtain ⟨stop, hread⟩ := readMarkup_literal hend openTags offset (blank ++ '<' :: more)
    obtain ⟨texts, offset', htexts, hrest⟩ := eventsFrom_blank hblank openTags stop more
    refine ⟨.text text offset :: texts, offset', .cons htexts, ?_⟩
    rw [hchars, eventsFrom_markup id openTags offset hread]
    simp only [hrest, prepend_prepend, String.ofList_toList, List.singleton_append]
  · have hguarded : '&' ∈ ['&', '<', '>'] := by decide
    obtain ⟨hangle, hampersand⟩ := not_mem_of_blank hblank
    have hnot : '<' ∉ escapeChars ['&', '<', '>'] text.toList ++ blank := by
      simp only [List.mem_append, not_or]
      exact ⟨not_mem_escapeChars (by decide) (by decide) _, hangle⟩
    have hread := unescape_escapeChars hguarded text.toList blank hampersand
    have hjoin : String.ofList (text.toList ++ blank) = text ++ String.ofList blank := by
      rw [String.ofList_append, String.ofList_toList]
    rw [hjoin] at hread
    have hevents := eventsFrom_text openTags offset more hnot hread
    refine ⟨_, offset + byteLength (escapeChars ['&', '<', '>'] text.toList ++ blank),
      texts_textEvents offset hread, ?_⟩
    rw [escapeText, String.toList_ofList, ← List.append_assoc]
    exact hevents

end Blanks

mutual

inductive Spells : Element → List Event → Prop
  | intro {e : Element} {span span' : Span} {blank : List Char} {texts inner : List Event}
      (hblank : ∀ c ∈ blank, isBlank c) (hnone : e.nodes = [] → blank = [])
      (htexts : Texts (e.text ++ String.ofList blank) texts) (hinner : SpellsAll e.nodes inner) :
      Spells e (.startTag e.name e.storedAttributes span ::
        (texts ++ (inner ++ [.endTag e.name span'])))

inductive SpellsAll : List Element → List Event → Prop
  | nil : SpellsAll [] []
  | cons {n : Element} {ns : List Element} {blank : List Char} {events texts rest : List Event}
      (hn : Spells n events) (hblank : ∀ c ∈ blank, isBlank c)
      (htexts : Texts (String.ofList blank) texts) (hns : SpellsAll ns rest) :
      SpellsAll (n :: ns) (events ++ (texts ++ rest))

end

/-- The tags of an element are read back wherever they stand. -/
structure ReadsBack (e : Element) : Prop where
  name : IsTagName e.name
  keys : ∀ entry ∈ e.storedAttributes, IsKey entry.1
  nodup : (e.storedAttributes.map Prod.fst).Nodup

theorem eventsFrom_parts {indent? : Option Nat} {level : Nat} {n : Element} {ns : List Element}
    (ih : ∀ m ∈ n :: ns, ∀ openTags offset more, ∃ events offset', Spells m events ∧
      eventsFrom id openTags offset ('<' :: (m.markup indent? level ++ more)) =
        (eventsFrom id openTags offset' more).prepend events)
    {blank : List Char} (hblank : ∀ c ∈ blank, isBlank c) (openTags : List String) (offset : Nat)
    (more : List Char) : ∃ events offset', SpellsAll (n :: ns) events ∧
      eventsFrom id openTags offset ('<' :: (n.markup indent? level ++
          ((ns.map fun m => m.markup indent? level).flatMap
            (fun part => gap indent? level ++ '<' :: part) ++ (blank ++ '<' :: more)))) =
        (eventsFrom id openTags offset' ('<' :: more)).prepend events := by
  induction ns generalizing n offset with
  | nil =>
    obtain ⟨events, offset₁, hn, hevents⟩ := ih n List.mem_cons_self openTags offset
      (blank ++ '<' :: more)
    obtain ⟨texts, offset₂, htexts, hrest⟩ := eventsFrom_blank hblank openTags offset₁ more
    refine ⟨events ++ (texts ++ []), offset₂, .cons hn hblank htexts .nil, ?_⟩
    simp only [List.map_nil, List.flatMap_nil, List.nil_append, hevents, hrest, prepend_prepend,
      List.append_nil]
  | cons m ns ihRest =>
    obtain ⟨events, offset₁, hn, hevents⟩ := ih n List.mem_cons_self openTags offset
      (gap indent? level ++ '<' :: (m.markup indent? level ++
        ((ns.map fun m => m.markup indent? level).flatMap
          (fun part => gap indent? level ++ '<' :: part) ++ (blank ++ '<' :: more))))
    obtain ⟨texts, offset₂, htexts, hgap⟩ := eventsFrom_blank (isBlank_gap indent? level) openTags
      offset₁ (m.markup indent? level ++ ((ns.map fun m => m.markup indent? level).flatMap
          (fun part => gap indent? level ++ '<' :: part) ++ (blank ++ '<' :: more)))
    obtain ⟨rest, offset₃, hrest, hevents'⟩ :=
      ihRest (fun k hk => ih k (List.mem_cons_of_mem _ hk)) offset₂
    refine ⟨events ++ (texts ++ rest), offset₃, .cons hn (isBlank_gap _ _) htexts hrest, ?_⟩
    simp only [List.map_cons, List.flatMap_cons, List.append_assoc, List.cons_append] at hevents ⊢
    rw [hevents, hgap, hevents', prepend_prepend, prepend_prepend, List.append_assoc]

theorem eventsFrom_inner {e : Element} {indent? : Option Nat} {level : Nat}
    (ih : ∀ m ∈ e.nodes, ∀ openTags offset more, ∃ events offset', Spells m events ∧
      eventsFrom id openTags offset ('<' :: (m.markup indent? (level + 1) ++ more)) =
        (eventsFrom id openTags offset' more).prepend events)
    (openTags : List String) (offset : Nat) (more : List Char) : ∃ blank texts inner offset',
      (∀ c ∈ blank, isBlank c) ∧ (e.nodes = [] → blank = []) ∧
        Texts (e.text ++ String.ofList blank) texts ∧ SpellsAll e.nodes inner ∧
          eventsFrom id openTags offset (contentChars e.text ++
              ((e.nodes.map fun n => n.markup indent? (level + 1)).flatMap
                  (fun part => gap indent? (level + 1) ++ '<' :: part) ++
                ((if e.nodes.isEmpty then [] else gap indent? level) ++ '<' :: more))) =
            (eventsFrom id openTags offset' ('<' :: more)).prepend (texts ++ inner) := by
  cases hnodes : e.nodes with
  | nil =>
    have hnone : ∀ c ∈ ([] : List Char), isBlank c := by simp
    obtain ⟨texts, offset', htexts, hcontent⟩ := eventsFrom_content hnone openTags offset more e.text
    refine ⟨[], texts, [], offset', hnone, fun _ => rfl, htexts, .nil, ?_⟩
    simpa using hcontent
  | cons n ns =>
    rw [hnodes] at ih
    obtain ⟨texts, offset₁, htexts, hcontent⟩ := eventsFrom_content (isBlank_gap indent? (level + 1))
      openTags offset (n.markup indent? (level + 1) ++
        ((ns.map fun m => m.markup indent? (level + 1)).flatMap
          (fun part => gap indent? (level + 1) ++ '<' :: part) ++
            (gap indent? level ++ '<' :: more))) e.text
    obtain ⟨inner, offset₂, hinner, hparts⟩ := eventsFrom_parts ih (isBlank_gap indent? level)
      openTags offset₁ more
    refine ⟨_, texts, inner, offset₂, isBlank_gap indent? (level + 1),
      fun hnil => absurd hnil (by simp), htexts, hinner, ?_⟩
    rw [hparts, prepend_prepend] at hcontent
    simpa using hcontent

/-- What is written for a tree is read as the tree, wherever it stands. -/
theorem eventsFrom_markupOf {e : Element} (he : e.Every ReadsBack) (indent? : Option Nat)
    (level : Nat) (openTags : List String) (offset : Nat) (more : List Char) :
    ∃ events offset', Spells e events ∧
      eventsFrom id openTags offset ('<' :: (e.markup indent? level ++ more)) =
        (eventsFrom id openTags offset' more).prepend events := by
  induction e using Element.inductionOnNodes generalizing level openTags offset more with
  | step e ih =>
    obtain ⟨hname, hkeys, hnodup⟩ := he.self
    rw [e.markup_eq, Element.tail, Element.enclose]
    by_cases hempty : e.text.isEmpty = true ∧ e.nodes = []
    · have hread := readMarkup_emptyTag hname hkeys hnodup openTags offset more
      generalize tagStop offset _ = stop at hread
      have htext : e.text = "" := by simpa using hempty.1
      have hnone : ∀ c ∈ ([] : List Char), isBlank c := by simp
      have hspells : Spells e (.startTag e.name e.storedAttributes ⟨offset, stop⟩ ::
          ([] ++ ([] ++ [.endTag e.name ⟨offset, stop⟩]))) :=
        .intro hnone (fun _ => rfl) (by rw [htext]; exact .nil) (by rw [hempty.2]; exact .nil)
      refine ⟨_, stop, hspells, ?_⟩
      simp only [hempty.1, hempty.2, List.map_nil, List.isEmpty_nil, Bool.and_self, if_true,
        List.append_assoc, List.cons_append, List.nil_append]
      exact eventsFrom_markup id openTags offset hread
    · have hparts : (e.text.isEmpty && (e.nodes.map fun n =>
          n.markup indent? (level + 1)).isEmpty) = false := by
        simpa using hempty
      have hstart := readMarkup_startTag hname hkeys hnodup openTags offset
        (contentChars e.text ++ ((e.nodes.map fun n => n.markup indent? (level + 1)).flatMap
            (fun part => gap indent? (level + 1) ++ '<' :: part) ++
          ((if e.nodes.isEmpty then [] else gap indent? level) ++
            '<' :: '/' :: (e.name.toList ++ '>' :: more))))
      generalize tagStop offset _ = stop at hstart
      obtain ⟨blank, texts, inner, offset₁, hblank, hnone, htexts, hinner, hevents⟩ :=
        eventsFrom_inner (fun m hm => ih m hm (he.nodes m hm) (level + 1)) (e.name :: openTags) stop
          ('/' :: (e.name.toList ++ '>' :: more))
      have hend := readMarkup_endTag hname openTags offset₁ more
      generalize tagStop offset₁ _ = stop' at hend
      have hspells : Spells e (.startTag e.name e.storedAttributes ⟨offset, stop⟩ ::
          (texts ++ (inner ++ [.endTag e.name ⟨offset₁, stop'⟩]))) :=
        .intro hblank hnone htexts hinner
      refine ⟨_, stop', hspells, ?_⟩
      have hall := eventsFrom_markup id openTags offset hstart
      simp only [hevents, eventsFrom_markup id (e.name :: openTags) offset₁ hend, prepend_prepend] at hall
      rw [hparts]
      simpa using hall

theorem eventsFrom_declaration (more : List Char) : ∃ offset,
    eventsFrom id [] 0 (declaration.toList ++ more) = eventsFrom id [] offset more := by
  let body := "xml version=\"1.0\" encoding=\"utf-8\"?".toList
  have hangle : '>' ∉ body := by decide
  have hchars : declaration.toList ++ more = '<' :: '?' :: (body ++ '>' :: more) := by
    simp [declaration, body]
  have hread : readMarkup 0 [] 0 ('?' :: (body ++ '>' :: more)) =
      .ok { openTags := [], offset := 0 + 1 + byteLength ('?' :: body) + 1, rest := more } := by
    rw [readMarkup, readInstruction, splitAngle_append hangle]
    simp only
    rw [if_pos (by decide)]
  refine ⟨0 + 1 + byteLength ('?' :: body) + 1, ?_⟩
  rw [hchars, eventsFrom_markup id [] 0 hread]
  rfl

theorem events_ofList_angle (cs : List Char) :
    events (String.ofList ('<' :: cs)) = eventsFrom id [] 0 ('<' :: cs) := by
  rw [events_of_unmarked (by simp [byteOrderMark]), String.toList_ofList]

theorem events_preamble (options : RenderOptions) (more : List Char) : ∃ blank before offset,
    (∀ c ∈ blank, isBlank c) ∧ Texts (String.ofList blank) before ∧
      events (String.ofList (options.preamble ++ '<' :: more)) =
        (eventsFrom id [] offset ('<' :: more)).prepend before := by
  unfold RenderOptions.preamble
  split
  · have hblank := isBlank_gap options.indentation? 0
    have hstart : declaration.toList ++ gap options.indentation? 0 ++ '<' :: more =
        '<' :: ("?xml version=\"1.0\" encoding=\"utf-8\"?>".toList ++
          (gap options.indentation? 0 ++ '<' :: more)) := by
      simp [declaration]
    obtain ⟨offset₁, hdeclaration⟩ := eventsFrom_declaration (gap options.indentation? 0 ++ '<' :: more)
    obtain ⟨before, offset₂, hbefore, hgap⟩ := eventsFrom_blank hblank [] offset₁ more
    refine ⟨_, before, offset₂, hblank, hbefore, ?_⟩
    rw [hstart, events_ofList_angle, ← hstart, List.append_assoc, hdeclaration, hgap]
  · refine ⟨[], [], 0, by simp, .nil, ?_⟩
    rw [List.nil_append, events_ofList_angle]
    simp [Events.prepend]

/-- The text of a tree is read as the tree, with blank text around it. -/
theorem events_written {e : Element} (he : e.Every ReadsBack) (options : RenderOptions) :
    ∃ blank before inner after, (∀ c ∈ blank, isBlank c) ∧ Texts (String.ofList blank) before ∧
      Spells e inner ∧ Texts (String.ofList (gap options.indentation? 0)) after ∧
        events (e.written options) = { list := before ++ (inner ++ after) } := by
  obtain ⟨blank, before, offset, hblank, hbefore, hevents⟩ := events_preamble options
    (e.markup options.indentation? 0 ++ gap options.indentation? 0)
  obtain ⟨inner, offset₁, hinner, hmarkup⟩ := eventsFrom_markupOf he options.indentation? 0 [] offset
    (gap options.indentation? 0)
  have hblankAfter := isBlank_gap options.indentation? 0
  have hend := eventsFrom_end [] offset₁ (not_mem_of_blank hblankAfter).1 (unescape_blank hblankAfter)
  refine ⟨blank, before, inner, _, hblank, hbefore, hinner,
    texts_textEvents offset₁ (unescape_blank hblankAfter), ?_⟩
  rw [Element.written, hevents, hmarkup, hend, prepend_prepend]
  simp [Events.prepend]

end KmlTree.Markup
