import KmlTree.Proofs.Markup.Tags
import Mathlib.Data.List.Infix
import Mathlib.Data.List.TakeWhile

/-!
# The pieces of a source text

A source text is cut into pieces: text, tags, and constructs that are no tags. Which characters a piece
has is said here without the reading of events. Main statements: up to a fault, what is read in one go
is a piece, and the tags that the events tell of are those of the pieces, each with the bytes from its
`<` to its `>`, unless a byte order mark was passed over.
-/
namespace KmlTree.Markup

open Text

/-! ## Pieces -/

/-- A part of a source text that is read in one go. -/
inductive Piece
  | text (cs : List Char)
  | comment (body : List Char)
  /-- A section of literal text, with the word that it starts with. -/
  | literal (word body : List Char)
  /-- A document type, with the word that it starts with. -/
  | doctype (word body : List Char)
  /-- A processing instruction or declaration. The end of the text may stand for its `>`. -/
  | instruction (body : List Char) (closed : Bool)
  /-- A `<` at the end of the text. -/
  | angle
  /-- The tag of an element with content, given its name and what comes after the name. -/
  | startTag (name inside : List Char)
  /-- The tag of an element without content. -/
  | emptyTag (name inside : List Char)
  /-- The tag that ends an element, with white space after the name. The end of the text may stand
  for its `>`. -/
  | endTag (name space : List Char) (closed : Bool)

namespace Piece

def stop (closed : Bool) : List Char := if closed then ['>'] else []

def chars : Piece → List Char
  | .text cs => cs
  | .comment body => '<' :: '!' :: '-' :: '-' :: (body ++ ['-', '-', '>'])
  | .literal word body => '<' :: '!' :: '[' :: (word ++ body ++ [']', ']', '>'])
  | .doctype word body => '<' :: '!' :: (word ++ body ++ ['>'])
  | .instruction body closed => '<' :: '?' :: (body ++ stop closed)
  | .angle => ['<']
  | .startTag name inside => '<' :: (name ++ inside ++ ['>'])
  | .emptyTag name inside => '<' :: (name ++ inside ++ ['/', '>'])
  | .endTag name space closed => '<' :: '/' :: (name ++ space ++ stop closed)

/-- A mark of three, a character twice and a `>`, ends some characters and comes no earlier. -/
def FirstMark (twice : Char) (body : List Char) : Prop :=
  ¬[twice, twice, '>'] <:+: body ++ [twice, twice]

/-- A `>` after some characters is the first one before which as many angle brackets open as close. -/
def FirstClosing (body : List Char) : Prop :=
  body.count '<' = body.count '>' ∧
    ∀ before after, body = before ++ '>' :: after → before.count '>' < before.count '<'

/-- A tag with a name, some characters after it and a last one or none ends with a `>` after these,
which is the first one outside of quotes. The name is without white space, and what comes after it is
set apart by white space. -/
structure IsTag (name inside last : List Char) : Prop where
  start : ∀ c ∈ (name ++ inside ++ last).head?, c ≠ '!' ∧ c ≠ '/' ∧ c ≠ '?'
  solid : ∀ c ∈ name, isSpace c = false
  apart : ∀ c ∈ inside.head?, isSpace c = true
  quotes : quoteAfter none (name ++ inside ++ last) = some none

/-- A piece has the characters that make it one, and its end is the first that it could have. -/
def Lawful : Piece → Prop
  | .text cs => cs ≠ [] ∧ '<' ∉ cs
  | .comment body => FirstMark '-' body
  | .literal word body => word.map Char.toUpper = "CDATA[".toList ∧ FirstMark ']' (word ++ body)
  | .doctype word body => word.map Char.toUpper = "DOCTYPE".toList ∧ FirstClosing (word ++ body)
  | .instruction body _ => '>' ∉ body ∧ 1 < body.length ∧ body.getLast? = some '?'
  | .angle => True
  | .startTag name inside => IsTag name inside [] ∧ (name ++ inside).getLast? ≠ some '/'
  | .emptyTag name inside => IsTag name inside ['/']
  | .endTag name space _ => '>' ∉ name ++ space ∧ ∀ c ∈ space, isSpace c = true

/-- Whether a piece has all its characters, so that others may follow. -/
def isClosed : Piece → Bool
  | .instruction _ closed | .endTag _ _ closed => closed
  | .angle => false
  | _ => true

end Piece

/-- What an event tells of a tag. -/
structure TagNotice where
  /-- Whether the tag starts an element. An empty tag is told of twice. -/
  starts : Bool
  name : String
  span : Span
  deriving DecidableEq

def Event.tag? : Event → Option TagNotice
  | .startTag name _ span => some ⟨true, name, span⟩
  | .endTag name span => some ⟨false, name, span⟩
  | .text .. => none

def Piece.tags (p : Piece) (span : Span) : List TagNotice :=
  match p with
  | .startTag name _ => [⟨true, String.ofList name, span⟩]
  | .emptyTag name _ => [⟨true, String.ofList name, span⟩, ⟨false, String.ofList name, span⟩]
  | .endTag name _ _ => [⟨false, String.ofList name, span⟩]
  | _ => []

/-! ## Ends of constructs -/

theorem splitMark_spec {twice : Char} {cs body rest : List Char}
    (h : splitMark twice cs = some (body, rest)) :
    cs = body ++ [twice, twice, '>'] ++ rest ∧ Piece.FirstMark twice body := by
  induction cs generalizing body with
  | nil => cases h
  | cons c cs ih =>
    simp only [splitMark] at h
    split at h
    · next hmark =>
      cases h
      refine ⟨?_, fun hinfix => absurd hinfix.length_le (by simp)⟩
      have hsplit := List.take_append_drop 2 cs
      rw [hmark.2] at hsplit
      rw [hmark.1, ← hsplit]
      simp
    · next hmark =>
      obtain ⟨⟨a, b⟩, hsplit, heq⟩ := Option.map_eq_some_iff.1 h
      obtain ⟨rfl, rfl⟩ := Prod.mk.inj heq
      obtain ⟨hcs, hfirst⟩ := ih hsplit
      refine ⟨by rw [hcs]; rfl, fun hinfix => ?_⟩
      rcases List.infix_cons_iff.1 hinfix with ⟨more, hmore⟩ | hinfix
      · -- a mark at the first character would have ended the construct there
        obtain ⟨hc, htail⟩ := List.cons.inj hmore
        have hrest : cs = (a ++ [twice, twice]) ++ '>' :: b := by simp [hcs]
        refine hmark ⟨hc.symm, ?_⟩
        rw [hrest]
        change _ = a ++ [twice, twice] at htail
        rw [← htail]
        rfl
      · exact hfirst hinfix

theorem splitDoctype_spec {nested : Nat} {cs body rest : List Char}
    (h : splitDoctype nested cs = some (body, rest)) :
    cs = body ++ '>' :: rest ∧ nested + body.count '<' = body.count '>' ∧
      ∀ before after, body = before ++ '>' :: after →
        before.count '>' < nested + before.count '<' := by
  induction cs generalizing nested body with
  | nil => cases h
  | cons c cs ih =>
    simp only [splitDoctype] at h
    split at h
    · next hend =>
      cases h
      rw [hend.1, hend.2]
      exact ⟨rfl, rfl, by simp⟩
    · next hend =>
      obtain ⟨⟨a, b⟩, hsplit, heq⟩ := Option.map_eq_some_iff.1 h
      obtain ⟨rfl, rfl⟩ := Prod.mk.inj heq
      obtain ⟨hcs, hcount, hbefore⟩ := ih hsplit
      generalize hnested : (if c = '<' then nested + 1 else if c = '>' then nested - 1 else nested) =
        nested' at hcount hbefore
      have hstep (xs : List Char) : (c :: xs).count '<' + nested + xs.count '>' =
          (c :: xs).count '>' + nested' + xs.count '<' := by
        rw [← hnested]
        by_cases hopens : c = '<'
        · simp [hopens]
          omega
        · by_cases hcloses : c = '>'
          · have hpos : nested ≠ 0 := fun hzero => hend ⟨hcloses, hzero⟩
            simp [hcloses]
            omega
          · simp [hopens, hcloses]
            omega
      refine ⟨by rw [hcs]; rfl, ?_, ?_⟩
      · have ha := hstep a
        change nested + (c :: a).count '<' = (c :: a).count '>'
        omega
      · rintro (_ | ⟨d, before⟩) after heq
        · obtain ⟨rfl, -⟩ := List.cons.inj heq
          simp at hend ⊢
          omega
        · obtain ⟨rfl, htail⟩ := List.cons.inj heq
          have hlt := hbefore before after htail
          have hbefore := hstep before
          omega

theorem splitAngle_spec {cs body rest : List Char} {ended : Nat}
    (h : splitAngle cs = (body, rest, ended)) : '>' ∉ body ∧ ∃ closed,
      cs = body ++ Piece.stop closed ++ rest ∧ (closed = false → rest = []) ∧
        ended = (Piece.stop closed).length := by
  have hsplit := List.takeWhile_append_dropWhile (p := (· != '>')) (l := cs)
  have hmem : cs.contains '>' = true ↔ cs.dropWhile (· != '>') ≠ [] := by
    simp [List.dropWhile_eq_nil_iff]
  cases h
  refine ⟨fun hmem => absurd (List.all_eq_true.1 List.all_takeWhile _ hmem) (by simp), ?_⟩
  cases hdrop : cs.dropWhile (· != '>') with
  | nil =>
    rw [hdrop] at hsplit hmem
    refine ⟨false, ?_, fun _ => rfl, ?_⟩
    · simpa [Piece.stop] using hsplit.symm
    · rw [if_neg (by simpa using hmem)]
      rfl
  | cons c after =>
    have hc : c = '>' := by
      have hhead := List.head?_dropWhile_not (· != '>') cs
      rw [hdrop] at hhead
      simpa using hhead
    rw [hdrop] at hsplit hmem
    refine ⟨true, ?_, nofun, ?_⟩
    · rw [hc] at hsplit
      simpa [Piece.stop] using hsplit.symm
    · rw [if_pos (by simpa using hmem)]
      rfl

/-! ## What is read in one go -/

/-- What was read from a `<` at a position on is a piece, and a tag is told of with its start at
`start`. -/
structure IsRead (start position : Nat) (cs : List Char) (step : Step) (p : Piece) : Prop where
  chars : '<' :: cs = p.chars ++ step.rest
  lawful : p.Lawful
  closed : p.isClosed = false → step.rest = []
  offset : step.offset = position + byteLength p.chars
  tags : step.events.filterMap Event.tag? = p.tags ⟨start, step.offset⟩

theorem utf8Size_marks : ∀ c ∈ ['<', '>', '!', '?', '/', '-', '[', ']'], c.utf8Size = 1 := by
  simp only [List.forall_mem_cons, List.not_mem_nil, false_imp_iff, implies_true, and_true]
  decide

section Constructs

variable {start position : Nat} {openTags : List String} {cs : List Char} {step : Step}

theorem readComment_piece (h : readComment openTags (position + 1) ('-' :: cs) = .ok step) :
    ∃ p, IsRead start position ('!' :: '-' :: cs) step p := by
  unfold readComment at h
  split at h
  · next first second rest heq =>
    obtain ⟨rfl, rfl⟩ := List.cons.inj heq
    split at h
    · cases h
    next body rest' hsplit =>
    simp only at h
    split at h
    · next hsecond =>
      cases h
      obtain ⟨hcs, hfirst⟩ := splitMark_spec hsplit
      refine ⟨.comment body, ?_, hfirst, nofun, ?_, rfl⟩
      · simp [Piece.chars, hsecond, hcs]
      · simp [Piece.chars, hsecond, utf8Size_marks]
        omega
    · cases h
  · cases h

theorem startsWithWord_spec {word cs : List Char} (h : startsWithWord word cs = true) :
    cs = cs.take word.length ++ cs.drop word.length ∧
      (cs.take word.length).map Char.toUpper = word :=
  ⟨(List.take_append_drop _ _).symm, eq_of_beq h⟩

theorem readLiteral_piece {textStart : Nat}
    (h : readLiteral textStart openTags (position + 1) ('[' :: cs) = .ok step) :
    ∃ p, IsRead start position ('!' :: '[' :: cs) step p := by
  unfold readLiteral at h
  split at h
  · cases h
  next body rest hsplit =>
  simp only at h
  split at h
  · next hword =>
    cases h
    obtain ⟨hcs, hfirst⟩ := splitMark_spec hsplit
    obtain ⟨hbody, hupper⟩ := startsWithWord_spec hword
    generalize body.take _ = word at hbody hupper
    generalize body.drop _ = content at hbody
    subst hbody
    refine ⟨.literal word content, ?_, ⟨hupper, hfirst⟩, nofun, ?_, rfl⟩
    · simpa [Piece.chars] using hcs
    · simp [Piece.chars, utf8Size_marks]
      omega
  · cases h

theorem readDoctype_piece (h : readDoctype openTags (position + 1) cs = .ok step) :
    ∃ p, IsRead start position ('!' :: cs) step p := by
  unfold readDoctype at h
  split at h
  · cases h
  next body rest hsplit =>
  simp only at h
  split at h
  · cases h
  next hword =>
  split at h
  · cases h
  · cases h
    obtain ⟨hcs, hcount, hfirst⟩ := splitDoctype_spec hsplit
    obtain ⟨hbody, hupper⟩ := startsWithWord_spec (by simpa using hword)
    generalize body.take _ = word at hbody hupper
    generalize body.drop _ = content at hbody
    subst hbody
    refine ⟨.doctype word content, ?_, ⟨hupper, by simpa using hcount, by simpa using hfirst⟩, nofun, ?_,
      rfl⟩
    · simpa [Piece.chars] using hcs
    · simp [Piece.chars, utf8Size_marks]
      omega

theorem readBang_piece {textStart : Nat}
    (h : readBang textStart openTags (position + 1) cs = .ok step) :
    ∃ p, IsRead start position ('!' :: cs) step p := by
  unfold readBang at h
  split at h
  · cases h
  next c cs =>
  split at h
  · next hc => exact hc ▸ readComment_piece (hc ▸ h)
  split at h
  · next hc => exact hc ▸ readLiteral_piece (hc ▸ h)
  split at h
  · exact readDoctype_piece h
  · cases h

theorem byteLength_stop (closed : Bool) :
    byteLength (Piece.stop closed) = (Piece.stop closed).length := by
  cases closed <;> rfl

theorem readInstruction_piece (h : readInstruction openTags (position + 1) cs = .ok step) :
    ∃ p, IsRead start position ('?' :: cs) step p := by
  unfold readInstruction at h
  split at h
  next body rest ended hsplit =>
  split at h
  · next hbody =>
    cases h
    obtain ⟨hangle, closed, hcs, hclosed, hended⟩ := splitAngle_spec hsplit
    refine ⟨.instruction body closed, ?_, ⟨hangle, hbody⟩, hclosed, ?_, rfl⟩
    · simp [Piece.chars, hcs]
    · simp [Piece.chars, utf8Size_marks, byteLength_stop, hended]
      omega
  · cases h

theorem endTagName_spec (content : List Char) :
    ∃ space, content = endTagName content ++ space ∧ ∀ c ∈ space, isSpace c = true := by
  unfold endTagName
  split
  · exact ⟨[], by simp, by simp⟩
  · refine ⟨(content.reverse.takeWhile isSpace).reverse, ?_, fun c hc => ?_⟩
    · rw [← List.reverse_append, List.takeWhile_append_dropWhile, List.reverse_reverse]
    · exact List.all_eq_true.1 List.all_takeWhile c (List.mem_reverse.1 hc)

theorem readEndTag_piece (h : readEndTag start openTags (position + 1) cs = .ok step) :
    ∃ p, IsRead start position ('/' :: cs) step p := by
  unfold readEndTag at h
  split at h
  next content rest ended hsplit =>
  simp only at h
  split at h
  · cases h
  split at h
  · cases h
    obtain ⟨hangle, closed, hcs, hclosed, hended⟩ := splitAngle_spec hsplit
    obtain ⟨space, hcontent, hspace⟩ := endTagName_spec content
    generalize endTagName content = name at hcontent
    subst hcontent
    refine ⟨.endTag name space closed, ?_, ⟨hangle, hspace⟩, hclosed, ?_, rfl⟩
    · simp [Piece.chars, hcs]
    · simp [Piece.chars, utf8Size_marks, byteLength_stop, hended]
      omega
  · cases h

theorem tagName_spec (content : List Char) :
    ∃ name inside, content.takeWhile (fun c => !isSpace c) = name ∧ content = name ++ inside ∧
      (∀ c ∈ name, isSpace c = false) ∧ ∀ c ∈ inside.head?, isSpace c = true := by
  refine ⟨_, content.dropWhile fun c => !isSpace c, rfl, List.takeWhile_append_dropWhile.symm,
    fun c hc => ?_, fun c hc => ?_⟩
  · simpa using List.all_eq_true.1 List.all_takeWhile c hc
  · have hhead := List.head?_dropWhile_not (fun c => !isSpace c) content
    rw [hc] at hhead
    simpa using hhead

theorem readStartTag_piece (hcs : ∀ c ∈ cs.head?, c ≠ '!' ∧ c ≠ '/' ∧ c ≠ '?')
    (h : readStartTag start openTags (position + 1) cs = .ok step) :
    ∃ p, IsRead start position cs step p := by
  unfold readStartTag at h
  split at h
  · cases h
  next content rest hsplit =>
  obtain ⟨hquotes, hcontent⟩ := quoteAfter_of_splitTag hsplit
  have hstart : ∀ c ∈ content.head?, c ≠ '!' ∧ c ≠ '/' ∧ c ≠ '?' := by
    intro c hc
    refine hcs c ?_
    rw [hcontent, List.head?_append, Option.mem_def.1 hc]
    rfl
  simp only at h
  split at h
  · cases h
  next attributes _ =>
  split at h
  · next hempty =>
    cases h
    obtain ⟨front, rfl⟩ := List.getLast?_eq_some_iff.1 hempty
    obtain ⟨name, inside, hname, hfront, hsolid, hapart⟩ := tagName_spec front
    subst hfront
    refine ⟨.emptyTag name inside, ?_, ⟨hstart, hsolid, hapart, hquotes⟩, nofun, ?_, ?_⟩
    · simp [Piece.chars, hcontent]
    · simp [Piece.chars, utf8Size_marks]
      omega
    · simp [Event.tag?, Piece.tags, hname]
  · next hempty =>
    cases h
    obtain ⟨name, inside, hname, rfl, hsolid, hapart⟩ := tagName_spec content
    have htag : Piece.IsTag name inside [] :=
      ⟨by simpa using hstart, hsolid, hapart, by simpa using hquotes⟩
    refine ⟨.startTag name inside, ?_, ⟨htag, hempty⟩, nofun, ?_, ?_⟩
    · simp [Piece.chars, hcontent]
    · simp [Piece.chars, utf8Size_marks]
      omega
    · simp [Event.tag?, Piece.tags, hname]

end Constructs

/-- Markup after a `<` is read as a piece. -/
theorem readMarkup_piece {start position : Nat} {openTags : List String} {cs : List Char}
    {step : Step} (h : readMarkup start openTags position cs = .ok step) :
    ∃ p, IsRead start position cs step p := by
  unfold readMarkup at h
  split at h
  · cases h
    exact ⟨.angle, rfl, trivial, fun _ => rfl, rfl, rfl⟩
  · exact readBang_piece h
  · exact readEndTag_piece h
  · exact readInstruction_piece h
  · next _ hbang hslash hquestion =>
    refine readStartTag_piece (fun c hc => ?_) h
    obtain ⟨tail, rfl⟩ := List.head?_eq_some_iff.1 hc
    refine ⟨?_, ?_, ?_⟩
    · rintro rfl
      exact hbang tail rfl
    · rintro rfl
      exact hslash tail rfl
    · rintro rfl
      exact hquestion tail rfl

/-! ## The whole text -/

/-- Pieces one after the other, of which only the last may be without its end. -/
def Cut : List Piece → Prop
  | [] => True
  | p :: rest => p.Lawful ∧ (p.isClosed = false → rest = []) ∧ Cut rest

def spansFrom (position : Nat) : List Piece → List (Piece × Span)
  | [] => []
  | p :: rest =>
    (p, ⟨position, position + byteLength p.chars⟩) :: spansFrom (position + byteLength p.chars) rest

def tagsOf (events : List Event) : List TagNotice := events.filterMap Event.tag?

/-- What is to be told of pieces from a position on, where a tag that starts at a position is told of
as starting at another. -/
def tagsFrom (start : Nat → Nat) (position : Nat) (pieces : List Piece) : List TagNotice :=
  (spansFrom position pieces).flatMap fun (p, span) => p.tags ⟨start span.start, span.stop⟩

theorem Piece.Lawful.chars_ne_nil {p : Piece} (h : p.Lawful) : p.chars ≠ [] := by
  cases p with
  | text cs => exact h.1
  | _ => exact List.cons_ne_nil _ _

theorem Cut.eq_nil {pieces : List Piece} (h : Cut pieces) (hnone : pieces.flatMap Piece.chars = []) :
    pieces = [] := by
  cases pieces with
  | nil => rfl
  | cons p rest => exact absurd (List.append_eq_nil_iff.1 hnone).1 h.1.chars_ne_nil

/-- What was read of some characters is told of pieces, which are all that there is up to a fault. -/
structure IsCut (start : Nat → Nat) (offset : Nat) (cs : List Char) (events : Events)
    (pieces : List Piece) (rest : List Char) : Prop where
  chars : cs = pieces.flatMap Piece.chars ++ rest
  cut : Cut pieces
  whole : events.fault? = none → rest = []
  tags : tagsOf events.list = tagsFrom start offset pieces

section Cuts

variable {start : Nat → Nat} {offset : Nat} {cs rest : List Char} {events : Events}
  {pieces : List Piece}

theorem IsCut.fault (start : Nat → Nat) (offset : Nat) (cs : List Char) (fault : Fault) :
    IsCut start offset cs { fault? := some fault } [] cs :=
  ⟨rfl, trivial, nofun, rfl⟩

theorem IsCut.prepend_text {text : List Char} {before : List Event} (htext : '<' ∉ text)
    (hbefore : tagsOf before = []) (h : IsCut start (offset + byteLength text) cs events pieces rest) :
    ∃ pieces, IsCut start offset (text ++ cs) (events.prepend before) pieces rest := by
  have htags : tagsOf (events.prepend before).list = tagsFrom start (offset + byteLength text) pieces := by
    rw [← h.tags]
    simp only [tagsOf] at hbefore
    simp [tagsOf, Events.prepend, hbefore]
  by_cases hempty : text = []
  · subst hempty
    exact ⟨pieces, h.chars, h.cut, h.whole, htags⟩
  · refine ⟨.text text :: pieces, ?_, ⟨⟨hempty, htext⟩, nofun, h.cut⟩, h.whole, htags⟩
    simp [Piece.chars, h.chars]

theorem IsCut.prepend_step {position : Nat} {step : Step} {p : Piece}
    (hp : IsRead (start position) position cs step p)
    (h : IsCut start step.offset step.rest events pieces rest) :
    IsCut start position ('<' :: cs) (events.prepend step.events) (p :: pieces) rest := by
  refine ⟨?_, ⟨hp.lawful, fun hclosed => ?_, h.cut⟩, h.whole, ?_⟩
  · rw [hp.chars, h.chars, List.flatMap_cons, List.append_assoc]
  · have hnone := h.chars.symm.trans (hp.closed hclosed)
    exact h.cut.eq_nil (List.append_eq_nil_iff.1 hnone).1
  · have hall : tagsOf (events.prepend step.events).list =
        step.events.filterMap Event.tag? ++ tagsOf events.list := List.filterMap_append
    rw [hall, hp.tags, h.tags, hp.offset]
    rfl

end Cuts

theorem tagsOf_readText {text : List Char} {offset : Nat} {events : List Event}
    (h : readText offset text = .ok events) : tagsOf events = [] := by
  unfold readText at h
  split at h
  · cases h
    rfl
  · cases hread : unescape (String.ofList text) <;> rw [hread] at h <;> cases h
    rfl

theorem takeWhile_angle (cs : List Char) :
    '<' ∉ cs.takeWhile (· != '<') ∧ cs.takeWhile (· != '<') ++ cs.dropWhile (· != '<') = cs ∧
      ∀ c ∈ (cs.dropWhile (· != '<')).head?, c = '<' := by
  refine ⟨fun hmem => absurd (List.all_eq_true.1 List.all_takeWhile _ hmem) (by simp),
    List.takeWhile_append_dropWhile, fun c hc => ?_⟩
  have hhead := List.head?_dropWhile_not (· != '<') cs
  rw [hc] at hhead
  simpa using hhead

/-- Up to a fault, characters are read as pieces. -/
theorem eventsFrom_pieces (locate : Nat → Nat) (openTags : List String) (offset : Nat)
    (cs : List Char) : ∃ pieces rest,
      IsCut locate offset cs (eventsFrom locate openTags offset cs) pieces rest := by
  -- The text up to the next `<` and the markup after it are a piece each.
  fun_induction eventsFrom locate openTags offset cs with
  | case1 openTags offset cs text error => exact ⟨[], cs, .fault ..⟩
  | case2 openTags offset cs text events hevents hdrop =>
    obtain ⟨htext, hsplit, -⟩ := takeWhile_angle cs
    have hend : IsCut locate (offset + byteLength text) [] {} [] [] :=
      ⟨rfl, trivial, fun _ => rfl, rfl⟩
    obtain ⟨pieces, hpieces⟩ := hend.prepend_text htext (tagsOf_readText hevents)
    rw [hdrop] at hsplit
    rw [hsplit] at hpieces
    exact ⟨pieces, [], by simpa [Events.prepend] using hpieces⟩
  | case3 openTags offset cs text position events hevents head more hdrop fault hstep =>
    obtain ⟨htext, hsplit, -⟩ := takeWhile_angle cs
    obtain ⟨pieces, hpieces⟩ := (IsCut.fault locate position (head :: more) fault).prepend_text htext
      (tagsOf_readText hevents)
    rw [← hdrop, hsplit] at hpieces
    exact ⟨pieces, _, by simpa [Events.prepend] using hpieces⟩
  | case4 openTags offset cs text position events hevents head more hdrop step hstep ih =>
    obtain ⟨htext, hsplit, hangle⟩ := takeWhile_angle cs
    obtain rfl : head = '<' := hangle head (by rw [hdrop]; rfl)
    obtain ⟨pieces, rest, hrest⟩ := ih
    obtain ⟨p, hp⟩ := readMarkup_piece hstep
    obtain ⟨pieces', hpieces⟩ := (hrest.prepend_step hp).prepend_text htext (tagsOf_readText hevents)
    rw [← hdrop, hsplit] at hpieces
    exact ⟨pieces', rest, by simpa [Events.prepend] using hpieces⟩

/-- In a text all of which is counted, each tag is found where it was come upon. -/
theorem eventsFrom_tagStart {source : String} {before cs : List Char}
    (hsource : source.toList = before ++ cs) (openTags : List String) :
    eventsFrom (tagStart source) openTags (byteLength before) cs =
      eventsFrom id openTags (byteLength before) cs := by
  induction hlength : cs.length using Nat.strong_induction_on generalizing before cs openTags with
  | _ length ih =>
    rw [eventsFrom_eq, eventsFrom_eq id]
    obtain ⟨-, hsplit, hangle⟩ := takeWhile_angle cs
    generalize cs.takeWhile (· != '<') = text at hsplit
    dsimp only
    cases readText (byteLength before) text with
    | error error => rfl
    | ok events =>
      cases hdrop : cs.dropWhile (· != '<') with
      | nil => rfl
      | cons c more =>
        obtain rfl : c = '<' := hangle c (by rw [hdrop]; rfl)
        rw [hdrop] at hsplit
        have hmore : source.toList = (before ++ text) ++ '<' :: more := by
          rw [hsource, ← hsplit, List.append_assoc]
        have hstart := tagStart_of_angle hmore
        rw [byteLength_append] at hstart
        dsimp only
        rw [hstart, id]
        cases hstep : readMarkup (byteLength before + byteLength text) openTags
            (byteLength before + byteLength text) more with
        | error fault => rfl
        | ok step =>
          -- What was read is a piece, so the rest comes right after the bytes that are counted.
          obtain ⟨p, hp⟩ := readMarkup_piece hstep
          have hrest : source.toList = (before ++ text ++ p.chars) ++ step.rest := by
            rw [hmore, hp.chars, ← List.append_assoc]
          have hoffset : step.offset = byteLength (before ++ text ++ p.chars) := by
            rw [hp.offset, byteLength_append, byteLength_append]
          have hlt : step.rest.length < cs.length := by
            have := length_le_of_readMarkup hstep
            rw [← hsplit, List.length_append, List.length_cons]
            omega
          dsimp only
          rw [hoffset, ih _ (hlength ▸ hlt) hrest step.openTags rfl]

/-! ## Tags of a source text -/

def orderMark (source : String) : List Char :=
  if source.toList.head? = some byteOrderMark then [byteOrderMark] else []

theorem events_of_mark {source : String} (h : source.toList.head? = some byteOrderMark) :
    events source = eventsFrom (tagStart source) [] 0 source.toList.tail := by
  rw [events, if_pos h]

theorem events_of_unmarked {source : String} (h : source.toList.head? ≠ some byteOrderMark) :
    events source = eventsFrom id [] 0 source.toList := by
  rw [events, if_neg h]
  exact eventsFrom_tagStart (List.nil_append _).symm []

/-- The span that a tag is told of with, given the bytes that it takes. After a byte order mark, which is
not counted, the end is three bytes short, and the start is the position three bytes before the tag if
there is a `<` there by chance, and else the one before that. -/
def toldSpan (source : String) (span : Span) : Span :=
  if orderMark source = [] then span
  else
    { start :=
        if charAt? (span.start - 3) source.toList = some '<' then span.start - 3 else span.start - 4
      stop := span.stop - 3 }

theorem spansFrom_add (position shift : Nat) (pieces : List Piece) :
    spansFrom (position + shift) pieces = (spansFrom position pieces).map fun (p, span) =>
      (p, ⟨span.start + shift, span.stop + shift⟩) := by
  induction pieces generalizing position with
  | nil => rfl
  | cons p rest ih =>
    have hnext : position + shift + byteLength p.chars = position + byteLength p.chars + shift := by omega
    rw [spansFrom, spansFrom, List.map_cons, hnext, ih]

theorem Cut.span_lt {pieces : List Piece} (h : Cut pieces) {position : Nat} :
    ∀ entry ∈ spansFrom position pieces,
      position ≤ entry.2.start ∧ entry.2.start < entry.2.stop := by
  induction pieces generalizing position with
  | nil => simp [spansFrom]
  | cons p rest ih =>
    have hpos : 0 < byteLength p.chars := by
      obtain ⟨c, cs, hcs⟩ := List.exists_cons_of_ne_nil h.1.chars_ne_nil
      have := c.utf8Size_pos
      rw [hcs, byteLength_cons]
      omega
    refine List.forall_mem_cons.2 ⟨by simp; omega, fun entry hentry => ?_⟩
    obtain ⟨hle, hlt⟩ := ih h.2.2 entry hentry
    omega

theorem Cut.spans_pairwise {pieces : List Piece} (h : Cut pieces) (position : Nat) :
    (spansFrom position pieces).Pairwise fun a b => a.2.stop ≤ b.2.start := by
  induction pieces generalizing position with
  | nil => exact .nil
  | cons p rest ih =>
    exact .cons (fun entry hentry => (h.2.2.span_lt entry hentry).1) (ih h.2.2 _)

/-- One tag ends before the next one starts, unless the two are one empty tag. -/
def TagNotice.Before (a b : TagNotice) : Prop :=
  a.span.stop ≤ b.span.start ∨ a.starts = true ∧ b = { a with starts := false }

theorem Piece.span_of_mem_tags {p : Piece} {span : Span} {t : TagNotice} (h : t ∈ p.tags span) :
    t.span = span := by
  cases p with
  | startTag name inside => rw [List.mem_singleton.1 h]
  | emptyTag name inside => rcases List.mem_pair.1 h with rfl | rfl <;> rfl
  | endTag name space closed => rw [List.mem_singleton.1 h]
  | _ => cases h

theorem Cut.tags_pairwise {pieces : List Piece} (h : Cut pieces) (position : Nat) :
    (tagsFrom id position pieces).Pairwise TagNotice.Before := by
  refine List.pairwise_flatMap.2 ⟨fun entry _ => ?_, (h.spans_pairwise position).imp ?_⟩
  · obtain ⟨p, span⟩ := entry
    cases p <;> simp [Piece.tags, TagNotice.Before]
  · intro a b hab t ht u hu
    refine .inl ?_
    rw [Piece.span_of_mem_tags ht, Piece.span_of_mem_tags hu]
    exact hab

theorem Cut.tag_lt {pieces : List Piece} (h : Cut pieces) (position : Nat) :
    ∀ t ∈ tagsFrom id position pieces, t.span.start < t.span.stop := by
  intro t ht
  obtain ⟨entry, hentry, hmem⟩ := List.mem_flatMap.1 ht
  rw [Piece.span_of_mem_tags hmem]
  exact (h.span_lt entry hentry).2

/-- What is read of a source text are pieces, which are all of it after a byte order mark unless there is
a fault. The tags that are told of are those among the pieces. Each is told of with the bytes that it
takes, from its `<` up to the `>` that ends it or else to the end of the text, so that one ends before the
next one starts; only with a byte order mark it is told of with other bytes. -/
theorem tags_told (source : String) : ∃ pieces rest,
    source.toList = orderMark source ++ (pieces.flatMap Piece.chars ++ rest) ∧ Cut pieces ∧
    ((events source).fault? = none → rest = []) ∧
    (tagsOf (events source).list =
      (spansFrom (byteLength (orderMark source)) pieces).flatMap fun (p, span) =>
        p.tags (toldSpan source span)) ∧
    (orderMark source = [] → (tagsOf (events source).list).Pairwise TagNotice.Before ∧
      ∀ t ∈ tagsOf (events source).list, t.span.start < t.span.stop) := by
  by_cases hmark : source.toList.head? = some byteOrderMark
  · have hevents := events_of_mark hmark
    have horder : orderMark source = [byteOrderMark] := if_pos hmark
    obtain ⟨pieces, rest, hcut⟩ := eventsFrom_pieces (tagStart source) [] 0 source.toList.tail
    rw [← hevents] at hcut
    obtain ⟨tail, htail⟩ := List.head?_eq_some_iff.1 hmark
    refine ⟨pieces, rest, ?_, hcut.cut, hcut.whole, ?_, fun hnone => ?_⟩
    · rw [horder, ← hcut.chars, htail]
      rfl
    · have hsize : byteLength [byteOrderMark] = 0 + 3 := by decide
      rw [hcut.tags, horder, hsize, spansFrom_add, List.flatMap_map]
      refine congrArg (List.flatMap · _) (funext fun (p, span) => ?_)
      simp [toldSpan, tagStart_eq, horder]
    · rw [horder] at hnone
      cases hnone
  · have hevents := events_of_unmarked hmark
    have horder : orderMark source = [] := if_neg hmark
    obtain ⟨pieces, rest, hcut⟩ := eventsFrom_pieces id [] 0 source.toList
    rw [← hevents] at hcut
    have htags : tagsOf (events source).list = tagsFrom id 0 pieces := hcut.tags
    refine ⟨pieces, rest, ?_, hcut.cut, hcut.whole, ?_, fun _ => ?_⟩
    · rw [horder]
      exact hcut.chars
    · rw [htags, horder]
      refine congrArg (List.flatMap · _) (funext fun (p, span) => ?_)
      simp [toldSpan, horder]
    · rw [htags]
      exact ⟨hcut.cut.tags_pairwise 0, hcut.cut.tag_lt 0⟩

def markedKml : String := "\ufeff<kml><Point/></kml>"

theorem readMarkup_markedKml :
    readMarkup (tagStart markedKml 0) [] 0 "kml><Point/></kml>".toList =
      .ok { events := [.startTag "kml" [] ⟨0, 5⟩], openTags := ["kml"], offset := 5,
            rest := "<Point/></kml>".toList } := by
  have hstart : tagStart markedKml 0 = 0 := by
    rw [tagStart_eq]
    decide
  have hsplit : splitTag none "kml><Point/></kml>".toList =
      some ("kml".toList, "<Point/></kml>".toList) := by decide
  have hslash : ¬"kml".toList.getLast? = some '/' := by decide
  have hname : ("kml".toList.takeWhile fun c => !isSpace c) = "kml".toList := by decide
  have hattributes : readAttributes (byteLength "kml".toList) [] = .ok [] :=
    readAttributesFrom_nil [] _
  change readStartTag (tagStart markedKml 0) [] 1 "kml><Point/></kml>".toList = _
  rw [hstart, readStartTag, hsplit]
  simp only [if_neg hslash, hname, List.drop_length, hattributes]
  rfl

/-- After a byte order mark, a tag is not told of with the bytes from its `<` to its `>`. -/
theorem not_tags_exact : ¬∀ source : String, ∀ t ∈ tagsOf (events source).list,
    ∃ before content after, source.toList = before ++ ('<' :: (content ++ '>' :: after)) ∧
      t.span = ⟨byteLength before, byteLength before + byteLength ('<' :: (content ++ ['>']))⟩ := by
  intro h
  have hmark : markedKml.toList.head? = some byteOrderMark := by decide
  have hevents := events_of_mark hmark
  have htail : markedKml.toList.tail = '<' :: "kml><Point/></kml>".toList := rfl
  rw [htail, eventsFrom_markup _ [] 0 readMarkup_markedKml] at hevents
  obtain ⟨before, content, after, hsource, hspan⟩ := h markedKml ⟨true, "kml", 0, 5⟩ (by
    rw [hevents]
    exact List.mem_cons_self)
  -- nothing comes before a tag that starts at the first byte, but the mark does
  have hbefore : byteLength before = 0 := (congrArg Span.start hspan).symm
  cases before with
  | nil =>
    rw [hsource] at hmark
    cases hmark
  | cons c before =>
    have hpos := c.utf8Size_pos
    rw [byteLength_cons] at hbefore
    omega

end KmlTree.Markup
