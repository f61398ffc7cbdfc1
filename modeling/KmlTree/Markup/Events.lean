import KmlTree.Markup.Attributes
import KmlTree.Text.Position

/-!
# Source texts as events

A source text is read as a sequence of events: start tags, text and end tags. Comments,
declarations, processing instructions and document types leave no event. Where the markup is at
fault the sequence ends, with the fault as its last member. End tags are matched with start tags
here; that all elements are ended is left to the reader of the events.
-/
namespace KmlTree.Markup

open Text

/-- A part of a source text that bears on the tree. -/
inductive Event
  | startTag (name : String) (attributes : List (String × String)) (span : Span)
  | text (text : String) (offset : Nat)
  | endTag (name : String) (span : Span)
  deriving DecidableEq, Repr

/-- A construct that the end of the text may cut short. -/
inductive Construct
  | bang | comment | literal | doctype | instruction | tag
  deriving DecidableEq, Repr

def Construct.describe : Construct → String
  | .bang => "Bang"
  | .comment => "Comment"
  | .literal => "CData"
  | .doctype => "DOCTYPE"
  | .instruction => "XmlDecl"
  | .tag => "Element"

inductive MarkupError
  /-- A construct is not complete, or not what its start promises. -/
  | incomplete (construct : Construct)
  /-- A byte after `<!` starts no construct. -/
  | unknownBang (byte : Nat)
  /-- A document type is left blank. -/
  | emptyDoctype
  /-- An end tag does not have the name of the latest start tag. -/
  | mismatched (expected found : String)
  | attribute (error : AttributeError)
  | reference (error : ReferenceError)
  deriving DecidableEq, Repr

def MarkupError.message : MarkupError → String
  | .incomplete construct => "Unexpected EOF during reading " ++ construct.describe
  | .unknownBang byte =>
    "Only Comment (`--`), CDATA (`[CDATA[`) and DOCTYPE (`DOCTYPE`) nodes can start with a '!', " ++
      s!"but symbol `{Char.ofNat byte}` found"
  | .emptyDoctype => "DOCTYPE declaration must not be empty"
  | .mismatched expected found => s!"Expecting </{expected}> found </{found}>"
  | .attribute error => error.message
  | .reference error => error.message

/-- A fault in the markup of a source text, with the position at which it is reported. -/
structure Fault where
  error : MarkupError
  offset : Nat
  deriving DecidableEq, Repr

/-- The events of a source text, up to its end or to a fault. -/
structure Events where
  list : List Event := []
  fault? : Option Fault := none
  deriving DecidableEq, Repr

def Events.prepend (events : List Event) (rest : Events) : Events :=
  { rest with list := events ++ rest.list }

/-! ## Constructs

Each reader takes the characters after the start of a construct, and gives those up to its end
and those after it. -/

/-- The characters before the first `>`, those after it, and the number of bytes that it takes: none
if it is missing. -/
def splitAngle (cs : List Char) : List Char × List Char × Nat :=
  (cs.takeWhile (· != '>'), (cs.dropWhile (· != '>')).tail, if cs.contains '>' then 1 else 0)

/-- The characters before the `>` that ends a start tag, which is not within quotes. -/
def splitTag (quote? : Option Char) : List Char → Option (List Char × List Char)
  | [] => none
  | c :: cs =>
    match quote? with
    | some quote => (splitTag (if c = quote then none else quote?) cs).map fun (a, b) => (c :: a, b)
    | none =>
      if c = '>' then some ([], cs)
      else
        (splitTag (if c = '"' ∨ c = '\'' then some c else none) cs).map fun (a, b) => (c :: a, b)

/-- The characters before a mark of three, a character twice and a `>`, and those after it. -/
def splitMark (twice : Char) : List Char → Option (List Char × List Char)
  | [] => none
  | c :: cs =>
    if c = twice ∧ cs.take 2 = [twice, '>'] then some ([], cs.drop 2)
    else (splitMark twice cs).map fun (a, b) => (c :: a, b)

/-- The characters before the `>` that ends a document type, given the number of angle brackets that
are open within it. -/
def splitDoctype (nested : Nat) : List Char → Option (List Char × List Char)
  | [] => none
  | c :: cs =>
    if c = '>' ∧ nested = 0 then some ([], cs)
    else
      let nested := if c = '<' then nested + 1 else if c = '>' then nested - 1 else nested
      (splitDoctype nested cs).map fun (a, b) => (c :: a, b)

/-- Whether some characters start with a word, in either case of its letters. -/
def startsWithWord (word cs : List Char) : Bool :=
  (cs.take word.length).map Char.toUpper == word

/-- What was read of a source text in one go. -/
structure Step where
  events : List Event := []
  /-- The names of the elements that are open after it, the innermost first. -/
  openTags : List String
  offset : Nat
  rest : List Char

/-- The position of the `<` of a tag, given the position at which the tag was come upon. A byte order
mark that was passed over is not counted: then the position points anywhere in the source text, and
is moved back unless it happens to point at a `<`. -/
def tagStart (source : String) (position : Nat) : Nat :=
  if byteAt? source position = some '<'.toUInt8 then position else position - 1

theorem tagStart_eq (source : String) (position : Nat) :
    tagStart source position =
      if charAt? position source.toList = some '<' then position else position - 1 := by
  simp only [tagStart, byteAt?_eq_some_iff (by decide : '<'.val ≤ 127)]

/-- Where the position is that of a `<`, it is found there. -/
theorem tagStart_of_angle {source : String} {before after : List Char}
    (h : source.toList = before ++ '<' :: after) :
    tagStart source (byteLength before) = byteLength before := by
  have hangle := charAt?_append 0 before ('<' :: after)
  rw [Nat.add_zero, ← h] at hangle
  rw [tagStart_eq, hangle, charAt?, if_pos rfl, if_pos rfl]

def readComment (openTags : List String) (offset : Nat) (cs : List Char) : Except Fault Step :=
  match cs with
  | _ :: second :: rest =>
    match splitMark '-' rest with
    | none => .error ⟨.incomplete .comment, offset⟩
    | some (body, rest) =>
      let after := offset + byteLength ('!' :: '-' :: second :: body) + 3
      if second = '-' then .ok { openTags, offset := after, rest }
      else .error ⟨.incomplete .comment, after⟩
  | _ => .error ⟨.incomplete .comment, offset⟩

/-- A section of literal text, read from the `[` on. It is reported at the position `start`. -/
def readLiteral (start : Nat) (openTags : List String) (offset : Nat) (cs : List Char) :
    Except Fault Step :=
  match splitMark ']' cs.tail with
  | none => .error ⟨.incomplete .literal, offset⟩
  | some (body, rest) =>
    let after := offset + byteLength ('!' :: '[' :: body) + 3
    if startsWithWord ['C', 'D', 'A', 'T', 'A', '['] body then
      .ok { events := [.text (String.ofList (body.drop 6)) start], openTags, offset := after, rest }
    else .error ⟨.incomplete .literal, after⟩

def readDoctype (openTags : List String) (offset : Nat) (cs : List Char) : Except Fault Step :=
  match splitDoctype 0 cs with
  | none => .error ⟨.incomplete .doctype, offset⟩
  | some (body, rest) =>
    let after := offset + byteLength ('!' :: body) + 1
    if !startsWithWord ['D', 'O', 'C', 'T', 'Y', 'P', 'E'] body then
      .error ⟨.incomplete .doctype, after⟩
    else if (body.drop 7).all isSpace then .error ⟨.emptyDoctype, after⟩
    else .ok { openTags, offset := after, rest }

def readBang (start : Nat) (openTags : List String) (offset : Nat) (cs : List Char) :
    Except Fault Step :=
  match cs with
  | [] => .error ⟨.incomplete .bang, offset⟩
  | c :: _ =>
    if c = '-' then readComment openTags offset cs
    else if c = '[' then readLiteral start openTags offset cs
    else if c = 'D' ∨ c = 'd' then readDoctype openTags offset cs
    else .error ⟨.unknownBang (leadByte c), offset⟩

def readInstruction (openTags : List String) (offset : Nat) (cs : List Char) : Except Fault Step :=
  match splitAngle cs with
  | (body, rest, ended) =>
    if body.length > 1 ∧ body.getLast? = some '?' then
      .ok { openTags, offset := offset + byteLength ('?' :: body) + ended, rest }
    else .error ⟨.incomplete .instruction, offset + ended⟩

/-- The name in an end tag: white space after it is no part of it. -/
def endTagName (content : List Char) : List Char :=
  if content.all isSpace then content else (content.reverse.dropWhile isSpace).reverse

def readEndTag (start : Nat) (openTags : List String) (offset : Nat) (cs : List Char) :
    Except Fault Step :=
  match splitAngle cs with
  | (content, rest, ended) =>
    let name := String.ofList (endTagName content)
    match openTags with
    | [] => .error ⟨.mismatched "" (String.ofList content), offset + ended⟩
    | expected :: openTags =>
      if name = expected then
        let after := offset + byteLength ('/' :: content) + ended
        .ok { events := [.endTag name ⟨start, after⟩], openTags, offset := after, rest }
      else .error ⟨.mismatched expected name, offset + ended⟩

/-- A start tag or an empty tag, read from the character after `<` on. An empty tag gives both
events of an element without content. -/
def readStartTag (start : Nat) (openTags : List String) (offset : Nat) (cs : List Char) :
    Except Fault Step :=
  match splitTag none cs with
  | none => .error ⟨.incomplete .tag, offset⟩
  | some (content, rest) =>
    let after := offset + byteLength content + 1
    let isEmpty := content.getLast? = some '/'
    let content := if isEmpty then content.dropLast else content
    let name := content.takeWhile fun c => !isSpace c
    match readAttributes (byteLength name) (content.drop name.length) with
    | .error error =>
      .error ⟨.attribute error, start⟩
    | .ok attributes =>
      let name := String.ofList name
      let span : Span := ⟨start, after⟩
      if isEmpty then
        .ok { events := [.startTag name attributes span, .endTag name span], openTags,
              offset := after, rest }
      else
        .ok { events := [.startTag name attributes span], openTags := name :: openTags,
              offset := after, rest }

/-- The markup after a `<` at a position, where a tag is told of with `start` as its first byte. -/
def readMarkup (start : Nat) (openTags : List String) (position : Nat) (cs : List Char) :
    Except Fault Step :=
  let offset := position + 1
  match cs with
  | [] => .ok { openTags, offset, rest := [] }
  | '!' :: cs => readBang position openTags offset cs
  | '/' :: cs => readEndTag start openTags offset cs
  | '?' :: cs => readInstruction openTags offset cs
  | cs => readStartTag start openTags offset cs

/-! ## The whole text -/

theorem length_le_of_splitAngle {cs body rest : List Char} {ended : Nat}
    (h : splitAngle cs = (body, rest, ended)) : rest.length ≤ cs.length := by
  cases h
  have := (List.dropWhile_sublist (l := cs) (· != '>')).length_le
  simp
  omega

theorem length_lt_of_splitTag {quote? : Option Char} {cs a b : List Char}
    (h : splitTag quote? cs = some (a, b)) : b.length < cs.length := by
  induction cs generalizing quote? a b with
  | nil => simp [splitTag] at h
  | cons c cs ih =>
    simp only [splitTag] at h
    split at h
    · obtain ⟨⟨a', b'⟩, h', he⟩ := Option.map_eq_some_iff.1 h
      cases he
      exact Nat.lt_succ_of_lt (ih h')
    · split at h
      · cases h
        simp
      · obtain ⟨⟨a', b'⟩, h', he⟩ := Option.map_eq_some_iff.1 h
        cases he
        exact Nat.lt_succ_of_lt (ih h')

theorem length_lt_of_splitMark {twice : Char} {cs a b : List Char}
    (h : splitMark twice cs = some (a, b)) : b.length < cs.length := by
  induction cs generalizing a b with
  | nil => simp [splitMark] at h
  | cons c cs ih =>
    simp only [splitMark] at h
    split at h
    · cases h
      exact Nat.lt_succ_of_le (List.drop_sublist 2 cs).length_le
    · obtain ⟨⟨a', b'⟩, h', he⟩ := Option.map_eq_some_iff.1 h
      cases he
      exact Nat.lt_succ_of_lt (ih h')

theorem length_lt_of_splitDoctype {nested : Nat} {cs a b : List Char}
    (h : splitDoctype nested cs = some (a, b)) : b.length < cs.length := by
  induction cs generalizing nested a b with
  | nil => simp [splitDoctype] at h
  | cons c cs ih =>
    simp only [splitDoctype] at h
    split at h
    · cases h
      simp
    · obtain ⟨⟨a', b'⟩, h', he⟩ := Option.map_eq_some_iff.1 h
      cases he
      exact Nat.lt_succ_of_lt (ih h')

theorem length_le_of_readBang {start offset : Nat} {openTags : List String} {cs : List Char}
    {step : Step} (h : readBang start openTags offset cs = .ok step) :
    step.rest.length ≤ cs.length := by
  unfold readBang at h
  split at h
  · cases h
  next c r =>
  split at h
  · unfold readComment at h
    split at h
    next first second rest heq =>
      split at h
      · cases h
      next body rest' hs =>
        split at h
        · cases h
          have := length_lt_of_splitMark hs
          rw [heq]
          simp
          omega
        · cases h
    · cases h
  split at h
  · unfold readLiteral at h
    split at h
    · cases h
    next body rest' hs =>
      split at h
      · cases h
        have := length_lt_of_splitMark hs
        simp at this ⊢
        omega
      · cases h
  split at h
  · unfold readDoctype at h
    split at h
    · cases h
    next body rest' hs =>
      split at h
      · cases h
      split at h
      · cases h
      · cases h
        exact Nat.le_of_lt (length_lt_of_splitDoctype hs)
  · cases h

theorem length_le_of_readInstruction {openTags : List String} {offset : Nat} {cs : List Char}
    {step : Step} (h : readInstruction openTags offset cs = .ok step) :
    step.rest.length ≤ cs.length := by
  unfold readInstruction at h
  split at h
  next body rest ended hs =>
  split at h
  · cases h
    exact length_le_of_splitAngle hs
  · cases h

theorem length_le_of_readEndTag {start offset : Nat} {openTags : List String} {cs : List Char}
    {step : Step} (h : readEndTag start openTags offset cs = .ok step) :
    step.rest.length ≤ cs.length := by
  unfold readEndTag at h
  split at h
  next content rest ended hs =>
  dsimp only at h
  split at h
  · cases h
  split at h
  · cases h
    exact length_le_of_splitAngle hs
  · cases h

theorem length_le_of_readStartTag {start offset : Nat} {openTags : List String} {cs : List Char}
    {step : Step} (h : readStartTag start openTags offset cs = .ok step) :
    step.rest.length ≤ cs.length := by
  unfold readStartTag at h
  split at h
  · cases h
  next content rest hs =>
  have hlt := Nat.le_of_lt (length_lt_of_splitTag hs)
  dsimp only at h
  split at h
  · cases h
  · split at h <;> cases h <;> exact hlt

theorem length_le_of_readMarkup {start position : Nat} {openTags : List String} {cs : List Char}
    {step : Step} (h : readMarkup start openTags position cs = .ok step) :
    step.rest.length ≤ cs.length := by
  unfold readMarkup at h
  split at h
  · cases h
    simp
  · exact Nat.le_succ_of_le (length_le_of_readBang h)
  · exact Nat.le_succ_of_le (length_le_of_readEndTag h)
  · exact Nat.le_succ_of_le (length_le_of_readInstruction h)
  · exact length_le_of_readStartTag h

def readText (offset : Nat) (text : List Char) : Except ReferenceError (List Event) :=
  if text.isEmpty then .ok []
  else (unescape (String.ofList text)).map fun text => [.text text offset]

/-- The events of a source text from a position on, where the characters `cs` are left and the
elements `openTags` are open. `locate` gives the start of a tag that was come upon at a position. -/
def eventsFrom (locate : Nat → Nat) (openTags : List String) (offset : Nat) (cs : List Char) :
    Events :=
  let text := cs.takeWhile (· != '<')
  let position := offset + byteLength text
  match readText offset text with
  | .error error => { fault? := some ⟨.reference error, offset⟩ }
  | .ok events =>
    match _hcs : cs.dropWhile (· != '<') with
    | [] => { list := events }
    | _ :: rest =>
      match _hstep : readMarkup (locate position) openTags position rest with
      | .error fault => { list := events, fault? := some fault }
      | .ok step =>
        (eventsFrom locate step.openTags step.offset step.rest).prepend (events ++ step.events)
termination_by cs.length
decreasing_by
  have h₁ := length_le_of_readMarkup _hstep
  have h₂ := (List.dropWhile_sublist (l := cs) (· != '<')).length_le
  rw [_hcs] at h₂
  simp at h₂
  omega

theorem eventsFrom_eq (locate : Nat → Nat) (openTags : List String) (offset : Nat)
    (cs : List Char) :
    eventsFrom locate openTags offset cs =
      let text := cs.takeWhile (· != '<')
      let position := offset + byteLength text
      match readText offset text with
      | .error error => { fault? := some ⟨.reference error, offset⟩ }
      | .ok events =>
        match cs.dropWhile (· != '<') with
        | [] => { list := events }
        | _ :: rest =>
          match readMarkup (locate position) openTags position rest with
          | .error fault => { list := events, fault? := some fault }
          | .ok step =>
            (eventsFrom locate step.openTags step.offset step.rest).prepend
              (events ++ step.events) := by
  rw [eventsFrom]
  dsimp only
  cases readText offset (cs.takeWhile (· != '<')) with
  | error error => rfl
  | ok events =>
    dsimp only
    split
    · next hdrop => rw [hdrop]
    · next hdrop =>
      rw [hdrop]
      dsimp only
      split
      · next hstep => rw [hstep]
      · next hstep => rw [hstep]

/-- The markup after a `<` is read in one go. -/
theorem eventsFrom_markup (locate : Nat → Nat) (openTags : List String) (offset : Nat)
    {more : List Char} {step : Step}
    (h : readMarkup (locate offset) openTags offset more = .ok step) :
    eventsFrom locate openTags offset ('<' :: more) =
      (eventsFrom locate step.openTags step.offset step.rest).prepend step.events := by
  have htake : ('<' :: more).takeWhile (· != '<') = [] := rfl
  have hdrop : ('<' :: more).dropWhile (· != '<') = '<' :: more := rfl
  have htext : readText offset [] = .ok [] := rfl
  rw [eventsFrom_eq]
  simp only [htake, hdrop, htext, byteLength_nil, Nat.add_zero, h]
  rfl

def byteOrderMark : Char := '\ufeff'

/-- The events of a source text. A byte order mark at its start is passed over and not counted in
the positions of what follows. -/
def events (source : String) : Events :=
  let cs := source.toList
  eventsFrom (tagStart source) [] 0 (if cs.head? = some byteOrderMark then cs.tail else cs)

end KmlTree.Markup
