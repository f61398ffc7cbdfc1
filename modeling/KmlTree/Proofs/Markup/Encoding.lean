import KmlTree.Proofs.Markup.Layout

/-!
# The encoding of texts

A text between tags is written as one literal section or with references for some of its characters,
and the value of an attribute with references. Main statement: what is written is decoded to the text
that it was written for, and holds no other character that could be taken for markup.
-/
namespace KmlTree.Markup

open Text

/-! ## Decoding -/

inductive Decoding
  /-- Outside of references and literal sections. -/
  | plain
  /-- Within a reference, after these characters of its name, the latest first. -/
  | reference (name : List Char)
  /-- Within a literal section. -/
  | literal

/-- The text that some characters stand for. A literal section stands for what is in it up to the
first mark that ends it, and elsewhere a reference for the character of its entity. Tags, unknown
entities and what is cut short stand for nothing. -/
def decode : Decoding → List Char → Option (List Char)
  | .plain, [] => some []
  | .plain, '<' :: '!' :: '[' :: 'C' :: 'D' :: 'A' :: 'T' :: 'A' :: '[' :: cs => decode .literal cs
  | .plain, c :: cs =>
    if c = '<' then none
    else if c = '&' then decode (.reference []) cs
    else (decode .plain cs).map (c :: ·)
  | .reference _, [] => none
  | .reference name, c :: cs =>
    if c = ';' then
      (entityChar? (String.ofList name.reverse)).bind fun d => (decode .plain cs).map (d :: ·)
    else decode (.reference (c :: name)) cs
  | .literal, [] => none
  | .literal, ']' :: ']' :: '>' :: cs => decode .plain cs
  | .literal, c :: cs => (decode .literal cs).map (c :: ·)

theorem decode_plain {c : Char} (hangle : c ≠ '<') (hampersand : c ≠ '&') (cs : List Char) :
    decode .plain (c :: cs) = (decode .plain cs).map (c :: ·) := by
  rw [decode.eq_def]
  split <;> simp_all

theorem decode_reference {name : List Char} (h : ';' ∉ name) (collected rest : List Char) :
    decode (.reference collected) (name ++ rest) =
      decode (.reference (name.reverse ++ collected)) rest := by
  induction name generalizing collected with
  | nil => rfl
  | cons c name ih =>
    have hne : c ≠ ';' := by
      rintro rfl
      exact h List.mem_cons_self
    rw [List.cons_append, decode, if_neg hne, ih fun hmem => h (List.mem_cons_of_mem _ hmem)]
    simp

theorem entityChar?_entityName {c : Char} {name : String} (h : entityName? c = some name) :
    entityChar? name = some c := by
  unfold entityName? at h
  split at h <;> cases h <;> decide

theorem decode_entity {c : Char} {name : String} (h : entityName? c = some name) (rest : List Char) :
    decode .plain ('&' :: (name.toList ++ ';' :: rest)) = (decode .plain rest).map (c :: ·) := by
  have hname : ';' ∉ name.toList := fun hmem => (entityName_chars h ';' hmem).1 rfl
  have hopened : decode .plain ('&' :: (name.toList ++ ';' :: rest)) =
      decode (.reference []) (name.toList ++ ';' :: rest) := by
    simp [decode]
  rw [hopened, decode_reference hname, decode, if_pos rfl, List.append_nil, List.reverse_reverse,
    String.ofList_toList, entityChar?_entityName h, Option.bind_some]

/-- Guarded characters are decoded, wherever they stand. -/
theorem decode_escapeChars {guarded : List Char} (hangle : '<' ∈ guarded) (hampersand : '&' ∈ guarded)
    (cs rest : List Char) :
    decode .plain (escapeChars guarded cs ++ rest) = (decode .plain rest).map (cs ++ ·) := by
  induction cs with
  | nil => simp [escapeChars]
  | cons c cs ih =>
    have hplain (hc : c ≠ '<' ∧ c ≠ '&') :
        decode .plain ([c] ++ (escapeChars guarded cs ++ rest)) =
          (decode .plain rest).map (c :: cs ++ ·) := by
      rw [List.singleton_append, decode_plain hc.1 hc.2, ih, Option.map_map]
      rfl
    have hsplit : escapeChars guarded (c :: cs) ++ rest =
        (if guarded.contains c then reference c else [c]) ++ (escapeChars guarded cs ++ rest) := by
      simp [escapeChars]
    rw [hsplit]
    split
    · rw [reference]
      cases hname : entityName? c with
      | none => exact hplain (by constructor <;> rintro rfl <;> cases hname)
      | some name =>
        simp only [List.cons_append, List.append_assoc, List.nil_append]
        rw [decode_entity hname, ih, Option.map_map]
        rfl
    · next hc =>
      refine hplain ⟨?_, ?_⟩ <;> rintro rfl <;> exact hc (by simpa)

/-- The section ends with the writer's own mark, also where the text ends with brackets. -/
theorem decode_literal {cs : List Char} (h : hasLiteralEnd cs = false) (rest : List Char) :
    decode .literal (cs ++ ']' :: ']' :: '>' :: rest) = (decode .plain rest).map (cs ++ ·) := by
  induction cs with
  | nil => simp [decode]
  | cons c cs ih =>
    obtain ⟨htail, hhead⟩ := hasLiteralEnd_of_cons h
    have hnot (more : List Char) :
        c :: (cs ++ ']' :: ']' :: '>' :: rest) = ']' :: ']' :: '>' :: more → False := by
      intro heq
      obtain ⟨rfl, htake⟩ := List.cons.inj heq
      rcases cs with _ | ⟨a, _ | ⟨b, cs⟩⟩
      · simp at htake
      · simp at htake
      · exact hhead ⟨rfl, by simp_all⟩
    rw [List.cons_append, decode, ih htail, Option.map_map]
    · rfl
    · simpa using hnot

/-! ## Encodings -/

/-- An ampersand only starts a reference to a predefined entity. -/
inductive Referring : List Char → Prop
  | nil : Referring []
  | plain {c : Char} {cs : List Char} (hc : c ≠ '&') (hcs : Referring cs) : Referring (c :: cs)
  | reference {c : Char} {name : String} {cs : List Char} (hname : entityName? c = some name)
      (hcs : Referring cs) : Referring ('&' :: (name.toList ++ ';' :: cs))

theorem referring_escapeChars {guarded : List Char} (h : '&' ∈ guarded) (cs : List Char) :
    Referring (escapeChars guarded cs) := by
  induction cs with
  | nil => exact .nil
  | cons c cs ih =>
    have hsplit : escapeChars guarded (c :: cs) =
        (if guarded.contains c then reference c else [c]) ++ escapeChars guarded cs := rfl
    rw [hsplit]
    split
    · rw [reference]
      cases hname : entityName? c with
      | none => exact .plain (by rintro rfl; cases hname) ih
      | some name => simpa using Referring.reference hname ih
    · next hc => exact .plain (by rintro rfl; exact hc (by simpa)) ih

/-- Some characters encode a text between tags: as a literal section that it does not end, or with no
angle bracket that opens and no ampersand but those of references. -/
structure EncodesText (text : String) (emitted : List Char) : Prop where
  form : (emitted = "<![CDATA[".toList ++ text.toList ++ "]]>".toList ∧
      ¬[']', ']', '>'] <:+: text.toList) ∨ ('<' ∉ emitted ∧ Referring emitted)
  decoded : decode .plain emitted = some text.toList

/-- Some characters encode the value of an attribute within double quotes. -/
structure EncodesValue (value : String) (emitted : List Char) : Prop where
  marks : '"' ∉ emitted ∧ '<' ∉ emitted ∧ '>' ∉ emitted
  references : Referring emitted
  decoded : decode .plain emitted = some value.toList

theorem encodesText_contentChars (text : String) : EncodesText text (contentChars text) := by
  unfold contentChars
  split
  · next hliteral =>
    have hend : hasLiteralEnd text.toList = false := by
      simpa using (Bool.and_eq_true_iff.1 hliteral).2
    have hchars : (literal text).toList = "<![CDATA[".toList ++ text.toList ++ "]]>".toList := by
      simp [literal]
    refine ⟨.inl ⟨hchars, ?_⟩, ?_⟩
    · rw [← hasLiteralEnd_iff, hend]
      exact Bool.false_ne_true
    · have hdecode := decode_literal hend []
      rw [hchars]
      simpa [decode] using hdecode
  · rw [escapeText, String.toList_ofList]
    have hangle : '<' ∈ ['&', '<', '>'] := by decide
    have hampersand : '&' ∈ ['&', '<', '>'] := by decide
    have hdecode := decode_escapeChars hangle hampersand text.toList []
    exact ⟨.inr ⟨not_mem_escapeChars (by decide) (by decide) _, referring_escapeChars hampersand _⟩,
      by simpa [decode] using hdecode⟩

theorem encodesValue_escapeAttribute (value : String) :
    EncodesValue value (escapeAttribute value).toList := by
  rw [escapeAttribute, String.toList_ofList]
  have hangle : '<' ∈ ['&', '<', '>', '"'] := by decide
  have hampersand : '&' ∈ ['&', '<', '>', '"'] := by decide
  have hdecode := decode_escapeChars hangle hampersand value.toList []
  have hmark {d : Char} (hd : d ∈ ['<', '>', '"']) :
      d ∉ escapeChars ['&', '<', '>', '"'] value.toList :=
    not_mem_escapeChars (List.mem_of_mem_tail hd) hd _
  exact ⟨⟨hmark (by decide), hmark (by decide), hmark (by decide)⟩,
    referring_escapeChars hampersand _, by simpa [decode] using hdecode⟩

namespace Writer

/-- Outside of all elements any text is refused but the empty one, for which nothing is written. -/
theorem writeContent_outside {w : Writer} (hopen : w.openElements = []) (text : String) :
    w.writeContent text = if text = "" then .ok w else .error .textOutsideElement := by
  have hraw (markup : String) : w.writeRaw markup = .error .textOutsideElement := by
    simp [writeRaw, hopen]
  unfold writeContent
  by_cases hempty : text = ""
  · rw [if_pos hempty, if_pos (by simpa using hempty)]
  · rw [if_neg hempty, if_neg (by simpa using hempty)]
    split
    · next hliteral =>
      have hend : hasLiteralEnd text.toList = false := by
        simpa using (Bool.and_eq_true_iff.1 hliteral).2
      simp only [writeLiteral, hend, hraw]
      rfl
    · exact hraw _

theorem writeContent_output {w : Writer} (hopen : w.openElements ≠ []) (text : String) :
    ∃ w', w.writeContent text = .ok w' ∧ w'.output = w.output ++
      (if text ≠ "" ∧ w.stage = .startTag then ">" else "") ++ String.ofList (contentChars text) := by
  refine ⟨_, w.writeContent_eq text hopen, ?_⟩
  by_cases hempty : text = ""
  · subst hempty
    simp [contentChars, escapeText, escapeChars]
  · rw [if_neg (by simpa using hempty)]
    cases hstage : w.stage <;> simp [closeTag, hstage, write, modifyInnermost, hempty]

/-- A text is never refused as a literal section. It is written into any element that is open, and
what is added, apart from the end of a start tag, encodes it. What is added between the quotes of an
attribute encodes its value. -/
theorem writes_encoded (w : Writer) (text : String) :
    w.writeContent text ≠ .error .literalEnd ∧
    (w.openElements ≠ [] → ∃ w' emitted, w.writeContent text = .ok w' ∧ EncodesText text emitted ∧
      w'.output = w.output ++ (if text ≠ "" ∧ w.stage = .startTag then ">" else "") ++
        String.ofList emitted) ∧
    (w.openElements = [] →
      w.writeContent text = if text = "" then .ok w else .error .textOutsideElement) ∧
    (w.stage = .startTag → ∀ name, ∃ emitted, EncodesValue text emitted ∧
      w.writeAttribute name text =
        .ok (w.write (" " ++ name ++ "=\"" ++ String.ofList emitted ++ "\""))) := by
  refine ⟨?_, fun hopen => ?_, fun hopen => writeContent_outside hopen text, fun hstage name => ?_⟩
  · by_cases hopen : w.openElements = []
    · rw [writeContent_outside hopen]
      split <;> simp
    · rw [w.writeContent_eq text hopen]
      simp
  · obtain ⟨w', hwrite, houtput⟩ := writeContent_output hopen text
    exact ⟨w', _, hwrite, encodesText_contentChars text, houtput⟩
  · refine ⟨_, encodesValue_escapeAttribute text, ?_⟩
    rw [writeAttribute, if_pos hstage, String.ofList_toList]

/-- Where a section cannot hold a text, references are written for its marks. -/
theorem writes_encoded_brackets :
    let w := Writer.start {} "Snippet"
    w.openElements ≠ [] ∧ w.stage = .startTag ∧
    (∃ w' emitted, w.writeContent "a ]]> b & c" = .ok w' ∧ EncodesText "a ]]> b & c" emitted ∧
      w'.output = "<Snippet" ++ ">" ++ String.ofList emitted) ∧
    ∃ emitted, EncodesValue "a ]]> b & c" emitted ∧ w.writeAttribute "maxLines" "a ]]> b & c" =
      .ok (w.write (" maxLines=\"" ++ String.ofList emitted ++ "\"")) := by
  obtain ⟨-, hinside, -, hattribute⟩ := writes_encoded (Writer.start {} "Snippet") "a ]]> b & c"
  exact ⟨by decide, by decide, hinside (by decide), hattribute (by decide) "maxLines"⟩

end Writer

end KmlTree.Markup
