import KmlTree.Proofs.Markup.References
import KmlTree.Markup.Events

/-!
# Tags are read back

A tag is read up to the first angle bracket that is not within quotes, so what matters of a name or
key is which quotes it leaves open. Main statements: a start tag is read back with all its
attributes, an end tag with its name, and a literal section with its text.
-/
namespace KmlTree.Markup

open Text

/-! ## Quotes -/

/-- The quote that is open after some characters, or nothing if a `>` among them ends the tag. -/
def quoteAfter (quote? : Option Char) : List Char → Option (Option Char)
  | [] => some quote?
  | c :: cs =>
    match quote? with
    | some quote => quoteAfter (if c = quote then none else quote?) cs
    | none =>
      if c = '>' then none else quoteAfter (if c = '"' ∨ c = '\'' then some c else none) cs

theorem quoteAfter_append (quote? : Option Char) (xs ys : List Char) :
    quoteAfter quote? (xs ++ ys) = (quoteAfter quote? xs).bind fun quote? => quoteAfter quote? ys := by
  induction xs generalizing quote? with
  | nil => rfl
  | cons c xs ih =>
    cases quote? with
    | some quote => exact ih _
    | none =>
      simp only [List.cons_append, quoteAfter]
      split
      · rfl
      · exact ih _

theorem quoteAfter_plain {c : Char} (hc : c ≠ '>' ∧ c ≠ '"' ∧ c ≠ '\'') (cs : List Char) :
    quoteAfter none (c :: cs) = quoteAfter none cs := by
  simp [quoteAfter, hc.1, hc.2.1, hc.2.2]

theorem splitTag_append {quote? quote?' : Option Char} {xs : List Char}
    (h : quoteAfter quote? xs = some quote?') (ys : List Char) :
    splitTag quote? (xs ++ ys) = (splitTag quote?' ys).map fun (a, b) => (xs ++ a, b) := by
  induction xs generalizing quote? with
  | nil =>
    cases h
    rw [List.nil_append]
    cases splitTag quote?' ys <;> rfl
  | cons c xs ih =>
    cases quote? with
    | some quote =>
      rw [List.cons_append, splitTag, ih h, Option.map_map]
      rfl
    | none =>
      simp only [quoteAfter] at h
      split at h
      · cases h
      next hc =>
      simp only [List.cons_append, splitTag, hc, if_false]
      rw [ih h, Option.map_map]
      rfl

/-- The content of a tag leaves no quote open. -/
theorem quoteAfter_of_splitTag {quote? : Option Char} {cs content rest : List Char}
    (h : splitTag quote? cs = some (content, rest)) :
    quoteAfter quote? content = some none ∧ cs = content ++ '>' :: rest := by
  induction cs generalizing quote? content with
  | nil => cases h
  | cons c cs ih =>
    cases quote? with
    | some quote =>
      obtain ⟨⟨a, b⟩, hsplit, heq⟩ := Option.map_eq_some_iff.1 h
      cases heq
      obtain ⟨hquote, hcs⟩ := ih hsplit
      exact ⟨hquote, by rw [hcs]; rfl⟩
    | none =>
      simp only [splitTag] at h
      split at h
      · next hc =>
        cases h
        exact ⟨rfl, by rw [hc]; rfl⟩
      · next hc =>
        obtain ⟨⟨a, b⟩, hsplit, heq⟩ := Option.map_eq_some_iff.1 h
        cases heq
        obtain ⟨hquote, hcs⟩ := ih hsplit
        refine ⟨?_, by rw [hcs]; rfl⟩
        simp only [quoteAfter, hc, if_false]
        exact hquote

theorem splitTag_content {content : List Char} (h : quoteAfter none content = some none)
    (rest : List Char) : splitTag none (content ++ '>' :: rest) = some (content, rest) := by
  rw [splitTag_append h]
  simp [splitTag]

theorem quoteAfter_quoted {cs : List Char} (h : '"' ∉ cs) :
    quoteAfter (some '"') (cs ++ ['"']) = some none := by
  induction cs with
  | nil => rfl
  | cons c cs ih =>
    have hne : c ≠ '"' := by
      rintro rfl
      exact h List.mem_cons_self
    rw [List.cons_append, quoteAfter, if_neg hne]
    exact ih fun hmem => h (List.mem_cons_of_mem _ hmem)

/-! ## Names and keys -/

structure IsTagName (name : String) : Prop where
  ne_nil : name.toList ≠ []
  start : ∀ c ∈ name.toList.head?, c ≠ '!' ∧ c ≠ '/' ∧ c ≠ '?'
  chars : ∀ c ∈ name.toList, isSpace c = false ∧ c ≠ '>'
  last : name.toList.getLast? ≠ some '/'
  quotes : quoteAfter none name.toList = some none

instance (name : String) : Decidable (IsTagName name) :=
  decidable_of_iff (name.toList ≠ [] ∧
      name.toList.head?.all (fun c => c != '!' && c != '/' && c != '?') ∧
        name.toList.all (fun c => !isSpace c && c != '>') ∧ name.toList.getLast? ≠ some '/' ∧
          quoteAfter none name.toList = some none) <| by
    constructor
    · rintro ⟨hne, hstart, hchars, hlast, hquotes⟩
      refine ⟨hne, fun c hc => ?_, fun c hc => ?_, hlast, hquotes⟩
      · simpa [Option.mem_def.1 hc, and_assoc] using hstart
      · simpa using List.all_eq_true.1 hchars c hc
    · intro h
      refine ⟨h.ne_nil, ?_, ?_, h.last, h.quotes⟩
      · have hstart := h.start
        cases hhead : name.toList.head? with
        | none => rfl
        | some c => simpa [and_assoc] using hstart c hhead
      · exact List.all_eq_true.2 fun c hc => by simpa using h.chars c hc

structure IsKey (key : String) : Prop where
  ne_nil : key.toList ≠ []
  start : ∀ c ∈ key.toList.head?, isSpace c = false
  chars : ∀ c ∈ key.toList.tail, isSpace c = false ∧ c ≠ '='
  quotes : quoteAfter none key.toList = some none

instance (key : String) : Decidable (IsKey key) :=
  decidable_of_iff (key.toList ≠ [] ∧ key.toList.head?.all (fun c => !isSpace c) ∧
      key.toList.tail.all (fun c => !isSpace c && c != '=') ∧
        quoteAfter none key.toList = some none) <| by
    constructor
    · rintro ⟨hne, hstart, hchars, hquotes⟩
      refine ⟨hne, fun c hc => ?_, fun c hc => ?_, hquotes⟩
      · simpa [Option.mem_def.1 hc] using hstart
      · simpa using List.all_eq_true.1 hchars c hc
    · intro h
      refine ⟨h.ne_nil, ?_, ?_, h.quotes⟩
      · have hstart := h.start
        cases hhead : key.toList.head? with
        | none => rfl
        | some c => simpa using hstart c hhead
      · exact List.all_eq_true.2 fun c hc => by simpa using h.chars c hc

def attributeChars (entry : String × String) : List Char :=
  ' ' :: (entry.1.toList ++ '=' :: '"' :: ((escapeAttribute entry.2).toList ++ ['"']))

def attributesChars (attributes : List (String × String)) : List Char :=
  attributes.flatMap attributeChars

theorem quoteAfter_attributeChars {entry : String × String} (h : IsKey entry.1) :
    quoteAfter none (attributeChars entry) = some none := by
  have hvalue : '"' ∉ (escapeAttribute entry.2).toList := by
    rw [escapeAttribute, String.toList_ofList]
    exact not_mem_escapeChars (by decide) (by decide) _
  have hopened : quoteAfter none ('=' :: '"' :: ((escapeAttribute entry.2).toList ++ ['"'])) =
      quoteAfter (some '"') ((escapeAttribute entry.2).toList ++ ['"']) := by
    rw [quoteAfter_plain (by decide)]
    simp [quoteAfter]
  rw [attributeChars, quoteAfter_plain (by decide), quoteAfter_append, h.quotes, Option.bind_some,
    hopened]
  exact quoteAfter_quoted hvalue

theorem quoteAfter_attributesChars {attributes : List (String × String)}
    (h : ∀ entry ∈ attributes, IsKey entry.1) :
    quoteAfter none (attributesChars attributes) = some none := by
  induction attributes with
  | nil => rfl
  | cons entry rest ih =>
    have hentry := quoteAfter_attributeChars (h entry List.mem_cons_self)
    have hrest := ih fun e he => h e (List.mem_cons_of_mem _ he)
    rw [attributesChars, List.flatMap_cons, quoteAfter_append, hentry]
    exact hrest

/-! ## Attributes -/

theorem takeWhile_append_stop {p : Char → Bool} {xs ys : List Char} (hxs : ∀ c ∈ xs, p c = true)
    (hys : ∀ c ∈ ys.head?, p c = false) : (xs ++ ys).takeWhile p = xs := by
  rw [List.takeWhile_append_of_pos hxs]
  cases ys with
  | nil => simp
  | cons c ys => simp [hys c rfl]

theorem dropWhile_append_stop {p : Char → Bool} {xs ys : List Char} (hxs : ∀ c ∈ xs, p c = true)
    (hys : ∀ c ∈ ys.head?, p c = false) : (xs ++ ys).dropWhile p = ys := by
  rw [List.dropWhile_append_of_pos hxs]
  cases ys with
  | nil => rfl
  | cons c ys => simp [hys c rfl]

namespace Cursor

theorem upTo_append (test : Char → Bool) (xs ys : List Char) (hxs : ∀ c ∈ xs, test c = false)
    (hys : ∀ c ∈ ys.head?, test c = true) (position : Nat) :
    (Cursor.mk position (xs ++ ys)).upTo test = (xs, ⟨position + byteLength xs, ys⟩) := by
  have hxs' : ∀ c ∈ xs, (!test c) = true := fun c hc => by rw [hxs c hc]; rfl
  have hys' : ∀ c ∈ ys.head?, (!test c) = false := fun c hc => by rw [hys c hc]; rfl
  simp only [upTo, takeWhile_append_stop hxs' hys', dropWhile_append_stop hxs' hys']

theorem skipSpace_of_head (cs : List Char) (h : ∀ c ∈ cs.head?, isSpace c = false)
    (position : Nat) : (Cursor.mk position cs).skipSpace = ⟨position, cs⟩ := by
  have hupTo := upTo_append (fun c => !isSpace c) [] cs (by simp)
    (fun c hc => by rw [h c hc]; rfl) position
  simp only [List.nil_append] at hupTo
  rw [skipSpace, hupTo]
  rfl

theorem skipSpace_space (cs : List Char) (h : ∀ c ∈ cs.head?, isSpace c = false)
    (position : Nat) : (Cursor.mk position (' ' :: cs)).skipSpace = ⟨position + 1, cs⟩ := by
  have hupTo := upTo_append (fun c => !isSpace c) [' '] cs (by simp [isSpace])
    (fun c hc => by rw [h c hc]; rfl) position
  rw [skipSpace]
  exact congrArg Prod.snd hupTo

end Cursor

theorem readKey_written (c : Char) {cs : List Char}
    (hcs : ∀ d ∈ cs, isSpace d = false ∧ d ≠ '=') (position : Nat) (rest : List Char) :
    ∃ position',
      readKey c (cs ++ '=' :: rest) position = .ok (String.ofList (c :: cs), ⟨position', rest⟩) := by
  have hupTo := Cursor.upTo_append (fun c => c == '=' || isSpace c) cs ('=' :: rest)
    (fun d hd => by simp [hcs d hd]) (by simp) (position + c.utf8Size)
  have hskip := Cursor.skipSpace_of_head ('=' :: rest) (by simp [isSpace])
    (position + c.utf8Size + byteLength cs)
  refine ⟨position + c.utf8Size + byteLength cs + 1, ?_⟩
  simp only [readKey, Cursor.next, hupTo, hskip]

theorem readValue_written (value : String) (position : Nat) (rest : List Char) : ∃ position',
    readValue ⟨position, '"' :: ((escapeAttribute value).toList ++ '"' :: rest)⟩ =
      .ok (value, ⟨position', rest⟩) := by
  have hskip := Cursor.skipSpace_of_head ('"' :: ((escapeAttribute value).toList ++ '"' :: rest))
    (by simp [isSpace]) position
  have hquote : '"' ∉ (escapeAttribute value).toList := by
    rw [escapeAttribute, String.toList_ofList]
    exact not_mem_escapeChars (by decide) (by decide) _
  have hupTo := Cursor.upTo_append (· == '"') (escapeAttribute value).toList ('"' :: rest)
    (fun d hd => beq_eq_false_iff_ne.2 fun heq => hquote (heq ▸ hd)) (by simp) (position + 1)
  refine ⟨position + 1 + byteLength (escapeAttribute value).toList + 1, ?_⟩
  rw [readValue, hskip]
  simp only [true_or, if_true, hupTo, String.ofList_toList, unescape_escapeAttribute]

theorem readAttributesFrom_nil (earlier : List (String × Nat)) (position : Nat) :
    readAttributesFrom earlier ⟨position, []⟩ = .ok [] := by
  have hskip := Cursor.skipSpace_of_head [] (by simp) position
  rw [readAttributesFrom]
  split
  · rfl
  · next heq =>
    rw [hskip] at heq
    cases heq

theorem readAttributesFrom_cons {earlier : List (String × Nat)} {cursor afterKey afterValue : Cursor}
    {position : Nat} {c : Char} {cs : List Char} {key value : String}
    (hskip : cursor.skipSpace = ⟨position, c :: cs⟩)
    (hkey : readKey c cs position = .ok (key, afterKey)) (hfree : earlier.lookup key = none)
    (hvalue : readValue afterKey = .ok (value, afterValue)) :
    readAttributesFrom earlier cursor =
      ((key, value) :: ·) <$> readAttributesFrom (earlier ++ [(key, position)]) afterValue := by
  rw [readAttributesFrom]
  split
  · next heq =>
    rw [hskip] at heq
    cases heq
  · next heq =>
    rw [hskip] at heq
    cases heq
    split
    · next heq =>
      rw [hkey] at heq
      cases heq
    · next heq =>
      rw [hkey] at heq
      cases heq
      rw [hfree]
      simp only
      split
      · next heq =>
        rw [hvalue] at heq
        cases heq
      · next heq =>
        rw [hvalue] at heq
        cases heq
        rfl

/-- Written attributes are read back, if no key comes twice. -/
theorem readAttributesFrom_written {attributes : List (String × String)}
    (hkeys : ∀ entry ∈ attributes, IsKey entry.1) (earlier : List (String × Nat))
    (hnodup : (earlier.map Prod.fst ++ attributes.map Prod.fst).Nodup) (position : Nat) :
    readAttributesFrom earlier ⟨position, attributesChars attributes⟩ = .ok attributes := by
  induction attributes generalizing earlier position with
  | nil =>
    exact readAttributesFrom_nil earlier position
  | cons entry rest ih =>
    obtain ⟨key, value⟩ := entry
    have hkey : IsKey key := hkeys _ List.mem_cons_self
    obtain ⟨c, cs, hcs⟩ := List.exists_cons_of_ne_nil hkey.ne_nil
    have hstart : isSpace c = false := hkey.start c (by simp [hcs])
    have hchars : ∀ d ∈ cs, isSpace d = false ∧ d ≠ '=' := fun d hd => hkey.chars d (by simp [hcs, hd])
    have hwritten : attributesChars ((key, value) :: rest) = ' ' :: c :: (cs ++ '=' ::
        ('"' :: ((escapeAttribute value).toList ++ '"' :: attributesChars rest))) := by
      simp [attributesChars, attributeChars, hcs]
    have hskip := Cursor.skipSpace_space (c :: (cs ++ '=' ::
      ('"' :: ((escapeAttribute value).toList ++ '"' :: attributesChars rest))))
      (by simpa using hstart) position
    obtain ⟨afterKey, hreadKey⟩ := readKey_written c hchars (position + 1)
      ('"' :: ((escapeAttribute value).toList ++ '"' :: attributesChars rest))
    obtain ⟨afterValue, hreadValue⟩ := readValue_written value afterKey (attributesChars rest)
    have hname : String.ofList (c :: cs) = key := by rw [← hcs, String.ofList_toList]
    rw [hname] at hreadKey
    have hfree : earlier.lookup key = none := by
      refine List.lookup_eq_none_iff.2 fun before hbefore => ?_
      have hne := (List.nodup_append.1 hnodup).2.2 before.1 (List.mem_map_of_mem hbefore) key
        (by simp)
      simpa using Ne.symm hne
    have hrest := ih (fun e he => hkeys e (List.mem_cons_of_mem _ he))
      (earlier ++ [(key, position + 1)]) (by simpa using hnodup) afterValue
    rw [hwritten, readAttributesFrom_cons hskip hreadKey hfree hreadValue, hrest]
    rfl

/-! ## Whole tags -/

section Tags

variable {name : String} {attributes : List (String × String)}

theorem readTag_written (hname : IsTagName name) (hkeys : ∀ entry ∈ attributes, IsKey entry.1)
    (hnodup : (attributes.map Prod.fst).Nodup) :
    (name.toList ++ attributesChars attributes).takeWhile (fun c => !isSpace c) = name.toList ∧
      readAttributes (byteLength name.toList)
        ((name.toList ++ attributesChars attributes).drop name.toList.length) = .ok attributes := by
  constructor
  · apply takeWhile_append_stop
    · intro c hc
      rw [(hname.chars c hc).1]
      rfl
    · cases attributes with
      | nil => simp [attributesChars]
      | cons entry rest => simp [attributesChars, attributeChars, isSpace]
  · rw [List.drop_left, readAttributes]
    exact readAttributesFrom_written hkeys [] (by simpa using hnodup) _

theorem getLast?_tag (hname : IsTagName name) :
    (name.toList ++ attributesChars attributes).getLast? ≠ some '/' := by
  rcases List.eq_nil_or_concat attributes with rfl | ⟨before, entry, rfl⟩
  · simpa [attributesChars] using hname.last
  · have hquote : name.toList ++ attributesChars (before.concat entry) =
        name.toList ++ (attributesChars before ++ (' ' :: (entry.1.toList ++ '=' :: '"' ::
          (escapeAttribute entry.2).toList) ++ ['"'])) := by
      simp [attributesChars, attributeChars]
    rw [hquote, ← List.append_assoc, ← List.append_assoc, List.getLast?_concat]
    decide

theorem quoteAfter_tag (hname : IsTagName name) (hkeys : ∀ entry ∈ attributes, IsKey entry.1) :
    quoteAfter none (name.toList ++ attributesChars attributes) = some none := by
  rw [quoteAfter_append, hname.quotes]
  exact quoteAfter_attributesChars hkeys

theorem readMarkup_eq_readStartTag (hname : IsTagName name) (openTags : List String)
    (position : Nat) (cs : List Char) :
    readMarkup position openTags position (name.toList ++ cs) =
      readStartTag position openTags (position + 1) (name.toList ++ cs) := by
  obtain ⟨c, tail, hc⟩ := List.exists_cons_of_ne_nil hname.ne_nil
  obtain ⟨hbang, hslash, hquestion⟩ := hname.start c (by simp [hc])
  rw [hc, List.cons_append]
  unfold readMarkup
  split
  · next heq => cases heq
  · next heq => exact absurd (List.cons.inj heq).1 hbang
  · next heq => exact absurd (List.cons.inj heq).1 hslash
  · next heq => exact absurd (List.cons.inj heq).1 hquestion
  · rfl

def tagStop (position : Nat) (cs : List Char) : Nat := position + 1 + byteLength cs + 1

theorem readMarkup_startTag (hname : IsTagName name) (hkeys : ∀ entry ∈ attributes, IsKey entry.1)
    (hnodup : (attributes.map Prod.fst).Nodup) (openTags : List String) (position : Nat)
    (rest : List Char) :
    readMarkup position openTags position (name.toList ++ (attributesChars attributes ++ '>' :: rest)) =
      let stop := tagStop position (name.toList ++ attributesChars attributes)
      .ok { events := [.startTag name attributes ⟨position, stop⟩],
            openTags := name :: openTags, offset := stop, rest } := by
  obtain ⟨htake, hattributes⟩ := readTag_written hname hkeys hnodup
  have hsplit := splitTag_content (quoteAfter_tag hname hkeys) rest
  have hnotEmpty : (name.toList ++ attributesChars attributes).getLast? ≠ some '/' := getLast?_tag hname
  rw [List.append_assoc] at hsplit
  rw [readMarkup_eq_readStartTag hname, readStartTag, hsplit]
  simp only [hnotEmpty, if_false, htake, hattributes, String.ofList_toList, tagStop]

theorem readMarkup_emptyTag (hname : IsTagName name) (hkeys : ∀ entry ∈ attributes, IsKey entry.1)
    (hnodup : (attributes.map Prod.fst).Nodup) (openTags : List String) (position : Nat)
    (rest : List Char) :
    readMarkup position openTags position
        (name.toList ++ (attributesChars attributes ++ '/' :: '>' :: rest)) =
      let stop := tagStop position (name.toList ++ (attributesChars attributes ++ ['/']))
      .ok { events := [.startTag name attributes ⟨position, stop⟩, .endTag name ⟨position, stop⟩],
            openTags, offset := stop, rest } := by
  obtain ⟨htake, hattributes⟩ := readTag_written hname hkeys hnodup
  have hquote : quoteAfter none ((name.toList ++ attributesChars attributes) ++ ['/']) =
      some none := by
    rw [quoteAfter_append, quoteAfter_tag hname hkeys]
    rfl
  have hsplit := splitTag_content hquote rest
  simp only [List.append_assoc, List.singleton_append] at hsplit
  rw [readMarkup_eq_readStartTag hname, readStartTag, hsplit]
  have hlast : (name.toList ++ (attributesChars attributes ++ ['/'])).getLast? = some '/' := by
    rw [← List.append_assoc, List.getLast?_concat]
  have hdrop : (name.toList ++ (attributesChars attributes ++ ['/'])).dropLast =
      name.toList ++ attributesChars attributes := by
    rw [← List.append_assoc, List.dropLast_concat]
  simp only [hlast, if_true, hdrop, htake, hattributes, String.ofList_toList, tagStop]

theorem splitAngle_append {cs : List Char} (h : '>' ∉ cs) (rest : List Char) :
    splitAngle (cs ++ '>' :: rest) = (cs, rest, 1) := by
  have hcs : ∀ c ∈ cs, (c != '>') = true := by
    intro c hc
    simpa using fun heq : c = '>' => h (heq ▸ hc)
  have hstop : ∀ c ∈ ('>' :: rest).head?, (c != '>') = false := by simp
  simp [splitAngle, takeWhile_append_stop hcs hstop, dropWhile_append_stop hcs hstop]

theorem endTagName_eq_self (hname : IsTagName name) : endTagName name.toList = name.toList := by
  have hlast : ∀ c ∈ name.toList.reverse.head?, isSpace c = false := by
    intro c hc
    exact (hname.chars c (List.mem_reverse.1 (List.mem_of_mem_head? hc))).1
  have hnone : ∀ c ∈ ([] : List Char), isSpace c = true := by simp
  have hdrop := dropWhile_append_stop hnone hlast
  rw [List.nil_append] at hdrop
  unfold endTagName
  split
  · rfl
  · rw [hdrop, List.reverse_reverse]

theorem readMarkup_endTag (hname : IsTagName name) (openTags : List String) (position : Nat)
    (rest : List Char) :
    readMarkup position (name :: openTags) position ('/' :: (name.toList ++ '>' :: rest)) =
      let stop := tagStop position ('/' :: name.toList)
      .ok { events := [.endTag name ⟨position, stop⟩], openTags, offset := stop, rest } := by
  have hangle : '>' ∉ name.toList := fun hmem => (hname.chars _ hmem).2 rfl
  rw [readMarkup]
  simp only [readEndTag, splitAngle_append hangle, endTagName_eq_self hname, String.ofList_toList,
    if_true, tagStop]

end Tags

/-! ## Literal sections -/

theorem hasLiteralEnd_of_cons {c : Char} {cs : List Char} (h : hasLiteralEnd (c :: cs) = false) :
    hasLiteralEnd cs = false ∧ ¬(c = ']' ∧ cs.take 2 = [']', '>']) := by
  rw [hasLiteralEnd.eq_def] at h
  split at h
  · cases h
  · next hnot heq =>
    cases heq
    refine ⟨h, ?_⟩
    rintro ⟨rfl, htake⟩
    match cs, htake, hnot with
    | _ :: _ :: rest, rfl, hnot => exact hnot rest rfl rfl
  · next heq => cases heq

/-- The mark at the end of a literal section is the first one, also after closing brackets. -/
theorem splitMark_written {cs : List Char} (h : hasLiteralEnd cs = false) (rest : List Char) :
    splitMark ']' (cs ++ ']' :: ']' :: '>' :: rest) = some (cs, rest) := by
  induction cs with
  | nil => simp [splitMark]
  | cons c cs ih =>
    obtain ⟨htail, hhead⟩ := hasLiteralEnd_of_cons h
    have hnot : ¬(c = ']' ∧ (cs ++ ']' :: ']' :: '>' :: rest).take 2 = [']', '>']) := by
      rintro ⟨hc, htake⟩
      rcases cs with _ | ⟨a, _ | ⟨b, cs⟩⟩
      · simp at htake
      · simp at htake
      · exact hhead ⟨hc, by simpa using htake⟩
    rw [List.cons_append, splitMark, if_neg hnot, ih htail]
    rfl

theorem readMarkup_literal {cs : List Char} (h : hasLiteralEnd cs = false) (openTags : List String)
    (position : Nat) (rest : List Char) : ∃ stop,
      readMarkup position openTags position
          ('!' :: '[' :: 'C' :: 'D' :: 'A' :: 'T' :: 'A' :: '[' :: (cs ++ ']' :: ']' :: '>' :: rest)) =
        .ok { events := [.text (String.ofList cs) position], openTags, offset := stop, rest } := by
  have hopened : hasLiteralEnd ('C' :: 'D' :: 'A' :: 'T' :: 'A' :: '[' :: cs) = false := by
    simpa [hasLiteralEnd] using h
  have hsplit := splitMark_written hopened rest
  simp only [List.cons_append] at hsplit
  refine ⟨position + 1 + byteLength ('!' :: '[' :: 'C' :: 'D' :: 'A' :: 'T' :: 'A' :: '[' :: cs) + 3,
    ?_⟩
  rw [readMarkup, readBang, if_neg (by decide), if_pos rfl, readLiteral, List.tail_cons, hsplit]
  simp only
  rw [if_pos (by rfl)]
  rfl

end KmlTree.Markup
