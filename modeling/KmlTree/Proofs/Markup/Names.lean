import KmlTree.Proofs.Markup.Tags

/-!
# Names that are read back

What the reading of markup makes of a name or key by itself tells whether it is read back wherever
it stands. Main statements: the names whose tags are read back are those that `IsTagName` describes,
and the keys that attributes are read back with are those that `IsKey` describes.
-/
namespace KmlTree.Markup

open Text

structure NameReadsBack (name : String) : Prop where
  empty : ∃ stop, readMarkup 0 [] 0 (name.toList ++ ['/', '>']) =
    .ok { events := [.startTag name [] ⟨0, stop⟩, .endTag name ⟨0, stop⟩],
          openTags := [], offset := stop, rest := [] }
  start : ∃ stop, readMarkup 0 [] 0 (name.toList ++ ['>']) =
    .ok { events := [.startTag name [] ⟨0, stop⟩], openTags := [name], offset := stop, rest := [] }
  stop : ∃ stop, readMarkup 0 [name] 0 ('/' :: (name.toList ++ ['>'])) =
    .ok { events := [.endTag name ⟨0, stop⟩], openTags := [], offset := stop, rest := [] }

def KeyReadsBack (key : String) : Prop :=
  ∃ stop, readMarkup 0 [] 0 ('a' :: ' ' :: (key.toList ++ ['=', '"', '"', '/', '>'])) =
    .ok { events := [.startTag "a" [(key, "")] ⟨0, stop⟩, .endTag "a" ⟨0, stop⟩],
          openTags := [], offset := stop, rest := [] }

theorem not_startTag_of_readBang {start offset : Nat} {openTags : List String} {cs : List Char}
    {step : Step} (h : readBang start openTags offset cs = .ok step) (name : String)
    (attributes : List (String × String)) (span : Span) :
    step.events ≠ [.startTag name attributes span] := by
  unfold readBang at h
  split at h
  · cases h
  split at h
  · unfold readComment at h
    split at h
    · split at h
      · cases h
      · split at h <;> cases h
        simp
    · cases h
  split at h
  · unfold readLiteral at h
    split at h
    · cases h
    · split at h <;> cases h
      simp
  split at h
  · unfold readDoctype at h
    split at h
    · cases h
    · split at h
      · cases h
      · split at h <;> cases h
        simp
  · cases h

/-- Only a name that starts no other markup is read as the name of a start tag. -/
theorem readStartTag_of_readMarkup {cs rest : List Char} {openTags openTags' : List String}
    {position offset : Nat} {name : String} {attributes : List (String × String)} {span : Span}
    (h : readMarkup position openTags position cs =
      .ok { events := [.startTag name attributes span], openTags := openTags', offset, rest }) :
    (∀ c ∈ cs.head?, c ≠ '!' ∧ c ≠ '/' ∧ c ≠ '?') ∧
      readStartTag position openTags (position + 1) cs =
        .ok { events := [.startTag name attributes span], openTags := openTags', offset, rest } := by
  unfold readMarkup at h
  split at h
  · cases h
  · exact absurd rfl (not_startTag_of_readBang h name attributes span)
  · unfold readEndTag at h
    simp only at h
    split at h
    · cases h
    · split at h <;> cases h
  · unfold readInstruction at h
    simp only at h
    split at h <;> cases h
  · next hnil hbang hslash hquestion =>
    refine ⟨?_, h⟩
    intro c hc
    cases cs with
    | nil => cases hc
    | cons d cs =>
      cases hc
      refine ⟨?_, ?_, ?_⟩
      · rintro rfl
        exact hbang cs rfl
      · rintro rfl
        exact hslash cs rfl
      · rintro rfl
        exact hquestion cs rfl

theorem splitTag_of_end {cs content : List Char} (h : splitTag none (cs ++ ['>']) = some (content, [])) :
    content = cs ∧ quoteAfter none cs = some none := by
  obtain ⟨hquote, hcs⟩ := quoteAfter_of_splitTag h
  have hcontent : cs = content := (List.append_inj' hcs rfl).1
  rw [hcontent]
  exact ⟨rfl, hquote⟩

theorem startTag_readsBack {name : String} (h : NameReadsBack name) :
    (∀ c ∈ name.toList, isSpace c = false) ∧ name.toList.getLast? ≠ some '/' ∧
      quoteAfter none name.toList = some none := by
  obtain ⟨stop, hstart⟩ := h.start
  have hread := (readStartTag_of_readMarkup hstart).2
  unfold readStartTag at hread
  split at hread
  · cases hread
  next content rest hsplit =>
  simp only at hread
  split at hread
  · cases hread
  next attributes hattributes =>
  split at hread
  · cases hread
  next hlast =>
  simp only [Except.ok.injEq, Step.mk.injEq, List.cons.injEq, Event.startTag.injEq] at hread
  obtain ⟨⟨⟨hname, -⟩, -⟩, -, -, hrest⟩ := hread
  rw [hrest] at hsplit
  obtain ⟨hcontent, hquote⟩ := splitTag_of_end hsplit
  rw [hcontent] at hlast hname
  refine ⟨fun c hc => ?_, hlast, hquote⟩
  have htake : name.toList.takeWhile (fun c => !isSpace c) = name.toList := by
    rw [← String.toList_inj, String.toList_ofList] at hname
    exact hname
  rw [← htake] at hc
  simpa using List.all_eq_true.1 List.all_takeWhile c hc

theorem endTag_readsBack {name : String} (h : NameReadsBack name) : '>' ∉ name.toList := by
  obtain ⟨stop, hstop⟩ := h.stop
  intro hmem
  obtain ⟨before, after, hsplit, hbefore⟩ := List.eq_append_cons_of_mem hmem
  have hangle := splitAngle_append hbefore (after ++ ['>'])
  rw [hsplit, List.append_assoc, List.cons_append] at hstop
  simp only [readMarkup, readEndTag, hangle] at hstop
  split at hstop
  · simp at hstop
  · cases hstop

theorem nameReadsBack_iff {name : String} : NameReadsBack name ↔ IsTagName name := by
  constructor
  · intro h
    obtain ⟨hspace, hlast, hquote⟩ := startTag_readsBack h
    have hangle := endTag_readsBack h
    have hne : name.toList ≠ [] := by
      intro hnil
      obtain ⟨stop, hempty⟩ := h.empty
      rw [hnil] at hempty
      simp [readMarkup, readEndTag, splitAngle] at hempty
    refine ⟨hne, fun c hc => ?_, fun c hc => ⟨hspace c hc, fun heq => hangle (heq ▸ hc)⟩, hlast, hquote⟩
    obtain ⟨stop, hstart⟩ := h.start
    refine (readStartTag_of_readMarkup hstart).1 c ?_
    rw [List.head?_append, Option.mem_def.1 hc]
    rfl
  · intro h
    have hkeys : ∀ entry ∈ ([] : List (String × String)), IsKey entry.1 := by simp
    exact ⟨⟨_, readMarkup_emptyTag h hkeys .nil [] 0 []⟩, ⟨_, readMarkup_startTag h hkeys .nil [] 0 []⟩,
      ⟨_, readMarkup_endTag h [] 0 []⟩⟩

/-! ## Keys -/

theorem quote_of_quoteAfter {quote? : Option Char} {cs : List Char} {quote : Char}
    (hquote : ∀ q ∈ quote?, q = '"' ∨ q = '\'') (h : quoteAfter quote? cs = some (some quote)) :
    quote = '"' ∨ quote = '\'' := by
  induction cs generalizing quote? with
  | nil =>
    cases h
    exact hquote quote rfl
  | cons c cs ih =>
    cases quote? with
    | some q =>
      refine ih ?_ h
      intro q' hq'
      split at hq'
      · cases hq'
      · exact hquote q' hq'
    | none =>
      simp only [quoteAfter] at h
      split at h
      · cases h
      refine ih ?_ h
      intro q hq
      split at hq
      · next hc =>
        cases hq
        exact hc
      · cases hq

theorem isSpace_of_skipSpace {cursor : Cursor} {position : Nat} {c : Char} {cs : List Char}
    (h : cursor.skipSpace = ⟨position, c :: cs⟩) : isSpace c = false := by
  have hrest : cursor.rest.dropWhile (fun c => !!isSpace c) = c :: cs := congrArg Cursor.rest h
  have hhead := List.head?_dropWhile_not (fun c => !!isSpace c) cursor.rest
  rw [hrest] at hhead
  simpa using hhead

theorem readKey_chars {c : Char} {cs : List Char} {position : Nat} {key : String} {cursor : Cursor}
    (h : readKey c cs position = .ok (key, cursor)) :
    ∃ tail, key.toList = c :: tail ∧ ∀ d ∈ tail, isSpace d = false ∧ d ≠ '=' := by
  unfold readKey at h
  simp only [Cursor.upTo] at h
  split at h
  · cases h
    refine ⟨_, String.toList_ofList, fun d hd => ?_⟩
    have hall := List.all_eq_true.1 List.all_takeWhile d hd
    simp only [Bool.not_eq_true', Bool.or_eq_false_iff, beq_eq_false_iff_ne] at hall
    exact ⟨hall.2, hall.1⟩
  · cases h

theorem readAttributesFrom_head {cursor : Cursor} {earlier : List (String × Nat)}
    {key value : String} {rest : List (String × String)}
    (h : readAttributesFrom earlier cursor = .ok ((key, value) :: rest)) :
    ∃ c tail, key.toList = c :: tail ∧ isSpace c = false ∧
      ∀ d ∈ tail, isSpace d = false ∧ d ≠ '=' := by
  rw [readAttributesFrom] at h
  split at h
  · cases h
  next position c cs hskip =>
  split at h
  · cases h
  next key' afterKey hkey =>
  split at h
  · cases h
  split at h
  · cases h
  next value' afterValue hvalue =>
  cases hrest : readAttributesFrom (earlier ++ [(key', position)]) afterValue with
  | error e =>
    rw [hrest] at h
    cases h
  | ok others =>
    rw [hrest] at h
    cases h
    obtain ⟨tail, htail, hchars⟩ := readKey_chars hkey
    exact ⟨c, tail, htail, isSpace_of_skipSpace hskip, hchars⟩

theorem quoteAfter_key {cs : List Char}
    (h : quoteAfter none ('a' :: ' ' :: (cs ++ ['=', '"', '"', '/'])) = some none) :
    quoteAfter none cs = some none := by
  rw [quoteAfter_plain (by decide), quoteAfter_plain (by decide), quoteAfter_append] at h
  cases hcs : quoteAfter none cs with
  | none =>
    rw [hcs] at h
    cases h
  | some quote? =>
    cases quote? with
    | none => rfl
    | some quote =>
      rw [hcs] at h
      rcases quote_of_quoteAfter (by simp) hcs with rfl | rfl <;> cases h

theorem isKey_of_readsBack {key : String} (h : KeyReadsBack key) : IsKey key := by
  obtain ⟨stop, hread⟩ := h
  change readStartTag 0 [] (0 + 1) ('a' :: ' ' :: (key.toList ++ ['=', '"', '"', '/', '>'])) = _
    at hread
  have hend : 'a' :: ' ' :: (key.toList ++ ['=', '"', '"', '/', '>']) =
      ('a' :: ' ' :: (key.toList ++ ['=', '"', '"', '/'])) ++ ['>'] := by simp
  rw [hend] at hread
  unfold readStartTag at hread
  split at hread
  · cases hread
  next content rest hsplit =>
  simp only at hread
  split at hread
  · cases hread
  next attributes hattributes =>
  have hrest : rest = [] ∧ attributes = [(key, "")] := by
    split at hread
    · simp only [Except.ok.injEq, Step.mk.injEq, List.cons.injEq, Event.startTag.injEq] at hread
      exact ⟨hread.2.2.2, hread.1.1.2.1⟩
    · simp at hread
  rw [hrest.1] at hsplit
  obtain ⟨-, hquote⟩ := splitTag_of_end hsplit
  rw [hrest.2] at hattributes
  obtain ⟨c, tail, hkey, hspace, hchars⟩ := readAttributesFrom_head hattributes
  refine ⟨by simp [hkey], ?_, by simpa [hkey] using hchars, quoteAfter_key hquote⟩
  rw [hkey]
  rintro _ ⟨⟩
  exact hspace

theorem keyReadsBack_iff {key : String} : KeyReadsBack key ↔ IsKey key := by
  constructor
  · exact isKey_of_readsBack
  · intro h
    have hname : IsTagName "a" := by decide
    have hkeys : ∀ entry ∈ [(key, "")], IsKey entry.1 := by simpa using h
    have hread := readMarkup_emptyTag hname hkeys (by simp) [] 0 []
    refine ⟨tagStop 0 ("a".toList ++ (attributesChars [(key, "")] ++ ['/'])), ?_⟩
    simpa [attributesChars, attributeChars, escapeAttribute, escapeChars] using hread

end KmlTree.Markup
