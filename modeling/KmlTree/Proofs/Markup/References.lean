import KmlTree.Markup.Writer
import KmlTree.Text.Reference

/-!
# Written text is read back

Guarded characters become references, and references become these characters again. A literal
section gives back any text that does not hold the mark that ends it.
-/
namespace KmlTree.Text

theorem referredChar_entityName {c : Char} {name : String} (h : entityName? c = some name)
    (start stop : Nat) : referredChar start stop name.toList = .ok c := by
  unfold entityName? at h
  split at h <;> cases h <;> rfl

theorem entityName_chars {c : Char} {name : String} (h : entityName? c = some name) :
    ∀ d ∈ name.toList, d ≠ ';' ∧ d ≠ '&' := by
  unfold entityName? at h
  split at h <;> cases h <;> simp

/-- Characters within a reference are collected. -/
theorem unescapeChars_pending (length pos start : Nat) (collected name rest : List Char)
    (h : ∀ d ∈ name, d ≠ ';' ∧ d ≠ '&') : ∃ pos',
      unescapeChars length pos (some (start, collected)) (name ++ rest) =
        unescapeChars length pos' (some (start, name.reverse ++ collected)) rest := by
  induction name generalizing pos collected with
  | nil => exact ⟨pos, rfl⟩
  | cons c cs ih =>
    obtain ⟨hsemicolon, hampersand⟩ := h c List.mem_cons_self
    obtain ⟨pos', hpos'⟩ := ih (pos + c.utf8Size) (c :: collected)
      fun d hd => h d (List.mem_cons_of_mem _ hd)
    refine ⟨pos', ?_⟩
    rw [List.cons_append, unescapeChars, if_neg hsemicolon, if_neg hampersand, hpos']
    simp

/-- A guarded text is read back, wherever it stands. -/
theorem unescapeChars_escapeChars {guarded : List Char} (hguarded : '&' ∈ guarded)
    (length pos : Nat) (cs rest : List Char) : ∃ pos',
      unescapeChars length pos none (escapeChars guarded cs ++ rest) =
        (cs ++ ·) <$> unescapeChars length pos' none rest := by
  induction cs generalizing pos with
  | nil => exact ⟨pos, by simp [escapeChars]⟩
  | cons c cs ih =>
    have hplain (hne : c ≠ '&') : ∃ pos',
        unescapeChars length pos none ([c] ++ (escapeChars guarded cs ++ rest)) =
          (c :: cs ++ ·) <$> unescapeChars length pos' none rest := by
      obtain ⟨pos', hpos'⟩ := ih (pos + c.utf8Size)
      refine ⟨pos', ?_⟩
      rw [List.singleton_append, unescapeChars, if_neg hne, hpos', Functor.map_map]
      rfl
    have hsplit : escapeChars guarded (c :: cs) ++ rest =
        (if guarded.contains c then reference c else [c]) ++ (escapeChars guarded cs ++ rest) := by
      simp [escapeChars]
    rw [hsplit]
    by_cases hc : guarded.contains c = true
    · rw [if_pos hc, reference]
      cases hname : entityName? c with
      | none => exact hplain (by rintro rfl; cases hname)
      | some name =>
        obtain ⟨stop, hstop⟩ := unescapeChars_pending length (pos + 1) pos [] name.toList
          (';' :: (escapeChars guarded cs ++ rest)) (entityName_chars hname)
        obtain ⟨pos', hpos'⟩ := ih (stop + 1)
        refine ⟨pos', ?_⟩
        have hreferred := referredChar_entityName hname pos stop
        simp only [List.cons_append, List.append_assoc, List.nil_append]
        rw [unescapeChars, if_pos rfl, hstop, unescapeChars, if_pos rfl]
        simp only [List.append_nil, List.reverse_reverse, hreferred, hpos', Functor.map_map]
    · rw [if_neg hc]
      refine hplain ?_
      rintro rfl
      exact hc (by simpa using hguarded)

theorem unescapeChars_plain {cs : List Char} (h : '&' ∉ cs) (length pos : Nat) :
    unescapeChars length pos none cs = .ok cs := by
  induction cs generalizing pos with
  | nil => rfl
  | cons c cs ih =>
    have hne : c ≠ '&' := by
      rintro rfl
      exact h List.mem_cons_self
    rw [unescapeChars, if_neg hne, ih fun hmem => h (List.mem_cons_of_mem _ hmem)]
    rfl

theorem unescape_escapeChars {guarded : List Char} (hguarded : '&' ∈ guarded)
    (cs plain : List Char) (hplain : '&' ∉ plain) :
    unescape (String.ofList (escapeChars guarded cs ++ plain)) = .ok (String.ofList (cs ++ plain)) := by
  rw [unescape, String.toList_ofList]
  obtain ⟨pos', hpos'⟩ := unescapeChars_escapeChars hguarded
    (String.ofList (escapeChars guarded cs ++ plain)).utf8ByteSize 0 cs plain
  rw [hpos', unescapeChars_plain hplain]
  rfl

theorem not_mem_reference {d : Char} (hd : d ∈ ['<', '>', '"']) (c : Char) : d ∉ reference c := by
  rw [reference]
  simp only [List.mem_cons, List.not_mem_nil, or_false] at hd
  cases hname : entityName? c with
  | none =>
    intro hmem
    cases List.mem_singleton.1 hmem
    rcases hd with rfl | rfl | rfl <;> cases hname
  | some name =>
    unfold entityName? at hname
    rcases hd with rfl | rfl | rfl <;> split at hname <;> cases hname <;> decide

theorem not_mem_escapeChars {guarded : List Char} {d : Char} (hd : d ∈ guarded)
    (hmark : d ∈ ['<', '>', '"']) (cs : List Char) : d ∉ escapeChars guarded cs := by
  intro hmem
  obtain ⟨c, -, hc⟩ := List.mem_flatMap.1 hmem
  split at hc
  · exact not_mem_reference hmark c hc
  · next hguarded =>
    have heq : d = c := List.mem_singleton.1 hc
    exact hguarded (by simpa [← heq] using hd)

theorem unescape_escapeAttribute (value : String) :
    unescape (escapeAttribute value) = .ok value := by
  have hguarded : '&' ∈ ['&', '<', '>', '"'] := by decide
  have hread := unescape_escapeChars hguarded value.toList [] (by simp)
  simpa [escapeAttribute] using hread

end KmlTree.Text
