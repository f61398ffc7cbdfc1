import Mathlib.Algebra.Ring.Nat
import Mathlib.Data.Prod.Lex
import Mathlib.Data.String.Basic
import KmlTree.Reading.ParseError

/-!
# Lines and columns

A position between two characters of a source text is told by a line and a column, from which it can
be found again. Main statement: the bytes before the position are those of the lines before the line
and of the characters before the column, so later positions are told by later lines or columns, and
to locate a problem changes nothing but the telling.
-/
namespace KmlTree

namespace Text

/-! ## Lines -/

/-- The lines of a source text. A line feed stands after each of them but the last one. -/
def linesOf (source : String) : List (List Char) := source.toList.splitOn '\n'

def linesLength (ls : List (List Char)) : Nat := (ls.map fun l => byteLength (l ++ ['\n'])).sum

theorem length_splitOn (cs : List Char) : (cs.splitOn '\n').length = cs.count '\n' + 1 := by
  induction cs with
  | nil => rfl
  | cons c cs ih =>
    rw [List.splitOn_cons_eq_if_modifyHead, List.count_cons]
    split <;> simp [ih]

theorem linesLength_splitOn (cs : List Char) :
    linesLength (cs.splitOn '\n') = byteLength (cs ++ ['\n']) := by
  induction cs with
  | nil => rfl
  | cons c cs ih =>
    rw [List.splitOn_cons_eq_if_modifyHead]
    split
    · next hc =>
      obtain rfl := beq_iff_eq.1 hc
      have hcons : linesLength ([] :: cs.splitOn '\n') =
          byteLength ['\n'] + linesLength (cs.splitOn '\n') := rfl
      rw [hcons, ih]
      rfl
    · cases hsplit : cs.splitOn '\n' with
      | nil => exact absurd hsplit (List.splitOn_ne_nil _ _)
      | cons first rest =>
        have hcons : linesLength ((c :: first) :: rest) =
            c.utf8Size + linesLength (first :: rest) := Nat.add_assoc _ _ _
        rw [List.modifyHead_cons, hcons, ← hsplit, ih]
        rfl

theorem splitOn_append_of_not_mem {front : List Char} (h : '\n' ∉ front) (rest : List Char) :
    (front ++ rest).splitOn '\n' = (rest.splitOn '\n').modifyHead (front ++ ·) := by
  induction front with
  | nil => exact (congrFun List.modifyHead_id _).symm
  | cons c front ih =>
    obtain ⟨hc, hfront⟩ := not_or.1 (mt List.mem_cons.2 h)
    rw [List.cons_append, List.splitOn_cons_eq_if_modifyHead,
      if_neg (by simpa using Ne.symm hc), ih hfront, List.modifyHead_modifyHead]
    rfl

def lastLine (cs : List Char) : List Char := (cs.reverse.takeWhile (· ≠ '\n')).reverse

theorem lastLine_append {tail : List Char} (h : '\n' ∉ tail) (front : List Char) :
    lastLine (front ++ tail) = lastLine front ++ tail := by
  have hall : ∀ c ∈ tail.reverse, decide (c ≠ '\n') = true := by
    intro c hc
    rw [decide_eq_true_iff]
    rintro rfl
    exact h (List.mem_reverse.1 hc)
  rw [lastLine, List.reverse_append, List.takeWhile_append_of_pos hall, List.reverse_append,
    List.reverse_reverse]
  rfl

theorem lastLine_of_not_mem {cs : List Char} (h : '\n' ∉ cs) : lastLine cs = cs :=
  lastLine_append h []

theorem lastLine_append_cons {tail : List Char} (h : '\n' ∉ tail) (front : List Char) :
    lastLine (front ++ '\n' :: tail) = tail := by
  have hlast : lastLine (front ++ ['\n']) = [] := by
    rw [lastLine, List.reverse_append]
    rfl
  have happend := lastLine_append h (front ++ ['\n'])
  rwa [List.append_assoc, List.singleton_append, hlast, List.nil_append] at happend

theorem exists_lastLine (cs : List Char) :
    '\n' ∉ cs ∨ ∃ front tail, cs = front ++ '\n' :: tail ∧ '\n' ∉ tail := by
  by_cases hmem : '\n' ∈ cs
  · obtain ⟨tail, front, heq, htail⟩ := List.eq_append_cons_of_mem (List.mem_reverse.2 hmem)
    refine Or.inr ⟨front.reverse, tail.reverse, ?_, mt List.mem_reverse.1 htail⟩
    rw [← List.reverse_reverse cs, heq]
    simp
  · exact Or.inl hmem

/-- The line feeds before a place in a text count the lines before it, and what is on its own line
so far are the characters after the last of them. -/
theorem exists_line (before after : List Char) : ∃ line,
    ((before ++ after).splitOn '\n')[before.count '\n']? = some line ∧ lastLine before <+: line ∧
      byteLength before =
        linesLength (((before ++ after).splitOn '\n').take (before.count '\n')) +
          byteLength (lastLine before) := by
  obtain ⟨first, others, hsplit⟩ := List.exists_cons_of_ne_nil (List.splitOn_ne_nil '\n' after)
  -- The place is on the first line, or the line feed before its own line cuts the text in two.
  rcases exists_lastLine before with hnone | ⟨front, tail, rfl, htail⟩
  · refine ⟨before ++ first, ?_, ?_, ?_⟩
    · rw [splitOn_append_of_not_mem hnone, hsplit, List.count_eq_zero_of_not_mem hnone]
      rfl
    · exact (lastLine_of_not_mem hnone).symm ▸ List.prefix_append _ _
    · rw [List.count_eq_zero_of_not_mem hnone, lastLine_of_not_mem hnone]
      exact (Nat.zero_add _).symm
  · have hcount : (front ++ '\n' :: tail).count '\n' = (front.splitOn '\n').length := by
      rw [length_splitOn, List.count_append, List.count_cons_self,
        List.count_eq_zero_of_not_mem htail]
    have hlines : ((front ++ '\n' :: tail) ++ after).splitOn '\n' =
        front.splitOn '\n' ++ (tail ++ first) :: others := by
      rw [List.append_assoc, List.cons_append, List.splitOn_append_cons_self,
        splitOn_append_of_not_mem htail, hsplit, List.modifyHead_cons]
    rw [hcount, hlines, lastLine_append_cons htail]
    refine ⟨tail ++ first, ?_, List.prefix_append _ _, ?_⟩
    · rw [List.getElem?_append_right (Nat.le_refl _), Nat.sub_self]
      rfl
    · rw [List.take_left' rfl, linesLength_splitOn, byteLength_append, byteLength_append,
        byteLength_cons, byteLength_cons, byteLength_nil]
      omega

/-! ## Positions -/

/-- A position between two characters of a text, or at one of its ends. -/
def AtBoundary (source : String) (offset : Nat) : Prop :=
  ∃ before after, source.toList = before ++ after ∧ offset = byteLength before

theorem utf8ByteSize_eq_byteLength (s : String) : s.utf8ByteSize = byteLength s.toList := by
  have hlength (cs : List Char) : String.utf8Len cs = byteLength cs := by
    induction cs with
    | nil => rfl
    | cons c cs ih => rw [String.utf8Len_cons, ih, byteLength_cons, Nat.add_comm]
  rw [← hlength, ← String.utf8ByteSize_ofList, String.ofList_toList]

theorem charsWithin_append (before after : List Char) :
    charsWithin (byteLength before) (before ++ after) = before := by
  induction before with
  | nil =>
    cases after with
    | nil => rfl
    | cons c after =>
      have hpos := c.utf8Size_pos
      rw [byteLength_nil, List.nil_append, charsWithin, if_neg (by omega)]
  | cons c before ih =>
    rw [byteLength_cons, List.cons_append, charsWithin, if_pos (Nat.le_add_right _ _),
      Nat.add_sub_cancel_left, ih]

theorem AtBoundary.le {source : String} {offset : Nat} (h : AtBoundary source offset) :
    offset ≤ source.utf8ByteSize := by
  obtain ⟨before, after, hsource, rfl⟩ := h
  rw [utf8ByteSize_eq_byteLength, hsource, byteLength_append]
  exact Nat.le_add_right _ _

theorem atBoundary_end (source : String) : AtBoundary source source.utf8ByteSize :=
  ⟨source.toList, [], (List.append_nil _).symm, utf8ByteSize_eq_byteLength source⟩

namespace Location

/-- A location tells a position: so many lines with the line feeds after them, and so many characters
of the next line, stand before it. -/
structure Tells (location : Location) (source : String) (offset : Nat) : Prop where
  offset_eq : location.offset = offset
  line_pos : 0 < location.line
  column_pos : 0 < location.column
  position : ∃ line, (linesOf source)[location.line - 1]? = some line ∧
    location.column - 1 ≤ line.length ∧
      offset = linesLength ((linesOf source).take (location.line - 1)) +
        byteLength (line.take (location.column - 1))

theorem inSource_eq {source : String} {before after : List Char}
    (h : source.toList = before ++ after) : inSource source (byteLength before) =
      ⟨byteLength before, before.count '\n' + 1, (lastLine before).length + 1⟩ := by
  have hle : byteLength before ≤ source.utf8ByteSize := AtBoundary.le ⟨before, after, h, rfl⟩
  simp only [inSource, Nat.min_eq_left hle, h, charsWithin_append, Nat.sub_self, if_true, lastLine]

theorem inSource_of_le {source : String} {offset : Nat} (h : source.utf8ByteSize ≤ offset) :
    inSource source offset = inSource source source.utf8ByteSize := by
  simp only [inSource, Nat.min_eq_right h, Nat.min_self]

theorem tells_inSource {source : String} {offset : Nat} (h : AtBoundary source offset) :
    (inSource source offset).Tells source offset := by
  obtain ⟨before, after, hsource, rfl⟩ := h
  obtain ⟨line, hline, hprefix, hlength⟩ := exists_line before after
  rw [inSource_eq hsource]
  refine ⟨rfl, Nat.succ_pos _, Nat.succ_pos _, line, ?_, hprefix.length_le, ?_⟩
  · rw [linesOf, hsource]
    exact hline
  · rw [linesOf, hsource, Nat.add_sub_cancel, Nat.add_sub_cancel,
      ← List.prefix_iff_eq_take.1 hprefix]
    exact hlength

/-- What tells a reader where a location is: the line, and in a line the column. -/
def lineColumn (location : Location) : Nat ×ₗ Nat := toLex (location.line, location.column)

theorem lineColumn_inSource_lt {source : String} {i j : Nat} (hi : AtBoundary source i)
    (hj : AtBoundary source j) (hlt : i < j) :
    (inSource source i).lineColumn < (inSource source j).lineColumn := by
  obtain ⟨before, after, hsource, rfl⟩ := hi
  obtain ⟨before', after', hsource', rfl⟩ := hj
  obtain ⟨more, rfl⟩ : before <+: before' := by
    have hprefix := List.prefix_or_prefix_of_prefix ⟨after, hsource.symm⟩ ⟨after', hsource'.symm⟩
    refine hprefix.resolve_right ?_
    rintro ⟨more, rfl⟩
    rw [byteLength_append] at hlt
    omega
  rw [inSource_eq hsource, inSource_eq hsource', lineColumn, lineColumn, Prod.Lex.toLex_lt_toLex]
  dsimp only
  by_cases hfeed : '\n' ∈ more
  · left
    have hcount := List.count_pos_iff.2 hfeed
    rw [List.count_append]
    omega
  · right
    have hmore : 0 < more.length := by
      refine List.length_pos_iff.2 fun hnil => ?_
      rw [hnil, List.append_nil] at hlt
      exact Nat.lt_irrefl _ hlt
    rw [List.count_append, List.count_eq_zero_of_not_mem hfeed, lastLine_append hfeed,
      List.length_append]
    omega

end Location

end Text

/-! ## Problems in a source text -/

theorem ParseError.place?_located (source : String) (error : ParseError) :
    (error.located source).place? = error.place?.map (Place.located source) := by
  cases error <;> rfl

theorem Warning.place_located (source : String) (w : Warning) :
    (w.located source).place = w.place.located source := by
  cases w <;> rfl

theorem Place.offset_located {source : String} {place : Place}
    (h : place.location.offset ≤ source.utf8ByteSize) :
    (place.located source).location.offset = place.location.offset := Nat.min_eq_left h

namespace Text.Location

/-- A position between two characters is told by the lines and characters before it, and positions
past the end are told as the end. Later positions have later lines or columns, so no two are told
alike. A problem in a source text keeps its position when it is located there. -/
theorem inSource_exact (source : String) :
    (∀ offset, AtBoundary source offset ∨ source.utf8ByteSize ≤ offset →
      (inSource source offset).Tells source (min offset source.utf8ByteSize)) ∧
    StrictMonoOn (fun offset => (inSource source offset).lineColumn)
      {offset | AtBoundary source offset} ∧
    Set.InjOn (fun offset => (inSource source offset).lineColumn)
      {offset | AtBoundary source offset} ∧
    (∀ (error : ParseError) (place : Place), error.place? = some place →
      place.location.offset ≤ source.utf8ByteSize → ∃ place',
        (error.located source).place? = some place' ∧
          place'.location.offset = place.location.offset ∧ place'.span = place.span) ∧
    ∀ w : Warning, w.place.location.offset ≤ source.utf8ByteSize →
      (w.located source).place.location.offset = w.place.location.offset ∧
        (w.located source).place.span = w.place.span := by
  have hmono : StrictMonoOn (fun offset => (inSource source offset).lineColumn)
      {offset | AtBoundary source offset} := fun i hi j hj => lineColumn_inSource_lt hi hj
  refine ⟨fun offset hoffset => ?_, hmono, hmono.injOn, fun error place hplace hle => ?_,
    fun w hle => ?_⟩
  · rcases hoffset with hboundary | hend
    · have hle := hboundary.le
      rw [Nat.min_eq_left hle]
      exact tells_inSource hboundary
    · rw [inSource_of_le hend, Nat.min_eq_right hend]
      exact tells_inSource (atBoundary_end source)
  · refine ⟨place.located source, ?_, Place.offset_located hle, rfl⟩
    rw [error.place?_located, hplace]
    rfl
  · rw [w.place_located]
    exact ⟨Place.offset_located hle, rfl⟩

/-- After two bytes for one character and a line feed, the second line starts. -/
theorem inSource_exact_accented :
    AtBoundary "é\nb" 3 ∧ (inSource "é\nb" 3).Tells "é\nb" 3 ∧
      (inSource "é\nb" 3).lineColumn = toLex (2, 1) ∧ (inSource "é\nb" 9).Tells "é\nb" 4 ∧
        (∃ place, ((ParseError.malformedAt .textOutsideRoot 3).located "é\nb").place? =
          some place ∧ place.location.offset = 3) ∧
        ((Warning.misplaced "a" "b" (.ofOffset 3)).located "é\nb").place.location.offset = 3 := by
  obtain ⟨htells, -, -, herror, hwarning⟩ := inSource_exact "é\nb"
  have hboundary : AtBoundary "é\nb" 3 := ⟨['é', '\n'], ['b'], rfl, rfl⟩
  obtain ⟨place, hplace, hoffset, -⟩ := herror (.malformedAt .textOutsideRoot 3) _ rfl (by decide)
  exact ⟨hboundary, htells 3 (.inl hboundary), by decide, htells 9 (.inr (by decide)),
    ⟨place, hplace, hoffset⟩, (hwarning (.misplaced "a" "b" (.ofOffset 3)) (by decide)).1⟩

end Text.Location

end KmlTree
