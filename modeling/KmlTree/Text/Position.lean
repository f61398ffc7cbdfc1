import KmlTree.Text.Reference

/-!
# Positions in a source text

A position is kept as a count of bytes. For a reader it is told as a line and a column, the line
counted in line feeds and the column in characters.
-/
namespace KmlTree.Text

/-- A position in a source text. Lines and columns start at one; line zero stands for a position
whose source is not at hand. -/
structure Location where
  offset : Nat
  line : Nat
  column : Nat
  deriving DecidableEq, Repr, Inhabited

/-- The characters from the start of a text that end within the first `n` bytes. -/
def charsWithin : Nat → List Char → List Char
  | _, [] => []
  | n, c :: cs => if c.utf8Size ≤ n then c :: charsWithin (n - c.utf8Size) cs else []

def byteAt? (source : String) (position : Nat) : Option UInt8 :=
  if h : ⟨position⟩ < source.rawEndPos then some (source.getUTF8Byte ⟨position⟩ h) else none

/-- The character that starts right after the first `n` bytes of a text. -/
def charAt? : Nat → List Char → Option Char
  | _, [] => none
  | n, c :: cs =>
    if n = 0 then some c
    else if c.utf8Size ≤ n then charAt? (n - c.utf8Size) cs
    else none

theorem charAt?_append (n : Nat) (cs ds : List Char) :
    charAt? (byteLength cs + n) (cs ++ ds) = charAt? n ds := by
  induction cs with
  | nil => simp
  | cons c cs ih =>
    have hpos := c.utf8Size_pos
    rw [List.cons_append, charAt?, byteLength_cons, if_neg (by omega), if_pos (by omega), ← ih]
    congr 1
    omega

theorem byteAt?_eq (source : String) (position : Nat) :
    byteAt? source position = (source.toList.flatMap String.utf8EncodeChar)[position]? := by
  have hbytes : source.toByteArray.data.toList = source.toList.flatMap String.utf8EncodeChar := by
    conv => lhs; rw [← String.ofList_toList (s := source), String.toByteArray_ofList]
    rw [List.utf8Encode, List.toList_data_toByteArray]
  rw [← hbytes, byteAt?]
  split
  · next h => exact (List.getElem?_eq_getElem h).symm
  · next h => exact (List.getElem?_eq_none (Nat.not_lt.1 h)).symm

theorem toNat_toUInt8 {c : Char} (hc : c.val ≤ 127) : c.toUInt8.toNat = c.toNat := by
  have hnat : c.toNat ≤ 127 := hc
  have hmod : c.toUInt8.toNat = c.toNat % 256 := UInt32.toNat_toUInt8 c.val
  omega

/-- The bytes of a character that takes several are none of those that stand for a character. -/
theorem lt_of_mem_utf8EncodeChar {c : Char} (hc : ¬c.val ≤ 127) :
    ∀ b ∈ String.utf8EncodeChar c, 127 < b.toNat := by
  have hnat : ¬c.val.toNat ≤ 127 := hc
  unfold String.utf8EncodeChar
  simp only [if_neg hnat]
  split
  · simp
    omega
  · split
    · simp
      omega
    · simp
      omega

theorem getElem?_utf8EncodeChar {c : Char} (hc : c.val ≤ 127) (d : Char) (n : Nat) :
    (String.utf8EncodeChar d)[n]? = some c.toUInt8 ↔ n = 0 ∧ d = c := by
  by_cases hd : d.val ≤ 127
  · have hbyte : d.toUInt8 = c.toUInt8 ↔ d = c := by
      rw [← UInt8.toNat_inj, toNat_toUInt8 hc, toNat_toUInt8 hd, Char.toNat_inj]
    rw [String.utf8EncodeChar_eq_singleton (Char.utf8Size_eq_one_iff.2 hd)]
    cases n with
    | zero => simpa using hbyte
    | succ n => simp
  · refine iff_of_false (fun h => ?_) (fun h => hd (h.2 ▸ hc))
    have hlt := lt_of_mem_utf8EncodeChar hd _ (List.mem_of_getElem? h)
    rw [toNat_toUInt8 hc] at hlt
    exact Nat.not_le.2 hlt hc

theorem byteAt?_eq_some_iff {c : Char} (hc : c.val ≤ 127) (source : String) (position : Nat) :
    byteAt? source position = some c.toUInt8 ↔ charAt? position source.toList = some c := by
  rw [byteAt?_eq]
  induction source.toList generalizing position with
  | nil => simp [charAt?]
  | cons d cs ih =>
    have hpos := d.utf8Size_pos
    rw [List.flatMap_cons, List.getElem?_append, String.length_utf8EncodeChar, charAt?]
    split
    · next hlt =>
      rw [getElem?_utf8EncodeChar hc, if_neg (Nat.not_le.2 hlt)]
      by_cases hzero : position = 0 <;> simp [hzero]
    · next hle => rw [if_neg (by omega), if_pos (by omega), ih]

namespace Location

/-- A position whose source is not at hand. -/
def ofOffset (offset : Nat) : Location := ⟨offset, 0, 0⟩

/-- The position of a byte of a source text, positions past the end counting as the end. Within a
character, where no column is right, the column counts the bytes of the line instead. -/
def inSource (source : String) (offset : Nat) : Location :=
  let offset := min offset source.utf8ByteSize
  let before := charsWithin offset source.toList
  let line := (before.reverse.takeWhile (· ≠ '\n')).reverse
  let excess := offset - byteLength before
  { offset
    line := before.count '\n' + 1
    column := (if excess = 0 then line.length else byteLength line + excess) + 1 }

def describe (location : Location) : String :=
  if location.line = 0 then s!"byte {location.offset}"
  else s!"{location.line}:{location.column}"

end Location

/-- A run of bytes of the source, given by its ends. -/
structure Span where
  start : Nat
  stop : Nat
  deriving DecidableEq, Repr, Inhabited

namespace Span

def empty (offset : Nat) : Span := ⟨offset, offset⟩

/-- The number of bytes in a run, none if its end comes before its start. -/
def length (span : Span) : Nat := span.stop - span.start

end Span

end KmlTree.Text
