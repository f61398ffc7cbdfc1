/-!
# Blank characters

White space in the sense of Unicode's property `White_Space`, and the removal of it from the two
ends of a text. Markup has a narrower notion of white space, which is kept with the tokens.
-/
namespace KmlTree.Text

/-- The twenty-five characters with the Unicode property `White_Space`. -/
def isBlank (c : Char) : Bool :=
  let n := c.toNat
  (9 ≤ n && n ≤ 13) || n == 0x20 || n == 0x85 || n == 0xA0 || n == 0x1680 ||
    (0x2000 ≤ n && n ≤ 0x200A) || n == 0x2028 || n == 0x2029 || n == 0x202F || n == 0x205F ||
    n == 0x3000

def trimChars (cs : List Char) : List Char :=
  ((cs.dropWhile isBlank).reverse.dropWhile isBlank).reverse

/-- A text without the blank characters at its start and at its end. -/
def trim (s : String) : String :=
  String.ofList (trimChars s.toList)

def isAllBlank (s : String) : Bool :=
  s.toList.all isBlank

theorem dropWhile_isBlank_eq_self {cs : List Char}
    (h : ∀ c ∈ cs.head?, isBlank c = false) : cs.dropWhile isBlank = cs := by
  cases cs with
  | nil => rfl
  | cons c r => simp [List.dropWhile, h c (by simp)]

theorem trimChars_eq_self {cs : List Char} (hs : ∀ c ∈ cs.head?, isBlank c = false)
    (he : ∀ c ∈ cs.getLast?, isBlank c = false) : trimChars cs = cs := by
  rw [trimChars, dropWhile_isBlank_eq_self hs, dropWhile_isBlank_eq_self (by simpa using he),
    List.reverse_reverse]

theorem trimChars_blank_append {blank : List Char} (h : ∀ c ∈ blank, isBlank c) (cs : List Char) :
    trimChars (blank ++ cs) = trimChars cs := by
  rw [trimChars, trimChars, List.dropWhile_append_of_pos h]

theorem trimChars_append_blank {blank : List Char} (h : ∀ c ∈ blank, isBlank c) (cs : List Char) :
    trimChars (cs ++ blank) = trimChars cs := by
  rw [trimChars, trimChars, List.dropWhile_append]
  split
  · next hempty =>
    have hnil : (blank ++ []).dropWhile isBlank = [].dropWhile isBlank :=
      List.dropWhile_append_of_pos h
    rw [List.append_nil] at hnil
    rw [hnil, List.isEmpty_iff.1 hempty]
    rfl
  · rw [List.reverse_append, List.dropWhile_append_of_pos]
    exact fun c hc => h c (List.mem_reverse.1 hc)

theorem isBlank_of_mem_head?_dropWhile {cs : List Char} :
    ∀ c ∈ (cs.dropWhile isBlank).head?, isBlank c = false := by
  intro c hc
  have hhead := List.head?_dropWhile_not isBlank cs
  rw [hc] at hhead
  exact hhead

theorem trimChars_trimChars (cs : List Char) : trimChars (trimChars cs) = trimChars cs := by
  refine trimChars_eq_self ?_ ?_
  · intro c hc
    rw [trimChars, List.head?_reverse] at hc
    obtain ⟨front, hfront⟩ := List.dropWhile_suffix isBlank (l := (cs.dropWhile isBlank).reverse)
    have hlast := congrArg List.getLast? hfront
    rw [List.getLast?_append, hc, List.getLast?_reverse] at hlast
    exact isBlank_of_mem_head?_dropWhile c hlast.symm
  · intro c hc
    rw [trimChars, List.getLast?_reverse] at hc
    exact isBlank_of_mem_head?_dropWhile c hc

theorem trim_trim (s : String) : trim (trim s) = trim s := by
  simp only [trim, String.toList_ofList, trimChars_trimChars]

end KmlTree.Text
