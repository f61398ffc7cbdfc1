import Mathlib.Tactic.IntervalCases
import KmlTree.Proofs.Value.ReadBack

/-!
# The text of a colour

Eight hexadecimal digits of either case, a number sign before them or none, and blank characters
around. Main statement: texts of this form are read as the colour that is written in these digits, in
lower case, and so is a text in which a plus sign stands for a zero as the first digit; no other text
is read.
-/
namespace KmlTree

namespace Text

theorem exists_trimChars (cs : List Char) : ∃ before after,
    cs = before ++ (trimChars cs ++ after) ∧ (∀ c ∈ before, isBlank c) ∧ ∀ c ∈ after, isBlank c := by
  have hafter : cs.dropWhile isBlank =
      trimChars cs ++ ((cs.dropWhile isBlank).reverse.takeWhile isBlank).reverse := by
    rw [trimChars, ← List.reverse_append, List.takeWhile_append_dropWhile, List.reverse_reverse]
  refine ⟨cs.takeWhile isBlank, ((cs.dropWhile isBlank).reverse.takeWhile isBlank).reverse, ?_, ?_, ?_⟩
  · rw [← hafter, List.takeWhile_append_dropWhile]
  · exact List.all_eq_true.1 List.all_takeWhile
  · exact fun c hc => List.all_eq_true.1 List.all_takeWhile c (List.mem_reverse.1 hc)

end Text

namespace Color

open Text

/-! ## Digits -/

def hexCharacters : List Char := "0123456789abcdefABCDEF".toList

/-- What is true of each digit: it has a value, whose own digit is the same in lower case. -/
theorem hexCharacters_spec : ∀ d ∈ hexCharacters, ∃ n, n < 16 ∧ hexDigit? d = some n ∧
    digitChar n = d.toLower ∧ isBlank d = false ∧ d.utf8Size = 1 ∧ d ≠ '#' ∧ d ≠ '+' :=
  -- along the list, as there are too many characters to try each
  @of_decide_eq_true _ (List.decidableBAll _ _) rfl

theorem mem_hexCharacters_of_hexDigit? {c : Char} {n : Nat} (h : hexDigit? c = some n) :
    c ∈ hexCharacters := by
  have hrange : (48 ≤ c.toNat ∧ c.toNat ≤ 57) ∨ (97 ≤ c.toNat ∧ c.toNat ≤ 102) ∨
      (65 ≤ c.toNat ∧ c.toNat ≤ 70) := by
    unfold hexDigit? at h
    split at h
    · next hdigit => exact .inl hdigit
    split at h
    · next hlower => exact .inr (.inl hlower)
    split at h
    · next hupper => exact .inr (.inr hupper)
    · cases h
  rw [← Char.ofNat_toNat c]
  rcases hrange with ⟨hlow, hhigh⟩ | ⟨hlow, hhigh⟩ | ⟨hlow, hhigh⟩ <;>
    interval_cases c.toNat <;> decide

theorem hexCharacters_of_number {cs : List Char} {acc n : Nat}
    (h : number 16 hexDigit? acc cs = .ok n) : ∀ c ∈ cs, c ∈ hexCharacters := by
  induction cs generalizing acc with
  | nil => simp
  | cons c cs ih =>
    simp only [number] at h
    split at h
    · next d hd =>
      exact List.forall_mem_cons.2 ⟨mem_hexCharacters_of_hexDigit? hd, ih h⟩
    · cases h

theorem number_hexCharacters {ds : List Char} (h : ∀ d ∈ ds, d ∈ hexCharacters) :
    ∃ values : List Nat, values.length = ds.length ∧ (∀ v ∈ values, v < 16) ∧
      values.map digitChar = ds.map Char.toLower ∧
        ∀ acc, number 16 hexDigit? acc ds = .ok (values.foldl (fun acc v => 16 * acc + v) acc) := by
  induction ds with
  | nil => exact ⟨[], rfl, by simp, rfl, fun acc => rfl⟩
  | cons d ds ih =>
    obtain ⟨values, hlength, hlt, hdigits, hnumber⟩ := ih fun e he => h e (List.mem_cons_of_mem _ he)
    obtain ⟨v, hv, hread, hdigit, -⟩ := hexCharacters_spec d (h d List.mem_cons_self)
    refine ⟨v :: values, by simp [hlength], List.forall_mem_cons.2 ⟨hv, hlt⟩, ?_, fun acc => ?_⟩
    · rw [List.map_cons, List.map_cons, hdigits, hdigit]
    · simp only [number, hread, hnumber, List.foldl_cons]

theorem byteLength_hexCharacters {ds : List Char} (h : ∀ d ∈ ds, d ∈ hexCharacters) :
    byteLength ds = ds.length := by
  induction ds with
  | nil => rfl
  | cons d ds ih =>
    obtain ⟨-, -, -, -, -, hsize, -⟩ := hexCharacters_spec d (h d List.mem_cons_self)
    rw [byteLength_cons, hsize, ih fun e he => h e (List.mem_cons_of_mem _ he), List.length_cons,
      Nat.add_comm]

/-! ## Eight digits -/

/-- Some characters are the eight digits of a colour. -/
def EightDigits (digits : List Char) : Prop :=
  digits.length = 8 ∧ ∀ d ∈ digits, d ∈ hexCharacters

theorem writeChannel_ofNat {a b : Nat} (ha : a < 16) (hb : b < 16) :
    (UInt8.ofNat (16 * a + b)).toNat = 16 * a + b ∧
      writeChannel (UInt8.ofNat (16 * a + b)) = [digitChar a, digitChar b] := by
  have hvalue : (UInt8.ofNat (16 * a + b)).toNat = 16 * a + b :=
    UInt8.toNat_ofNat_of_lt' (by change _ < 256; omega)
  refine ⟨hvalue, ?_⟩
  rw [writeChannel, hvalue]
  congr 2
  · omega
  · congr 1
    omega

/-- Eight digits are the number of a colour, which is written in these digits in lower case. -/
theorem EightDigits.exists_color {digits : List Char} (h : EightDigits digits) :
    ∃ (n : Nat) (c : Color), number 16 hexDigit? 0 digits = .ok n ∧
      ofPacked (UInt32.ofNat n) = c ∧ c.write = String.ofList (digits.map Char.toLower) := by
  obtain ⟨values, hlength, hlt, hdigits, hnumber⟩ := number_hexCharacters h.2
  rw [h.1] at hlength
  match values, hlength with
  | [a, b, c, d, e, f, g, i], _ =>
    simp only [List.forall_mem_cons, List.not_mem_nil, false_imp_iff, implies_true, and_true] at hlt
    obtain ⟨ha, hb, hc, hd, he, hf, hg, hi⟩ := hlt
    obtain ⟨halpha, hwriteAlpha⟩ := writeChannel_ofNat ha hb
    obtain ⟨hblue, hwriteBlue⟩ := writeChannel_ofNat hc hd
    obtain ⟨hgreen, hwriteGreen⟩ := writeChannel_ofNat he hf
    obtain ⟨hred, hwriteRed⟩ := writeChannel_ofNat hg hi
    let color : Color := ⟨.ofNat (16 * a + b), .ofNat (16 * c + d), .ofNat (16 * e + f),
      .ofNat (16 * g + i)⟩
    have hpacked := ofPacked_number color
    simp only [color, halpha, hblue, hgreen, hred] at hpacked
    have hvalue : [a, b, c, d, e, f, g, i].foldl (fun acc v => 16 * acc + v) 0 =
        256 * (256 * (256 * (16 * a + b) + (16 * c + d)) + (16 * e + f)) + (16 * g + i) := by
      simp only [List.foldl_cons, List.foldl_nil]
      omega
    refine ⟨_, color, hnumber 0, ?_, ?_⟩
    · rw [hvalue]
      exact hpacked
    · rw [write, hwriteAlpha, hwriteBlue, hwriteGreen, hwriteRed, ← hdigits]
      rfl

/-! ## What is around the digits -/

/-- Some characters are all that is in a text, but for blank characters at the ends and a number sign
before them. -/
def Holds (s : String) (core : List Char) : Prop :=
  ∃ before sign after, s.toList = before ++ ((sign ++ core) ++ after) ∧
    (∀ c ∈ before, isBlank c) ∧ (∀ c ∈ after, isBlank c) ∧ (sign = [] ∨ sign = ['#'])

def bare (s : String) : List Char :=
  match trimChars s.toList with
  | '#' :: rest => rest
  | rest => rest

theorem read?_eq (s : String) : Color.read? s =
    if byteLength (bare s) = 8 then
      (readHexadecimal? (bare s)).map fun n => ofPacked (UInt32.ofNat n)
    else none := rfl

theorem holds_bare (s : String) : Holds s (bare s) := by
  obtain ⟨before, after, hsplit, hbefore, hafter⟩ := exists_trimChars s.toList
  unfold bare
  split
  · next rest hsign => exact ⟨before, ['#'], after, by rw [hsplit, hsign]; rfl, hbefore, hafter, .inr rfl⟩
  · exact ⟨before, [], after, hsplit, hbefore, hafter, .inl rfl⟩

theorem Holds.bare_eq {s : String} {core : List Char} (h : Holds s core)
    (hcore : ∀ c ∈ core, isBlank c = false ∧ c ≠ '#') : bare s = core := by
  obtain ⟨before, sign, after, hsplit, hbefore, hafter, hsign⟩ := h
  have hsolid : ∀ c ∈ sign ++ core, isBlank c = false := by
    intro c hc
    rcases List.mem_append.1 hc with hc | hc
    · rcases hsign with rfl | rfl
      · cases hc
      · rw [List.mem_singleton.1 hc]
        decide
    · exact (hcore c hc).1
  have htrim : trimChars s.toList = sign ++ core := by
    rw [hsplit, trimChars_blank_append hbefore, trimChars_append_blank hafter]
    exact trimChars_eq_self (fun c hc => hsolid c (List.mem_of_mem_head? hc))
      fun c hc => hsolid c (List.mem_of_mem_getLast? hc)
  unfold bare
  rw [htrim]
  rcases hsign with rfl | rfl
  · split
    · next rest heq => exact absurd rfl (hcore '#' (by rw [← List.nil_append core, heq]; simp)).2
    · rfl
  · rfl

/-- A text stands for digits that are all that is in it, also where a plus sign takes the place of a
zero that comes first. -/
def StandsFor (s : String) (digits : List Char) : Prop :=
  Holds s digits ∨ ∃ tail, digits = '0' :: tail ∧ Holds s ('+' :: tail)

theorem EightDigits.plain {digits : List Char} (h : EightDigits digits) :
    ∀ d ∈ digits, isBlank d = false ∧ d ≠ '#' := by
  intro d hd
  obtain ⟨-, -, -, -, hblank, -, hsign, -⟩ := hexCharacters_spec d (h.2 d hd)
  exact ⟨hblank, hsign⟩

theorem EightDigits.bare_eq {s : String} {digits : List Char} (h : EightDigits digits)
    (hstands : StandsFor s digits) :
    bare s = digits ∨ ∃ tail, digits = '0' :: tail ∧ bare s = '+' :: tail := by
  rcases hstands with hholds | ⟨tail, rfl, hholds⟩
  · exact .inl (hholds.bare_eq h.plain)
  · refine .inr ⟨tail, rfl, hholds.bare_eq ?_⟩
    exact List.forall_mem_cons.2 ⟨by decide, fun d hd => h.plain d (List.mem_cons_of_mem _ hd)⟩

/-- A plus sign before digits is read as a zero. -/
theorem readHexadecimal?_plus {tail : List Char} (h : tail ≠ []) :
    readHexadecimal? ('+' :: tail) = (number 16 hexDigit? 0 ('0' :: tail)).toOption := by
  have hempty : tail.isEmpty = false := by simpa using h
  have hzero : hexDigit? '0' = some 0 := by decide
  simp [readHexadecimal?, hempty, number, hzero]

theorem readHexadecimal?_digits {digits : List Char} (h : EightDigits digits) :
    readHexadecimal? digits = (number 16 hexDigit? 0 digits).toOption := by
  have hempty : digits.isEmpty = false := by
    rw [← Bool.not_eq_true, List.isEmpty_iff]
    rintro rfl
    exact absurd h.1 (by decide)
  unfold readHexadecimal?
  split
  · next tail =>
    exact absurd rfl (hexCharacters_spec '+' (h.2 '+' List.mem_cons_self)).choose_spec.2.2.2.2.2.2
  · simp [hempty]

theorem EightDigits.read? {s : String} {digits : List Char} (h : EightDigits digits)
    (hstands : StandsFor s digits) :
    ∃ c, read? s = some c ∧ c.write = String.ofList (digits.map Char.toLower) := by
  obtain ⟨n, c, hnumber, hcolor, hwrite⟩ := h.exists_color
  refine ⟨c, ?_, hwrite⟩
  have hlength := (byteLength_hexCharacters h.2).trans h.1
  have hread : byteLength (bare s) = 8 ∧ readHexadecimal? (bare s) = some n := by
    rcases h.bare_eq hstands with heq | ⟨tail, rfl, heq⟩
    · rw [heq, readHexadecimal?_digits h, hnumber]
      exact ⟨hlength, rfl⟩
    · have htail : tail ≠ [] := by
        rintro rfl
        exact absurd h.1 (by decide)
      rw [heq, readHexadecimal?_plus htail, hnumber]
      exact ⟨hlength, rfl⟩
  rw [read?_eq, if_pos hread.1, hread.2, Option.map_some, hcolor]

theorem number_of_readHexadecimal? {cs : List Char} {n : Nat} (h : readHexadecimal? cs = some n) :
    ∃ digits, (∀ d ∈ digits, d ∈ hexCharacters) ∧ (cs = digits ∨ cs = '+' :: digits) := by
  have hof {digits : List Char} (hread : (if digits.isEmpty then none
      else (number 16 hexDigit? 0 digits).toOption) = some n) : ∀ d ∈ digits, d ∈ hexCharacters := by
    split at hread
    · cases hread
    · cases hnumber : number 16 hexDigit? 0 digits with
      | error c =>
        rw [hnumber] at hread
        cases hread
      | ok m => exact hexCharacters_of_number hnumber
  unfold readHexadecimal? at h
  split at h
  · next digits => exact ⟨digits, hof h, .inr rfl⟩
  · exact ⟨cs, hof h, .inl rfl⟩

theorem exists_digits_of_read? {s : String} {c : Color} (h : Color.read? s = some c) :
    ∃ digits, EightDigits digits ∧ StandsFor s digits := by
  rw [read?_eq] at h
  split at h
  · next hlength =>
    obtain ⟨n, hn, -⟩ := Option.map_eq_some_iff.1 h
    obtain ⟨digits, hdigits, hbare⟩ := number_of_readHexadecimal? hn
    have hholds := holds_bare s
    have hbytes := byteLength_hexCharacters hdigits
    rcases hbare with heq | heq
    · rw [heq] at hlength hholds
      exact ⟨digits, ⟨hbytes.symm.trans hlength, hdigits⟩, .inl hholds⟩
    · have hplus : '+'.utf8Size = 1 := by decide
      rw [heq, byteLength_cons, hbytes, hplus] at hlength
      rw [heq] at hholds
      have hseven : digits.length = 7 := by omega
      exact ⟨'0' :: digits, ⟨by rw [List.length_cons, hseven],
        List.forall_mem_cons.2 ⟨by decide, hdigits⟩⟩, .inr ⟨digits, rfl, hholds⟩⟩
  · cases h

/-! ## Texts of colours -/

/-- A text is read as a colour if it stands for eight digits, and only then: the colour is written in
these digits in lower case. What is written for a colour is read as the colour. A field of the type
holds the same texts. -/
theorem read?_exact (s : String) :
    ((Color.read? s).isSome ↔ ∃ digits, EightDigits digits ∧ StandsFor s digits) ∧
    (∀ c digits, Color.read? s = some c → EightDigits digits → StandsFor s digits →
      c.write = String.ofList (digits.map Char.toLower)) ∧
    (∀ c, Color.read? (write c) = some c) ∧
    ValueType.color.isValid s = (Color.read? s).isSome := by
  refine ⟨⟨fun h => ?_, ?_⟩, ?_, fun c => FieldValue.read?_write (t := .color) (by decide) c, rfl⟩
  · obtain ⟨c, hc⟩ := Option.isSome_iff_exists.1 h
    exact exists_digits_of_read? hc
  · rintro ⟨digits, hdigits, hstands⟩
    obtain ⟨c, hc, -⟩ := hdigits.read? hstands
    rw [hc]
    rfl
  · intro c digits hread hdigits hstands
    obtain ⟨c', hc', hwrite⟩ := hdigits.read? hstands
    rw [hread] at hc'
    cases hc'
    exact hwrite

/-- Blank characters, a number sign and a plus sign before seven digits. -/
example : Color.read? " #+ABCDEF1\n" = some ⟨0x0a, 0xbc, 0xde, 0xf1⟩ := by decide

/-- A plus sign may come before seven digits, so not only texts with eight digits are read. -/
theorem not_read?_only_digits : ¬∀ s : String, (Color.read? s).isSome ↔
    ∃ digits, EightDigits digits ∧ Holds s digits := by
  intro h
  obtain ⟨digits, hdigits, hholds⟩ := (h "+1234567").1 (by decide)
  have hbare : bare "+1234567" = "+1234567".toList := by decide
  rw [hholds.bare_eq hdigits.plain] at hbare
  exact absurd (hdigits.2 '+' (hbare ▸ List.mem_cons_self)) (by decide)

end Color

end KmlTree
