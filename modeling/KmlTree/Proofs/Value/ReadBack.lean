import Mathlib.Algebra.Ring.Nat
import Mathlib.Data.List.TakeWhile
import KmlTree.Value.Field

/-!
# Values that are read back

The text of a value stands for that value, and still does between blank characters. Main statement:
whatever a truth value, an integer, a colour or a word of a vocabulary is written as is read as the
same again.
-/
namespace KmlTree

open Text

namespace Number

/-! ## Integers -/

theorem isBlank_of_isDigit {c : Char} (h : c.isDigit = true) : isBlank c = false := by
  simp only [Char.isDigit, Bool.and_eq_true, decide_eq_true_eq, UInt32.le_iff_toNat_le] at h
  have hlow : 48 ≤ c.toNat := h.1
  have hhigh : c.toNat ≤ 57 := h.2
  simp only [isBlank, Bool.or_eq_false_iff, Bool.and_eq_false_iff, decide_eq_false_iff_not,
    beq_eq_false_iff_ne]
  omega

theorem spanSign_of_isDigit {cs : List Char} (h : ∀ c ∈ cs, c.isDigit = true) :
    spanSign cs = (false, cs) := by
  unfold spanSign
  split
  · exact absurd (h '-' List.mem_cons_self) (by decide)
  · exact absurd (h '+' List.mem_cons_self) (by decide)
  · rfl

theorem spanDigits_of_isDigit {cs : List Char} (h : ∀ c ∈ cs, c.isDigit = true) :
    spanDigits cs = (cs, []) := by
  rw [spanDigits, List.takeWhile_eq_self_iff.2 h, List.dropWhile_eq_nil_iff.2 h]

/-- An integer in decimal digits, after a minus sign if it is below zero. -/
def integerChars : Int → List Char
  | .ofNat n => Nat.toDigits 10 n
  | .negSucc n => '-' :: Nat.toDigits 10 (n + 1)

theorem isDigit_of_mem_toDigits {n : Nat} : ∀ c ∈ Nat.toDigits 10 n, c.isDigit = true :=
  fun _ => Nat.isDigit_of_mem_toDigits (by decide) (by decide)

theorem ofDigits_toDigits (n : Nat) : ofDigits (Nat.toDigits 10 n) = n := by
  have h := Nat.ofDigitChars_ten_toDigits (n := n)
  rwa [Nat.ofDigitChars_eq_foldl] at h

theorem readInt?_integerChars (n : Int) : readInt? (integerChars n) = some n := by
  cases n with
  | ofNat n =>
    have hsign := spanSign_of_isDigit (isDigit_of_mem_toDigits (n := n))
    have hdigits := spanDigits_of_isDigit (isDigit_of_mem_toDigits (n := n))
    simp [readInt?, integerChars, hsign, hdigits, ofDigits_toDigits, Nat.toDigits_ne_nil]
  | negSucc n =>
    have hdigits := spanDigits_of_isDigit (isDigit_of_mem_toDigits (n := n + 1))
    simp [readInt?, integerChars, spanSign, hdigits, ofDigits_toDigits, Nat.toDigits_ne_nil]
    omega

theorem trimChars_integerChars (n : Int) : trimChars (integerChars n) = integerChars n := by
  have hblank : ∀ c ∈ integerChars n, isBlank c = false := by
    intro c hc
    cases n with
    | ofNat n => exact isBlank_of_isDigit (isDigit_of_mem_toDigits c hc)
    | negSucc n =>
      rcases List.mem_cons.1 hc with rfl | hc
      · decide
      · exact isBlank_of_isDigit (isDigit_of_mem_toDigits c hc)
  exact trimChars_eq_self (fun c hc => hblank c (List.mem_of_mem_head? hc))
    fun c hc => hblank c (List.mem_of_mem_getLast? hc)

theorem toList_writeInt64 (n : Int64) : (writeInt64 n).toList = integerChars n.toInt := by
  rw [writeInt64]
  cases n.toInt <;> exact String.toList_ofList

theorem readInt64?_writeInt64 (n : Int64) :
    readInt64? (trimChars (writeInt64 n).toList) = some n := by
  rw [toList_writeInt64, trimChars_integerChars, readInt64?, readInt?_integerChars]
  rw [Option.bind_some, if_pos ⟨n.minValue_le_toInt, n.toInt_le⟩, Int64.ofInt_toInt]

end Number

namespace Color

/-! ## Colours -/

/-- What is true of each of the sixteen digits. -/
theorem digit_spec {n : Nat} (h : n < 16) :
    hexDigit? (digitChar n) = some n ∧ isBlank (digitChar n) = false ∧
      (digitChar n).utf8Size = 1 ∧ digitChar n ≠ '#' ∧ digitChar n ≠ '+' := by
  revert n
  decide

theorem number_writeChannel (acc : Nat) (channel : UInt8) (rest : List Char) :
    number 16 hexDigit? acc (writeChannel channel ++ rest) =
      number 16 hexDigit? (256 * acc + channel.toNat) rest := by
  have hlt := channel.toNat_lt
  obtain ⟨hhigh, -⟩ := digit_spec (n := channel.toNat / 16) (by omega)
  obtain ⟨hlow, -⟩ := digit_spec (n := channel.toNat % 16) (by omega)
  have hvalue : 16 * (16 * acc + channel.toNat / 16) + channel.toNat % 16 =
      256 * acc + channel.toNat := by omega
  simp only [writeChannel, List.cons_append, List.nil_append, number, hhigh, hlow, hvalue]

theorem of_mem_writeChannel {channel : UInt8} {c : Char} (h : c ∈ writeChannel channel) :
    ∃ n < 16, c = digitChar n := by
  have hlt := channel.toNat_lt
  rcases List.mem_cons.1 h with rfl | h
  · exact ⟨_, by omega, rfl⟩
  · exact ⟨_, by omega, List.mem_singleton.1 h⟩

def chars (c : Color) : List Char :=
  writeChannel c.alpha ++ writeChannel c.blue ++ writeChannel c.green ++ writeChannel c.red

theorem of_mem_chars {color : Color} {c : Char} (h : c ∈ color.chars) :
    ∃ n < 16, c = digitChar n := by
  simp only [chars, List.mem_append] at h
  rcases h with ((h | h) | h) | h <;> exact of_mem_writeChannel h

theorem number_chars (c : Color) : number 16 hexDigit? 0 c.chars =
    .ok (256 * (256 * (256 * c.alpha.toNat + c.blue.toNat) + c.green.toNat) + c.red.toNat) := by
  have happend : c.chars = writeChannel c.alpha ++ (writeChannel c.blue ++
      (writeChannel c.green ++ (writeChannel c.red ++ []))) := by
    simp [chars]
  rw [happend, number_writeChannel, number_writeChannel, number_writeChannel, number_writeChannel,
    number, Nat.mul_zero, Nat.zero_add]

theorem toNat_shiftRight_toUInt8 (v : UInt32) {s : UInt32} (hs : s.toNat < 32) :
    (v >>> s).toUInt8.toNat = v.toNat / 2 ^ s.toNat % 256 := by
  rw [UInt32.toNat_toUInt8, UInt32.toNat_shiftRight, Nat.mod_eq_of_lt hs,
    Nat.shiftRight_eq_div_pow]

theorem ofPacked_number (c : Color) : ofPacked (UInt32.ofNat
    (256 * (256 * (256 * c.alpha.toNat + c.blue.toNat) + c.green.toNat) + c.red.toNat)) = c := by
  have halpha := c.alpha.toNat_lt
  have hblue := c.blue.toNat_lt
  have hgreen := c.green.toNat_lt
  have hred := c.red.toNat_lt
  generalize hn : 256 * (256 * (256 * c.alpha.toNat + c.blue.toNat) + c.green.toNat) +
    c.red.toNat = n
  -- The number fits, so each shift leaves the bytes above the one that is taken.
  have hlt : n < 4294967296 := by omega
  have hfit : (UInt32.ofNat n).toNat = n := UInt32.toNat_ofNat_of_lt' hlt
  have h24 : (UInt32.ofNat n >>> 24).toUInt8.toNat = c.alpha.toNat := by
    rw [toNat_shiftRight_toUInt8 _ (by decide), hfit]
    change n / 16777216 % 256 = _
    omega
  have h16 : (UInt32.ofNat n >>> 16).toUInt8.toNat = c.blue.toNat := by
    rw [toNat_shiftRight_toUInt8 _ (by decide), hfit]
    change n / 65536 % 256 = _
    omega
  have h8 : (UInt32.ofNat n >>> 8).toUInt8.toNat = c.green.toNat := by
    rw [toNat_shiftRight_toUInt8 _ (by decide), hfit]
    change n / 256 % 256 = _
    omega
  have h0 : (UInt32.ofNat n).toUInt8.toNat = c.red.toNat := by
    rw [UInt32.toNat_toUInt8, hfit]
    omega
  rw [ofPacked, UInt8.toNat_inj.1 h24, UInt8.toNat_inj.1 h16, UInt8.toNat_inj.1 h8,
    UInt8.toNat_inj.1 h0]

theorem readHexadecimal?_chars (c : Color) : readHexadecimal? c.chars = some
    (256 * (256 * (256 * c.alpha.toNat + c.blue.toNat) + c.green.toNat) + c.red.toNat) := by
  have hnumber := c.number_chars
  unfold readHexadecimal?
  split
  · next digits hplus =>
    obtain ⟨n, hn, heq⟩ := of_mem_chars (hplus ▸ List.mem_cons_self)
    exact absurd heq.symm (digit_spec hn).2.2.2.2
  · have hne : c.chars.isEmpty = false := by simp [chars, writeChannel]
    simp only [hne, hnumber]
    rfl

theorem read?_of_trimChars {c : Color} {s : String} (h : trimChars s.toList = c.chars) :
    read? s = some c := by
  have hlength : byteLength c.chars = 8 := by
    have hpair (channel : UInt8) : byteLength (writeChannel channel) = 2 := by
      have hlt := channel.toNat_lt
      obtain ⟨-, -, hhigh, -⟩ := digit_spec (n := channel.toNat / 16) (by omega)
      obtain ⟨-, -, hlow, -⟩ := digit_spec (n := channel.toNat % 16) (by omega)
      simp [writeChannel, hhigh, hlow]
    simp [chars, hpair]
  rw [read?, h]
  split
  · next rest hsign =>
    obtain ⟨n, hn, heq⟩ := of_mem_chars (hsign ▸ List.mem_cons_self)
    exact absurd heq.symm (digit_spec hn).2.2.2.1
  · rw [if_pos hlength, readHexadecimal?_chars, Option.map_some, ofPacked_number]

theorem trimChars_chars (c : Color) : trimChars c.chars = c.chars := by
  have hblank : ∀ d ∈ c.chars, isBlank d = false := by
    intro d hd
    obtain ⟨n, hn, rfl⟩ := of_mem_chars hd
    exact (digit_spec hn).2.1
  exact trimChars_eq_self (fun d hd => hblank d (List.mem_of_mem_head? hd))
    fun d hd => hblank d (List.mem_of_mem_getLast? hd)

end Color

/-! ## Words -/

theorem Vocabulary.trim_word {v : Vocabulary} : ∀ word ∈ v.words, trim word = word := by
  cases v <;> decide

/-! ## Values -/

namespace ValueType

abbrev Value : ValueType → Type
  | .text => String
  | .boolean => Bool
  | .double => Float
  | .integer => Int64
  | .color => Color
  | .keyword v => Keyword v

instance fieldValue : (t : ValueType) → FieldValue t.Value
  | .text => inferInstanceAs (FieldValue String)
  | .boolean => inferInstanceAs (FieldValue Bool)
  | .double => inferInstanceAs (FieldValue Float)
  | .integer => inferInstanceAs (FieldValue Int64)
  | .color => inferInstanceAs (FieldValue Color)
  | .keyword v => inferInstanceAs (FieldValue (Keyword v))

end ValueType

namespace FieldValue

theorem read?_congr {t : ValueType} (ht : t ≠ .text) {s s' : String}
    (h : trimChars s.toList = trimChars s'.toList) :
    (read? s : Option t.Value) = read? s' := by
  cases t with
  | text => exact absurd rfl ht
  | boolean =>
    change readBool? s = readBool? s'
    rw [readBool?, readBool?, trim, trim, h]
  | double => exact congrArg Number.readFloat? h
  | integer => exact congrArg Number.readInt64? h
  | color =>
    change Color.read? s = Color.read? s'
    rw [Color.read?, Color.read?, h]
  | keyword v =>
    change Keyword.read? v s = Keyword.read? v s'
    rw [Keyword.read?, Keyword.read?, trim, trim, h]

theorem read?_write {t : ValueType} (ht : t ≠ .double) (value : t.Value) :
    read? (write value) = some value := by
  cases t with
  | text => rfl
  | boolean => cases value <;> decide
  | double => exact absurd rfl ht
  | integer => exact Number.readInt64?_writeInt64 value
  | color =>
    refine Color.read?_of_trimChars ?_
    exact (congrArg trimChars String.toList_ofList).trans value.trimChars_chars
  | keyword v =>
    change Keyword.read? v value.word = some value
    rw [Keyword.read?, Vocabulary.trim_word value.word value.mem_words]
    exact dif_pos value.mem_words

/-- What is written for a value is read as the value, also between blank characters. -/
theorem read?_between_blank {t : ValueType} (ht : t ≠ .text) (hdouble : t ≠ .double)
    (value : t.Value) {before after : List Char} (hbefore : ∀ c ∈ before, isBlank c)
    (hafter : ∀ c ∈ after, isBlank c) :
    read? (String.ofList before ++ write value ++ String.ofList after) = some value := by
  rw [← read?_write hdouble value]
  refine read?_congr ht ?_
  rw [String.toList_append, String.toList_append, String.toList_ofList, String.toList_ofList,
    trimChars_append_blank hafter, trimChars_blank_append hbefore]

theorem accepts_iff {t declared : ValueType} :
    accepts t.Value declared = true ↔ t = .text ∨ declared = t := by
  cases t with
  | text => exact iff_of_true rfl (.inl rfl)
  | _ => exact beq_iff_eq.trans (or_iff_right (by simp)).symm

end FieldValue

theorem ValueType.isValid_eq (t : ValueType) (s : String) :
    t.isValid s = (FieldValue.read? s : Option t.Value).isSome := by
  cases t <;> rfl

theorem ValueType.isValid_write {t : ValueType} (h : t ≠ .double) (value : t.Value) :
    t.isValid (FieldValue.write value) = true := by
  rw [isValid_eq, FieldValue.read?_write h]
  rfl

end KmlTree
