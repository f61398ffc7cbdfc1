/-!
# Binary floating-point numbers in 64 bits

The finite numbers as an integer times a power of two, and the number nearest to a quotient of
natural numbers, found exactly. Infinity is the magnitude after the largest finite one, so numbers
that are too large round to it.
-/
namespace KmlTree.Number

/-- The number `mantissa * 2 ^ exponent`, as the 64 bits hold it. -/
structure Binary where
  mantissa : Nat
  exponent : Int
  /-- Whether the number below is only half as far away as the number above. -/
  lowest : Bool
  deriving DecidableEq, Repr

/-- What 64 bits stand for, the sign aside. -/
inductive Magnitude
  | finite (value : Binary)
  | infinite
  | notANumber
  deriving DecidableEq, Repr

/-- The place value of the lowest bit of the smallest numbers, as a power of two. -/
def leastExponent : Int := -1074

def infinityBits : Nat := 2047 * Nat.pow 2 52

def isNegative (bits : Nat) : Bool := bits / Nat.pow 2 63 % 2 == 1

def magnitude (bits : Nat) : Magnitude :=
  let fraction := bits % Nat.pow 2 52
  match bits / Nat.pow 2 52 % Nat.pow 2 11 with
  | 0 => .finite ⟨fraction, leastExponent, false⟩
  | 2047 => if fraction = 0 then .infinite else .notANumber
  | biased => .finite ⟨Nat.pow 2 52 + fraction, leastExponent + (biased - 1 : Nat),
      fraction == 0 && biased != 1⟩

/-- A power of two that fits the size of a quotient: with it as the place value of the lowest bit,
the mantissa of the quotient has 53 bits, or fewer where no smaller place value is left. -/
def placeExponent (num den : Nat) : Int :=
  let guess : Int := (num.log2 : Int) - den.log2 - 52
  let tooLarge := num * Nat.pow 2 (-guess).toNat < Nat.pow 2 52 * den * Nat.pow 2 guess.toNat
  max (if tooLarge then guess - 1 else guess) leastExponent

/-- The integer nearest to a quotient, the even one of two that are equally near. -/
def roundHalfEven (num den : Nat) : Nat :=
  let q := num / den
  let r := num % den
  if 2 * r < den then q
  else if den < 2 * r then q + 1
  else if q % 2 = 0 then q else q + 1

def nearestBits (num den : Nat) : Nat :=
  if num = 0 then 0
  else
    let place := placeExponent num den
    let mantissa := roundHalfEven (num * Nat.pow 2 (-place).toNat) (den * Nat.pow 2 place.toNat)
    min ((place - leastExponent).toNat * Nat.pow 2 52 + mantissa) infinityBits

def ofBits (negative : Bool) (bits : Nat) : Float :=
  Float.ofBits (UInt64.ofNat (if negative then Nat.pow 2 63 + bits else bits))

end KmlTree.Number
