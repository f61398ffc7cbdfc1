import KmlTree.Number.Binary64

/-!
# The fewest digits that read back

Every finite number is written with as few digits as tell it from all other numbers. The multiples
of a power of ten form a grid; the numbers that round to the given one form an interval. The
coarsest grid with a point in the interval gives the digits, and of two such points the nearer one.
-/
namespace KmlTree.Number

/-- The decimal number `digits * 10 ^ exponent`. -/
structure Decimal where
  digits : Nat
  exponent : Int
  deriving DecidableEq, Repr

/-- The multiple of `10 ^ place` that stands for a number: of the multiples next to it those that
round to it, and of these the nearer one, or the upper one of two that are equally near. -/
def gridPoint? (x : Binary) (place : Int) : Option Nat :=
  let quarter := x.exponent - 2
  let unit := Nat.pow 2 quarter.toNat * Nat.pow 10 (-place).toNat
  let step := Nat.pow 2 (-quarter).toNat * Nat.pow 10 place.toNat
  let value := 4 * x.mantissa * unit
  let low := (4 * x.mantissa - if x.lowest then 1 else 2) * unit
  let high := (4 * x.mantissa + 2) * unit
  let within (d : Nat) : Bool :=
    if x.mantissa % 2 = 0 then low ≤ d * step && d * step ≤ high
    else low < d * step && d * step < high
  let below := value / step
  match within below, within (below + 1) with
  | true, true => some (if 2 * value < (2 * below + 1) * step then below else below + 1)
  | true, false => some below
  | false, true => some (below + 1)
  | false, false => none

/-- The places at which the last digit of a shortest decimal number may stand, coarsest first. -/
def places : List Int := (List.range 660).map fun (i : Nat) => 309 - (i : Int)

/-- The decimal number with the fewest digits that rounds to the given number. -/
def shortest (x : Binary) : Decimal :=
  if x.mantissa = 0 then ⟨0, 0⟩
  else
    (places.findSome? fun place => (gridPoint? x place).map (⟨·, place⟩)).getD ⟨0, 0⟩

/-- A decimal number in positional notation, with a point only before a fraction. -/
def Decimal.render (d : Decimal) : List Char :=
  let digits := Nat.toDigits 10 d.digits
  match d.exponent with
  | .ofNat n => digits ++ List.replicate n '0'
  | .negSucc n =>
    let places := n + 1
    let padded := List.replicate (places + 1 - digits.length) '0' ++ digits
    padded.take (padded.length - places) ++ '.' :: padded.drop (padded.length - places)

end KmlTree.Number
