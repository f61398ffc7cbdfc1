import KmlTree.Text.Reference
import KmlTree.Number.Shortest

/-!
# Numbers as text

Floating-point numbers and 64-bit integers are read from text and written as text. A number that is
written and read again is the same number; what is read need not be written the same way.
-/
namespace KmlTree.Number

def spanDigits (cs : List Char) : List Char × List Char :=
  (cs.takeWhile Char.isDigit, cs.dropWhile Char.isDigit)

def ofDigits (ds : List Char) : Nat :=
  ds.foldl (fun n c => 10 * n + (c.toNat - '0'.toNat)) 0

def spanSign : List Char → Bool × List Char
  | '-' :: cs => (true, cs)
  | '+' :: cs => (false, cs)
  | cs => (false, cs)

/-- An integer: an optional sign and one digit or more. -/
def readInt? (cs : List Char) : Option Int :=
  let (negative, rest) := spanSign cs
  let (digits, rest) := spanDigits rest
  if digits.isEmpty || !rest.isEmpty then none
  else some (if negative then -(ofDigits digits : Int) else ofDigits digits)

/-- An exponent: nothing, or the letter `e` in either case and an integer. -/
def readExponent? : List Char → Option Int
  | [] => some 0
  | c :: cs => if c = 'e' ∨ c = 'E' then readInt? cs else none

/-- An unsigned decimal number: digits, of which some may follow a point, and an exponent. -/
def readDecimal? (cs : List Char) : Option Decimal :=
  let (whole, rest) := spanDigits cs
  let (fraction, rest) :=
    match rest with
    | '.' :: rest => spanDigits rest
    | rest => ([], rest)
  if whole.isEmpty && fraction.isEmpty then none
  else (readExponent? rest).map fun e => ⟨ofDigits (whole ++ fraction), e - fraction.length⟩

/-- The bits of the number nearest to a decimal number. Powers of ten far beyond the largest and
the smallest number are not computed. -/
def Decimal.toBits (d : Decimal) : Nat :=
  let scale : Int := (Nat.toDigits 10 d.digits).length + d.exponent
  if d.digits = 0 ∨ scale < -400 then 0
  else if 400 < scale then infinityBits
  else nearestBits (d.digits * Nat.pow 10 d.exponent.toNat) (Nat.pow 10 (-d.exponent).toNat)

/-- A floating-point number: an optional sign, then a decimal number or, in any case, a word for
infinity or for what is not a number. -/
def readFloat? (cs : List Char) : Option Float :=
  let (negative, rest) := spanSign cs
  let word := String.ofList (rest.map Char.toLower)
  if word == "inf" || word == "infinity" then some (ofBits negative infinityBits)
  else if word == "nan" then some (0.0 / 0.0)
  else (readDecimal? rest).map fun d => ofBits negative d.toBits

/-- A floating-point number in positional notation with the fewest digits that read back. -/
def writeFloat (x : Float) : String :=
  let bits := x.toBits.toNat
  let sign := if isNegative bits then "-" else ""
  match magnitude bits with
  | .finite value => sign ++ String.ofList (shortest value).render
  | .infinite => sign ++ "inf"
  | .notANumber => "NaN"

/-- A 64-bit integer: an optional sign and one digit or more, in range. -/
def readInt64? (cs : List Char) : Option Int64 :=
  (readInt? cs).bind fun n =>
    if Int64.minValue.toInt ≤ n ∧ n ≤ Int64.maxValue.toInt then some (Int64.ofInt n) else none

def writeInt64 (n : Int64) : String :=
  match n.toInt with
  | .ofNat m => String.ofList (Nat.toDigits 10 m)
  | .negSucc m => String.ofList ('-' :: Nat.toDigits 10 (m + 1))

end KmlTree.Number
