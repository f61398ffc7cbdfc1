import KmlTree.Text.Blank
import KmlTree.Text.Reference

/-!
# Colours

A colour has an alpha channel and is written in eight hexadecimal digits, two for each channel, in
the order alpha, blue, green, red.
-/
namespace KmlTree

/-- A colour with an alpha channel, `0xff` being opaque. -/
structure Color where
  alpha : UInt8
  blue : UInt8
  green : UInt8
  red : UInt8
  deriving DecidableEq, Repr, Inhabited

namespace Color

open Text

/-- The colour packed into 32 bits as `0xaabbggrr`. -/
def ofPacked (n : UInt32) : Color :=
  ⟨(n >>> 24).toUInt8, (n >>> 16).toUInt8, (n >>> 8).toUInt8, n.toUInt8⟩

def toPacked (c : Color) : UInt32 :=
  c.alpha.toUInt32 <<< 24 ||| c.blue.toUInt32 <<< 16 ||| c.green.toUInt32 <<< 8 |||
    c.red.toUInt32

def digitChar (n : Nat) : Char := Nat.digitChar n

def writeChannel (channel : UInt8) : List Char :=
  [digitChar (channel.toNat / 16), digitChar (channel.toNat % 16)]

def write (c : Color) : String :=
  String.ofList (writeChannel c.alpha ++ writeChannel c.blue ++ writeChannel c.green ++
    writeChannel c.red)

/-- A number in hexadecimal digits, one at least, after a plus sign or none. -/
def readHexadecimal? (cs : List Char) : Option Nat :=
  let digits :=
    match cs with
    | '+' :: digits => digits
    | digits => digits
  if digits.isEmpty then none else (number 16 hexDigit? 0 digits).toOption

/-- The text of a colour after any blank characters and a number sign: eight bytes that are a number
in hexadecimal digits, where a plus sign may take the place of the first digit. -/
def read? (s : String) : Option Color :=
  let cs := trimChars s.toList
  let cs :=
    match cs with
    | '#' :: rest => rest
    | rest => rest
  if byteLength cs = 8 then (readHexadecimal? cs).map fun n => ofPacked (UInt32.ofNat n) else none

end Color

end KmlTree
