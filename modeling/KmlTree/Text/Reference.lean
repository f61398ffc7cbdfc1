import KmlTree.Text.Escape
import KmlTree.Text.Quoted

/-!
# Reading references

Text and attribute values may hold references: the five predefined entities, and characters given
by their number in decimal or hexadecimal digits. `unescape` puts the characters in place of the
references, or says what is wrong with the first reference that stands for none.
-/
namespace KmlTree.Text

inductive ReferenceError
  /-- No semicolon follows the ampersand at `start`, up to the end or the next ampersand. -/
  | unterminated (start stop : Nat)
  /-- The name between `start` and `stop` is no predefined entity. -/
  | unknownEntity (start stop : Nat) (name : String)
  | hexadecimalTooLong
  | decimalTooLong
  | notHexadecimal (byte : Nat)
  | notDecimal (byte : Nat)
  /-- The reference between `start` and `stop` has the number zero. -/
  | null (start stop : Nat)
  | notACharacter (number : Nat)
  deriving DecidableEq, Repr

namespace ReferenceError

def place (start stop : Nat) : String :=
  s!"Error while escaping character at range {start}..{stop}: "

def message : ReferenceError → String
  | .unterminated start stop => place start stop ++ "Cannot find ';' after '&'"
  | .unknownEntity start stop name =>
    place start stop ++ "Unrecognized escape symbol: " ++ quoted name
  | .hexadecimalTooLong => "Cannot convert hexadecimal to utf8"
  | .decimalTooLong => "Cannot convert decimal to utf8"
  | .notHexadecimal byte => s!"'{Char.ofNat byte}' is not a valid hexadecimal character"
  | .notDecimal byte => s!"'{Char.ofNat byte}' is not a valid decimal character"
  | .null start stop => place start stop ++ "Null character entity not allowed"
  | .notACharacter number => s!"'{number}' is not a valid codepoint"

end ReferenceError

def leadByte (c : Char) : Nat :=
  let n := c.toNat
  if n < 0x80 then n
  else if n < 0x800 then 0xC0 + n / 0x40
  else if n < 0x10000 then 0xE0 + n / 0x1000
  else 0xF0 + n / 0x40000

def decimalDigit? (c : Char) : Option Nat :=
  if '0' ≤ c ∧ c ≤ '9' then some (c.toNat - '0'.toNat) else none

def hexDigit? (c : Char) : Option Nat :=
  if '0' ≤ c ∧ c ≤ '9' then some (c.toNat - '0'.toNat)
  else if 'a' ≤ c ∧ c ≤ 'f' then some (c.toNat - 'a'.toNat + 10)
  else if 'A' ≤ c ∧ c ≤ 'F' then some (c.toNat - 'A'.toNat + 10)
  else none

/-- The number that digits stand for, or the first character that is no digit. -/
def number (base : Nat) (digit? : Char → Option Nat) : Nat → List Char → Except Char Nat
  | acc, [] => .ok acc
  | acc, c :: cs =>
    match digit? c with
    | some d => number base digit? (base * acc + d) cs
    | none => .error c

def byteLength (cs : List Char) : Nat := cs.foldr (fun c n => c.utf8Size + n) 0

@[simp] theorem byteLength_nil : byteLength [] = 0 := rfl

@[simp] theorem byteLength_cons (c : Char) (cs : List Char) :
    byteLength (c :: cs) = c.utf8Size + byteLength cs := rfl

@[simp] theorem byteLength_append (cs ds : List Char) :
    byteLength (cs ++ ds) = byteLength cs + byteLength ds := by
  induction cs with
  | nil => simp
  | cons c cs ih => simp [ih, Nat.add_assoc]

/-- The number in a numeric reference, given what stands between `#` and the semicolon. -/
def referenceNumber : List Char → Except ReferenceError Nat
  | 'x' :: digits =>
    if byteLength digits > 6 then .error .hexadecimalTooLong
    else (number 16 hexDigit? 0 digits).mapError fun c => .notHexadecimal (leadByte c)
  | digits =>
    if byteLength digits > 7 then .error .decimalTooLong
    else (number 10 decimalDigit? 0 digits).mapError fun c => .notDecimal (leadByte c)

/-- The character with a number, zero and the surrogates having none. -/
def charOfNumber (start stop n : Nat) : Except ReferenceError Char :=
  if n = 0 then .error (.null start stop)
  else if h : n.isValidChar then .ok (Char.ofNatAux n h)
  else .error (.notACharacter n)

/-- The character that a reference stands for, given the text between its ampersand at `start` and
its semicolon at `stop`. -/
def referredChar (start stop : Nat) : List Char → Except ReferenceError Char
  | '#' :: digits => referenceNumber digits >>= charOfNumber start stop
  | name =>
    match entityChar? (String.ofList name) with
    | some c => .ok c
    | none => .error (.unknownEntity (start + 1) stop (String.ofList name))

/-- The reading of a text from a position on. Within a reference, `pending` holds the position of
the ampersand and the characters since, the latest first. -/
def unescapeChars (length : Nat) :
    Nat → Option (Nat × List Char) → List Char → Except ReferenceError (List Char)
  | _, none, [] => .ok []
  | _, some (start, _), [] => .error (.unterminated start length)
  | pos, none, c :: cs =>
    if c = '&' then unescapeChars length (pos + 1) (some (pos, [])) cs
    else (c :: ·) <$> unescapeChars length (pos + c.utf8Size) none cs
  | pos, some (start, name), c :: cs =>
    if c = ';' then
      match referredChar start pos name.reverse with
      | .ok d => (d :: ·) <$> unescapeChars length (pos + 1) none cs
      | .error e => .error e
    else if c = '&' then .error (.unterminated start length)
    else unescapeChars length (pos + c.utf8Size) (some (start, c :: name)) cs

def unescape (s : String) : Except ReferenceError String :=
  String.ofList <$> unescapeChars s.utf8ByteSize 0 none s.toList

end KmlTree.Text
