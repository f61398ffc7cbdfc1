import KmlTree.Text.Reference

/-!
# Attributes of a start tag

After its name, a start tag holds attributes: a key, an equals sign and a value in quotes of either
sort. `readAttributes` reads them one after the other and stops at the first that is not as it
should be. Positions count bytes from the start of the tag's content.
-/
namespace KmlTree.Markup

open Text

/-- White space between the parts of markup: fewer characters than those called blank elsewhere. -/
def isSpace (c : Char) : Bool := c == ' ' || c == '\t' || c == '\n' || c == '\r'

inductive AttributeError
  /-- At a position, no equals sign follows the key. -/
  | noEquals (position : Nat)
  /-- The tag ends after the equals sign. -/
  | noValue (position : Nat)
  /-- At a position, the value does not start with a quote. -/
  | noQuotes (position : Nat)
  /-- The tag ends before the quote that closes the value. -/
  | noClosingQuote (position : Nat) (quote : Char)
  /-- The key at a position is that of the attribute at an earlier one. -/
  | repeated (position earlier : Nat)
  | reference (error : ReferenceError)
  deriving DecidableEq, Repr

def AttributeError.message : AttributeError → String
  | .noEquals position =>
    syntaxMessage position "attribute key must be directly followed by `=` or space"
  | .noValue position => syntaxMessage position "`=` must be followed by an attribute value"
  | .noQuotes position =>
    syntaxMessage position "attribute value must be enclosed in `\"` or `'`"
  | .noClosingQuote position quote =>
    syntaxMessage position s!"missing closing quote `{quote}` in attribute value"
  | .repeated position earlier =>
    syntaxMessage position s!"duplicated attribute, previous declaration at position {earlier}"
  | .reference error => error.message
where
  /-- The message about the syntax at a position. -/
  syntaxMessage (position : Nat) (text : String) : String :=
    s!"invalid attribute: position {position}: {text}"

/-- Characters that are still to be read, with the position of the first of them. -/
structure Cursor where
  position : Nat
  rest : List Char
  deriving DecidableEq, Repr

namespace Cursor

def next (c : Char) (rest : List Char) (position : Nat) : Cursor := ⟨position + c.utf8Size, rest⟩

/-- The characters up to the first that passes a test, and the cursor at that one. -/
def upTo (test : Char → Bool) (cursor : Cursor) : List Char × Cursor :=
  let taken := cursor.rest.takeWhile fun c => !test c
  (taken, ⟨cursor.position + byteLength taken, cursor.rest.dropWhile fun c => !test c⟩)

def skipSpace (cursor : Cursor) : Cursor := (cursor.upTo fun c => !isSpace c).2

theorem length_upTo_le (test : Char → Bool) (cursor : Cursor) :
    (cursor.upTo test).2.rest.length ≤ cursor.rest.length :=
  (List.dropWhile_sublist _).length_le

end Cursor

/-- The key of an attribute at a cursor, and the cursor after its equals sign. The first character
belongs to the key whatever it is. -/
def readKey (c : Char) (cs : List Char) (position : Nat) :
    Except AttributeError (String × Cursor) :=
  let (key, cursor) :=
    (Cursor.next c cs position).upTo fun c => c == '=' || isSpace c
  match cursor.skipSpace with
  | ⟨position, '=' :: rest⟩ => .ok (String.ofList (c :: key), ⟨position + 1, rest⟩)
  | cursor => .error (.noEquals cursor.position)

/-- The value of an attribute at a cursor, with its references replaced, and the cursor after its
closing quote. -/
def readValue (cursor : Cursor) : Except AttributeError (String × Cursor) :=
  match cursor.skipSpace with
  | ⟨position, []⟩ => .error (.noValue position)
  | ⟨position, quote :: rest⟩ =>
    if quote = '"' ∨ quote = '\'' then
      match (Cursor.mk (position + 1) rest).upTo (· == quote) with
      | (_, ⟨position, []⟩) => .error (.noClosingQuote position quote)
      | (value, ⟨position, _ :: rest⟩) =>
        match unescape (String.ofList value) with
        | .error error => .error (.reference error)
        | .ok value => .ok (value, ⟨position + 1, rest⟩)
    else .error (.noQuotes position)

theorem length_lt_of_readKey {c : Char} {cs : List Char} {position : Nat} {key : String}
    {cursor : Cursor} (h : readKey c cs position = .ok (key, cursor)) :
    cursor.rest.length < (c :: cs).length := by
  unfold readKey at h
  split at h
  next key' cursor' hkey =>
  split at h
  · next position' rest hskip =>
    have h₁ := Cursor.length_upTo_le (fun c => c == '=' || isSpace c) (Cursor.next c cs position)
    have h₂ := Cursor.length_upTo_le (fun c => !isSpace c) cursor'
    rw [hkey] at h₁
    change cursor'.skipSpace.rest.length ≤ _ at h₂
    rw [hskip] at h₂
    cases h
    simp [Cursor.next] at h₁ h₂ ⊢
    omega
  · cases h

theorem length_lt_of_readValue {cursor cursor' : Cursor} {value : String}
    (h : readValue cursor = .ok (value, cursor')) : cursor'.rest.length < cursor.rest.length := by
  unfold readValue at h
  split at h
  · cases h
  next position quote rest hskip =>
  split at h
  · split at h
    · cases h
    next value' position' c rest' hupTo =>
    split at h
    · cases h
    · have h₁ := Cursor.length_upTo_le (fun c => !isSpace c) cursor
      have h₂ := Cursor.length_upTo_le (· == quote) ⟨position + 1, rest⟩
      change cursor.skipSpace.rest.length ≤ _ at h₁
      rw [hskip] at h₁
      rw [hupTo] at h₂
      cases h
      simp at h₁ h₂ ⊢
      omega
  · cases h

/-- The attributes at a cursor. The keys that came before, with their positions, must not come
again. -/
def readAttributesFrom (earlier : List (String × Nat)) (cursor : Cursor) :
    Except AttributeError (List (String × String)) :=
  match _hc : cursor.skipSpace with
  | ⟨_, []⟩ => .ok []
  | ⟨position, c :: cs⟩ =>
    match _hk : readKey c cs position with
    | .error error => .error error
    | .ok (key, afterKey) =>
      match earlier.lookup key with
      | some before => .error (.repeated position before)
      | none =>
        match _hv : readValue afterKey with
        | .error error => .error error
        | .ok (value, afterValue) =>
          ((key, value) :: ·) <$> readAttributesFrom (earlier ++ [(key, position)]) afterValue
termination_by cursor.rest.length
decreasing_by
  have h₁ := Cursor.length_upTo_le (fun c => !isSpace c) cursor
  change cursor.skipSpace.rest.length ≤ _ at h₁
  rw [_hc] at h₁
  have h₂ := length_lt_of_readKey _hk
  have h₃ := length_lt_of_readValue _hv
  simp at h₁ h₂
  omega

/-- The attributes in the content of a start tag from a position on. -/
def readAttributes (position : Nat) (content : List Char) :
    Except AttributeError (List (String × String)) :=
  readAttributesFrom [] ⟨position, content⟩

end KmlTree.Markup
