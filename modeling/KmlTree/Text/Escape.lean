/-!
# Writing characters as references

The five predefined entities, and the writing of a text with some of its characters replaced by
references to them. Which characters are replaced depends on where the text stands.
-/
namespace KmlTree.Text

def entityName? : Char → Option String
  | '<' => some "lt"
  | '>' => some "gt"
  | '&' => some "amp"
  | '\'' => some "apos"
  | '"' => some "quot"
  | _ => none

def entityChar? (name : String) : Option Char :=
  ['<', '>', '&', '\'', '"'].find? fun c => entityName? c == some name

/-- A character as the reference to its predefined entity, or as itself if it has none. -/
def reference (c : Char) : List Char :=
  match entityName? c with
  | some name => '&' :: name.toList ++ [';']
  | none => [c]

def escapeChars (guarded : List Char) (cs : List Char) : List Char :=
  cs.flatMap fun c => if guarded.contains c then reference c else [c]

/-- Text between tags: no character of it can be taken for markup. -/
def escapeText (s : String) : String :=
  String.ofList (escapeChars ['&', '<', '>'] s.toList)

def escapeAttribute (s : String) : String :=
  String.ofList (escapeChars ['&', '<', '>', '"'] s.toList)

/-- Text that is to stand in a value within either sort of quotes. -/
def escapeQuoted (s : String) : String :=
  String.ofList (escapeChars ['<', '>', '&', '\'', '"'] s.toList)

end KmlTree.Text
