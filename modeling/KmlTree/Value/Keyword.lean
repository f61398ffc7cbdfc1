import KmlTree.Schema.Vocabulary
import KmlTree.Text.Blank

/-!
# Words of a vocabulary

A keyword is a word together with the fact that its vocabulary has it.
-/
namespace KmlTree

structure Keyword (v : Vocabulary) where
  word : String
  mem_words : word ∈ v.words
  deriving DecidableEq

namespace Keyword

/-- The word that holds where a field is absent: the first of its vocabulary. -/
def first (v : Vocabulary) : Keyword v :=
  ⟨v.words.head v.words_ne_nil, List.head_mem _⟩

instance (v : Vocabulary) : Inhabited (Keyword v) := ⟨first v⟩

/-- The word that a text is, blank characters at its ends aside. -/
def read? (v : Vocabulary) (s : String) : Option (Keyword v) :=
  let word := Text.trim s
  if h : word ∈ v.words then some ⟨word, h⟩ else none

end Keyword

/-- The state of a feature that decides which pair of a style map applies. -/
abbrev StyleState := Keyword .styleState

namespace StyleState

def normal : StyleState := ⟨"normal", by simp [Vocabulary.words]⟩

def highlight : StyleState := ⟨"highlight", by simp [Vocabulary.words]⟩

end StyleState

end KmlTree
