/-!
# Keywords

Some fields hold one word of a fixed list. Each such list is a vocabulary; its first word is the one
that holds where the field is absent.
-/
namespace KmlTree

inductive Vocabulary
  /-- How altitudes are interpreted. -/
  | altitudeMode
  /-- Whether a colour is used as given or drawn at random. -/
  | colorMode
  /-- Whether a balloon is shown. -/
  | displayMode
  /-- Which pair of a style map applies. -/
  | styleState
  /-- How a feature and its children are shown in a list. -/
  | listItemType
  /-- When a link is fetched again as time goes by. -/
  | refreshMode
  /-- When a link is fetched again as the view moves. -/
  | viewRefreshMode
  /-- The projection of a photo overlay. -/
  | shape
  /-- The corner where the tile rows of a photo overlay start. -/
  | gridOrigin
  /-- The units of a screen position. -/
  | units
  deriving DecidableEq, Repr, Inhabited

namespace Vocabulary

def words : Vocabulary → List String
  | .altitudeMode => ["clampToGround", "relativeToGround", "absolute"]
  | .colorMode => ["normal", "random"]
  | .displayMode => ["default", "hide"]
  | .styleState => ["normal", "highlight"]
  | .listItemType => ["check", "checkOffOnly", "checkHideChildren", "radioFolder"]
  | .refreshMode => ["onChange", "onInterval", "onExpire"]
  | .viewRefreshMode => ["never", "onStop", "onRequest", "onRegion"]
  | .shape => ["rectangle", "cylinder", "sphere"]
  | .gridOrigin => ["lowerLeft", "upperLeft"]
  | .units => ["fraction", "pixels", "insetPixels"]

theorem words_ne_nil (v : Vocabulary) : v.words ≠ [] := by
  cases v <;> simp [words]

end Vocabulary

end KmlTree
