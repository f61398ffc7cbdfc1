import KmlTree.Schema.Definition

/-!
# Questions about kinds

What a kind takes over from the kinds it extends: its ancestry, the groups it belongs to, its places
for children and its attributes. From these follow the place that a child takes in a parent and the
kind that the name of an element stands for.
-/
namespace KmlTree

/-- Every kind, in the order of the schema, the one for unnamed elements last. -/
def Kind.all : List Kind :=
  [.object, .feature, .container, .overlay, .geometry, .styleSelector, .subStyle, .colorStyle,
   .abstractView, .timePrimitive, .abstractLatLonBox, .basicLink, .vec2, .updateOperation, .kml,
   .document, .folder, .placemark, .networkLink, .groundOverlay, .screenOverlay, .photoOverlay,
   .point, .lineString, .linearRing, .polygon, .outerBoundaryIs, .innerBoundaryIs,
   .multiGeometry, .model, .location, .orientation, .scaleModel, .resourceMap, .alias, .style,
   .styleMap, .pair, .iconStyle, .labelStyle, .lineStyle, .polyStyle, .balloonStyle, .listStyle,
   .itemIcon, .icon, .link, .hotSpot, .overlayXY, .screenXY, .rotationXY, .size, .region,
   .latLonAltBox, .latLonBox, .lod, .camera, .lookAt, .timeStamp, .timeSpan, .viewVolume,
   .imagePyramid, .extendedData, .data, .schemaData, .simpleData, .schema, .simpleField,
   .snippet, .networkLinkControl, .linkSnippet, .update, .create, .delete, .change, .name,
   .visibility, .openState, .address, .phoneNumber, .description, .styleUrl, .color, .colorMode,
   .drawOrder, .altitude, .altitudeMode, .rotation, .shape, .extrude, .tessellate, .coordinates,
   .longitude, .latitude, .heading, .tilt, .roll, .range, .x, .y, .z, .targetHref, .sourceHref,
   .key, .scale, .width, .fill, .outline, .bgColor, .textColor, .text, .displayMode,
   .listItemType, .maxSnippetLines, .state, .href, .refreshMode, .refreshInterval,
   .viewRefreshMode, .viewRefreshTime, .viewBoundScale, .viewFormat, .httpQuery, .north, .south,
   .east, .west, .minAltitude, .maxAltitude, .minLodPixels, .maxLodPixels, .minFadeExtent,
   .maxFadeExtent, .when, .beginTime, .endTime, .displayName, .value, .leftFov, .rightFov,
   .bottomFov, .topFov, .near, .tileSize, .maxWidth, .maxHeight, .gridOrigin, .refreshVisibility,
   .flyToView, .minRefreshPeriod, .maxSessionLength, .cookie, .message, .linkName,
   .linkDescription, .expires, .unknown]

namespace Kind

def tag (k : Kind) : String := k.definition.tag

def parent? (k : Kind) : Option Kind := k.definition.parent?

def content (k : Kind) : Content := k.definition.content

/-- Whether the kind is a group, which no document holds an element of. -/
def isAbstract (k : Kind) : Bool := k.content == .abstract

def valueType? (k : Kind) : Option ValueType :=
  match k.content with
  | .simple type => some type
  | _ => none

def isSimple (k : Kind) : Bool := k.valueType?.isSome

/-- Whether elements of the kind keep their text. -/
def hasText (k : Kind) : Bool :=
  match k.content with
  | .text | .simple _ => true
  | .abstract | .complex => false

/-- The kinds from one on, each followed by the kind it extends. -/
def lineage : Nat → Kind → List Kind
  | 0, k => [k]
  | n + 1, k => k :: (k.parent?.map (lineage n)).getD []

/-- The kind and all that it extends, each followed by the kind it extends itself. No kind has more
than five others to extend. -/
def ancestry (k : Kind) : List Kind := lineage 5 k

def isA (k ancestor : Kind) : Bool := k.ancestry.contains ancestor

/-- The groups that the kind belongs to, in the order of their bits. -/
def categories (k : Kind) : List Category :=
  Category.all.filter fun c => k.ancestry.any fun a => a.definition.group? == some c

/-- The places for children, those taken over from other kinds first. -/
def slots (k : Kind) : List Slot :=
  k.ancestry.reverse.flatMap fun a => a.definition.slots

/-- The declared attributes, those taken over from other kinds first and none of them twice. -/
def attributes (k : Kind) : List Attribute :=
  (k.ancestry.reverse.flatMap fun a => a.definition.attributes).eraseDups

def attribute? (k : Kind) (key : String) : Option Attribute :=
  (Attribute.ofKey? key).filter k.attributes.contains

/-- The kind of the elements with a name in a document. The name of a group names no element. -/
def ofTag (tag : String) : Kind :=
  (all.find? fun k => k.tag == tag && !k.isAbstract).getD .unknown

end Kind

def Slot.accepts (slot : Slot) (child : Kind) : Bool :=
  child != .unknown && !child.isAbstract && child.isA slot.target

namespace Kind

/-- The first place of the kind that takes a child, and its position among the places. -/
def slotFor? (parent child : Kind) : Option (Nat × Slot) :=
  (parent.slots.zipIdx.find? fun entry => entry.1.accepts child).map fun entry =>
    (entry.2, entry.1)

def allowedChildren (parent : Kind) : List Kind :=
  all.filter fun child => parent.slots.any fun slot => slot.accepts child

theorem getElem?_all_ctorIdx (k : Kind) : all[k.ctorIdx]? = some k := by
  cases k <;> rfl

theorem mem_all (k : Kind) : k ∈ all :=
  List.mem_of_getElem? (getElem?_all_ctorIdx k)

/-- What a check over the list of all kinds confirms holds of every kind. -/
theorem of_all {p : Kind → Bool} (h : all.all p = true) (k : Kind) : p k = true :=
  List.all_eq_true.1 h k (mem_all k)

/-- The ancestry is not cut short. -/
theorem ancestry_eq (k : Kind) : k.ancestry = k :: (k.parent?.map ancestry).getD [] := by
  have h : lineage 5 k = lineage 6 k := by
    simpa using of_all (p := fun k => lineage 5 k == lineage 6 k) (by decide +kernel) k
  exact h

theorem isA_iff {k a : Kind} : k.isA a = true ↔ a ∈ k.ancestry := by
  simp [isA]

theorem isA_self (k : Kind) : k.isA k = true := by
  rw [isA_iff, ancestry_eq]
  exact List.mem_cons_self

theorem nodup_attributes (k : Kind) : k.attributes.Nodup := by
  simpa using of_all (p := fun k => decide k.attributes.Nodup) (by decide +kernel) k

theorem attribute?_key {k : Kind} {a : Attribute} (h : a ∈ k.attributes) :
    k.attribute? a.key = some a := by
  simp [attribute?, h]

theorem key_of_attribute? {k : Kind} {key : String} {a : Attribute} (h : k.attribute? key = some a) :
    a.key = key :=
  Attribute.key_of_ofKey? (Option.filter_eq_some_iff.1 h).1

end Kind

end KmlTree
