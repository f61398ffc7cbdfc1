/-!
# Kinds of elements

Every kind of element that the schema names. Besides the elements that occur in documents these are
the abstract groups that they belong to, and one kind for all elements that the schema does not
name.
-/
namespace KmlTree

/-- A kind of element: the abstract groups, the elements with content of their own, the fields that
hold a single value, and last the elements that the schema does not name. -/
inductive Kind
  | object | feature | container | overlay | geometry | styleSelector | subStyle | colorStyle
  | abstractView | timePrimitive | abstractLatLonBox | basicLink | vec2 | updateOperation | kml
  | document | folder | placemark | networkLink | groundOverlay | screenOverlay | photoOverlay
  | point | lineString | linearRing | polygon | outerBoundaryIs | innerBoundaryIs | multiGeometry
  | model | location | orientation | scaleModel | resourceMap | alias | style | styleMap | pair
  | iconStyle | labelStyle | lineStyle | polyStyle | balloonStyle | listStyle | itemIcon | icon
  | link | hotSpot | overlayXY | screenXY | rotationXY | size | region | latLonAltBox | latLonBox
  | lod | camera | lookAt | timeStamp | timeSpan | viewVolume | imagePyramid | extendedData
  | data | schemaData | simpleData | schema | simpleField | snippet | networkLinkControl
  | linkSnippet | update | create | delete | change | name | visibility | openState | address
  | phoneNumber | description | styleUrl | color | colorMode | drawOrder | altitude
  | altitudeMode | rotation | shape | extrude | tessellate | coordinates | longitude | latitude
  | heading | tilt | roll | range | x | y | z | targetHref | sourceHref | key | scale | width
  | fill | outline | bgColor | textColor | text | displayMode | listItemType | maxSnippetLines
  | state | href | refreshMode | refreshInterval | viewRefreshMode | viewRefreshTime
  | viewBoundScale | viewFormat | httpQuery | north | south | east | west | minAltitude
  | maxAltitude | minLodPixels | maxLodPixels | minFadeExtent | maxFadeExtent | when | beginTime
  | endTime | displayName | value | leftFov | rightFov | bottomFov | topFov | near | tileSize
  | maxWidth | maxHeight | gridOrigin | refreshVisibility | flyToView | minRefreshPeriod
  | maxSessionLength | cookie | message | linkName | linkDescription | expires
  | unknown
  deriving DecidableEq, Repr, Inhabited

/-- The groups of kinds, each contributed by one abstract kind. -/
inductive Category
  | object | feature | container | overlay | geometry | styleSelector | subStyle | colorStyle
  | abstractView | timePrimitive | abstractLatLonBox | basicLink | vec2 | updateOperation
  deriving DecidableEq, Repr, Inhabited

def Category.all : List Category :=
  [.object, .feature, .container, .overlay, .geometry, .styleSelector, .subStyle, .colorStyle,
   .abstractView, .timePrimitive, .abstractLatLonBox, .basicLink, .vec2, .updateOperation]

end KmlTree
