import KmlTree.Schema.Attribute
import KmlTree.Schema.Content
import KmlTree.Schema.Kind

/-!
# Definitions of the kinds

One entry per kind: the name of its elements, the kind it extends, its content, and the places for
children and the attributes that it declares itself. What it takes over from the kinds it extends is
worked out from these entries.
-/
namespace KmlTree

/-- A place for children of one kind or group. -/
structure Slot where
  target : Kind
  /-- Whether there is room for any number of children, rather than for one. -/
  repeats : Bool
  deriving DecidableEq, Repr, Inhabited

namespace Slot

def one (target : Kind) : Slot := ⟨target, false⟩

def many (target : Kind) : Slot := ⟨target, true⟩

end Slot

/-- What the schema says about a kind by itself. -/
structure Definition where
  tag : String
  /-- The kind whose places and attributes it takes over. -/
  parent? : Option Kind := none
  content : Content
  /-- The group that an abstract kind stands for. -/
  group? : Option Category := none
  /-- The places for children, in the order in which children are written. -/
  slots : List Slot := []
  attributes : List Attribute := []
  deriving Repr

def Definition.field (tag : String) (type : ValueType) : Definition :=
  { tag, content := .simple type }

/-- The places for children that both kinds of link declare. -/
def linkSlots : List Slot :=
  [.one .refreshMode, .one .refreshInterval, .one .viewRefreshMode, .one .viewRefreshTime,
   .one .viewBoundScale, .one .viewFormat, .one .httpQuery]

def Kind.definition : Kind → Definition
  | .object =>
    { tag := "Object", content := .abstract, group? := some .object,
      attributes := [.id, .targetId] }
  | .feature =>
    { tag := "Feature", content := .abstract, parent? := some .object, group? := some .feature,
      slots := [.one .name, .one .visibility, .one .openState, .one .address, .one .phoneNumber,
        .one .snippet, .one .description, .one .abstractView, .one .timePrimitive, .one .styleUrl,
        .many .styleSelector, .one .region, .one .extendedData] }
  | .container =>
    { tag := "Container", content := .abstract, parent? := some .feature,
      group? := some .container }
  | .overlay =>
    { tag := "Overlay", content := .abstract, parent? := some .feature, group? := some .overlay,
      slots := [.one .color, .one .drawOrder, .one .icon] }
  | .geometry =>
    { tag := "Geometry", content := .abstract, parent? := some .object,
      group? := some .geometry }
  | .styleSelector =>
    { tag := "StyleSelector", content := .abstract, parent? := some .object,
      group? := some .styleSelector }
  | .subStyle =>
    { tag := "SubStyle", content := .abstract, parent? := some .object,
      group? := some .subStyle }
  | .colorStyle =>
    { tag := "ColorStyle", content := .abstract, parent? := some .subStyle,
      group? := some .colorStyle, slots := [.one .color, .one .colorMode] }
  | .abstractView =>
    { tag := "AbstractView", content := .abstract, parent? := some .object,
      group? := some .abstractView }
  | .timePrimitive =>
    { tag := "TimePrimitive", content := .abstract, parent? := some .object,
      group? := some .timePrimitive }
  | .abstractLatLonBox =>
    { tag := "AbstractLatLonBox", content := .abstract, parent? := some .object,
      group? := some .abstractLatLonBox,
      slots := [.one .north, .one .south, .one .east, .one .west] }
  | .basicLink =>
    { tag := "BasicLink", content := .abstract, parent? := some .object,
      group? := some .basicLink, slots := [.one .href] }
  | .vec2 =>
    { tag := "Vec2", content := .abstract, group? := some .vec2,
      attributes := [.x, .y, .xunits, .yunits] }
  | .updateOperation =>
    { tag := "UpdateOperation", content := .abstract, group? := some .updateOperation }
  | .kml =>
    { tag := "kml", content := .complex, slots := [.one .networkLinkControl, .one .feature],
      attributes := [.hint] }
  | .document =>
    { tag := "Document", content := .complex, parent? := some .container,
      slots := [.many .schema, .many .feature] }
  | .folder =>
    { tag := "Folder", content := .complex, parent? := some .container,
      slots := [.many .feature] }
  | .placemark =>
    { tag := "Placemark", content := .complex, parent? := some .feature,
      slots := [.one .geometry] }
  | .networkLink =>
    { tag := "NetworkLink", content := .complex, parent? := some .feature,
      slots := [.one .refreshVisibility, .one .flyToView, .one .link] }
  | .groundOverlay =>
    { tag := "GroundOverlay", content := .complex, parent? := some .overlay,
      slots := [.one .altitude, .one .altitudeMode, .one .latLonBox] }
  | .screenOverlay =>
    { tag := "ScreenOverlay", content := .complex, parent? := some .overlay,
      slots := [.one .overlayXY, .one .screenXY, .one .rotationXY, .one .size, .one .rotation] }
  | .photoOverlay =>
    { tag := "PhotoOverlay", content := .complex, parent? := some .overlay,
      slots := [.one .rotation, .one .viewVolume, .one .imagePyramid, .one .point, .one .shape] }
  | .point =>
    { tag := "Point", content := .complex, parent? := some .geometry,
      slots := [.one .extrude, .one .altitudeMode, .one .coordinates] }
  | .lineString =>
    { tag := "LineString", content := .complex, parent? := some .geometry,
      slots := [.one .extrude, .one .tessellate, .one .altitudeMode, .one .coordinates] }
  | .linearRing =>
    { tag := "LinearRing", content := .complex, parent? := some .geometry,
      slots := [.one .extrude, .one .tessellate, .one .altitudeMode, .one .coordinates] }
  | .polygon =>
    { tag := "Polygon", content := .complex, parent? := some .geometry,
      slots := [.one .extrude, .one .tessellate, .one .altitudeMode, .one .outerBoundaryIs,
        .many .innerBoundaryIs] }
  | .outerBoundaryIs =>
    { tag := "outerBoundaryIs", content := .complex, slots := [.one .linearRing] }
  | .innerBoundaryIs =>
    { tag := "innerBoundaryIs", content := .complex, slots := [.one .linearRing] }
  | .multiGeometry =>
    { tag := "MultiGeometry", content := .complex, parent? := some .geometry,
      slots := [.many .geometry] }
  | .model =>
    { tag := "Model", content := .complex, parent? := some .geometry,
      slots := [.one .altitudeMode, .one .location, .one .orientation, .one .scaleModel,
        .one .link, .one .resourceMap] }
  | .location =>
    { tag := "Location", content := .complex, parent? := some .object,
      slots := [.one .longitude, .one .latitude, .one .altitude] }
  | .orientation =>
    { tag := "Orientation", content := .complex, parent? := some .object,
      slots := [.one .heading, .one .tilt, .one .roll] }
  | .scaleModel =>
    { tag := "Scale", content := .complex, parent? := some .object,
      slots := [.one .x, .one .y, .one .z] }
  | .resourceMap =>
    { tag := "ResourceMap", content := .complex, parent? := some .object,
      slots := [.many .alias] }
  | .alias =>
    { tag := "Alias", content := .complex, parent? := some .object,
      slots := [.one .targetHref, .one .sourceHref] }
  | .style =>
    { tag := "Style", content := .complex, parent? := some .styleSelector,
      slots := [.one .iconStyle, .one .labelStyle, .one .lineStyle, .one .polyStyle,
        .one .balloonStyle, .one .listStyle] }
  | .styleMap =>
    { tag := "StyleMap", content := .complex, parent? := some .styleSelector,
      slots := [.many .pair] }
  | .pair =>
    { tag := "Pair", content := .complex, parent? := some .object,
      slots := [.one .key, .one .styleUrl, .one .styleSelector] }
  | .iconStyle =>
    { tag := "IconStyle", content := .complex, parent? := some .colorStyle,
      slots := [.one .scale, .one .heading, .one .icon, .one .hotSpot] }
  | .labelStyle =>
    { tag := "LabelStyle", content := .complex, parent? := some .colorStyle,
      slots := [.one .scale] }
  | .lineStyle =>
    { tag := "LineStyle", content := .complex, parent? := some .colorStyle,
      slots := [.one .width] }
  | .polyStyle =>
    { tag := "PolyStyle", content := .complex, parent? := some .colorStyle,
      slots := [.one .fill, .one .outline] }
  | .balloonStyle =>
    { tag := "BalloonStyle", content := .complex, parent? := some .subStyle,
      slots := [.one .bgColor, .one .textColor, .one .text, .one .displayMode] }
  | .listStyle =>
    { tag := "ListStyle", content := .complex, parent? := some .subStyle,
      slots := [.one .listItemType, .one .bgColor, .many .itemIcon, .one .maxSnippetLines] }
  | .itemIcon =>
    { tag := "ItemIcon", content := .complex, parent? := some .object,
      slots := [.one .state, .one .href] }
  | .icon =>
    { tag := "Icon", content := .complex, parent? := some .basicLink, slots := linkSlots }
  | .link =>
    { tag := "Link", content := .complex, parent? := some .basicLink, slots := linkSlots }
  | .hotSpot => { tag := "hotSpot", content := .complex, parent? := some .vec2 }
  | .overlayXY => { tag := "overlayXY", content := .complex, parent? := some .vec2 }
  | .screenXY => { tag := "screenXY", content := .complex, parent? := some .vec2 }
  | .rotationXY => { tag := "rotationXY", content := .complex, parent? := some .vec2 }
  | .size => { tag := "size", content := .complex, parent? := some .vec2 }
  | .region =>
    { tag := "Region", content := .complex, parent? := some .object,
      slots := [.one .latLonAltBox, .one .lod] }
  | .latLonAltBox =>
    { tag := "LatLonAltBox", content := .complex, parent? := some .abstractLatLonBox,
      slots := [.one .minAltitude, .one .maxAltitude, .one .altitudeMode] }
  | .latLonBox =>
    { tag := "LatLonBox", content := .complex, parent? := some .abstractLatLonBox,
      slots := [.one .rotation] }
  | .lod =>
    { tag := "Lod", content := .complex, parent? := some .object,
      slots := [.one .minLodPixels, .one .maxLodPixels, .one .minFadeExtent,
        .one .maxFadeExtent] }
  | .camera =>
    { tag := "Camera", content := .complex, parent? := some .abstractView,
      slots := [.one .longitude, .one .latitude, .one .altitude, .one .heading, .one .tilt,
        .one .roll, .one .altitudeMode] }
  | .lookAt =>
    { tag := "LookAt", content := .complex, parent? := some .abstractView,
      slots := [.one .longitude, .one .latitude, .one .altitude, .one .heading, .one .tilt,
        .one .range, .one .altitudeMode] }
  | .timeStamp =>
    { tag := "TimeStamp", content := .complex, parent? := some .timePrimitive,
      slots := [.one .when] }
  | .timeSpan =>
    { tag := "TimeSpan", content := .complex, parent? := some .timePrimitive,
      slots := [.one .beginTime, .one .endTime] }
  | .viewVolume =>
    { tag := "ViewVolume", content := .complex, parent? := some .object,
      slots := [.one .leftFov, .one .rightFov, .one .bottomFov, .one .topFov, .one .near] }
  | .imagePyramid =>
    { tag := "ImagePyramid", content := .complex, parent? := some .object,
      slots := [.one .tileSize, .one .maxWidth, .one .maxHeight, .one .gridOrigin] }
  | .extendedData =>
    { tag := "ExtendedData", content := .complex, slots := [.many .data, .many .schemaData] }
  | .data =>
    { tag := "Data", content := .complex, parent? := some .object,
      slots := [.one .displayName, .one .value], attributes := [.name] }
  | .schemaData =>
    { tag := "SchemaData", content := .complex, parent? := some .object,
      slots := [.many .simpleData], attributes := [.schemaUrl] }
  | .simpleData => { tag := "SimpleData", content := .text, attributes := [.name] }
  | .schema =>
    { tag := "Schema", content := .complex, parent? := some .object,
      slots := [.many .simpleField], attributes := [.name] }
  | .simpleField =>
    { tag := "SimpleField", content := .complex, slots := [.one .displayName],
      attributes := [.type, .name] }
  | .snippet => { tag := "Snippet", content := .text, attributes := [.maxLines] }
  | .networkLinkControl =>
    { tag := "NetworkLinkControl", content := .complex,
      slots := [.one .minRefreshPeriod, .one .maxSessionLength, .one .cookie, .one .message,
        .one .linkName, .one .linkDescription, .one .linkSnippet, .one .expires, .one .update,
        .one .abstractView] }
  | .linkSnippet => { tag := "linkSnippet", content := .text, attributes := [.maxLines] }
  | .update =>
    { tag := "Update", content := .complex, slots := [.one .targetHref, .many .updateOperation] }
  | .create =>
    { tag := "Create", content := .complex, parent? := some .updateOperation,
      slots := [.many .container] }
  | .delete =>
    { tag := "Delete", content := .complex, parent? := some .updateOperation,
      slots := [.many .feature] }
  | .change =>
    { tag := "Change", content := .complex, parent? := some .updateOperation,
      slots := [.many .object] }
  | .name => .field "name" .text
  | .visibility => .field "visibility" .boolean
  | .openState => .field "open" .boolean
  | .address => .field "address" .text
  | .phoneNumber => .field "phoneNumber" .text
  | .description => .field "description" .text
  | .styleUrl => .field "styleUrl" .text
  | .color => .field "color" .color
  | .colorMode => .field "colorMode" (.keyword .colorMode)
  | .drawOrder => .field "drawOrder" .integer
  | .altitude => .field "altitude" .double
  | .altitudeMode => .field "altitudeMode" (.keyword .altitudeMode)
  | .rotation => .field "rotation" .double
  | .shape => .field "shape" (.keyword .shape)
  | .extrude => .field "extrude" .boolean
  | .tessellate => .field "tessellate" .boolean
  | .coordinates => .field "coordinates" .text
  | .longitude => .field "longitude" .double
  | .latitude => .field "latitude" .double
  | .heading => .field "heading" .double
  | .tilt => .field "tilt" .double
  | .roll => .field "roll" .double
  | .range => .field "range" .double
  | .x => .field "x" .double
  | .y => .field "y" .double
  | .z => .field "z" .double
  | .targetHref => .field "targetHref" .text
  | .sourceHref => .field "sourceHref" .text
  | .key => .field "key" (.keyword .styleState)
  | .scale => .field "scale" .double
  | .width => .field "width" .double
  | .fill => .field "fill" .boolean
  | .outline => .field "outline" .boolean
  | .bgColor => .field "bgColor" .color
  | .textColor => .field "textColor" .color
  | .text => .field "text" .text
  | .displayMode => .field "displayMode" (.keyword .displayMode)
  | .listItemType => .field "listItemType" (.keyword .listItemType)
  | .maxSnippetLines => .field "maxSnippetLines" .integer
  | .state => .field "state" .text
  | .href => .field "href" .text
  | .refreshMode => .field "refreshMode" (.keyword .refreshMode)
  | .refreshInterval => .field "refreshInterval" .double
  | .viewRefreshMode => .field "viewRefreshMode" (.keyword .viewRefreshMode)
  | .viewRefreshTime => .field "viewRefreshTime" .double
  | .viewBoundScale => .field "viewBoundScale" .double
  | .viewFormat => .field "viewFormat" .text
  | .httpQuery => .field "httpQuery" .text
  | .north => .field "north" .double
  | .south => .field "south" .double
  | .east => .field "east" .double
  | .west => .field "west" .double
  | .minAltitude => .field "minAltitude" .double
  | .maxAltitude => .field "maxAltitude" .double
  | .minLodPixels => .field "minLodPixels" .double
  | .maxLodPixels => .field "maxLodPixels" .double
  | .minFadeExtent => .field "minFadeExtent" .double
  | .maxFadeExtent => .field "maxFadeExtent" .double
  | .when => .field "when" .text
  | .beginTime => .field "begin" .text
  | .endTime => .field "end" .text
  | .displayName => .field "displayName" .text
  | .value => .field "value" .text
  | .leftFov => .field "leftFov" .double
  | .rightFov => .field "rightFov" .double
  | .bottomFov => .field "bottomFov" .double
  | .topFov => .field "topFov" .double
  | .near => .field "near" .double
  | .tileSize => .field "tileSize" .integer
  | .maxWidth => .field "maxWidth" .integer
  | .maxHeight => .field "maxHeight" .integer
  | .gridOrigin => .field "gridOrigin" (.keyword .gridOrigin)
  | .refreshVisibility => .field "refreshVisibility" .boolean
  | .flyToView => .field "flyToView" .boolean
  | .minRefreshPeriod => .field "minRefreshPeriod" .double
  | .maxSessionLength => .field "maxSessionLength" .double
  | .cookie => .field "cookie" .text
  | .message => .field "message" .text
  | .linkName => .field "linkName" .text
  | .linkDescription => .field "linkDescription" .text
  | .expires => .field "expires" .text
  | .unknown => { tag := "", content := .complex }

end KmlTree
