import StyleScript.Attributes
import StyleScript.Number.Shortest
/-!
# Required attributes

The host insists on some attributes of some elements.  What a sheet does not say is filled in: for a `value`
the present value of the object, for a `font` a size unless there is one, else a constant.
-/
namespace StyleScript

/-- What is asked about an object before it is styled. -/
structure ObjectInfo where
  label : Option Text := none
  /-- The number of the default style of its type, if the type has one. -/
  defaultType : Option Int := none
  number : Option Binary64 := none
  boolean : Option Bool := none
  isButton : Bool := false

namespace Required

def constants : List (String × List (String × String)) :=
  [("slider", [("width", "200")]),
   ("absoluteScreenLocation", [("x", "0"), ("y", "0")]),
   ("cropBox", [("x", "0"), ("y", "0"), ("width", "100"), ("height", "100")]),
   ("video", [("width", "320"), ("height", "240")]),
   ("spreadsheetTrace",
     [("traceColumn1", "0"), ("traceColumn2", "0"), ("traceRow1", "0"), ("traceRow2", "0"),
      ("tracingRow", "0"), ("numRows", "0"), ("headerOffset", "0")]),
   ("pointSize", [("val", "4")]),
   ("pointStyle", [("val", "0")]),
   ("layer", [("val", "0")]),
   ("lineStyle", [("type", "0"), ("thickness", "1")]),
   ("decoration", [("type", "0")]),
   ("headStyle", [("val", "0")]),
   ("arcSize", [("val", "30")]),
   ("angleStyle", [("val", "0")]),
   ("slopeTriangleSize", [("val", "1")]),
   ("decimals", [("val", "10")]),
   ("significantfigures", [("val", "5")]),
   ("labelOffset", [("x", "0"), ("y", "0")]),
   ("labelMode", [("val", "0")]),
   ("tooltipMode", [("val", "0")]),
   ("ordering", [("val", "0")]),
   ("selectedIndex", [("val", "0")]),
   ("borderColor", [("r", "0"), ("g", "0"), ("b", "0")]),
   ("boundingBox", [("width", "100"), ("height", "50")]),
   ("embed", [("id", "0")]),
   ("tag", [("key", ""), ("value", ""), ("barNumber", "0")]),
   ("length", [("val", "10")]),
   ("contentSize", [("width", "100"), ("height", "100")]),
   ("javascript", [("val", "")])]

def constantsOf (element : Text) : List (Text × Text) :=
  match constants.find? fun (name, _) => name.toList = element with
  | some (_, required) => required.map fun (key, value) => (key.toList, value.toList)
  | none => []

def currentValue (info : ObjectInfo) : Text :=
  match info.number, info.boolean with
  | some n, _ => n.elementText
  | none, some b => Text.ofBool b
  | none, none => if info.isButton then [] else ['0']

/-- What an element requires of an object with the given attributes. -/
def requiredOf (element : Text) (attrs : Attributes) (info : ObjectInfo) : List (Text × Text) :=
  if element = "value" then [("val", currentValue info)]
  else if element = "font" then
    if attrs.contains "sizeM" || attrs.contains "size" then [] else [("size", "12")]
  else constantsOf element

def fillOne (attrs : Attributes) (required : Text × Text) : Attributes :=
  if attrs.contains required.1 then attrs else attrs.set required.1 required.2

/-- The attributes with what the element requires. -/
def fill (element : Text) (attrs : Attributes) (info : ObjectInfo) : Attributes :=
  (requiredOf element attrs info).foldl fillOne attrs

end Required
end StyleScript
