import StyleScript.Property.Basic
/-!
# Properties of one value

A flag, an integer, a number or a text, kept as one attribute of one element.  A text property may be
restricted to named values, each of which the host knows by a code; either is read, and the name is written.
-/
namespace StyleScript

/-- What kind of value a property has, and its default. -/
inductive ValueKind where
  /-- A flag, off by default; an inverted one is kept negated. -/
  | flag (inverted : Bool)
  /-- An integer; a fraction is cut off. -/
  | integer (default : Text)
  /-- A number, kept as written. -/
  | number (default : Text)
  /-- A text; with named values, one of their names or codes. -/
  | text (default : Text) (named : List (Text × Text))
  deriving DecidableEq

structure SingleValue where
  name : Text
  kind : ValueKind
  element : Text := name
  attr : Text := "val"
  reset : Option Resettable := none

namespace SingleValue

def storedFlag (inverted on : Bool) : Text := Text.ofBool (on != inverted)

/-- The kept form of what was written, quotes already taken off. -/
def store (property : Text) (written : Text) : ValueKind → Except Cause Text
  | .flag inverted =>
    if written = [] || written = "true" || written = "1" then .ok (storedFlag inverted true)
    else if written = "false" || written = "0" then .ok (storedFlag inverted false)
    else .error (.notBoolean property written)
  | .integer _ =>
    if written.isEmpty then .error (.valueMissing property)
    else (Text.truncated property written).map Text.ofInt
  | .number _ =>
    if written.isEmpty then .error (.valueMissing property)
    else (Text.number property written).map fun _ => written
  | .text _ named =>
    if named.isEmpty then .ok written
    else match named.find? (·.1 = written) with
      | some (_, code) => .ok code
      | none =>
        if named.any (·.2 = written) then .ok written else .error (.unknownValue property written)

def stored : ValueKind → Text
  | .flag inverted => storedFlag inverted false
  | .integer default => default
  | .number default => default
  | .text default _ => default

/-- The kept form as it is written, unless it is the default. -/
def written? (kept : Text) : ValueKind → Option Text
  | .flag inverted => if kept = storedFlag inverted true then some [] else none
  | .integer default => if Text.sameValue kept default then none else some kept
  | .number default => if Text.sameValue kept default then none else some kept
  | .text default named =>
    if kept = default then none
    else match named.find? (·.2 = kept) with
      | some (name, _) => some name
      | none => some (Text.quoteIfNeeded kept)

def format (property : SingleValue) : PropertyFormat where
  name := property.name
  element := property.element
  defaults := OrderedMap.ofList [(property.attr, stored property.kind)]
  decode value := do
    let kept ← store property.name (← Text.scalar value) property.kind
    return some (OrderedMap.ofList [(property.attr, kept)])
  encode attrs := (attrs.get? property.attr).bind fun kept => written? kept property.kind
  reset := property.reset

/-! ## The built-in ones -/

def namedValues (table : List (String × String)) : List (Text × Text) :=
  table.map fun (name, code) => (name.toList, code.toList)

/-- Values that the host knows by their own names. -/
def sameNames (names : List String) : List (Text × Text) := namedValues (names.map fun name => (name, name))

def angleStyles := namedValues [("0-360", "0"), ("0-180", "1"), ("180-360", "2"), ("any", "3")]

def coordinateStyles := sameNames ["cartesian", "polar", "complex", "cartesian3d", "spherical"]

def decorations := namedValues
  [("none", "0"), ("single_tick", "1"), ("double_tick", "2"), ("triple_tick", "3"),
   ("simple_arrow", "4"), ("double_arrow", "5"), ("triple_arrow", "6")]

def segmentEnds := sameNames
  ["default", "line", "arrow", "crows_foot", "arrow_outline", "arrow_filled", "circle_outline", "circle",
   "square_outline", "square", "diamond_outline", "diamond"]

def headStyles := namedValues [("default", "0"), ("arrow", "1")]

def labelModes := namedValues [("name", "0"), ("namevalue", "1"), ("value", "2"), ("caption", "3")]

def pointStyles := namedValues
  [("default", "-1"), ("dot", "0"), ("cross", "1"), ("circle", "2"), ("plus", "3"), ("diamond", "4"),
   ("empty_diamond", "5"), ("triangle_north", "6"), ("triangle_south", "7"), ("triangle_east", "8"),
   ("triangle_west", "9"), ("no_outline", "10")]

def textAligns := sameNames ["left", "center", "right"]

def tooltipModes := namedValues
  [("algebraview", "0"), ("on", "1"), ("off", "2"), ("caption", "3"), ("nextcell", "4")]

def verticalAligns := sameNames ["top", "middle", "bottom"]

def plainFlag (name : String) : SingleValue := { name := name, kind := .flag false }

/-- A text of its own name, restricted to named values if there are any. -/
def plainText (name default : String) (named : List (Text × Text)) : SingleValue :=
  { name := name, kind := .text default named }

def flags : List SingleValue :=
  [plainFlag "autocolor", plainFlag "auxiliary", plainFlag "breakpoint", plainFlag "centered",
   plainFlag "comboBox", plainFlag "contentSerif", plainFlag "fixed",
   { name := "hideLabelInAlgebra", kind := .flag false, element := "algebra", attr := "labelVisible" },
   plainFlag "inBackground", plainFlag "interpolate", plainFlag "isLaTeX", plainFlag "isMask",
   plainFlag "keepTypeOnTransform", plainFlag "levelOfDetailQuality", plainFlag "outlyingIntersections",
   plainFlag "selectionAllowed",
   { name := "showGeneralAngle", kind := .flag true, element := "emphasizeRightAngle" },
   plainFlag "showOnAxis", plainFlag "showTrimmed", plainFlag "symbolic",
   { name := "trace", kind := .flag false, reset := some .trace }]

def integers : List SingleValue :=
  [{ name := "arcSize", kind := .integer "30" },
   { name := "decimals", kind := .integer "-1" },
   { name := "layer", kind := .integer "0" },
   { name := "length", kind := .integer "20" },
   { name := "selectedIndex", kind := .integer "0" },
   { name := "significantfigures", kind := .integer "-1" },
   { name := "slopeTriangleSize", kind := .integer "1" }]

def numbers : List SingleValue :=
  [{ name := "fading", kind := .number "0" },
   { name := "ordering", kind := .number "NaN" },
   { name := "pointSize", kind := .number "5" }]

def texts : List SingleValue :=
  [plainText "angleStyle" "0" angleStyles,
   plainText "caption" "" [],
   plainText "content" "" [],
   plainText "coordStyle" "cartesian" coordinateStyles,
   { name := "decoration", kind := .text "0" decorations, attr := "type" },
   { name := "dynamicCaption", kind := .text "" [], reset := some .dynamicCaption },
   plainText "endStyle" "default" segmentEnds,
   { name := "filename", kind := .text "" [], element := "file", attr := "name" },
   plainText "headStyle" "0" headStyles,
   plainText "incrementY" "" [],
   plainText "labelMode" "0" labelModes,
   { name := "linkedGeo", kind := .text "" [], attr := "exp" },
   plainText "parentLabel" "" [],
   plainText "pointStyle" "0" pointStyles,
   { name := "showIf", kind := .text "" [], element := "condition", attr := "showObject",
     reset := some .condition },
   plainText "startStyle" "default" segmentEnds,
   plainText "textAlign" "left" textAligns,
   plainText "tooltipMode" "0" tooltipModes,
   plainText "verticalAlign" "top" verticalAligns]

def builtIn : List SingleValue := flags ++ integers ++ numbers ++ texts

end SingleValue
end StyleScript
