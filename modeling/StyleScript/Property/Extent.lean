import StyleScript.Property.Basic
/-!
# Extents

Sizes `key=value` with at most one flag: the bounding box, the size of the content, the box to which an
image is cropped, and its dimensions.
-/
namespace StyleScript

/-- A flag of an extent: its token, the attribute that keeps it, and whether that says the opposite. -/
structure ExtentFlag where
  token : Text
  attr : Text
  opposite : Bool

structure Extent where
  name : Text
  keys : List Text
  integers : Bool
  flag : Option ExtentFlag
  defaults : Attributes

namespace Extent

def boundingBox : Extent := ⟨"boundingBox", ["width", "height"], true, none, ∅⟩

def contentSize : Extent := ⟨"contentSize", ["width", "height"], false, none, ∅⟩

def cropBox : Extent :=
  ⟨"cropBox", ["x", "y", "width", "height"], false, some ⟨"cropped", "cropped", false⟩,
    .table [("cropped", "false")]⟩

def dimensions : Extent :=
  ⟨"dimensions", ["width", "height", "angle"], false, some ⟨"scaled", "unscaled", true⟩,
    .table [("angle", "0"), ("unscaled", "true")]⟩

def size (extent : Extent) (value : Text) : Except Cause Text :=
  if extent.integers then (Text.truncated extent.name value).map Text.ofInt
  else (Text.number extent.name value).map fun _ => value

def token (extent : Extent) (token : Text) : Except Cause (List (Text × Text)) :=
  match Text.keyValue? token with
  | some (key, value) =>
    if extent.keys.contains key then do return [(key, ← extent.size (← Text.scalar value))]
    else .error (.unknownAttribute extent.name key)
  | none =>
    match Text.negation token with
    | (on, name) =>
      match extent.flag.filter fun flag => flag.token = name with
      | some flag => .ok [(flag.attr, Text.ofBool (on != flag.opposite))]
      | none => .error (.unknownToken extent.name token)

def writeSize (extent : Extent) (attrs : Attributes) (key : Text) : List Text :=
  let value := match extent.defaults.get? key with
    | some default => attrs.unlessDefault? key default
    | none => attrs.get? key
  (value.map fun v => key ++ "=" ++ if extent.integers then Text.truncateText v else v).toList

def writeFlag (extent : Extent) (attrs : Attributes) : List Text :=
  match extent.flag with
  | some flag => if attrs.get? flag.attr = some (Text.ofBool (!flag.opposite)) then [flag.token] else []
  | none => []

def write (extent : Extent) (attrs : Attributes) : List Text :=
  extent.keys.flatMap (extent.writeSize attrs) ++ extent.writeFlag attrs

def format (extent : Extent) : PropertyFormat where
  name := extent.name
  defaults := extent.defaults
  decode := PropertyFormat.readTokens extent.token
  encode attrs := Text.nonempty? (Text.words (extent.write attrs))

end Extent
end StyleScript
