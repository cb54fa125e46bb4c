import StyleScript.Property.Basic
/-!
# Slider

The interval, width and place of a slider, and its flags.  The ends of the interval and the place are
expressions.  The flag `@screen` is about the slider alone and has nothing to do with the property of that
name.
-/
namespace StyleScript.Slider

/-- The flags: token, attribute, and whether the attribute says the opposite. -/
def flags : List (Text × Text × Bool) :=
  [("@screen", "absoluteScreenLocation", false), ("vertical", "horizontal", true),
   ("algebra", "showAlgebra", false), ("constant", "arbitraryConstant", false), ("fixed", "fixed", false)]

def valueKeys : List Text := ["min", "max", "width", "x", "y"].map String.toList

def defaults : Attributes :=
  .table [("width", "200"), ("absoluteScreenLocation", "false"), ("horizontal", "true"),
    ("showAlgebra", "false"), ("arbitraryConstant", "false"), ("fixed", "false")]

def token (token : Text) : Except Cause (List (Text × Text)) :=
  match Text.keyValue? token with
  | some (key, value) =>
    if valueKeys.contains key then do return [(key, ← Text.scalar value)]
    else .error (.unknownAttribute "slider" key)
  | none =>
    match Text.negation token with
    | (on, name) =>
      match flags.find? (·.1 = name) with
      | some (_, attr, opposite) => .ok [(attr, Text.ofBool (on != opposite))]
      | none => .error (.unknownToken "slider" token)

def writeValue (attrs : Attributes) (key : Text) : List Text :=
  ((attrs.get? key).map fun value => key ++ "=" ++ Text.quoteIfNeeded value).toList

def write (attrs : Attributes) : List Text :=
  let width := ((attrs.unlessDefault? "width" "200").map fun v => "width=" ++ Text.quoteIfNeeded v).toList
  let screen : List Text := if attrs.isTrue "absoluteScreenLocation" then ["@screen"] else []
  let others := (flags.drop 1).filter fun (_, attr, opposite) =>
    attrs.get? attr = some (Text.ofBool (!opposite))
  writeValue attrs "min" ++ writeValue attrs "max" ++ width ++ screen ++
    writeValue attrs "x" ++ writeValue attrs "y" ++ others.map Prod.fst

def format : PropertyFormat where
  name := "slider"
  defaults := defaults
  decode := PropertyFormat.readTokens token
  encode attrs := Text.nonempty? (Text.words (write attrs))

end StyleScript.Slider
