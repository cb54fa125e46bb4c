import StyleScript.Property.Basic
/-!
# Equation style

The form in which an equation is shown.  Only the parametric form has a parameter, a single letter; an
unknown form says nothing, and a parameter out of place is passed over.
-/
namespace StyleScript.Equation

def styles : List Text :=
  ["implicit", "explicit", "parametric", "specific", "general", "vertex", "conic", "user"].map String.toList

/-- Whether a text is one alphabetic character. -/
def isLetter : Text → Bool
  | [c] => Text.isAlphabetic c
  | _ => false

/-- The attributes of a form with its parameter. -/
def attributes (style : Text) (parameter : Option Text) : Option Attributes :=
  if styles.contains style then
    let kept := if style = "parametric" then parameter.filter isLetter else none
    some (OrderedMap.ofList
      (("style".toList, style) :: (kept.map fun p => ("parameter".toList, p)).toList))
  else none

def decode (value : Text) : Except Cause (Option Attributes) :=
  match Text.cut? '=' (Text.trim value) with
  | some (style, parameter) => do return attributes style (some (← Text.scalar parameter))
  | none => .ok (attributes (Text.trim value) none)

def encode (attrs : Attributes) : Option Text :=
  (attrs.get? "style").map fun style =>
    match (attrs.get? "parameter").bind Text.nonempty? with
    | some parameter => style ++ "=" ++ Text.quoteIfNeeded parameter
    | none => style

def format : PropertyFormat where
  name := "eqnStyle"
  decode := decode
  encode := encode

end StyleScript.Equation
