import StyleScript.Property.Basic
/-!
# Lettering

The property `font`: with or without serifs, a size as a multiple, bold and italic.  Bold is bit 0 and
italic bit 1 of the style; `plain` takes back what was said of both.
-/
namespace StyleScript.Lettering

def defaults : Attributes := .table [("serif", "false"), ("sizeM", "1"), ("style", "0")]

/-- What the tokens have said so far: serifs and size in their order, and the style. -/
structure Said where
  settings : List (Text × Text) := []
  style : Option Nat := none

def Said.set (said : Said) (key value : Text) : Said :=
  { said with settings := said.settings ++ [(key, value)] }

def word (said : Said) (token : Text) : Except Cause Said :=
  match Text.negation token with
  | (on, name) =>
    if name = "serif" then .ok (said.set "serif" (Text.ofBool on))
    else if on && name = "plain".toList then .ok { said with style := some 0 }
    else if on && name = "bold".toList then .ok { said with style := some (said.style.getD 0 ||| 1) }
    else if on && name = "italic".toList then .ok { said with style := some (said.style.getD 0 ||| 2) }
    else .error (.unknownToken "font" token)

def token (said : Said) : Text → Except Cause Said
  | '*' :: size => do
    let _ ← Text.number "font size" size
    return said.set "sizeM" size
  | token => word said token

def Said.attributes (said : Said) : Attributes :=
  OrderedMap.ofList (said.settings ++ (said.style.map fun style => ("style".toList, Text.ofNat style)).toList)

def decode (value : Text) : Except Cause (Option Attributes) := do
  let said ← (← Text.tokens value).foldlM token {}
  return PropertyFormat.something said.attributes

/-- The style that attributes hold; what is no number is plain. -/
def styleOf (attrs : Attributes) : Nat :=
  ((attrs.get? "style").bind fun value => Text.natural32? (Text.trim value)).getD 0

def write (attrs : Attributes) : List Text :=
  let serif : List Text := if attrs.isTrue "serif" then ["serif"] else []
  let size := ((attrs.unlessDefault? "sizeM" "1").map fun v => '*' :: v).toList
  let italic : List Text := if (styleOf attrs).testBit 1 then ["italic"] else []
  let bold : List Text := if (styleOf attrs).testBit 0 then ["bold"] else []
  serif ++ size ++ italic ++ bold

def format : PropertyFormat where
  name := "font"
  defaults := defaults
  decode := decode
  encode attrs := Text.nonempty? (Text.words (write attrs))

end StyleScript.Lettering
