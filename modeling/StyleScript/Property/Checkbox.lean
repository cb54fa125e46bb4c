import StyleScript.Property.Basic
/-!
# Checkbox

Marks a truth value that is drawn with a checkbox.  That the property is there says something by itself, so
it is always written.
-/
namespace StyleScript.Checkbox

def token (_ : Bool) (token : Text) : Except Cause Bool :=
  match Text.negation token with
  | (on, name) => if name = "fixed" then .ok on else .error (.unknownToken "checkbox" token)

def format : PropertyFormat where
  name := "checkbox"
  defaults := .table [("fixed", "false")]
  decode value := do
    let fixed ← (← Text.tokens value).foldlM token false
    return some (OrderedMap.ofList [("fixed", Text.ofBool fixed)])
  encode attrs := some (if attrs.isTrue "fixed" then "fixed" else [])

end StyleScript.Checkbox
