import StyleScript.Attributes
import StyleScript.Text.Tokens
/-!
# Property formats

Every style property has a format: how its value is read into attributes and written again, which
attributes it has when nothing is said, and how the host is told of it.  A value is written as short as
possible: an attribute that says the same as its default is left out.  So reading and writing are inverse
only up to defaults, and `equivalent` is the equality that counts.
-/
namespace StyleScript

/-- Where the host keeps a script or a listener. -/
inductive ScriptSlot where
  | click | update | drag | updateListener | clickListener
  deriving DecidableEq, Repr

/-- The properties that the host itself can clear. -/
inductive Resettable where
  | trace | spreadsheetTrace | condition | dynamicCaption
  | clickScript | updateScript | dragScript | updateListener | clickListener
  deriving DecidableEq, Repr

/-- One message to the host: an element with its attributes, the text of a script, or the random flag. -/
inductive Route where
  | element (name : Text) (attrs : Attributes)
  | script (slot : ScriptSlot) (text : Text)
  | random (flag : Bool)
  deriving DecidableEq

/-- How one style property is read, written and delivered. -/
structure PropertyFormat where
  /-- The name in a style sheet. -/
  name : Text
  /-- The name of the element that the host knows. -/
  element : Text := name
  /-- What holds when nothing is said. -/
  defaults : Attributes := ∅
  /-- The attributes with the defaults filled in. -/
  complete : Attributes → Attributes := defaults.overlaid
  /-- Reads a value.  It may be refused, or silently say nothing. -/
  decode : Text → Except Cause (Option Attributes)
  /-- Writes attributes: nothing at all, the bare name, or a value. -/
  encode : Attributes → Option Text
  /-- What the host is told. -/
  routes : Attributes → List Route := fun attrs => [.element element attrs]
  /-- How the host clears the property, if it can. -/
  reset : Option Resettable := none

namespace PropertyFormat

/-- Whether two maps say the same once the defaults are filled in. -/
def equivalent (format : PropertyFormat) (a b : Attributes) : Bool :=
  let a := format.complete a
  let b := format.complete b
  a.size = b.size && a.pairs.all fun (key, value) => (b.get? key).any (Text.sameValue value)

/-! ## Reading tokens -/

def something (attrs : Attributes) : Option Attributes := if attrs.isEmpty then none else some attrs

/-- Reads a value whose tokens each set some attributes; a later token wins. -/
def readTokens (token : Text → Except Cause (List (Text × Text))) (value : Text) :
    Except Cause (Option Attributes) := do
  let settings ← (← Text.tokens value).mapM token
  return something (OrderedMap.ofList settings.flatten)

/-! ## Names that no format claims -/

/-- The format of an unknown property: its one attribute `val` is the value, and `true` when only the name
stands there. -/
def unclaimed (name : Text) : PropertyFormat where
  name := name
  decode value := do
    let val ← if Text.isBlankText value then .ok ("true" : Text) else Text.scalar value
    return some (OrderedMap.ofList [("val", val)])
  encode attrs := (attrs.get? "val").map fun (val : Text) =>
    if val = "true" then [] else Text.quoteIfNeeded val

end PropertyFormat
end StyleScript
