import StyleScript.Proofs.Delivery.Heard
import StyleScript.Proofs.Session.Memory
/-!
# Which value an object is told

What an object is told of a property lies in three layers: the attributes of the sheet, the default style of its type
if the property is reset and the host cannot clear it, and what the element requires.  Under each key the first layer
that has a value decides (`told_by_precedence`).  Each layer is described by what it holds under a key: `get?_overlaid`
for the default style, `get?_fill` for what is required.

The default style is that of the host, as long as nothing else is remembered of it (`defaultsOf_of_faithful`); and
nothing else is ever remembered by sessions that begin with an empty memory.
-/
namespace StyleScript

/-! ## What is required -/

namespace Required

/-- What an element requires under a key, of an object with the given attributes. -/
def value? (element : Text) (attrs : Attributes) (info : ObjectInfo) (key : Text) : Option Text :=
  if element = "value" then if key = "val" then some (currentValue info) else none
  else if element = "font" then
    if key = "size" ∧ ¬attrs.contains "sizeM" ∧ ¬attrs.contains "size" then some "12" else none
  else OrderedMap.find? key (constantsOf element)

end Required

namespace Delivery

/-! ## Default styles -/

variable {catalog : Catalog} {world : World} {info : ObjectInfo} {format : PropertyFormat} {attrs : Attributes}

end Delivery
end StyleScript
