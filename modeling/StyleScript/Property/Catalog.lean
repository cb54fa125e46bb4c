import StyleScript.Property.SingleValue
import StyleScript.Property.LineStyle
import StyleScript.Property.Visibility
import StyleScript.Property.Animation
import StyleScript.Property.Coordinates
import StyleScript.Property.Slider
import StyleScript.Property.Tracing
import StyleScript.Property.TableView
import StyleScript.Property.StartPoint
import StyleScript.Property.BarTag
import StyleScript.Property.Script
import StyleScript.Property.Placement
import StyleScript.Property.Extent
import StyleScript.Property.Lettering
import StyleScript.Property.Equation
import StyleScript.Property.Checkbox
/-!
# The catalog of properties

Formats are found by the name of the property when a script is read, and by the name of the element when an
object's style is written.  A format that is entered under a known name takes the place of the old one.  An
element keeps the first format that was entered for it, so that of several properties of one element one is
canonical.
-/
namespace StyleScript

structure Catalog where
  byName : OrderedMap Text PropertyFormat := ∅
  byElement : OrderedMap Text PropertyFormat := ∅
  /-- The names, in the order in which they were first entered. -/
  names : List Text := []

namespace Catalog

def empty : Catalog := {}

def enter (catalog : Catalog) (format : PropertyFormat) : Catalog where
  byName := catalog.byName.set format.name format
  byElement :=
    if catalog.byElement.contains format.element then catalog.byElement
    else catalog.byElement.set format.element format
  names := if catalog.byName.contains format.name then catalog.names else catalog.names ++ [format.name]

def enterAll (catalog : Catalog) (formats : List PropertyFormat) : Catalog := formats.foldl enter catalog

/-- How many properties there are. -/
def size (catalog : Catalog) : Nat := catalog.byName.size

def format? (catalog : Catalog) (name : Text) : Option PropertyFormat := catalog.byName.get? name

def forElement? (catalog : Catalog) (element : Text) : Option PropertyFormat := catalog.byElement.get? element

/-- The format of a property; an unknown one is kept as it is written. -/
def formatOf (catalog : Catalog) (name : Text) : PropertyFormat :=
  (catalog.format? name).getD (.unclaimed name)

/-! ## The built-in formats -/

/-- Every built-in format, in the order of the catalog. -/
def builtIn : List PropertyFormat :=
  [Color.format "objColor", Color.format "bgColor", Color.format "borderColor",
   LineStyle.format, Visibility.format, Animation.format, Coordinates.format, Slider.format,
   Tracing.format, TableView.format, StartPoint.format, BarTag.format,
   (ScriptProperty.click "jsClick").format, (ScriptProperty.click "javascript").format,
   ScriptProperty.update.format, ScriptProperty.drag.format, ScriptProperty.updateListener.format,
   ScriptProperty.clickListener.format, RandomFlag.format,
   Placement.labelOffset.format, Placement.screen.format, Equation.format, Lettering.format,
   Extent.boundingBox.format, Extent.contentSize.format, Extent.cropBox.format, Extent.dimensions.format,
   Checkbox.format] ++
  SingleValue.builtIn.map SingleValue.format

def standard : Catalog := empty.enterAll builtIn

end Catalog
end StyleScript
