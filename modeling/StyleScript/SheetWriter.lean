import StyleScript.Property.Catalog
import StyleScript.StyleSheet
/-!
# Writing styles

A style map, whose keys are elements, and a style sheet, whose keys are properties, are both written as
entries of a sheet.  What says the same as the defaults vanishes; a strict writer also leaves out what no
format claims.
-/
namespace StyleScript

/-- The formats to write with, and whether unknown names are left out. -/
structure SheetWriter where
  catalog : Catalog := .standard
  strict : Bool := false

namespace SheetWriter

/-- The format that a name stands for, given the one that claims it. -/
def formatFor (writer : SheetWriter) (claimed : Option PropertyFormat) (name : Text) :
    Option PropertyFormat :=
  match claimed with
  | some format => some format
  | none => if writer.strict then none else some (.unclaimed name)

/-- The entry of a property, `name: value` or the bare name, unless it says nothing. -/
def entryOf (format : PropertyFormat) (attrs : Attributes) : Option Text :=
  if attrs.isEmpty then none
  else (format.encode attrs).map fun value =>
    if value.isEmpty then format.name else format.name ++ ": " ++ value

def body? (entries : List Text) : Option Text :=
  if entries.isEmpty then none else some (Text.join "; " entries)

def element? (writer : SheetWriter) (element : Text) (attrs : Attributes) : Option Text :=
  (writer.formatFor (writer.catalog.forElement? element) element).bind fun format => entryOf format attrs

def styleBody? (writer : SheetWriter) (map : StyleMap) : Option Text :=
  body? (map.pairs.filterMap fun (element, attrs) => writer.element? element attrs)

def definition (name body : Text) : Text := "@" ++ name ++ " = \x7b " ++ body ++ " \x7d"

/-- The definition of a sheet that says what a style map says. -/
def style? (writer : SheetWriter) (name : Text) (map : StyleMap) : Option Text :=
  (writer.styleBody? map).map (definition name)

/-- The entries of a property of a sheet: its reset, and its value. -/
def propertyEntries (writer : SheetWriter) (name : Text) (attrs : Attributes) : List Text :=
  match writer.formatFor (writer.catalog.format? name) name with
  | none => []
  | some format =>
    (if attrs.hasReset then ['~' :: name] else []) ++ (entryOf format attrs.withoutReset).toList

def sheet? (writer : SheetWriter) (sheet : StyleSheet) : Option Text :=
  body? (sheet.properties.pairs.flatMap fun (name, attrs) => writer.propertyEntries name attrs)

end SheetWriter
end StyleScript
