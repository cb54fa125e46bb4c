import StyleScript.Markup.Style
/-!
# Default styles

The host tells the default style of a type of objects in markup.  It is asked once for each type; a type
without markup, or with markup that cannot be read, is remembered as one without a default style.
-/
namespace StyleScript

/-- The default styles read so far, by the number of the type. -/
abbrev DefaultStyles := OrderedMap Int StyleMap

namespace DefaultStyles

/-- The style that markup tells; none if there is no markup or it cannot be read. -/
def ofMarkup (markup : Option Text) : StyleMap :=
  match markup.map Markup.readStyle with
  | some (.ok map) => map
  | _ => ∅

def something (map : StyleMap) : Option StyleMap := if map.isEmpty then none else some map

/-- Remembers the style of a type that was not known. -/
def remember (styles : DefaultStyles) (type : Int) (markup : Option Text) : DefaultStyles :=
  OrderedMap.set styles type (ofMarkup markup)

/-- The style of a type, from the markup if the type was not known. -/
def load (styles : DefaultStyles) (type : Int) (markup : Option Text) : Option StyleMap × DefaultStyles :=
  match OrderedMap.get? styles type with
  | some map => (something map, styles)
  | none => (something (ofMarkup markup), styles.remember type markup)

end DefaultStyles
end StyleScript
