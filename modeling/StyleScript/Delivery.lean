import StyleScript.Host
import StyleScript.DefaultStyles
import StyleScript.Property.Catalog
/-!
# Delivering a sheet

A sheet is delivered to an object property by property.  A property with the reset mark is first cleared by
the host, if it can be; otherwise the default style of the object's type is laid under it.  Then its routes
are told to the host, elements with what they require.  Each object ends with a finish; after all of them the
host computes anew once, and follows the spreadsheet trace if the sheet has touched that.

A failure stops the delivery, but what the host was told before stays: a failed delivery answers the world as
it was left.
-/
namespace StyleScript

/-- The host, and the default styles it was asked for. -/
structure World where
  host : Host := {}
  styles : DefaultStyles := OrderedMap.empty

structure Halted where
  fault : Fault
  world : World

namespace Delivery

def halt (world : World) (reason : Text) : Halted := ⟨.bare (.deliveryFailed reason), world⟩

/-! ## Resets -/

/-- The default style of a type, asked of the host unless it is remembered. -/
def defaultStyle (world : World) (type : Int) : Option StyleMap × World :=
  if OrderedMap.contains world.styles type then ((world.styles.load type none).1, world)
  else
    let (markup, host) := world.host.defaultMarkup type
    let (style, styles) := world.styles.load type markup
    (style, ⟨host, styles⟩)

/-- The default attributes of an element for an object. -/
def defaultAttributes (world : World) (info : ObjectInfo) (element : Text) : Option Attributes × World :=
  match info.defaultType with
  | none => (none, world)
  | some type =>
    let (style, world) := defaultStyle world type
    (style.bind (·.get? element), world)

/-- The attributes that are left to deliver behind a reset, if any. -/
def remaining (attrs : Attributes) : Option Attributes := PropertyFormat.something attrs

/-- The attributes to deliver for a property, once its reset is done. -/
def afterReset (world : World) (handle : Nat) (info : ObjectInfo) (format : PropertyFormat)
    (attrs : Attributes) : Option Attributes × World :=
  let normal := attrs.withoutReset
  if attrs.hasReset then
    match format.reset.bind (world.host.clear? handle) with
    | some host => (remaining normal, { world with host })
    | none =>
      match defaultAttributes world info format.element with
      | (some defaults, world) => (remaining (Attributes.overlaid defaults normal), world)
      | (none, world) => (remaining normal, world)
  else (some normal, world)

/-! ## Routes -/

def route (handle : Nat) (info : ObjectInfo) (world : World) : Route → Except Halted World
  | .element name attrs =>
    match world.host.element handle name (Required.fill name attrs info) with
    | .ok host => .ok { world with host }
    | .error reason => .error (halt world reason)
  | .script slot text => .ok { world with host := world.host.setScript handle slot text }
  | .random flag => .ok { world with host := world.host.setRandom handle flag }

def property (catalog : Catalog) (handle : Nat) (info : ObjectInfo) (world : World)
    (entry : Text × Attributes) : Except Halted World :=
  let format := catalog.formatOf entry.1
  match afterReset world handle info format entry.2 with
  | (some attrs, world) => (format.routes attrs).foldlM (route handle info) world
  | (none, world) => .ok world

/-! ## Objects -/

/-- Delivers a sheet to one object, which must have a label. -/
def object (catalog : Catalog) (sheet : StyleSheet) (world : World) (handle : Nat) : Except Halted World :=
  let info := world.host.info handle
  if info.label.isNone then .error (halt world "object must have a label to apply styles")
  else do
    let world ← sheet.properties.pairs.foldlM (property catalog handle info) world
    return { world with host := world.host.finish handle }

/-- The property whose change is followed by a synchronisation of the trace. -/
def traced : Text := "spreadsheetTrace"

def conclude (sheet : StyleSheet) (world : World) : World :=
  let host := world.host.recompute
  { world with host := if sheet.properties.contains traced then host.syncTrace else host }

/-- Delivers a sheet to some objects, one after the other. -/
def sheet (catalog : Catalog) (world : World) (handles : List Nat) (sheet : StyleSheet) :
    Except Halted World :=
  if sheet.isEmpty || handles.isEmpty then .ok world
  else do
    let world ← handles.foldlM (object catalog sheet) world
    return conclude sheet world

end Delivery
end StyleScript
