import StyleScript.Attributes
/-!
# Style sheets

A sheet holds the attributes of some properties, in order; it has a name, or none if it is written in place.
Sheets merge from left to right: a property that carries the reset mark replaces what was there before, any
other is laid over it key by key.
-/
namespace StyleScript

/-- A style sheet.  An inline sheet has the empty name. -/
structure StyleSheet where
  name : Text
  properties : OrderedMap Text Attributes
  deriving DecidableEq

namespace StyleSheet

def named (name : Text) : StyleSheet := ⟨name, ∅⟩

def inline : StyleSheet := named []

def isInline (sheet : StyleSheet) : Bool := sheet.name.isEmpty

def get? (sheet : StyleSheet) (property : Text) : Option Attributes := sheet.properties.get? property

def isEmpty (sheet : StyleSheet) : Bool := sheet.properties.isEmpty

/-- Sets the attributes of a property.  Behind a reset mark they are laid over it, so that the mark stays;
otherwise they replace what was there. -/
def set (sheet : StyleSheet) (property : Text) (attrs : Attributes) : StyleSheet :=
  ⟨sheet.name, sheet.properties.alter property fun
    | some old => if old.hasReset then old.overlaid attrs else attrs
    | none => attrs⟩

def reset (sheet : StyleSheet) (property : Text) : StyleSheet :=
  ⟨sheet.name, sheet.properties.alter property fun old => (old.getD ∅).set Attributes.resetMark []⟩

def erase (sheet : StyleSheet) (property : Text) : StyleSheet :=
  ⟨sheet.name, sheet.properties.erase property⟩

/-! ## Merging -/

/-- What a property holds once `incoming` comes on top. -/
def overlay (old : Option Attributes) (incoming : Attributes) : Attributes :=
  match old with
  | some old => if incoming.hasReset then incoming else old.overlaid incoming
  | none => incoming

def overlayOne (properties : OrderedMap Text Attributes) (incoming : Text × Attributes) :
    OrderedMap Text Attributes :=
  properties.alter incoming.1 fun old => overlay old incoming.2

def merge (sheet other : StyleSheet) : StyleSheet :=
  ⟨sheet.name, other.properties.pairs.foldl overlayOne sheet.properties⟩

def merged (sheets : List StyleSheet) : StyleSheet := sheets.foldl merge inline

/-- Whether two sheets have the same name and say the same, in whatever order. -/
def sameContent (a b : StyleSheet) : Bool :=
  a.name = b.name && a.properties.size = b.properties.size &&
    a.properties.pairs.all fun (property, attrs) =>
      (b.properties.get? property).any fun other => attrs.sameContent other

end StyleSheet
end StyleScript
