import StyleScript.OrderedMap
import StyleScript.Number.Reading
/-!
# Attributes

One property value is an ordered map from attribute names to text.  A key `~` marks a value that first
resets the property to its default.

Families of attributes, one for each bar or corner, are flattened into one map under keys `3.fillType`, and
grouped again in ascending order of their numbers.
-/
namespace StyleScript

/-- Attribute names with their values, in order. -/
abbrev Attributes := OrderedMap Text Text

/-- Element names with their attributes, in order: one object's style. -/
abbrev StyleMap := OrderedMap Text Attributes

namespace Attributes

def table (pairs : List (String × String)) : Attributes :=
  OrderedMap.ofList (pairs.map fun (key, value) => (key.toList, value.toList))

/-! ## The reset mark -/

def resetMark : Text := "~"

def hasReset (attrs : Attributes) : Bool := attrs.contains resetMark

def withoutReset (attrs : Attributes) : Attributes := attrs.filter fun key _ => key ≠ resetMark

/-! ## Defaults -/

/-- The attributes laid over the defaults, whose keys come first. -/
def overlaid (defaults attrs : Attributes) : Attributes := defaults.union attrs.pairs

/-- The value of a key unless it says the same as `default`. -/
def unlessDefault? (attrs : Attributes) (key default : Text) : Option Text :=
  (attrs.get? key).filter fun value => !Text.sameValue value default

def isTrue (attrs : Attributes) (key : Text) : Bool := attrs.get? key = some "true".toList

/-! ## Numbered families -/

/-- Divides a flattened key into the number and the name behind the first point. -/
def splitKey? (key : Text) : Option (Nat × Text) :=
  match Text.cut? '.' key with
  | some (number, name) => (Text.natural32? number).map fun n => (n, name)
  | none => none

/-- The flattened key of an attribute of one member. -/
def flatKey (number : Nat) (name : Text) : Text := Text.ofNat number ++ '.' :: name

/-- Puts the attributes of one member into a flattened map. -/
def flattenInto (target : Attributes) (number : Nat) (member : Attributes) : Attributes :=
  target.union (member.pairs.map fun (name, value) => (flatKey number name, value))

/-- Adds one flattened attribute to its group; a key without a number is passed over. -/
def addToGroup (groups : OrderedMap Nat Attributes) (pair : Text × Text) : OrderedMap Nat Attributes :=
  match splitKey? pair.1 with
  | some (number, name) => groups.alter number fun group => (group.getD ∅).set name pair.2
  | none => groups

/-- The members of a flattened map, in ascending order of their numbers. -/
def grouped (attrs : Attributes) : List (Nat × Attributes) :=
  (attrs.pairs.foldl addToGroup ∅).pairs.mergeSort fun a b => a.1 ≤ b.1

end Attributes
end StyleScript
