import StyleScript.Property.Basic
/-!
# Placement

Two numbers `x y`: the offset of a label, and the place of an object on the screen.
-/
namespace StyleScript

/-- A property of two numbers, with a default if it has one. -/
structure Placement where
  name : Text
  element : Text
  default : Option (Text × Text)

namespace Placement

def labelOffset : Placement := ⟨"labelOffset", "labelOffset", some ("0", "0")⟩

/-- The place of an object on the screen. -/
def screen : Placement := ⟨"@screen", "absoluteScreenLocation", none⟩

def pair (x y : Text) : Attributes := OrderedMap.ofList [("x", x), ("y", y)]

def decode (placement : Placement) (value : Text) : Except Cause (Option Attributes) := do
  match ← Text.tokens value with
  | [x, y] =>
    let _ ← Text.number placement.name x
    let _ ← Text.number placement.name y
    return some (pair x y)
  | _ => .error (.notTwoNumbers placement.name (Text.trim value))

def isDefault (placement : Placement) (x y : Text) : Bool :=
  placement.default.any fun (dx, dy) => Text.sameValue x dx && Text.sameValue y dy

def encode (placement : Placement) (attrs : Attributes) : Option Text :=
  match attrs.get? "x", attrs.get? "y" with
  | some x, some y => if placement.isDefault x y then none else some (x ++ " " ++ y)
  | _, _ => none

def format (placement : Placement) : PropertyFormat where
  name := placement.name
  element := placement.element
  defaults := (placement.default.map fun (x, y) => pair x y).getD ∅
  decode := placement.decode
  encode := placement.encode

end Placement
end StyleScript
