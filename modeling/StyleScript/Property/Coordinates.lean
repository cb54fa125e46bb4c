import StyleScript.Property.Basic
/-!
# Homogeneous coordinates

Two to four numbers, and at most one group `v=` and one group `w=` of three to four numbers each; the first
number of a group is glued to its lead.  A point's third and fourth number default to one, the fourth of a
direction to zero.
-/
namespace StyleScript.Coordinates

inductive Group where
  | point | v | w
  deriving DecidableEq, Repr

namespace Group

def keys : Group → List Text
  | point => ["x", "y", "z", "w"].map String.toList
  | v => ["vx", "vy", "vz", "vw"].map String.toList
  | w => ["wx", "wy", "wz", "ww"].map String.toList

/-- How many numbers a group has at least; it has at most four. -/
def least : Group → Nat
  | point => 2
  | _ => 3

def lead : Group → Text
  | point => []
  | v => "v="
  | w => "w="

/-- What stands for a number that is not given. -/
def filler : Group → Text
  | point => "1.0"
  | _ => "0.0"

def opened? (key : Text) : Option Group :=
  if key = "v" then some v else if key = "w" then some w else none

end Group

def defaults : Attributes := .table [("z", "1.0"), ("w", "1.0")]

/-! ## Reading -/

/-- The attributes of the numbers of one group. -/
def groupAttributes (group : Group) (values : List Text) : Except Cause (List (Text × Text)) :=
  if values.isEmpty && group = .point then .error .coordinatesMissing
  else if values.length < group.least || 4 < values.length then
    .error (.coordinateCount group.lead group.least values.length)
  else .ok (group.keys.zip (values ++ List.replicate (4 - values.length) group.filler))

/-- The attributes of the groups that are complete, those groups, and the group being read. -/
structure Reading where
  settings : List (Text × Text)
  closed : List Group
  group : Group
  values : List Text

def Reading.start : Reading := ⟨[], [], .point, []⟩

def Reading.add (r : Reading) (value : Text) : Except Cause Reading := do
  let _ ← Text.number "coords" value
  return { r with values := r.values ++ [value] }

def Reading.close (r : Reading) : Except Cause (List (Text × Text)) := do
  return r.settings ++ (← groupAttributes r.group r.values)

def Reading.token (r : Reading) (token : Text) : Except Cause Reading :=
  match Text.keyValue? token with
  | none => r.add token
  | some (key, first) =>
    match Group.opened? key with
    | none => .error (.unknownCoordinateGroup key)
    | some group =>
      if group = r.group || r.closed.contains group then .error (.repeatedCoordinateGroup group.lead)
      else do Reading.add ⟨← r.close, r.closed ++ [r.group], group, []⟩ first

def decode (value : Text) : Except Cause (Option Attributes) := do
  let r ← (← Text.tokens value).foldlM Reading.token .start
  return some (OrderedMap.ofList (← r.close))

/-! ## Writing -/

def writePoint (attrs : Attributes) (x y : Text) : List Text :=
  match attrs.unlessDefault? "w" "1.0" with
  | some w => [x, y, (attrs.get? "z").getD "1.0", w]
  | none => [x, y] ++ (attrs.unlessDefault? "z" "1.0").toList

/-- The numbers of a direction that has at least three. -/
def writeDirection (attrs : Attributes) (group : Group) : List Text :=
  match group.keys.take 3 |>.map attrs.get? with
  | [some a, some b, some c] =>
    let fourth := (group.keys[3]?.bind fun key => attrs.unlessDefault? key "0.0").toList
    [group.lead ++ a, b, c] ++ fourth
  | _ => []

def encode (attrs : Attributes) : Option Text :=
  match attrs.get? "x", attrs.get? "y" with
  | some x, some y =>
    some (Text.join " " (writePoint attrs x y ++ writeDirection attrs .v ++ writeDirection attrs .w))
  | _, _ => none

def format : PropertyFormat where
  name := "coords"
  defaults := defaults
  decode := decode
  encode := encode

end StyleScript.Coordinates
