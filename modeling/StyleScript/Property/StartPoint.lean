import StyleScript.Property.Basic
/-!
# Start points

Up to four corners that anchor a text, vector, button or image, with `|` between them.  A corner is a label
in quotes, or two to three coordinates, which may be absolute on the screen.  The attributes of the corners
are flattened under their numbers, from 0 on.
-/
namespace StyleScript.StartPoint

def mostCorners : Nat := 4

/-! ## Reading -/

/-- The attributes of coordinates, in a corner written as `text`. -/
def coordinates (text : Text) (values : List Text) : Except Cause (List (Text × Text)) :=
  if values.length < 2 || 3 < values.length then .error (.notCorner text)
  else do
    values.forM fun value => (Text.number "startPoint" value).map fun _ => ()
    return (["x", "y", "z"].map String.toList).zip values

/-- The attributes of a corner given by coordinates. -/
def placed (text : Text) (tokens : List Text) : Except Cause (List (Text × Text)) :=
  match tokens with
  | [] => coordinates text []
  | first :: rest =>
    match Text.negation first with
    | (on, name) =>
      if name = "absolute" then do return ("absolute", Text.ofBool on) :: (← coordinates text rest)
      else coordinates text (first :: rest)

def corner (text : Text) : Except Cause Attributes := do
  match ← Text.tokens text with
  | ['"' :: label] => return OrderedMap.ofList [("exp", ← Text.scalar ('"' :: label))]
  | tokens => return OrderedMap.ofList (← placed text tokens)

/-- The flattened attributes of corners, the first of which has the given number. -/
def flattened (number : Nat) : List Text → Attributes → Except Cause Attributes
  | [], attrs => .ok attrs
  | text :: rest, attrs => do flattened (number + 1) rest (attrs.flattenInto number (← corner text))

def decode (value : Text) : Except Cause (Option Attributes) := do
  let corners ← Text.parts '|' value
  if mostCorners < corners.length then .error (.tooManyCorners mostCorners corners.length)
  else return PropertyFormat.something (← flattened 0 corners ∅)

/-! ## Writing -/

def writeCorner (corner : Attributes) : Option Text :=
  match corner.get? "exp" with
  | some label => some (Text.quote label)
  | none =>
    match corner.get? "x", corner.get? "y" with
    | some x, some y =>
      let absolute : List Text := if corner.isTrue "absolute" then ["absolute"] else []
      some (Text.join " " (absolute ++ [x, y] ++ (corner.get? "z").toList))
    | _, _ => none

def encode (attrs : Attributes) : Option Text :=
  match attrs.grouped.filterMap fun (_, c) => writeCorner c with
  | [] => none
  | corners => some (Text.join " | " corners)

/-- A corner of coordinates is not absolute unless it says so. -/
def complete (attrs : Attributes) : Attributes :=
  let missing := attrs.grouped.filter fun (_, c) => !c.contains "exp" && !c.contains "absolute"
  (OrderedMap.ofList (missing.map fun (number, _) =>
    (Attributes.flatKey number "absolute", "false".toList))).union attrs.pairs

def routes (attrs : Attributes) : List Route :=
  attrs.grouped.map fun (number, c) =>
    .element "startPoint" (OrderedMap.ofList (("number", Text.ofNat number) :: c.pairs))

def format : PropertyFormat where
  name := "startPoint"
  complete := complete
  decode := decode
  encode := encode
  routes := routes

end StyleScript.StartPoint
