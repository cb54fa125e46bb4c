import StyleScript.Property.Color
/-!
# Bars of a chart

Colors and fillings of single bars.  Blocks with `|` between them each name a bar with `bar=n`; their other
tokens are those of a color.  A block without a bar, and one whose color says nothing, are passed over.  The
attributes are flattened under the numbers of the bars.
-/
namespace StyleScript.BarTag

/-- The key under which the host knows an attribute of a bar; the color itself is `barColor`. -/
def hostKeys : List (Text × Text) :=
  [("alpha", "barAlpha"), ("fillType", "barFillType"), ("hatchAngle", "barHatchAngle"),
   ("hatchDistance", "barHatchDistance"), ("image", "barImage"), ("fillSymbol", "barSymbol")]

/-! ## Reading -/

/-- Takes the bar out of the tokens of a block: the last one named, and the tokens of the color. -/
def takeBar : List Text → Except Cause (Option Nat × List Text)
  | [] => .ok (none, [])
  | token :: rest =>
    match (Text.keyValue? token).filter fun (key, _) => key = "bar".toList with
    | some (_, number) =>
      match Text.natural32? number with
      | some n => do
        let (bar, colors) ← takeBar rest
        return (some (bar.getD n), colors)
      | none => .error (.notBarNumber number)
    | none => do
      let (bar, colors) ← takeBar rest
      return (bar, token :: colors)

def block (attrs : Attributes) (text : Text) : Except Cause Attributes := do
  match ← takeBar (← Text.tokens text) with
  | (none, _) => return attrs
  | (some bar, colors) =>
    match ← Color.readTokens "barTag" colors with
    | some group => return attrs.flattenInto bar group
    | none => return attrs

def decode (value : Text) : Except Cause (Option Attributes) := do
  return PropertyFormat.something (← (← Text.parts '|' value).foldlM block ∅)

/-! ## Writing -/

/-- The block of a bar, if its color says anything. -/
def writeBlock (bar : Nat) (group : Attributes) : Option Text :=
  (Text.nonempty? (Color.write group)).map fun color => "bar=" ++ Text.ofNat bar ++ " " ++ color

def encode (attrs : Attributes) : Option Text :=
  match attrs.grouped.filterMap fun (bar, group) => writeBlock bar group with
  | [] => none
  | blocks => some (Text.join " | " blocks)

/-- Every bar that is there has the defaults of a color. -/
def complete (attrs : Attributes) : Attributes :=
  let fill := fun (out : Attributes) (bar : Nat × Attributes) => out.flattenInto bar.1 Color.defaults
  (attrs.grouped.foldl fill ∅).union attrs.pairs

/-- The element that tells the host one attribute of a bar. -/
def route (bar : Nat) (key value : Text) : Route :=
  .element "tag" (OrderedMap.ofList [("barNumber", Text.ofNat bar), ("key", key), ("value", value)])

def barRoutes (bar : Nat) (group : Attributes) : List Route :=
  let color := match group.get? "r", group.get? "g", group.get? "b" with
    | some r, some g, some b => [route bar "barColor" ("rgb(" ++ Text.join "," [r, g, b] ++ ")")]
    | _, _, _ => []
  color ++ hostKeys.filterMap fun (attr, key) => (group.get? attr).map (route bar key)

def routes (attrs : Attributes) : List Route := attrs.grouped.flatMap fun (bar, group) => barRoutes bar group

def format : PropertyFormat where
  name := "barTag"
  element := "tag"
  complete := complete
  decode := decode
  encode := encode
  routes := routes

end StyleScript.BarTag
