import StyleScript.Property.Basic
import StyleScript.Number.Shortest
/-!
# Colors and fillings

A color is `#RRGGBB` or `#RRGGBBAA`, or `rgb`, `hsv` or `hsl` of three or four expressions; beside it stand
the modifiers of the filling.  A malformed hexadecimal color and an unknown bare word are no errors: they
make the whole value say nothing.

Reading and writing work on rows of tokens and on plain attributes, so that the bars of a chart share them.
-/
namespace StyleScript.Color

/-- The names of the fillings, in the order of their codes. -/
def fillNames : List Text :=
  ["standard", "hatch", "crosshatch", "chessboard", "dotted", "honeycomb", "brick", "weaving", "symbols",
   "image"].map String.toList

/-- The names of the color spaces, in the order of their codes. -/
def spaces : List Text := ["rgb", "hsv", "hsl"].map String.toList

/-- The keys of the expressions of a color, in order. -/
def expressionKeys : List Text := ["dynamicr", "dynamicg", "dynamicb", "dynamica"].map String.toList

def defaults : Attributes :=
  .table [("alpha", "1.0"), ("fillType", "0"), ("hatchAngle", "45"), ("hatchDistance", "10"),
    ("inverseFill", "false")]

/-! ## Reading -/

/-- The bytes written by pairs of hexadecimal digits. -/
def hexBytes? : Text → Option (List Nat)
  | [] => some []
  | [_] => none
  | h :: l :: rest => do
    let high ← Text.hexDigit? h
    let low ← Text.hexDigit? l
    let bytes ← hexBytes? rest
    return (16 * high + low) :: bytes

/-- The attribute `alpha` of a byte: its share of 255. -/
def alphaText (byte : Nat) : Text := (Binary64.ofRatio byte 255).text

def hexColor? (digits : Text) : Option (List (Text × Text)) :=
  match hexBytes? digits with
  | some [r, g, b] => some [("r", Text.ofNat r), ("g", Text.ofNat g), ("b", Text.ofNat b)]
  | some [r, g, b, a] =>
    some [("r", Text.ofNat r), ("g", Text.ofNat g), ("b", Text.ofNat b), ("alpha", alphaText a)]
  | _ => none

/-- The attributes of a color of expressions; absent for a token that does not begin as one. -/
def expressions? (token : Text) : Except Cause (Option (List (Text × Text))) :=
  match Text.cut? '(' token with
  | none => .ok none
  | some (space, rest) =>
    match spaces.idxOf? (Text.lowered space) with
    | none => .ok none
    | some code =>
      match Text.beforeLast? ')' rest with
      | none => .error (.unclosedColor token)
      | some inner => do
        let operands ← Text.parts ',' inner
        if operands.length < 3 || 4 < operands.length then
          .error (.colorComponents operands.length token)
        else
          let values ← operands.mapM Text.scalar
          return some (expressionKeys.zip values ++ [("colorSpace".toList, Text.ofNat code)])

/-- The code of a filling, given by name in any case or by code. -/
def fillCode (name : Text) : Except Cause Nat :=
  match fillNames.idxOf? (Text.lowered name) with
  | some code => .ok code
  | none =>
    match Text.natural64? name with
    | some code => if code < fillNames.length then .ok code else .error (.unknownFill name)
    | none => .error (.unknownFill name)

def modifier (property key value : Text) : Except Cause (List (Text × Text)) := do
  let value ← Text.scalar value
  if key = "fill" then return [("fillType", Text.ofNat (← fillCode value))]
  else if key = "angle" then return [("hatchAngle", value)]
  else if key = "dist" then return [("hatchDistance", value)]
  else if key = "image" then return [("image", value)]
  else if key = "symbol" then return [("fillSymbol", value)]
  else .error (.unknownModifier property key)

/-- The attributes set by a token that begins with no `#`; absent for an unknown word. -/
def wordOrModifier (property token : Text) : Except Cause (Option (List (Text × Text))) := do
  match ← expressions? token with
  | some settings => return some settings
  | none =>
    match Text.keyValue? token with
    | some (key, value) => return some (← modifier property key value)
    | none =>
      let (on, word) := Text.negation token
      return if word = "inverse" then some [("inverseFill", Text.ofBool on)] else none

/-- The attributes set by a token; absent when it makes the value say nothing. -/
def token (property : Text) : Text → Except Cause (Option (List (Text × Text)))
  | '#' :: digits => .ok (hexColor? digits)
  | token => wordOrModifier property token

/-- Reads a row of tokens on top of what was read before. -/
def readTokensOver (property : Text) : Attributes → List Text → Except Cause (Option Attributes)
  | attrs, [] => .ok (PropertyFormat.something attrs)
  | attrs, t :: rest => do
    match ← token property t with
    | some settings => readTokensOver property (attrs.union settings) rest
    | none => return none

def readTokens (property : Text) : List Text → Except Cause (Option Attributes) :=
  readTokensOver property ∅

/-! ## Writing -/

def hexChar (n : Nat) : Char := if n < 10 then Char.ofNat (48 + n) else Char.ofNat (55 + n)

def hexByte (byte : Nat) : Text := [hexChar (byte / 16), hexChar (byte % 16)]

/-- The byte of a channel: its number, rounded and forced into range. -/
def channel? (attrs : Attributes) (key : Text) : Option Nat :=
  ((attrs.get? key).bind fun value => Text.float? (Text.trim value)).map Binary64.toByte

/-- Whether a number is more than `10 ^ -6` away from one. -/
def apartFromOne : Binary64 → Bool
  | .nan => false
  | .infinity _ => true
  | .finite true _ => true
  | .finite false units =>
    let distance := if units < Binary64.one then Binary64.one - units else units - Binary64.one
    Binary64.roundUnits Binary64.one 1000000 < distance

def alphaDigits (attrs : Attributes) : Text :=
  match (attrs.get? "alpha").bind fun value => Text.float? (Text.trim value) with
  | some alpha => if apartFromOne alpha then hexByte (alpha.scale 255).toByte else []
  | none => []

/-- The color space of a color of expressions; an unknown code is `rgb`. -/
def spaceName (attrs : Attributes) : Text :=
  (((attrs.get? "colorSpace").bind Text.natural64?).bind (spaces[·]?)).getD "rgb"

def writeColor (attrs : Attributes) : Option Text :=
  match channel? attrs "r", channel? attrs "g", channel? attrs "b" with
  | some r, some g, some b => some ('#' :: hexByte r ++ hexByte g ++ hexByte b ++ alphaDigits attrs)
  | _, _, _ =>
    if attrs.contains "dynamicr" then
      let operands := (expressionKeys.filterMap attrs.get?).map Text.quoteIfNeeded
      some (spaceName attrs ++ "(" ++ Text.join "," operands ++ ")")
    else none

/-- The name of a kept filling, which may be a code or a name. -/
def fillName? (kept : Text) : Option Text :=
  match Text.natural64? kept with
  | some code => fillNames[code]?
  | none => fillNames.find? (· = Text.lowered kept)

/-- A leaf as one token, also where `|` separates. -/
def leaf (text : Text) : Text := if text.contains '|' then Text.quote text else Text.quoteIfNeeded text

/-- The tokens of a color, without what says the same as the defaults. -/
def writeTokens (attrs : Attributes) : List Text :=
  let fill := match (attrs.unlessDefault? "fillType" "0").bind fillName? with
    | some name => if name = "standard" then [] else ["fill=" ++ name]
    | none => []
  let angle := ((attrs.unlessDefault? "hatchAngle" "45").map fun v => "angle=" ++ Text.quoteIfNeeded v).toList
  let dist :=
    ((attrs.unlessDefault? "hatchDistance" "10").map fun v => "dist=" ++ Text.quoteIfNeeded v).toList
  let image := (((attrs.get? "image").bind Text.nonempty?).map fun v => "image=" ++ leaf v).toList
  let symbol := (((attrs.get? "fillSymbol").bind Text.nonempty?).map fun v => "symbol=" ++ leaf v).toList
  let inverse : List Text := if attrs.isTrue "inverseFill" then ["inverse"] else []
  (writeColor attrs).toList ++ fill ++ angle ++ dist ++ image ++ symbol ++ inverse

def write (attrs : Attributes) : Text := Text.words (writeTokens attrs)

def format (name : Text) : PropertyFormat where
  name := name
  defaults := defaults
  decode value := do readTokens name (← Text.tokens value)
  encode attrs := Text.nonempty? (write attrs)

end StyleScript.Color
