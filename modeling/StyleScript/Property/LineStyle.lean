import StyleScript.Property.Basic
/-!
# Line style

The dash pattern, thickness, style of hidden parts, opacity and arrow of a line, in any order.  As soon as a
pattern or a thickness is given both are kept; writing drops them again when they are the defaults.
-/
namespace StyleScript.LineStyle

def patterns : List (Text × Text) :=
  [("pointwise", "-1"), ("full", "0"), ("dashedshort", "10"), ("dashedlong", "15"), ("dotted", "20"),
   ("dasheddotted", "30")]

/-- The styles of hidden parts that have a name, and their codes. -/
def hiddenStyles : List (Text × Text) := [("dashed", "1"), ("show", "2")]

def defaults : Attributes := .table [("type", "0"), ("thickness", "5"), ("drawArrow", "false")]

/-! ## Reading -/

def setting (key value : Text) : Except Cause (Text × Text) :=
  if key = "thickness" then
    (Text.truncated "lineStyle thickness" value).map fun n => ("thickness", Text.ofInt n)
  else if key = "opacity" then
    (Text.truncated "lineStyle opacity" value).map fun n => ("opacity", Text.ofInt n)
  else if key = "hidden" then
    match hiddenStyles.find? (·.1 = value) with
    | some (_, code) => .ok ("typeHidden", code)
    | none => .error (.unknownHiddenStyle value)
  else .error (.unknownAttribute "lineStyle" key)

def word (token : Text) : Except Cause (Text × Text) :=
  match Text.negation token with
  | (on, name) =>
    if on && name = "hidden".toList then .ok ("typeHidden", "0")
    else if name = "arrow" then .ok ("drawArrow", Text.ofBool on)
    else .error (.unknownToken "lineStyle" token)

def token (token : Text) : Except Cause (Text × Text) :=
  match patterns.find? (·.1 = token) with
  | some (_, code) => .ok ("type", code)
  | none =>
    match Text.keyValue? token with
    | some (key, value) => setting key value
    | none => word token

/-- A pattern without a thickness gets one, and the other way round. -/
def paired (set : Attributes) : Attributes :=
  if set.contains "type" || set.contains "thickness" then
    let set := if set.contains "type" then set else set.set "type" "0"
    if set.contains "thickness" then set else set.set "thickness" "5"
  else set

/-- The attributes in the order in which they are kept. -/
def ordered (set : Attributes) : Attributes :=
  let keys := (["type", "thickness", "typeHidden", "opacity", "drawArrow"] : List String).map String.toList
  OrderedMap.ofList (keys.filterMap fun key => (set.get? key).map fun value => (key, value))

def decode (value : Text) : Except Cause (Option Attributes) := do
  let settings ← (← Text.tokens value).mapM token
  return PropertyFormat.something (ordered (paired (OrderedMap.ofList settings)))

/-! ## Writing -/

def writeHidden (attrs : Attributes) : List Text :=
  match (attrs.get? "typeHidden").map Text.truncateText with
  | some code =>
    if code = "0" then ["hidden"]
    else match hiddenStyles.find? (·.2 = code) with
      | some (name, _) => ["hidden=" ++ name]
      | none => []
  | none => []

def write (attrs : Attributes) : List Text :=
  let pattern := match attrs.unlessDefault? "type" "0" with
    | some code => ((patterns.find? (·.2 = Text.truncateText code)).map Prod.fst).toList
    | none => []
  let thickness :=
    ((attrs.unlessDefault? "thickness" "5").map fun v => "thickness=" ++ Text.truncateText v).toList
  let opacity := ((attrs.get? "opacity").map fun v => "opacity=" ++ Text.truncateText v).toList
  let arrow : List Text := if attrs.isTrue "drawArrow" then ["arrow"] else []
  pattern ++ thickness ++ writeHidden attrs ++ opacity ++ arrow

def format : PropertyFormat where
  name := "lineStyle"
  defaults := defaults
  decode := decode
  encode attrs := Text.nonempty? (Text.words (write attrs))

end StyleScript.LineStyle
