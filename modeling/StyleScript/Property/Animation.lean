import StyleScript.Property.Basic
/-!
# Animation

Whether an object plays, its step with a direction, and its speed.  A direction `+`, `-` or `=` leads the
step and may stand alone.  Steps and speeds are expressions; only a plain unsigned number is written bare,
so that no sign of an expression is taken for a direction.
-/
namespace StyleScript.Animation

/-- The signs of the directions and their codes; without a sign the code is 0. -/
def directions : List (Char × Text) := [('+', "1"), ('-', "2"), ('=', "3")]

def defaults : Attributes :=
  .table [("playing", "false"), ("step", "0.1"), ("speed", "1"), ("type", "0")]

/-- The code of the direction that a token begins with, and the step behind it. -/
def direction : Text → Text × Text
  | [] => ("0", [])
  | c :: rest =>
    match directions.find? (·.1 = c) with
    | some (_, code) => (code, rest)
    | none => ("0", c :: rest)

/-- The attributes set by a step with its direction. -/
def step (token : Text) : Except Cause (List (Text × Text)) :=
  match direction token with
  | (code, []) => .ok [("type", code)]
  | (code, step) => do return [("step", ← Text.scalar step), ("type", code)]

def token (token : Text) : Except Cause (List (Text × Text)) :=
  match Text.negation token with
  | (on, name) =>
    if name = "play" then .ok [("playing", Text.ofBool on)]
    else match Text.keyValue? token with
      | some (key, value) =>
        if key = "speed" then do return [("speed", ← Text.scalar value)]
        else .error (.unknownAttribute "animation" key)
      | none => step token

/-- An expression as it is written behind a sign. -/
def expression (text : Text) : Text := if Text.isPlainNumber text then text else Text.quote text

def sign (attrs : Attributes) : Text :=
  match attrs.get? "type" with
  | some code => ((directions.find? fun (_, c) => Text.sameValue c code).map fun (sign, _) => [sign]).getD []
  | none => []

def write (attrs : Attributes) : List Text :=
  let play : List Text := if attrs.isTrue "playing" then ["play"] else []
  let step := match attrs.unlessDefault? "step" "0.1" with
    | some step => sign attrs ++ expression step
    | none => sign attrs
  let speed := ((attrs.unlessDefault? "speed" "1").map fun v => "speed=" ++ expression v).toList
  play ++ [step] ++ speed

def format : PropertyFormat where
  name := "animation"
  defaults := defaults
  decode := PropertyFormat.readTokens token
  encode attrs := Text.nonempty? (Text.words (write attrs))

end StyleScript.Animation
