import StyleScript.Property.Basic
/-!
# Visibility

The property `show`: whether the object and its label are shown, and in which views.  The views are bits of
one number.

| Token   | sets   | clears |
|---------|--------|--------|
| `ev1`   |        | bit 0  |
| `ev2`   | bit 1  |        |
| `3d`    | bit 2  | bit 3  |
| `plane` | bit 4  | bit 5  |

A negated token sets what the plain one clears and clears what it sets, so of two bits that a token pairs
at most one is ever set.  Bit 0 says that the first view does not show the object.
-/
namespace StyleScript.Visibility

/-- The bits that the plain form of a view token sets, and those that it clears. -/
def views : List (Text × Nat × Nat) := [("ev1", 0, 1), ("ev2", 2, 0), ("3d", 4, 8), ("plane", 16, 32)]

def defaults : Attributes := .table [("object", "false"), ("label", "false"), ("ev", "0")]

structure Shown where
  object : Option Bool := none
  label : Option Bool := none
  views : Option Nat := none
  deriving DecidableEq

def assign (bits set clear : Nat) : Nat := (bits ||| set) ^^^ ((bits ||| set) &&& clear)

def token (shown : Shown) (token : Text) : Except Cause Shown :=
  match Text.negation token with
  | (on, name) =>
    if name = "object" then .ok { shown with object := some on }
    else if name = "label" then .ok { shown with label := some on }
    else match views.find? (·.1 = name) with
      | some (_, set, clear) =>
        let bits := shown.views.getD 0
        .ok { shown with views := some (if on then assign bits set clear else assign bits clear set) }
      | none => .error (.unknownToken "show" token)

def Shown.attributes (shown : Shown) : Attributes :=
  let object := (shown.object.map fun on => ("object".toList, Text.ofBool on)).toList
  let label := (shown.label.map fun on => ("label".toList, Text.ofBool on)).toList
  let views := (shown.views.map fun bits => ("ev".toList, Text.ofNat bits)).toList
  OrderedMap.ofList (object ++ label ++ views)

def decode (value : Text) : Except Cause (Option Attributes) := do
  let shown ← (← Text.tokens value).foldlM token {}
  return PropertyFormat.something shown.attributes

def bitTokens : List (Nat × Text) :=
  [(0, "~ev1"), (1, "ev2"), (2, "3d"), (3, "~3d"), (4, "plane"), (5, "~plane")]

/-- The bits that attributes hold; what is no number holds none. -/
def bitsOf (attrs : Attributes) : Nat :=
  ((attrs.get? "ev").bind fun value => Text.natural32? (Text.trim value)).getD 0

def write (attrs : Attributes) : List Text :=
  let object : List Text := if attrs.isTrue "object" then ["object"] else []
  let label : List Text := if attrs.isTrue "label" then ["label"] else []
  let views := (bitTokens.filter fun (bit, _) => (bitsOf attrs).testBit bit).map Prod.snd
  object ++ label ++ views

def format : PropertyFormat where
  name := "show"
  defaults := defaults
  decode := decode
  encode attrs := Text.nonempty? (Text.words (write attrs))

end StyleScript.Visibility
