import StyleScript.Markup.Event
import StyleScript.Property.BarTag
/-!
# Collecting an object's style

The elements of a style become attributes under the names of their tags.  Two families are gathered and
flattened: start points by their number, and the tags of a chart by their bar.  Start points count from
zero without a gap; what comes behind a gap is dropped.  Start points and bars stand at the end of the map,
in ascending order.
-/
namespace StyleScript.Markup

structure Collector where
  plain : StyleMap := ∅
  corners : OrderedMap Nat Attributes := ∅
  bars : OrderedMap Nat Attributes := ∅

namespace Collector

/-- One more start point; without a number it is the first, and with a wrong one it is passed over. -/
def addCorner (c : Collector) (attrs : Attributes) : Collector :=
  let number := match attrs.get? "number" with
    | some text => Text.natural32? (Text.trim text)
    | none => some 0
  match number with
  | some n => { c with corners := c.corners.set n (attrs.erase "number") }
  | none => c

/-- One more tag of a bar; an incomplete one is passed over. -/
def addTag (c : Collector) (attrs : Attributes) : Collector :=
  match (attrs.get? "barNumber").bind fun text => Text.natural32? (Text.trim text),
      attrs.get? "key", attrs.get? "value" with
  | some bar, some key, some value =>
    { c with bars := c.bars.alter bar fun tags => (tags.getD ∅).set key value }
  | _, _, _ => c

def add (c : Collector) (name : Text) (attrs : Attributes) : Collector :=
  if name = "startPoint" then c.addCorner attrs
  else if name = "tag" then c.addTag attrs
  else { c with plain := c.plain.set name attrs }

/-! ## The style map -/

/-- The components of a color `rgb(r,g,b)` or `rgba(r,g,b,a)`: three bytes, and an alpha. -/
def components? (text : Text) : Option (List Text) := do
  let text := Text.trim text
  let inner ← (Text.after? "rgba(" text).or (Text.after? "rgb(" text)
  let inner ← Text.beforeLast? ')' inner
  let parts := (Text.splitAt ',' inner).map Text.trim
  if (parts.length = 3 ∨ parts.length = 4) ∧ (parts.take 3).all fun p => (Text.natural8? p).isSome then
    some parts
  else none

def barColor (tags : Attributes) : List (Text × Text) :=
  match (tags.get? "barColor").bind components? with
  | some parts => (["r", "g", "b", "alpha"].map String.toList).zip parts
  | none => []

def barAttributes (tags : Attributes) : Attributes :=
  OrderedMap.ofList (barColor tags ++
    BarTag.hostKeys.filterMap fun (attr, key) => (tags.get? key).map fun value => (attr, value))

/-- The members numbered from `n` on, up to the first gap. -/
def upToGap : (n : Nat) → List (Nat × Attributes) → List (Nat × Attributes)
  | _, [] => []
  | n, (number, member) :: rest => if number = n then (number, member) :: upToGap (n + 1) rest else []

def sorted (members : OrderedMap Nat Attributes) : List (Nat × Attributes) :=
  members.pairs.mergeSort fun a b => a.1 ≤ b.1

def flattened (members : List (Nat × Attributes)) : Attributes :=
  members.foldl (fun out (member : Nat × Attributes) => Attributes.flattenInto out member.1 member.2) ∅

/-- The map with an element at its end, unless the element says nothing. -/
def withFamily (map : StyleMap) (name : Text) (attrs : Attributes) : StyleMap :=
  if attrs.isEmpty then map else map.set name attrs

def finish (c : Collector) : StyleMap :=
  let corners := flattened (upToGap 0 (sorted c.corners))
  let bars := flattened ((sorted c.bars).map fun (bar, tags) => (bar, barAttributes tags))
  withFamily (withFamily c.plain "startPoint" corners) "tag" bars

end Collector
end StyleScript.Markup
