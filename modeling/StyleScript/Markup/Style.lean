import StyleScript.Markup.Collector
/-!
# Reading an object's style

The elements of a style are the children of the first tag `element`, at whatever depth that stands; without
such a tag they are the tags of the outermost level.  Deeper tags say nothing.  Attributes are read only of
the tags that may count.
-/
namespace StyleScript.Markup

/-- The name of the tag around a style. -/
def wrapper : Text := "element"

/-- Where the reader of a style stands: how many tags are open, how many were open outside of the wrapper
while that is open, whether a wrapper was met, and what was collected inside of it and without one. -/
structure Walk where
  depth : Nat := 0
  wrapperDepth : Option Nat := none
  wrapperSeen : Bool := false
  wrapped : Collector := {}
  bare : Collector := {}

namespace Walk

/-- Whether the present tag is the first wrapper. -/
def meetsWrapper (w : Walk) (name : Text) : Bool := name = wrapper && !w.wrapperSeen

/-- Whether the present tag is a child of the wrapper. -/
def inWrapper (w : Walk) : Bool := w.wrapperDepth.any fun d => w.depth = d + 1

def collect (w : Walk) (name : Text) (attrs : Except Cause (List (Text × Text))) : Except Cause Walk :=
  if w.inWrapper then attrs.map fun a => { w with wrapped := w.wrapped.add name (OrderedMap.ofList a) }
  else if w.depth = 0 then attrs.map fun a => { w with bare := w.bare.add name (OrderedMap.ofList a) }
  else .ok w

def step (w : Walk) : Event → Except Cause Walk
  | .opening name attrs =>
    if w.meetsWrapper name then
      .ok { w with wrapperSeen := true, wrapperDepth := some w.depth, depth := w.depth + 1 }
    else (w.collect name attrs).map fun w => { w with depth := w.depth + 1 }
  | .single name attrs =>
    if w.meetsWrapper name then .ok { w with wrapperSeen := true } else w.collect name attrs
  | .closing _ =>
    let depth := w.depth - 1
    .ok { w with depth := depth, wrapperDepth := w.wrapperDepth.filter (· ≠ depth) }
  | .other => .ok w

/-- The style that was met, once all tags are closed. -/
def finish (w : Walk) : Except Cause StyleMap :=
  if w.depth ≠ 0 then .error .markupEnd
  else .ok (if w.wrapperSeen then w.wrapped.finish else w.bare.finish)

end Walk

def styleOf (events : List Event) : Except Cause StyleMap := do
  Walk.finish (← events.foldlM Walk.step {})

/-- The style told by a text.  A failure of a tag comes before the failure of what follows it. -/
def readStyle (text : Text) : Except Cause StyleMap := do
  let (events, failure) := events text
  let w ← events.foldlM Walk.step {}
  match failure with
  | some cause => .error cause
  | none => w.finish

end StyleScript.Markup
