import StyleScript.Settings.Yaml.Event
import StyleScript.Settings.Tree
import StyleScript.OrderedMap
/-!
# Documents of YAML

A file holds one document at most, and its settings are a table.

An alias stands for a node that an anchor marks, by way of a number.  A node takes as its number how many
names are in use before it, and its name stands for that number from then on.  So a name that marks a second
node leaves its number behind, and the next name may come to share the new one.  An alias has the number of
its name at that place, and means the last node of the whole document that took this number, which may come
later than the alias itself.
-/
namespace StyleScript.Settings.Yaml

/-! ## Anchors -/

/-- A leaf as it was met: a scalar, or the number of the node that is meant. -/
inductive Leaf where
  | scalar (scalar : Scalar)
  | alias (number : Nat)

/-- The anchors of a document up to some place. -/
structure Anchors where
  /-- The number for which each name stands. -/
  numbers : OrderedMap Text Nat := ∅
  /-- The last node of each number; of lists and tables nothing is kept. -/
  nodes : OrderedMap Nat (Option Scalar) := ∅

namespace Anchors

/-- The anchors behind a node, which has an anchor or none. -/
def mark (anchors : Anchors) (name : Option Text) (node : Option Scalar) : Anchors :=
  match name with
  | none => anchors
  | some name =>
    let number := anchors.numbers.size
    ⟨anchors.numbers.set name number, anchors.nodes.set number node⟩

/-- The anchors behind an event, and what is met there; an alias needs a name that is in use. -/
def step? (anchors : Anchors) : Event → Option (Anchors × Tree.Event Leaf)
  | .scalar name scalar => some (anchors.mark name (some scalar), .leaf (.scalar scalar))
  | .openList name => some (anchors.mark name none, .openList)
  | .openTable name => some (anchors.mark name none, .openTable)
  | .close => some (anchors, .close)
  | .alias name => (anchors.numbers.get? name).map fun number => (anchors, .leaf (.alias number))

/-- The anchors behind a row of events, and what is met there. -/
def run? : Anchors → List Event → Option (Anchors × List (Tree.Event Leaf))
  | anchors, [] => some (anchors, [])
  | anchors, event :: rest =>
    (anchors.step? event).bind fun (anchors, first) =>
      (anchors.run? rest).map fun (anchors, later) => (anchors, first :: later)

/-- What is read where something was met, given the anchors of the whole document.  A list or a table that is
meant by an alias is read as an empty list: only scalars are of use to a setting. -/
def read (anchors : Anchors) : Tree.Event Leaf → List (Tree.Event Scalar)
  | .leaf (.scalar scalar) => [.leaf scalar]
  | .leaf (.alias number) =>
    match anchors.nodes.get? number with
    | some (some scalar) => [.leaf scalar]
    | _ => [.openList, .close]
  | .openList => [.openList]
  | .openTable => [.openTable]
  | .close => [.close]

end Anchors

/-- The events with every alias replaced by what it means. -/
def unaliased? (events : List Event) : Option (List (Tree.Event Scalar)) :=
  (Anchors.run? {} events).map fun (anchors, met) => met.flatMap anchors.read

/-! ## Documents -/

/-- Whether only the ends of a document are left. -/
def onlyEnds : List Token → Bool
  | [] => true
  | .documentEnd :: rest => onlyEnds rest
  | _ => false

def treeOf? (handles : List (Text × Text)) (expected : Expected) (tokens : List Token) :
    Option (Tree Scalar) :=
  (tokens.mapM (Token.resolved? (handles ++ usualHandles))).bind fun tokens =>
    (events? [expected] tokens).bind fun (events, left) =>
      if onlyEnds left then (unaliased? events).bind (Tree.ofEvents? []) else none

/-- The document of a file; an absent tree if there is no document. -/
def document? (text : Text) : Option (Option (Tree Scalar)) :=
  (tokens? text).bind fun tokens =>
    match tokens with
    | [] => some none
    | first :: _ =>
      (directives? false [] tokens).bind fun (handles, rest) =>
        match first, rest with
        | _, .documentStart :: rest => (treeOf? handles (.slot .document) rest).map some
        | .version .., _ | .tagHandle .., _ => none
        | _, _ => (treeOf? handles (.node { block := true }) rest).map some

/-! ## Settings -/

/-- Flags are certain plain words, or the same in a literal block with the tag of a flag.  Every scalar is a
text. -/
def spelling : Spelling Scalar where
  flag? scalar :=
    let isFlag := match scalar.style with
      | .plain => true
      | .literal => scalar.tag = some "tag:yaml.org,2002:bool".toList
      | _ => false
    if !isFlag then none
    else if [("true" : Text), "True", "TRUE"].contains scalar.text then some true
    else if [("false" : Text), "False", "FALSE"].contains scalar.text then some false
    else none
  text? scalar := some scalar.text

/-- The settings of a file.  Where nothing is said, all are as usual. -/
def settings? (text : Text) : Option Settings :=
  (document? text).bind fun tree =>
    match tree with
    | none => some {}
    | some (.leaf ⟨[], .plain, _⟩) => some {}
    | some (.table entries) => spelling.ofTable? [] {} entries
    | some _ => none

end StyleScript.Settings.Yaml
