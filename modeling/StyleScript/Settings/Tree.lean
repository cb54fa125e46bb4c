import StyleScript.Settings.Basic
/-!
# Settings in a file

A settings file, in whatever notation, is a tree.  Its settings are a table from names to values, or a list
of values in the order of the settings where the notation allows that.  A notation also tells which of its
leaves are flags and which are texts.  Names that are no setting are passed over, whatever stands there, and
no setting is given twice.
-/
namespace StyleScript.Settings

/-! ## Trees -/

/-- A file's content, over the leaves of its notation. -/
inductive Tree (Leaf : Type) where
  | leaf (value : Leaf)
  | list (items : List (Tree Leaf))
  | table (entries : List (Tree Leaf × Tree Leaf))

inductive Tree.Event (Leaf : Type) where
  | leaf (value : Leaf)
  | openList
  | openTable
  | close

/-- A list or a table that is still open, its latest part first; in a table also a name that waits for its
value. -/
inductive Tree.Partial (Leaf : Type) where
  | list (items : List (Tree Leaf))
  | table (entries : List (Tree Leaf × Tree Leaf)) (name : Option (Tree Leaf))

namespace Tree

variable {Leaf : Type}

def Partial.add (tree : Tree Leaf) : Partial Leaf → Partial Leaf
  | .list items => .list (tree :: items)
  | .table entries none => .table entries (some tree)
  | .table entries (some name) => .table ((name, tree) :: entries) none

def Partial.closed : Partial Leaf → Tree Leaf
  | .list items => .list items.reverse
  | .table entries _ => .table entries.reverse

/-- The tree that a whole row of events makes, inside what is open. -/
def ofEvents? : List (Partial Leaf) → List (Event Leaf) → Option (Tree Leaf)
  | _, [] => none
  | outer, .openList :: rest => ofEvents? (.list [] :: outer) rest
  | outer, .openTable :: rest => ofEvents? (.table [] none :: outer) rest
  | [], .leaf value :: rest => if rest.isEmpty then some (.leaf value) else none
  | inner :: outer, .leaf value :: rest => ofEvents? (inner.add (.leaf value) :: outer) rest
  | [], .close :: _ => none
  | [inner], .close :: rest => if rest.isEmpty then some inner.closed else none
  | inner :: next :: outer, .close :: rest => ofEvents? (next.add inner.closed :: outer) rest

end Tree

/-! ## The settings of a tree -/

inductive Key where
  | strictProperties
  | mergeStyleSheets
  | sheetLead
  | labelSheetEnding
  | topologicalOrder
  deriving DecidableEq

namespace Key

/-- The settings in the order in which a list gives them. -/
def all : List Key := [strictProperties, mergeStyleSheets, sheetLead, labelSheetEnding, topologicalOrder]

def name : Key → Text
  | strictProperties => "strict_properties"
  | mergeStyleSheets => "merge_style_sheets"
  | sheetLead => "sheet_prefix"
  | labelSheetEnding => "label_sheet_suffix"
  | topologicalOrder => "topological_order"

end Key

structure Spelling (Leaf : Type) where
  flag? : Leaf → Option Bool
  text? : Leaf → Option Text

namespace Spelling

variable {Leaf : Type}

/-- The settings with one of them chosen anew, if the value is of its kind. -/
def assign? (how : Spelling Leaf) (settings : Settings) : Key → Tree Leaf → Option Settings
  | .strictProperties, .leaf a => (how.flag? a).map fun b => { settings with strictProperties := b }
  | .mergeStyleSheets, .leaf a => (how.flag? a).map fun b => { settings with mergeStyleSheets := b }
  | .sheetLead, .leaf a => (how.text? a).map fun t => { settings with sheetLead := t }
  | .labelSheetEnding, .leaf a => (how.text? a).map fun t => { settings with labelSheetEnding := t }
  | .topologicalOrder, .leaf a => (how.flag? a).map fun b => { settings with topologicalOrder := b }
  | _, _ => none

def ofList? (how : Spelling Leaf) : List Key → Settings → List (Tree Leaf) → Option Settings
  | _, settings, [] => some settings
  | [], _, _ :: _ => none
  | key :: more, settings, value :: rest =>
    (how.assign? settings key value).bind fun settings => how.ofList? more settings rest

/-- The settings that a table gives by name, after those in `seen`. -/
def ofTable? (how : Spelling Leaf) :
    List Key → Settings → List (Tree Leaf × Tree Leaf) → Option Settings
  | _, settings, [] => some settings
  | seen, settings, (.leaf a, value) :: rest =>
    (how.text? a).bind fun name =>
      match Key.all.find? fun key => key.name = name with
      | none => how.ofTable? seen settings rest
      | some key =>
        if seen.contains key then none
        else (how.assign? settings key value).bind fun settings => how.ofTable? (key :: seen) settings rest
  | _, _, _ :: _ => none

end Spelling
end StyleScript.Settings
