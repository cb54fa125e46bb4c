import StyleScript.Property.Basic
/-!
# Table view

The column of an object in the table view, and whether its points are shown.  Only the first token may be
the column.
-/
namespace StyleScript.TableView

def defaults : Attributes := .table [("column", "-1"), ("points", "true")]

/-- The attribute set by a token that is not the column. -/
def word (otherwise : Text → Except Cause (Text × Text)) (token : Text) : Except Cause (Text × Text) :=
  match Text.negation token with
  | (on, name) => if name = "points" then .ok ("points", Text.ofBool on) else otherwise token

def column (token : Text) : Except Cause (Text × Text) :=
  match Text.integer64? token with
  | some n => .ok ("column", Text.ofInt n)
  | none => .error (.notColumn token)

def settings : List Text → Except Cause (List (Text × Text))
  | [] => .ok []
  | first :: rest => do
    let first ← word column first
    let rest ← rest.mapM (word fun token => .error (.unknownToken "tableview" token))
    return first :: rest

def write (attrs : Attributes) : List Text :=
  let column := ((attrs.unlessDefault? "column" "-1").map Text.truncateText).toList
  let points : List Text := if attrs.get? "points" = some "false".toList then ["~points"] else []
  column ++ points

def format : PropertyFormat where
  name := "tableview"
  defaults := defaults
  decode value := do
    return PropertyFormat.something (OrderedMap.ofList (← settings (← Text.tokens value)))
  encode attrs := Text.nonempty? (Text.words (write attrs))

end StyleScript.TableView
