import StyleScript.Property.Basic
/-!
# Spreadsheet tracing

The property `spreadsheetTrace`: into which column and rows the values of an object are traced, with its
flags.  The flag `label` is on by default and is written when it is off.
-/
namespace StyleScript.Tracing

/-- The flags in the order in which they are written: token, attribute, default. -/
def flags : List (Text × Text × Bool) :=
  [("trace", "val", false), ("reset", "doColumnReset", false), ("label", "showLabel", true),
   ("list", "showTraceList", false), ("copy", "doTraceGeoCopy", false), ("pause", "pause", false)]

def defaults : Attributes :=
  .table [("val", "false"), ("traceColumn1", "-1"), ("traceRow1", "-1"), ("doRowLimit", "false"),
    ("doColumnReset", "false"), ("showLabel", "true"), ("showTraceList", "false"),
    ("doTraceGeoCopy", "false"), ("pause", "false")]

/-- The attributes set by the value of `row`: a row, and a limit behind a slash. -/
def rows (value : Text) : Except Cause (List (Text × Text)) :=
  match Text.cut? '/' value with
  | some (row, limit) => do
    let row ← Text.truncated "spreadsheetTrace row" row
    let limit ← Text.truncated "spreadsheetTrace row limit" limit
    return [("traceRow1", Text.ofInt row), ("numRows", Text.ofInt limit), ("doRowLimit", "true")]
  | none => do
    let row ← Text.truncated "spreadsheetTrace row" value
    return [("traceRow1", Text.ofInt row)]

def token (token : Text) : Except Cause (List (Text × Text)) :=
  match Text.keyValue? token with
  | some (key, value) =>
    if key = "column" then do
      let column ← Text.truncated "spreadsheetTrace column" value
      return [("traceColumn1", Text.ofInt column)]
    else if key = "row" then rows value
    else .error (.unknownAttribute "spreadsheetTrace" key)
  | none =>
    match Text.negation token with
    | (on, name) =>
      match flags.find? (·.1 = name) with
      | some (_, attr, _) => .ok [(attr, Text.ofBool on)]
      | none => .error (.unknownToken "spreadsheetTrace" token)

def writeRows (attrs : Attributes) : List Text :=
  match attrs.unlessDefault? "traceRow1" "-1" with
  | some row =>
    match (attrs.get? "numRows").filter fun _ => attrs.isTrue "doRowLimit" with
    | some limit => ["row=" ++ row ++ "/" ++ limit]
    | none => ["row=" ++ row]
  | none => []

def write (attrs : Attributes) : List Text :=
  let trace : List Text := if attrs.isTrue "val" then ["trace"] else []
  let column := ((attrs.unlessDefault? "traceColumn1" "-1").map fun (v : Text) => "column=" ++ v).toList
  let others := (flags.drop 1).filter fun (_, attr, default) =>
    attrs.get? attr = some (Text.ofBool (!default))
  trace ++ column ++ writeRows attrs ++
    others.map fun (token, _, default) => if default then '~' :: token else token

def format : PropertyFormat where
  name := "spreadsheetTrace"
  defaults := defaults
  decode := PropertyFormat.readTokens token
  encode attrs := Text.nonempty? (Text.words (write attrs))
  reset := some .spreadsheetTrace

end StyleScript.Tracing
