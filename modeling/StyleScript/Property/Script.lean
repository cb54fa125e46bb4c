import StyleScript.Property.Basic
/-!
# Scripts, listeners and the random flag

A script is one text that goes straight into a slot of the host and not through its elements.  So does the
flag `random`, which marks an object that is drawn anew on every computation.
-/
namespace StyleScript

structure ScriptProperty where
  name : Text
  slot : ScriptSlot
  reset : Resettable
  element : Text := name

namespace ScriptProperty

/-- The script run on a click, under one of its names. -/
def click (name : Text) : ScriptProperty where
  name := name
  slot := .click
  reset := .clickScript
  element := "javascript"

def update : ScriptProperty := { name := "jsUpdate", slot := .update, reset := .updateScript }

def drag : ScriptProperty := { name := "jsDrag", slot := .drag, reset := .dragScript }

def updateListener : ScriptProperty :=
  { name := "jsUpdateFunction", slot := .updateListener, reset := .updateListener }

def clickListener : ScriptProperty :=
  { name := "jsClickFunction", slot := .clickListener, reset := .clickListener }

def format (property : ScriptProperty) : PropertyFormat where
  name := property.name
  element := property.element
  defaults := .table [("val", "")]
  decode value := do return some (OrderedMap.ofList [("val", ← Text.scalar value)])
  encode attrs := ((attrs.get? "val").bind Text.nonempty?).map Text.quoteIfNeeded
  routes attrs := ((attrs.get? "val").map (Route.script property.slot)).toList
  reset := some property.reset

end ScriptProperty

namespace RandomFlag

def decode (value : Text) : Except Cause (Option Attributes) := do
  let word ← Text.scalar value
  if word = [] || word = "true" then return some (.table [("val", "true")])
  else if word = "false" then return some (.table [("val", "false")])
  else .error (.notTrueOrFalse "random" word)

def format : PropertyFormat where
  name := "random"
  defaults := .table [("val", "false")]
  decode := decode
  encode attrs := if attrs.isTrue "val" then some [] else none
  routes attrs := [.random (attrs.isTrue "val")]

end RandomFlag
end StyleScript
