import StyleScript.Text.Basic
/-!
# Settings

What may be chosen about reading and writing scripts.
-/
namespace StyleScript

structure Settings where
  /-- Unknown properties are refused, and elements without a format are left out. -/
  strictProperties : Bool := false
  /-- Equal styles of a construction share one sheet. -/
  mergeStyleSheets : Bool := true
  /-- How the name of a shared sheet begins. -/
  sheetLead : Text := "style"
  /-- How the name of a sheet of one object ends. -/
  labelSheetEnding : Text := "Style"
  /-- Statements are put in an order in which labels come before they are referred to. -/
  topologicalOrder : Bool := true
  deriving DecidableEq

end StyleScript
