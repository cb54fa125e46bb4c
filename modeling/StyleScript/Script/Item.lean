import StyleScript.Fault
/-!
# The items of a script

A script is a row of items: definitions of style sheets, statements that create objects, and macros whose
bodies hold definitions and statements again.  Values and right-hand sides are kept as raw text; property
formats and the host give them a meaning.

    sheet      @name = { entry; entry }
    statement  label flags style, label flags style = right-hand side
    macro      @@macro Name(labels) { definitions and statements; @@return labels }
-/
namespace StyleScript

/-- Whether an object and its label are shown.  The flag `*` hides the object and `~` the label. -/
structure Flags where
  object : Bool := true
  label : Bool := true
  deriving DecidableEq, Repr

/-- The flags as they are written behind a label. -/
def Flags.text (flags : Flags) : Text :=
  (if flags.object then [] else ['*']) ++ (if flags.label then [] else ['~'])

/-- A label on the left of a statement, with its flags. -/
structure Target where
  name : Text
  flags : Flags
  deriving DecidableEq

def Target.text (target : Target) : Text := target.name ++ target.flags.text

/-- What is to be created: the right-hand side, for some labels. -/
structure Creation where
  targets : List Target
  rhs : Text
  deriving DecidableEq

/-- The names of the labels, with commas between them. -/
def Creation.labelList (creation : Creation) : Text := Text.join ", " (creation.targets.map (·.name))

namespace Script

inductive Action where
  /-- `name: value`, or the bare name with the empty value. -/
  | set (value : Text)
  /-- `~name`. -/
  | reset
  deriving DecidableEq

structure Entry where
  name : Text
  action : Action
  position : Position
  deriving DecidableEq

/-- A style of a statement: a sheet by its name, or the entries of a sheet written in place. -/
inductive StyleRef where
  | named (name : Text) (position : Position)
  | inline (entries : List Entry)
  deriving DecidableEq

structure Statement where
  targets : List Target
  styles : List StyleRef
  rhs : Text
  position : Position
  deriving DecidableEq

def Statement.creation (statement : Statement) : Creation := ⟨statement.targets, statement.rhs⟩

structure SheetDef where
  name : Text
  entries : List Entry
  position : Position
  deriving DecidableEq

/-- What stands at the top of a script as well as in a macro. -/
inductive Step where
  | sheet (definition : SheetDef)
  | statement (statement : Statement)
  deriving DecidableEq

/-- A macro: its steps, and the text of its body without the braces. -/
structure MacroBlock where
  name : Text
  inputs : List Text
  outputs : List Text
  body : List Step
  source : Text
  position : Position
  deriving DecidableEq

inductive Item where
  | step (step : Step)
  | macroBlock (block : MacroBlock)
  deriving DecidableEq

end Script
end StyleScript
