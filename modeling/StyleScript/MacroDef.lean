import StyleScript.StyleSheet
import StyleScript.Script.Item
/-!
# Macro definitions

A macro keeps what its body would create, with the styles already merged, and the sheets it defines.  Every
input and every output must be a label that the body assigns.
-/
namespace StyleScript

/-- A statement of a macro, with its merged style if it has one. -/
structure MacroStatement where
  creation : Creation
  style : Option StyleSheet
  deriving DecidableEq

structure MacroDef where
  name : Text
  inputs : List Text
  outputs : List Text
  statements : List MacroStatement
  /-- The sheets defined in the body, in order. -/
  sheets : List StyleSheet
  /-- The body as written, without the braces. -/
  source : Text
  deriving DecidableEq

namespace MacroDef

/-- The labels that the body assigns, with repetitions. -/
def assigned (m : MacroDef) : List Text :=
  m.statements.flatMap fun s => s.creation.targets.map (·.name)

/-- The first input that is not assigned, or else the first such output, is refused. -/
def validate (m : MacroDef) : Except Cause Unit :=
  match m.inputs.find? (!m.assigned.contains ·) with
  | some label => .error (.inputNotAssigned label m.name)
  | none =>
    match m.outputs.find? (!m.assigned.contains ·) with
    | some label => .error (.outputNotAssigned label m.name)
    | none => .ok ()

theorem validate_eq_ok {m : MacroDef} :
    m.validate = .ok () ↔
      (∀ l ∈ m.inputs, l ∈ m.assigned) ∧ ∀ l ∈ m.outputs, l ∈ m.assigned := by
  unfold validate
  split
  · next h =>
    simp only [reduceCtorEq, false_iff, not_and]
    have := List.mem_of_find?_eq_some h
    have := List.find?_some h
    intro hall
    simp_all
  · next h =>
    split
    · next k =>
      simp only [reduceCtorEq, false_iff, not_and]
      have := List.mem_of_find?_eq_some k
      have := List.find?_some k
      intro _ hall
      simp_all
    · next k => simp_all

end MacroDef

inductive Refusal where
  | exists (name : Text)
  | rejected (reason : Text)
  deriving DecidableEq

def Refusal.message : Refusal → Text
  | .exists name => "macro '" ++ name ++ "' already exists"
  | .rejected reason => reason

end StyleScript
