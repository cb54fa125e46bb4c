import StyleScript.Text.Basic
/-!
# Scanning a text in steps

A scanner looks at the rest of a text, changes its state and says how many characters that takes.  The scan
of a whole text is then a recursion on the text, whatever a step looks at.
-/
namespace StyleScript.Text

variable {State : Type}

/-- The state behind a text.  A step is taken where the `skipped` characters before it end, and takes at
least the character it stands at. -/
def scan? (step : State → Text → Option (State × Nat)) : (skipped : Nat) → State → Text → Option State
  | _, state, [] => some state
  | n + 1, state, _ :: rest => scan? step n state rest
  | 0, state, c :: rest =>
    (step state (c :: rest)).bind fun (state, taken) => scan? step (taken - 1) state rest

end StyleScript.Text
