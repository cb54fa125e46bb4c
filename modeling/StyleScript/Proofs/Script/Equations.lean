import StyleScript.Script.Reader
/-!
# What the repeating readers do

The readers that repeat recurse on how much is left of a script.  Their equations say what one round does and
hide the proof that the rounds end.  The reader of macros is long, and what it reads between the braces has a name of
its own here (`inside`).
-/
namespace StyleScript.Script

open Cursor

theorem entries_eq (opened : Position) (c : Cursor) :
    entries opened c =
      match c.skipSeparators.eat? '}' with
      | some d => .ok ([], d)
      | none =>
        if c.skipSeparators.atEnd then .error (.located .unterminatedSheet opened)
        else (do
          let (e, d) ← entry c.skipSeparators
          if d.skipInline.atLineEnd || d.skipInline.peek = some '}' then
            let (more, d) ← entries opened d.skipInline
            return (e :: more, d)
          else .error (d.skipInline.fault (.entryEndExpected d.skipInline.peek))) := by
  rw [entries]
  cases c.skipSeparators.eat? '}' with
  | some d => rfl
  | none =>
    simp only
    split
    · rfl
    · split <;> next k => rw [k]; rfl

theorem flags_eq (sofar : Flags) (c : Cursor) :
    flags sofar c =
      match c.eat? '*' with
      | some d => flags { sofar with object := false } d.skipInline
      | none =>
        match c.eat? '~' with
        | some d => flags { sofar with label := false } d.skipInline
        | none => (sofar, c) := by
  rw [flags]
  split
  · next h => rw [h]
  · next h =>
    rw [h]
    split <;> next k => rw [k]

theorem styleRefs_eq (c : Cursor) :
    styleRefs c = do
      match ← styleRef? c with
      | none => return ([], c)
      | some (s, d) =>
        let (more, d) ← styleRefs d.skipInline
        return (s :: more, d) := by
  rw [styleRefs]
  split <;> next h => rw [h]; rfl

theorem targets_eq (c : Cursor) :
    targets c = do
      let ((t, styles), d) ← target c
      match d.eat? ',' with
      | none => return (([t], styles), d)
      | some e =>
        let ((more, moreStyles), d) ← targets e.skipInline
        return ((t :: more, styles ++ moreStyles), d) := by
  rw [targets]
  split
  · next h => rw [h]; rfl
  · next h =>
    rw [h]
    split
    · next k =>
      simp only [bind, Except.bind, k]
      rfl
    · next k => simp only [bind, Except.bind, k]

theorem labels_eq (c : Cursor) :
    labels c = do
      let (name, d) ← c.label
      match d.skipInline.eat? ',' with
      | none => return ([name], d.skipInline)
      | some e =>
        let (more, d) ← labels e.skipInline
        return (name :: more, d) := by
  rw [labels]
  split
  · next h => rw [h]; rfl
  · next h =>
    rw [h]
    split
    · next k =>
      simp only [bind, Except.bind, k]
      rfl
    · next k => simp only [bind, Except.bind, k]

theorem macroSteps_eq (name : Text) (c : Cursor) :
    macroSteps name c =
      if c.skipSeparators.atEnd || c.skipSeparators.peek = some '}' then
        .error (c.skipSeparators.fault (.returnMissing name))
      else match c.skipSeparators.pass? "@@" with
        | some d =>
          match d.word? "return" with
          | some d => .ok ([], d)
          | none =>
            if (d.word? "macro").isSome then .error (c.skipSeparators.fault (.macroInMacro name))
            else .error (d.fault .returnWordExpected)
        | none => do
          let (s, d) ← step c.skipSeparators
          let (more, d) ← macroSteps name d
          return (s :: more, d) := by
  rw [macroSteps]
  split
  · rfl
  · cases c.skipSeparators.pass? "@@" with
    | some d => rfl
    | none =>
      simp only
      split <;> next k => rw [k]; rfl

theorem items_eq (c : Cursor) :
    items c =
      if c.skipSeparators.atEnd then .ok []
      else if c.skipSeparators.peek = some '}' then .error (c.skipSeparators.fault .unexpectedBrace)
      else do
        let (i, d) ← item c.skipSeparators
        return i :: (← items d) := by
  rw [items]
  split
  · rfl
  · split
    · rfl
    · split <;> next h => rw [h]; rfl

/-- What is inside of a macro: its steps, and behind the word `return` its outputs. -/
def inside (name : Text) (c : Cursor) : Except Fault ((List Step × List Text) × Cursor) := do
  let (steps, d) ← macroSteps name c
  let (outputs, e) ← labelList '}' d.skipInline
  return ((steps, outputs), e)

theorem inside_bind {α : Type} (name : Text) (c : Cursor) (f : (List Step × List Text) × Cursor → Except Fault α) :
    (inside name c >>= f) =
      macroSteps name c >>= fun steps => labelList '}' steps.2.skipInline >>= fun outputs =>
        f ((steps.1, outputs.1), outputs.2) := by
  unfold inside
  rw [bind_assoc]
  refine bind_congr fun steps => ?_
  rw [bind_assoc]
  exact bind_congr fun outputs => pure_bind ..

theorem macroBlock_eq (position : Position) (c : Cursor) :
    macroBlock position c =
      match c.skipInline.name? with
      | none => .error (c.skipInline.fault .macroNameExpected)
      | some (name, d) => (do
        let (inputs, d) ← labelList ')' (← d.skipInline.expect '(' (.afterMacroName name))
        let d ← d.expect ')' .parametersEnd
        let opened ← d.skipBlank.expect '{' (.macroStart name)
        let ((body, outputs), ended) ← inside name opened
        if outputs.isEmpty then .error (ended.fault (.outputsMissing name))
        else match ended.skipSeparators.eat? '}' with
          | some d => return (⟨name, inputs, outputs, body, Text.trim (opened.upTo ended), position⟩, d)
          | none => .error (ended.skipSeparators.fault (.macroEndExpected name ended.skipSeparators.peek))) := by
  rw [macroBlock]
  cases c.skipInline.name? with
  | none => rfl
  | some p =>
    refine bind_congr fun d => bind_congr fun inputs => bind_congr fun e => bind_congr fun opened => ?_
    symm
    exact inside_bind p.1 opened _

end StyleScript.Script
