import StyleScript.Proofs.Script.Equations
/-!
# The macros of a script

A macro is read part by part (`macroBlock_eq_ok`): its name, its inputs in brackets, and what is `inside` of the
braces, its steps and its outputs, of which there is at least one.  Its source is what stands between the brace that
opens it and the end of its outputs.  Among the items of a script it is the one behind the mark `@@` (`ItemFrom`).
-/
namespace StyleScript.Script

/-- What a macro is read from: the cursors between its parts. -/
theorem macroBlock_eq_ok {position : Position} {c d : Cursor} {block : MacroBlock}
    (h : macroBlock position c = .ok (block, d)) :
    ∃ named inner listed closed opened ended,
      c.skipInline.name? = some (block.name, named) ∧
      named.skipInline.expect '(' (.afterMacroName block.name) = .ok inner ∧
      labelList ')' inner = .ok (block.inputs, listed) ∧
      listed.expect ')' .parametersEnd = .ok closed ∧
      closed.skipBlank.expect '{' (.macroStart block.name) = .ok opened ∧
      inside block.name opened = .ok ((block.body, block.outputs), ended) ∧
      block.outputs ≠ [] ∧ ended.skipSeparators.eat? '}' = some d ∧
      block.source = Text.trim (opened.upTo ended) ∧ block.position = position := by
  rw [macroBlock_eq] at h
  split at h
  · cases h
  · next name named hname =>
    simp only [bind_eq_ok, Prod.exists] at h
    obtain ⟨inner, hinner, inputs, listed, hlisted, closed, hclosed, opened, hopened, body, outputs, ended, hinside, h⟩ := h
    split at h
    · cases h
    · next hsome =>
      split at h
      · next hbrace =>
        simp only [pure_eq_ok, Prod.mk.injEq] at h
        obtain ⟨rfl, rfl⟩ := h
        exact ⟨named, inner, listed, closed, opened, ended, hname, hinner, hlisted, hclosed, hopened, hinside,
          mt List.isEmpty_iff.2 hsome, hbrace, rfl, rfl⟩
      · cases h

/-- What an item is read from: its kind is told by the marks in front of it. -/
inductive ItemFrom (c : Cursor) : Item → Cursor → Prop
  | macroBlock {marked named d : Cursor} {block : MacroBlock} (hmark : c.pass? "@@" = some marked)
    (hword : marked.word? "macro" = some named) (hblock : macroBlock c.position named = .ok (block, d)) :
    ItemFrom c (.macroBlock block) d
  | sheet {marked d : Cursor} {definition : SheetDef} (hnone : c.pass? "@@" = none) (hmark : c.eat? '@' = some marked)
    (hsheet : sheetDef c.position marked = .ok (definition, d)) : ItemFrom c (.step (.sheet definition)) d
  | statement {d : Cursor} {s : Statement} (hnone : c.pass? "@@" = none) (hmark : c.eat? '@' = none)
    (hstatement : statement c.position c = .ok (s, d)) : ItemFrom c (.step (.statement s)) d

theorem itemFrom_of_item {c d : Cursor} {i : Item} (h : item c = .ok (i, d)) : ItemFrom c i d := by
  unfold item at h
  split at h
  · next marked hmark =>
    split at h
    · next named hword =>
      simp only [bind_eq_ok, pure_eq_ok, Prod.exists, Prod.mk.injEq] at h
      obtain ⟨block, d, hblock, rfl, rfl⟩ := h
      exact .macroBlock hmark hword hblock
    · split at h <;> cases h
  · next hnone =>
    simp only [bind_eq_ok, pure_eq_ok, Prod.exists, Prod.mk.injEq] at h
    obtain ⟨s, d, hstep, rfl, rfl⟩ := h
    unfold step at hstep
    split at hstep
    · next marked hmark =>
      simp only [bind_eq_ok, pure_eq_ok, Prod.exists, Prod.mk.injEq] at hstep
      obtain ⟨definition, d, hsheet, rfl, rfl⟩ := hstep
      exact .sheet hnone hmark hsheet
    · next hmark =>
      simp only [bind_eq_ok, pure_eq_ok, Prod.exists, Prod.mk.injEq] at hstep
      obtain ⟨s, d, hstatement, rfl, rfl⟩ := hstep
      exact .statement hnone hmark hstatement

theorem macroBlock_of_items {block : MacroBlock} (c : Cursor) {is : List Item} (h : items c = .ok is)
    (hmem : .macroBlock block ∈ is) : ∃ position d e, macroBlock position d = .ok (block, e) := by
  rw [items_eq] at h
  split at h
  · cases h
    cases hmem
  · split at h
    · cases h
    · simp only [bind_eq_ok, pure_eq_ok, Prod.exists] at h
      obtain ⟨i, d, hitem, more, hmore, rfl⟩ := h
      rcases List.mem_cons.1 hmem with rfl | hmem
      · cases itemFrom_of_item hitem with
        | macroBlock _ _ hblock => exact ⟨_, _, d, hblock⟩
      · have : d.size < c.size := Nat.lt_of_lt_of_le (item_size_lt hitem) (Cursor.skipSeparators_size_le c)
        exact macroBlock_of_items d hmore hmem
termination_by c.size

/-- A macro of a script that can be read. -/
def HasMacro (text : Text) (block : MacroBlock) : Prop := ∃ is, read text = .ok is ∧ .macroBlock block ∈ is

theorem HasMacro.macroBlock {text : Text} {block : MacroBlock} (h : HasMacro text block) :
    ∃ position c d, macroBlock position c = .ok (block, d) := by
  obtain ⟨is, hread, hmem⟩ := h
  exact macroBlock_of_items _ hread hmem

theorem HasMacro.outputs_ne_nil {text : Text} {block : MacroBlock} (h : HasMacro text block) : block.outputs ≠ [] := by
  obtain ⟨position, c, d, hblock⟩ := h.macroBlock
  obtain ⟨-, -, -, -, -, -, -, -, -, -, -, -, hsome, -⟩ := macroBlock_eq_ok hblock
  exact hsome

end StyleScript.Script
