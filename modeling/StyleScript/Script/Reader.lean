import StyleScript.Script.Cursor
import StyleScript.Script.Item
/-!
# Reading a script

Each reader takes a cursor and answers what it read and the cursor behind it, or the first failure.  The
repeating ones end because every round moves the cursor on; what each reader leaves is stated beside it.
-/
namespace StyleScript.Script

open Cursor

/-! ## Style sheets -/

/-- The name of a property: a name, or `@` and a name. -/
def propertyName (c : Cursor) : Except Fault (Text × Cursor) :=
  match c.eat? '@' with
  | some c =>
    match c.name? with
    | some (name, d) => .ok ('@' :: name, d)
    | none => .error (c.fault .screenNameExpected)
  | none =>
    match c.name? with
    | some result => .ok result
    | none => .error (c.fault (.propertyNameExpected c.peek))

/-- The value behind the name of a property: raw text behind `:`, else the empty text. -/
def entryValue (c : Cursor) : Except Fault (Text × Cursor) :=
  match c.eat? ':' with
  | some c => c.skipInline.raw (· = '}')
  | none => .ok ([], c)

def entry (c : Cursor) : Except Fault (Entry × Cursor) :=
  match c.eat? '~' with
  | some d => do
    let (name, d) ← propertyName d.skipInline
    return (⟨name, .reset, c.position⟩, d)
  | none => do
    let (name, d) ← propertyName c
    let (value, d) ← entryValue d.skipInline
    return (⟨name, .set value, c.position⟩, d)

theorem propertyName_size_lt {c d : Cursor} {name : Text} (h : propertyName c = .ok (name, d)) :
    d.size < c.size := by
  unfold propertyName at h
  split at h
  · next he =>
    split at h
    · next hn =>
      simp only [Except.ok.injEq, Prod.mk.injEq] at h
      exact Nat.lt_trans (h.2 ▸ name?_size_lt hn) (eat?_size_lt he)
    · simp at h
  · split at h
    · next hn =>
      simp only [Except.ok.injEq] at h
      exact name?_size_lt (h ▸ hn)
    · simp at h

theorem entryValue_size_le {c d : Cursor} {value : Text} (h : entryValue c = .ok (value, d)) :
    d.size ≤ c.size := by
  unfold entryValue at h
  split at h
  · next e he =>
    have := raw_size_le h
    have := skipInline_size_le e
    have := eat?_size_lt he
    omega
  · simp only [Except.ok.injEq, Prod.mk.injEq] at h
    simp [← h.2]

theorem entry_size_lt {c d : Cursor} {e : Entry} (h : entry c = .ok (e, d)) : d.size < c.size := by
  unfold entry at h
  split at h
  · next b hb =>
    simp only [bind_eq_ok, pure_eq_ok, Prod.exists, Prod.mk.injEq] at h
    obtain ⟨name, d', hn, _, rfl⟩ := h
    have := propertyName_size_lt hn
    have := skipInline_size_le b
    have := eat?_size_lt hb
    omega
  · simp only [bind_eq_ok, pure_eq_ok, Prod.exists, Prod.mk.injEq] at h
    obtain ⟨name, b, hn, value, d', hv, _, rfl⟩ := h
    have := propertyName_size_lt hn
    have := skipInline_size_le b
    have := entryValue_size_le hv
    omega

set_option linter.unusedVariables false in
/-- The entries up to the closing brace of a sheet that was opened at `opened`. -/
def entries (opened : Position) (c : Cursor) : Except Fault (List Entry × Cursor) :=
  match c.skipSeparators.eat? '}' with
  | some d => .ok ([], d)
  | none =>
    if c.skipSeparators.atEnd then .error (.located .unterminatedSheet opened)
    else match h : entry c.skipSeparators with
      | .error fault => .error fault
      | .ok (e, d) =>
        if d.skipInline.atLineEnd || d.skipInline.peek = some '}' then do
          let (more, d) ← entries opened d.skipInline
          return (e :: more, d)
        else .error (d.skipInline.fault (.entryEndExpected d.skipInline.peek))
termination_by c.size
decreasing_by
  have := entry_size_lt h
  have := skipInline_size_le d
  have := skipSeparators_size_le c
  omega

def sheetBody (c : Cursor) : Except Fault (List Entry × Cursor) := do
  entries c.position (← c.expect '{' .sheetStart)

theorem entries_size_lt {opened : Position} {c d : Cursor} {es : List Entry}
    (h : entries opened c = .ok (es, d)) : d.size < c.size := by
  fun_induction entries opened c generalizing es d with
  | case1 c e he =>
    simp only [Except.ok.injEq, Prod.mk.injEq] at h
    have := eat?_size_lt he
    have := skipSeparators_size_le c
    simp only [← h.2]
    omega
  | case2 => simp at h
  | case3 => simp at h
  | case4 c _ _ e b hb _ ih =>
    simp only [bind_eq_ok, pure_eq_ok, Prod.exists, Prod.mk.injEq] at h
    obtain ⟨more, d', hd, _, rfl⟩ := h
    have := ih hd
    have := entry_size_lt hb
    have := skipInline_size_le b
    have := skipSeparators_size_le c
    omega
  | case5 => simp at h

theorem sheetBody_size_lt {c d : Cursor} {es : List Entry} (h : sheetBody c = .ok (es, d)) :
    d.size < c.size := by
  simp only [sheetBody, bind_eq_ok] at h
  obtain ⟨b, hb, h⟩ := h
  exact Nat.lt_trans (entries_size_lt h) (expect_size_lt hb)

def sheetDef (position : Position) (c : Cursor) : Except Fault (SheetDef × Cursor) :=
  match c.name? with
  | none => .error (c.fault .sheetNameExpected)
  | some (name, c) => do
    let c ← c.skipInline.expect '=' (.afterSheetName name)
    if c.skipInline.peek = some '{' then
      let (es, d) ← sheetBody c.skipInline
      return (⟨name, es, position⟩, d)
    else .error (c.skipInline.fault (.sheetBodyExpected name c.skipInline.peek))

theorem sheetDef_size_lt {position : Position} {c d : Cursor} {s : SheetDef}
    (h : sheetDef position c = .ok (s, d)) : d.size < c.size := by
  unfold sheetDef at h
  split at h
  · simp at h
  · next name b hb =>
    simp only [bind_eq_ok] at h
    obtain ⟨e, he, h⟩ := h
    split at h
    · simp only [bind_eq_ok, pure_eq_ok, Prod.exists, Prod.mk.injEq] at h
      obtain ⟨es, d', hs, _, rfl⟩ := h
      have := name?_size_lt hb
      have := skipInline_size_le b
      have := expect_size_lt he
      have := skipInline_size_le e
      have := sheetBody_size_lt hs
      omega
    · simp at h

/-! ## Statements -/

set_option linter.unusedVariables false in
/-- The flags behind a label, on top of those read before. -/
def flags (sofar : Flags) (c : Cursor) : Flags × Cursor :=
  match h : c.eat? '*' with
  | some d => flags { sofar with object := false } d.skipInline
  | none =>
    match k : c.eat? '~' with
    | some d => flags { sofar with label := false } d.skipInline
    | none => (sofar, c)
termination_by c.size
decreasing_by
  · have := eat?_size_lt h
    have := skipInline_size_le d
    omega
  · have := eat?_size_lt k
    have := skipInline_size_le d
    omega

theorem flags_size_le (sofar : Flags) (c : Cursor) : (flags sofar c).2.size ≤ c.size := by
  fun_induction flags sofar c with
  | case1 sofar c d h ih =>
    have := eat?_size_lt h
    have := skipInline_size_le d
    omega
  | case2 sofar c _ d h ih =>
    have := eat?_size_lt h
    have := skipInline_size_le d
    omega
  | case3 => simp

/-- A style of a statement, if one begins here. -/
def styleRef? (c : Cursor) : Except Fault (Option (StyleRef × Cursor)) :=
  match c.eat? '@' with
  | some d =>
    match d.name? with
    | some (name, d) => .ok (some (.named name c.position, d))
    | none => .error (d.fault .sheetNameExpected)
  | none =>
    if c.peek = some '{' then do
      let (es, d) ← sheetBody c
      return some (.inline es, d)
    else .ok none

theorem styleRef?_size_lt {c d : Cursor} {s : StyleRef} (h : styleRef? c = .ok (some (s, d))) :
    d.size < c.size := by
  unfold styleRef? at h
  split at h
  · next b hb =>
    split at h
    · next hn =>
      simp only [Except.ok.injEq, Option.some.injEq, Prod.mk.injEq] at h
      rw [h.2] at hn
      exact Nat.lt_trans (name?_size_lt hn) (eat?_size_lt hb)
    · simp at h
  · split at h
    · simp only [bind_eq_ok, pure_eq_ok, Prod.exists, Option.some.injEq, Prod.mk.injEq] at h
      obtain ⟨es, d', hs, _, rfl⟩ := h
      exact sheetBody_size_lt hs
    · simp at h

set_option linter.unusedVariables false in
def styleRefs (c : Cursor) : Except Fault (List StyleRef × Cursor) :=
  match h : styleRef? c with
  | .error fault => .error fault
  | .ok none => .ok ([], c)
  | .ok (some (s, d)) => do
    let (more, d) ← styleRefs d.skipInline
    return (s :: more, d)
termination_by c.size
decreasing_by
  have := styleRef?_size_lt h
  have := skipInline_size_le d
  omega

theorem styleRefs_size_le {c d : Cursor} {ss : List StyleRef} (h : styleRefs c = .ok (ss, d)) :
    d.size ≤ c.size := by
  fun_induction styleRefs c generalizing ss d with
  | case1 => simp at h
  | case2 =>
    simp only [Except.ok.injEq, Prod.mk.injEq] at h
    simp [← h.2]
  | case3 c s b hb ih =>
    simp only [bind_eq_ok, pure_eq_ok, Prod.exists, Prod.mk.injEq] at h
    obtain ⟨more, d', hd, _, rfl⟩ := h
    have := ih hd
    have := styleRef?_size_lt hb
    have := skipInline_size_le b
    omega

def target (c : Cursor) : Except Fault ((Target × List StyleRef) × Cursor) := do
  let (name, c) ← c.label
  let (shown, c) := flags {} c.skipInline
  let (styles, c) ← styleRefs c.skipInline
  return ((⟨name, shown⟩, styles), c)

theorem target_size_lt {c d : Cursor} {t : Target × List StyleRef} (h : target c = .ok (t, d)) :
    d.size < c.size := by
  simp only [target, bind_eq_ok, pure_eq_ok, Prod.exists, Prod.mk.injEq] at h
  obtain ⟨name, b, hb, styles, d', hs, _, rfl⟩ := h
  have := label_size_lt hb
  have := skipInline_size_le b
  have := flags_size_le {} b.skipInline
  have := skipInline_size_le (flags {} b.skipInline).2
  have := styleRefs_size_le hs
  omega

set_option linter.unusedVariables false in
/-- The labels of a statement, with the styles of all of them. -/
def targets (c : Cursor) : Except Fault ((List Target × List StyleRef) × Cursor) :=
  match h : target c with
  | .error fault => .error fault
  | .ok ((t, styles), d) =>
    match k : d.eat? ',' with
    | none => .ok (([t], styles), d)
    | some e => do
      let ((more, moreStyles), d) ← targets e.skipInline
      return ((t :: more, styles ++ moreStyles), d)
termination_by c.size
decreasing_by
  have := target_size_lt h
  have := eat?_size_lt k
  have := skipInline_size_le e
  omega

theorem targets_size_lt {c d : Cursor} {t : List Target × List StyleRef} (h : targets c = .ok (t, d)) :
    d.size < c.size := by
  fun_induction targets c generalizing t d with
  | case1 => simp at h
  | case2 c _ _ b hb =>
    simp only [Except.ok.injEq, Prod.mk.injEq] at h
    exact h.2 ▸ target_size_lt hb
  | case3 c _ _ b hb e he ih =>
    simp only [bind_eq_ok, pure_eq_ok, Prod.exists, Prod.mk.injEq] at h
    obtain ⟨more, styles, d', hd, _, rfl⟩ := h
    have := ih hd
    have := target_size_lt hb
    have := eat?_size_lt he
    have := skipInline_size_le e
    omega

def statement (position : Position) (c : Cursor) : Except Fault (Statement × Cursor) := do
  let ((ts, styles), c) ← targets c
  let c ← c.expect '=' .afterLabels
  let (rhs, d) ← c.skipInline.raw fun _ => false
  if rhs.isEmpty then .error (c.skipInline.fault .rightHandSideMissing)
  else return (⟨ts, styles, rhs, position⟩, d)

theorem statement_size_lt {position : Position} {c d : Cursor} {s : Statement}
    (h : statement position c = .ok (s, d)) : d.size < c.size := by
  simp only [statement, bind_eq_ok, Prod.exists] at h
  obtain ⟨ts, ss, b, hb, e, he, rhs, d', hr, h⟩ := h
  split at h
  · simp at h
  · simp only [pure_eq_ok, Prod.mk.injEq] at h
    have := targets_size_lt hb
    have := expect_size_lt he
    have := skipInline_size_le e
    have := raw_size_le hr
    rw [← h.2]
    omega

/-! ## Macros -/

def step (c : Cursor) : Except Fault (Step × Cursor) :=
  match c.eat? '@' with
  | some d => do
    let (definition, d) ← sheetDef c.position d
    return (.sheet definition, d)
  | none => do
    let (s, d) ← statement c.position c
    return (.statement s, d)

theorem step_size_lt {c d : Cursor} {s : Step} (h : step c = .ok (s, d)) : d.size < c.size := by
  unfold step at h
  split at h
  · next b hb =>
    simp only [bind_eq_ok, pure_eq_ok, Prod.exists, Prod.mk.injEq] at h
    obtain ⟨_, d', hs, _, rfl⟩ := h
    exact Nat.lt_trans (sheetDef_size_lt hs) (eat?_size_lt hb)
  · simp only [bind_eq_ok, pure_eq_ok, Prod.exists, Prod.mk.injEq] at h
    obtain ⟨_, d', hs, _, rfl⟩ := h
    exact statement_size_lt hs

set_option linter.unusedVariables false in
/-- At least one label, with commas between them. -/
def labels (c : Cursor) : Except Fault (List Text × Cursor) :=
  match h : c.label with
  | .error fault => .error fault
  | .ok (name, d) =>
    match k : d.skipInline.eat? ',' with
    | none => .ok ([name], d.skipInline)
    | some e => do
      let (more, d) ← labels e.skipInline
      return (name :: more, d)
termination_by c.size
decreasing_by
  have := label_size_lt h
  have := skipInline_size_le d
  have := eat?_size_lt k
  have := skipInline_size_le e
  omega

theorem labels_size_lt {c d : Cursor} {names : List Text} (h : labels c = .ok (names, d)) :
    d.size < c.size := by
  fun_induction labels c generalizing names d with
  | case1 => simp at h
  | case2 c _ b hb =>
    simp only [Except.ok.injEq, Prod.mk.injEq] at h
    have := label_size_lt hb
    have := skipInline_size_le b
    rw [← h.2]
    omega
  | case3 c _ b hb e he ih =>
    simp only [bind_eq_ok, pure_eq_ok, Prod.exists, Prod.mk.injEq] at h
    obtain ⟨more, d', hd, _, rfl⟩ := h
    have := ih hd
    have := label_size_lt hb
    have := skipInline_size_le b
    have := eat?_size_lt he
    have := skipInline_size_le e
    omega

/-- Labels up to the end of the line or to `close`; there may be none. -/
def labelList (close : Char) (c : Cursor) : Except Fault (List Text × Cursor) :=
  if c.skipInline.atLineEnd || c.skipInline.peek = some close then .ok ([], c.skipInline)
  else labels c.skipInline

theorem labelList_size_le {close : Char} {c d : Cursor} {names : List Text}
    (h : labelList close c = .ok (names, d)) : d.size ≤ c.size := by
  unfold labelList at h
  have := skipInline_size_le c
  split at h
  · simp only [Except.ok.injEq, Prod.mk.injEq] at h
    simpa [← h.2]
  · have := labels_size_lt h
    omega

set_option linter.unusedVariables false in
/-- The steps of a macro, and the cursor behind the word `return`. -/
def macroSteps (name : Text) (c : Cursor) : Except Fault (List Step × Cursor) :=
  let c₁ := c.skipSeparators
  if c₁.atEnd || c₁.peek = some '}' then .error (c₁.fault (.returnMissing name))
  else match c₁.pass? "@@" with
    | some d =>
      match d.word? "return" with
      | some d => .ok ([], d)
      | none =>
        if (d.word? "macro").isSome then .error (c₁.fault (.macroInMacro name))
        else .error (d.fault .returnWordExpected)
    | none =>
      match h : step c₁ with
      | .error fault => .error fault
      | .ok (s, d) => do
        let (more, d) ← macroSteps name d
        return (s :: more, d)
termination_by c.size
decreasing_by
  have := step_size_lt h
  have : c₁.size ≤ c.size := skipSeparators_size_le c
  omega

theorem word?_size_le {c d : Cursor} {word : Text} (h : c.word? word = some d) : d.size ≤ c.size := by
  simp only [word?, Option.filter_eq_some_iff] at h
  exact pass?_size_le h.1

theorem macroSteps_size_le {name : Text} {c d : Cursor} {ss : List Step}
    (h : macroSteps name c = .ok (ss, d)) : d.size ≤ c.size := by
  fun_induction macroSteps name c generalizing ss d with
  | case1 => simp at h
  | case2 c _ _ b hb e =>
    rename_i he
    simp only [Except.ok.injEq, Prod.mk.injEq] at h
    have := pass?_size_le (c := c.skipSeparators) hb
    have := word?_size_le he
    have := skipSeparators_size_le c
    rw [← h.2]
    omega
  | case3 => simp at h
  | case4 => simp at h
  | case5 => simp at h
  | case6 c _ _ _ s b hb =>
    rename_i ih
    simp only [bind_eq_ok, pure_eq_ok, Prod.exists, Prod.mk.injEq] at h
    obtain ⟨more, d', hd, _, rfl⟩ := h
    have := ih hd
    have := step_size_lt (c := c.skipSeparators) hb
    have := skipSeparators_size_le c
    omega

def macroBlock (position : Position) (c : Cursor) : Except Fault (MacroBlock × Cursor) :=
  match c.skipInline.name? with
  | none => .error (c.skipInline.fault .macroNameExpected)
  | some (name, c) => do
    let (inputs, c) ← labelList ')' (← c.skipInline.expect '(' (.afterMacroName name))
    let c ← c.expect ')' .parametersEnd
    let opened ← c.skipBlank.expect '{' (.macroStart name)
    let (body, c) ← macroSteps name opened
    let (outputs, ended) ← labelList '}' c.skipInline
    if outputs.isEmpty then .error (ended.fault (.outputsMissing name))
    else match ended.skipSeparators.eat? '}' with
      | some c =>
        return (⟨name, inputs, outputs, body, Text.trim (opened.upTo ended), position⟩, c)
      | none => .error (ended.skipSeparators.fault (.macroEndExpected name ended.skipSeparators.peek))

theorem macroBlock_size_le {position : Position} {c d : Cursor} {b : MacroBlock}
    (h : macroBlock position c = .ok (b, d)) : d.size ≤ c.size := by
  unfold macroBlock at h
  split at h
  · simp at h
  · next name e he =>
    simp only [bind_eq_ok, Prod.exists] at h
    obtain ⟨f, hf, inputs, g, hg, i, hi, opened, ho, body, j, hj, outputs, ended, hl, h⟩ := h
    have := name?_size_lt he
    have := skipInline_size_le c
    have := skipInline_size_le e
    have := expect_size_lt hf
    have := labelList_size_le hg
    have := expect_size_lt hi
    have := skipBlank_size_le i
    have := expect_size_lt ho
    have := macroSteps_size_le hj
    have := skipInline_size_le j
    have := labelList_size_le hl
    have := skipSeparators_size_le ended
    split at h
    · simp at h
    · split at h
      · next hk =>
        simp only [pure_eq_ok, Prod.mk.injEq] at h
        have := eat?_size_lt hk
        rw [← h.2]
        omega
      · simp at h

/-! ## Whole scripts -/

def item (c : Cursor) : Except Fault (Item × Cursor) :=
  match c.pass? "@@" with
  | some d =>
    match d.word? "macro" with
    | some d => do
      let (block, d) ← macroBlock c.position d
      return (.macroBlock block, d)
    | none =>
      if (d.word? "return").isSome then .error (c.fault .returnOutsideMacro)
      else .error (d.fault .macroWordExpected)
  | none => do
    let (s, d) ← step c
    return (.step s, d)

theorem item_size_lt {c d : Cursor} {i : Item} (h : item c = .ok (i, d)) : d.size < c.size := by
  unfold item at h
  split at h
  · next b hb =>
    split at h
    · next e he =>
      simp only [bind_eq_ok, pure_eq_ok, Prod.exists, Prod.mk.injEq] at h
      obtain ⟨_, d', hm, _, rfl⟩ := h
      have hw := macroBlock_size_le hm
      simp only [word?, pass?, Option.filter_eq_some_iff, Option.map_eq_some_iff,
        Text.after?_eq_some] at he hb
      obtain ⟨l, hl, rfl⟩ := hb
      obtain ⟨⟨m, hm, rfl⟩, _⟩ := he
      simp_all [size, move]
      omega
    · split at h <;> simp at h
  · simp only [bind_eq_ok, pure_eq_ok, Prod.exists, Prod.mk.injEq] at h
    obtain ⟨_, d', hs, _, rfl⟩ := h
    exact step_size_lt hs

set_option linter.unusedVariables false in
def items (c : Cursor) : Except Fault (List Item) :=
  let c₁ := c.skipSeparators
  if c₁.atEnd then .ok []
  else if c₁.peek = some '}' then .error (c₁.fault .unexpectedBrace)
  else match h : item c₁ with
    | .error fault => .error fault
    | .ok (i, d) => do return i :: (← items d)
termination_by c.size
decreasing_by
  have := item_size_lt h
  have : c₁.size ≤ c.size := skipSeparators_size_le c
  omega

def read (text : Text) : Except Fault (List Item) := items (.start text)

end StyleScript.Script
