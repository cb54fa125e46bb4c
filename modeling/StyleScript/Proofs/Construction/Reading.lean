import StyleScript.Proofs.Construction.Names
import StyleScript.Proofs.Script.Statements
/-!
# Constructions read back

What is written of a construction is read as its lines, and its macros as blocks of such lines
(`read_document`).  A line is read in front of the line break behind it, whatever comes after that.  Since a name
is defined once, the sheet that a statement names is the one that is written for it, although equal bodies share
a sheet and the statements are written in another order.
-/
namespace StyleScript.Construction

open Script

/-! ## Bodies and right-hand sides -/

/-- What the entries of a body say, if it is read in full as a sheet in braces. -/
def bodyEntries? (body : Text) : Option (List (Text × Action)) :=
  match sheetBody (.start ('{' :: ' ' :: (body ++ [' ', '}']))) with
  | .ok (es, d) => if d.atEnd then some (es.map Entry.meaning) else none
  | .error _ => none

/-- A text that is read unchanged up to the end of a line, and says something. -/
def IsRightHandSide (rhs : Text) : Prop :=
  rhs ≠ [] ∧ ∃ d, (Cursor.start (rhs ++ ['\n'])).raw (fun _ => false) = .ok (rhs, d)

theorem map_meaning_of_alike {ρ : Position → Position → Prop} {es fs : List Entry}
    (h : List.Forall₂ (Entry.Alike ρ) es fs) : fs.map Entry.meaning = es.map Entry.meaning := by
  induction h with
  | nil => rfl
  | cons hef _ ih => rw [List.map_cons, List.map_cons, ih, Entry.meaning, Entry.meaning, hef.name, hef.action]

/-- A body says the same in front of a line break and whatever comes behind it. -/
theorem sheetBody_of_bodyEntries {body : Text} {said : List (Text × Action)} (h : bodyEntries? body = some said)
    {c : Cursor} {w : Text} (hc : c.rest = '{' :: ' ' :: (body ++ (' ' :: '}' :: '\n' :: w))) :
    ∃ es d, sheetBody c = .ok (es, d) ∧ said = es.map Entry.meaning ∧ d.rest = '\n' :: w := by
  unfold bodyEntries? at h
  generalize hstart : Cursor.start ('{' :: ' ' :: (body ++ [' ', '}'])) = start at h
  have hprolonged : Prolonged (fun _ _ => True) ('\n' :: w) start c := by
    refine ⟨?_, trivial⟩
    rw [hc, ← hstart]
    simp [Cursor.start]
  have hcarried := sheetBody_carried stepping_anywhere (.inr ⟨w, rfl⟩) hprolonged
  cases hread : sheetBody start with
  | error fault => simp [hread] at h
  | ok result =>
    obtain ⟨es, d⟩ := result
    rw [hread] at h hcarried
    obtain ⟨⟨fs, e⟩, hfs, halike, hbehind⟩ := hcarried
    simp only at h
    split at h
    · next hend =>
      refine ⟨fs, e, hfs, ?_, ?_⟩
      · rw [← Option.some.inj h]
        exact (map_meaning_of_alike halike).symm
      · rw [hbehind.rest, List.isEmpty_iff.1 hend]
        rfl
    · cases h

/-! ## Lines -/

def Line.Legible : Line → Prop
  | definition name body => IsName name ∧ (bodyEntries? body).isSome
  | statement p sheet => p.object.labels ≠ [] ∧ (∀ label ∈ p.object.labels, IsLabel label) ∧
      IsRightHandSide p.object.rhs ∧ ∀ name ∈ sheet, IsName name

/-- A statement that says of an object what was written of it: its labels, each with its flags, and its
right-hand side. -/
structure Tells (p : Prepared) (s : Statement) : Prop where
  targets : s.targets = p.object.labels.map (⟨·, p.flags⟩)
  rhs : s.rhs = p.object.rhs

def Line.ReadsAs : Line → Step → Prop
  | definition name body, .sheet d => d.name = name ∧ bodyEntries? body = some (d.entries.map Entry.meaning)
  | statement p sheet, .statement s => Tells p s ∧ ∃ position, s.styles = sheet.toList.map (.named · position)
  | _, _ => False

theorem Line.ReadsAs.sheet {name body : Text} {s : Step} (h : (Line.definition name body).ReadsAs s) :
    ∃ d, s = .sheet d ∧ d.name = name ∧ bodyEntries? body = some (d.entries.map Entry.meaning) := by
  cases s with
  | sheet d => exact ⟨d, rfl, h⟩
  | statement _ => exact h.elim

theorem Line.ReadsAs.statement {p : Prepared} {sheet : Option Text} {s : Step}
    (h : (Line.statement p sheet).ReadsAs s) :
    ∃ t, s = .statement t ∧ Tells p t ∧ ∃ position, t.styles = sheet.toList.map (.named · position) := by
  cases s with
  | sheet _ => exact h.elim
  | statement t => exact ⟨t, rfl, h⟩

theorem text_definition (name body w : Text) : (Line.definition name body).text ++ w =
    '@' :: (name ++ (' ' :: '=' :: ' ' :: '{' :: (' ' :: (body ++ (' ' :: '}' :: w))))) := by
  simp [Line.text, definition_eq]

theorem text_statement (p : Prepared) (sheet : Option Text) (w : Text) : (Line.statement p sheet).text ++ w =
    Text.join ", " ((p.object.labels.map (⟨·, p.flags⟩)).map Target.text) ++
      (styleText sheet ++ (' ' :: '=' :: ' ' :: (p.object.rhs ++ w))) := by
  simp [Line.text, Construction.statement, styleText, List.map_map, Function.comp_def]

theorem isLabel_targets {labels : List Text} (hlabels : ∀ label ∈ labels, IsLabel label) (flags : Flags) :
    ∀ t ∈ labels.map (Target.mk · flags), IsLabel t.name := by
  intro t ht
  obtain ⟨label, hlabel, rfl⟩ := List.mem_map.1 ht
  exact hlabels label hlabel

theorem Line.Legible.beginsStep {line : Line} (h : line.Legible) (w : Text) : BeginsStep (line.text ++ w) := by
  cases line with
  | definition name body =>
    rw [text_definition]
    exact beginsStep_definition h.1 _
  | statement p sheet =>
    obtain ⟨hne, hlabels, -⟩ := h
    rw [text_statement]
    exact beginsStep_targets (by simpa using hne) (isLabel_targets hlabels p.flags) _

/-- **A line is read as it was written**, up to the line break. -/
theorem Line.Legible.step {line : Line} (h : line.Legible) {c : Cursor} {w : Text}
    (hc : c.rest = line.text ++ ('\n' :: w)) :
    ∃ s d, Script.step c = .ok (s, d) ∧ line.ReadsAs s ∧ d.rest = '\n' :: w := by
  cases line with
  | definition name body =>
    obtain ⟨hname, hbody⟩ := h
    obtain ⟨said, hsaid⟩ := Option.isSome_iff_exists.1 hbody
    rw [text_definition] at hc
    obtain ⟨es, d, hes, hmeaning, hd⟩ := step_definition hname (fun b hb => sheetBody_of_bodyEntries hsaid hb) hc
    exact ⟨_, d, hes, ⟨rfl, hmeaning ▸ hsaid⟩, hd⟩
  | statement p sheet =>
    obtain ⟨hne, hlabels, ⟨hsome, hraw⟩, hsheet⟩ := h
    rw [text_statement] at hc
    obtain ⟨q, d, hd, hrest⟩ := step_statement hsheet (by simpa using hne) (isLabel_targets hlabels p.flags)
      (Lexeme.closed_iff.2 hraw) hsome hc
    exact ⟨_, d, hd, ⟨⟨rfl, rfl⟩, q, rfl⟩, hrest⟩

/-- **Lines are read one behind another.** -/
theorem takes_of_lines {indent : Text} (hindent : ∀ x ∈ indent, Lexeme.isSeparator x) {w : Text} :
    ∀ {lines : List Line} {c : Cursor} {lead : Text}, (∀ line ∈ lines, line.Legible) →
    (∀ x ∈ lead, Lexeme.isSeparator x) → c.rest = lead ++ (render indent lines ++ w) →
    ∃ ss d gap, Takes c ss d ∧ List.Forall₂ Line.ReadsAs lines ss ∧ (∀ x ∈ gap, Lexeme.isSeparator x) ∧
      d.rest = gap ++ w
  | [], c, lead, _, hlead, hc => ⟨[], c, lead, .nil c, .nil, hlead, hc⟩
  | line :: lines, c, lead, hlines, hlead, hc => by
    have hc : c.rest = (lead ++ indent) ++ (line.text ++ ('\n' :: (render indent lines ++ w))) := by
      rw [hc]
      simp [render]
    have hline := hlines line List.mem_cons_self
    have hbegins := hline.beginsStep ('\n' :: (render indent lines ++ w))
    have hgap : ∀ x ∈ lead ++ indent, Lexeme.isSeparator x := List.forall_mem_append.2 ⟨hlead, hindent⟩
    have hstart := rest_skipSeparators hgap hbegins.endsBlank hc
    obtain ⟨s, d, hs, hreads, hd⟩ := hline.step hstart
    have hbreak : ∀ x ∈ ['\n'], Lexeme.isSeparator x := List.all_eq_true.1 rfl
    obtain ⟨ss, e, gap, htakes, hmore, hgap, he⟩ :=
      takes_of_lines hindent (fun l hl => hlines l (List.mem_cons_of_mem line hl)) hbreak hd
    exact ⟨s :: ss, e, gap, .cons (hstart ▸ hbegins) hs htakes, .cons hreads hmore, hgap, he⟩

/-! ## Sheets by their names -/

/-- The entries of the last sheet of a name that steps define. -/
def sheetIn? (name : Text) : List Step → Option (List Entry)
  | [] => none
  | .statement _ :: steps => sheetIn? name steps
  | .sheet d :: steps =>
    match sheetIn? name steps with
    | some es => some es
    | none => if d.name = name then some d.entries else none

theorem sheetIn?_eq_none {name : Text} {lines : List Line} {steps : List Step}
    (h : List.Forall₂ Line.ReadsAs lines steps) (hname : name ∉ definedIn lines) : sheetIn? name steps = none := by
  induction h with
  | nil => rfl
  | @cons line s lines steps hls _ ih =>
    cases line with
    | definition n body =>
      obtain ⟨d, rfl, hd, -⟩ := hls.sheet
      have hmore : name ∉ definedIn lines := fun hmem => hname (List.mem_cons_of_mem n hmem)
      have hdn : d.name ≠ name := fun hdn => hname (hdn ▸ hd ▸ List.mem_cons_self)
      simp only [sheetIn?, ih hmore, if_neg hdn]
    | statement p sheet =>
      obtain ⟨t, rfl, -⟩ := hls.statement
      exact ih hname

/-- **A name that is defined once stands for the sheet that was written for it.** -/
theorem sheetIn?_of_definition {name body : Text} {lines : List Line} {steps : List Step}
    (h : List.Forall₂ Line.ReadsAs lines steps) (honce : (definedIn lines).Nodup)
    (hmem : .definition name body ∈ lines) :
    ∃ es, sheetIn? name steps = some es ∧ bodyEntries? body = some (es.map Entry.meaning) := by
  induction h with
  | nil => cases hmem
  | @cons line s lines steps hls hmore ih =>
    cases line with
    | definition n b =>
      obtain ⟨d, rfl, hd, hbody⟩ := hls.sheet
      obtain ⟨hn, honce⟩ : n ∉ definedIn lines ∧ (definedIn lines).Nodup := List.nodup_cons.1 honce
      rcases List.mem_cons.1 hmem with hhead | htail
      · obtain ⟨rfl, rfl⟩ := Line.definition.inj hhead
        exact ⟨d.entries, by simp only [sheetIn?, sheetIn?_eq_none hmore hn, if_pos hd], hbody⟩
      · obtain ⟨es, hes, hbody⟩ := ih honce htail
        exact ⟨es, by simp only [sheetIn?, hes], hbody⟩
    | statement p sheet =>
      obtain ⟨t, rfl, -⟩ := hls.statement
      rcases List.mem_cons.1 hmem with hhead | htail
      · cases hhead
      · exact ih honce htail

/-! ## Constructions -/

/-- A statement that is styled by a sheet before it that says what the body of its object says, or by none if the
object has no body. -/
def Styled (before : List Step) (p : Prepared) (s : Statement) : Prop :=
  match p.body with
  | none => s.styles = []
  | some body => ∃ name position es, s.styles = [.named name position] ∧ sheetIn? name before = some es ∧
      bodyEntries? body = some (es.map Entry.meaning)

/-- Steps that render objects, behind the steps `before`: for each object its statement, and in front of it at
most one sheet. -/
inductive Renders : List Step → List Prepared → List Step → Prop where
  | nil (before : List Step) : Renders before [] []
  | cons {before own steps : List Step} {p : Prepared} {ps : List Prepared} {s : Statement}
      (single : own = [] ∨ ∃ d, own = [.sheet d]) (tells : Tells p s) (styled : Styled (before ++ own) p s)
      (rest : Renders (before ++ own ++ [.statement s]) ps steps) :
      Renders before (p :: ps) (own ++ .statement s :: steps)

theorem styled_of_sheeted {lines : List Line} {steps : List Step} {p : Prepared} {s : Statement}
    {sheet : Option Text} (h : Sheeted lines p sheet) (hreads : List.Forall₂ Line.ReadsAs lines steps)
    (honce : (definedIn lines).Nodup) {position : Position} (hs : s.styles = sheet.toList.map (.named · position)) :
    Styled steps p s := by
  unfold Sheeted at h
  unfold Styled
  cases hbody : p.body with
  | none =>
    rw [hbody] at h
    have h : sheet = none := h
    rw [hs, h]
    rfl
  | some body =>
    rw [hbody] at h
    obtain ⟨name, hname, hmem⟩ := h
    obtain ⟨es, hes, hmeaning⟩ := sheetIn?_of_definition hreads honce hmem
    exact ⟨name, position, es, by rw [hs, hname]; rfl, hes, hmeaning⟩

/-- **Lines that write objects are read as steps that render them.** -/
theorem Writes.renders {before lines : List Line} {ps : List Prepared} (h : Writes before ps lines) :
    ∀ {read steps : List Step}, (definedIn (before ++ lines)).Nodup → List.Forall₂ Line.ReadsAs before read →
    List.Forall₂ Line.ReadsAs lines steps → Renders read ps steps := by
  induction h with
  | nil =>
    intro read steps _ _ hlines
    cases hlines
    exact .nil read
  | @cons before own lines p ps sheet single sheeted _ ih =>
    intro read steps honce hread hlines
    obtain ⟨ownSteps, more, rfl, hown, hmore, hsingle⟩ : ∃ ownSteps more, steps = ownSteps ++ more ∧
        List.Forall₂ Line.ReadsAs own ownSteps ∧ List.Forall₂ Line.ReadsAs (.statement p sheet :: lines) more ∧
        (ownSteps = [] ∨ ∃ d, ownSteps = [.sheet d]) := by
      rcases single with rfl | ⟨name, body, rfl, -⟩
      · exact ⟨[], steps, rfl, .nil, hlines, .inl rfl⟩
      · obtain ⟨s, more, hs, hmore, rfl⟩ := List.forall₂_cons_left_iff.1 hlines
        obtain ⟨d, rfl, -⟩ := hs.sheet
        exact ⟨[.sheet d], more, rfl, .cons hs .nil, hmore, .inr ⟨d, rfl⟩⟩
    obtain ⟨s, rest, hs, hrest, rfl⟩ := List.forall₂_cons_left_iff.1 hmore
    obtain ⟨t, rfl, htells, position, hstyles⟩ := hs.statement
    have hbefore := List.rel_append hread hown
    have honce' : (definedIn (before ++ own)).Nodup := by
      refine honce.sublist (List.Sublist.filterMap _ ?_)
      rw [← List.append_assoc]
      exact List.sublist_append_left ..
    refine .cons hsingle htells (styled_of_sheeted sheeted hbefore honce' hstyles) (ih ?_ ?_ hrest)
    · simpa using honce
    · exact List.rel_append hbefore (.cons hs .nil)

/-- A construction whose labels, right-hand sides, bodies and sheet names can each be read. -/
structure Readable (settings : Settings) (indent : Text) (objects : List Object) : Prop where
  labels : ∀ o ∈ objects, ∀ label ∈ o.labels, IsLabel label
  rightHandSides : ∀ o ∈ objects, o.labels ≠ [] → IsRightHandSide o.rhs
  bodies : ∀ p ∈ preparedOf settings objects, ∀ body ∈ p.body, (bodyEntries? body).isSome
  names : ∀ line ∈ linesOf settings indent (preparedOf settings objects), ∀ name ∈ line.sheet?, IsName name

section

variable {settings : Settings} {indent : Text} {objects : List Object}

theorem writes_linesOf (settings : Settings) (indent : Text) (prepared : List Prepared) :
    Writes [] (arranged settings prepared) (linesOf settings indent prepared) :=
  writes_linesFrom _ indent _ (knows_start settings.sheetLead)

theorem definedIn_linesOf_nodup (settings : Settings) (indent : Text) (prepared : List Prepared) :
    (definedIn (linesOf settings indent prepared)).Nodup :=
  ((knows_start settings.sheetLead).foldl (planOf settings prepared) indent (arranged settings prepared)).once

theorem Readable.legible (h : Readable settings indent objects) :
    ∀ line ∈ linesOf settings indent (preparedOf settings objects), line.Legible := by
  intro line hline
  have hwrites := writes_linesOf settings indent (preparedOf settings objects)
  have hmem : ∀ {p}, p ∈ arranged settings (preparedOf settings objects) → p ∈ preparedOf settings objects :=
    (arranged_perm settings _).mem_iff.1
  cases line with
  | definition name body =>
    obtain ⟨p, hp, hbody⟩ := hwrites.exists_body hline
    exact ⟨h.names _ hline name rfl, h.bodies p (hmem hp) body hbody⟩
  | statement p sheet =>
    obtain ⟨hobject, hlabels⟩ := mem_of_mem_preparedOf (hmem (hwrites.mem_of_statement hline))
    have hnames : ∀ name ∈ sheet, IsName name := fun name hname => h.names _ hline name hname
    exact ⟨hlabels, h.labels _ hobject, h.rightHandSides _ hobject hlabels, hnames⟩

/-- **A construction is read as steps that render its objects.** -/
theorem Readable.takes (h : Readable settings indent objects) (hindent : ∀ x ∈ indent, Lexeme.isSeparator x)
    {c : Cursor} {lead w : Text} (hlead : ∀ x ∈ lead, Lexeme.isSeparator x)
    (hc : c.rest = lead ++ (lines settings indent objects ++ w)) :
    ∃ steps d gap, Takes c steps d ∧ Renders [] (arranged settings (preparedOf settings objects)) steps ∧
      (∀ x ∈ gap, Lexeme.isSeparator x) ∧ d.rest = gap ++ w := by
  rw [lines_eq] at hc
  obtain ⟨steps, d, gap, htakes, hreads, hgap, hd⟩ := takes_of_lines hindent h.legible hlead hc
  have honce := definedIn_linesOf_nodup settings indent (preparedOf settings objects)
  exact ⟨steps, d, gap, htakes, (writes_linesOf settings indent _).renders honce .nil hreads, hgap, hd⟩

end

/-! ## Macros -/

def macroIndent : Text := "    "

theorem isSeparator_macroIndent : ∀ x ∈ macroIndent, Lexeme.isSeparator x := List.all_eq_true.1 rfl

def macroText (settings : Settings) (m : MacroConstruction) : Text :=
  "@@macro " ++ m.name ++ "(" ++ Text.join ", " m.inputs ++ ") \x7b\n" ++ lines settings macroIndent m.objects ++
    "    @@return " ++ Text.join ", " m.outputs ++ "\n\x7d\n"

def writtenMacros (settings : Settings) (macros : List MacroConstruction) : List MacroConstruction :=
  macros.filter fun m => (macroBlock? settings m).isSome

theorem macroBlock?_eq (settings : Settings) (m : MacroConstruction) :
    macroBlock? settings m = none ∨ m.outputs ≠ [] ∧ macroBlock? settings m = some (macroText settings m) := by
  unfold macroBlock?
  simp only
  split
  · exact .inl rfl
  · next h =>
    refine .inr ⟨fun hnil => h ?_, rfl⟩
    rw [hnil]
    simp

theorem document_eq (settings : Settings) (objects : List Object) : ∀ macros : List MacroConstruction,
    document settings macros objects =
      (writtenMacros settings macros).flatMap (fun m => macroText settings m ++ ['\n']) ++ script settings objects
  | [] => rfl
  | m :: macros => by
    have ih := document_eq settings objects macros
    unfold document writtenMacros at ih ⊢
    rcases macroBlock?_eq settings m with h | ⟨-, h⟩
    · simpa [h] using ih
    · simpa [h] using ih

structure ReadableMacro (settings : Settings) (m : MacroConstruction) : Prop where
  name : IsName m.name
  inputs : ∀ label ∈ m.inputs, IsLabel label
  outputs : ∀ label ∈ m.outputs, IsLabel label
  body : Readable settings macroIndent m.objects

/-- A block that defines a macro, with steps that render the construction of it. -/
structure Defines (settings : Settings) (m : MacroConstruction) (block : MacroBlock) : Prop where
  name : block.name = m.name
  inputs : block.inputs = m.inputs
  outputs : block.outputs = m.outputs
  body : Renders [] (arranged settings (preparedOf settings m.objects)) block.body

section

variable {settings : Settings}

theorem macroText_append (settings : Settings) (m : MacroConstruction) (w : Text) : macroText settings m ++ w =
    "@@macro" ++ (' ' :: (m.name ++ ('(' :: (Text.join ", " m.inputs ++ (')' :: ' ' :: '{' :: (['\n'] ++
      (lines settings macroIndent m.objects ++ (macroIndent ++ ("@@return" ++ (' ' ::
        (Text.join ", " m.outputs ++ ('\n' :: '}' :: '\n' :: w)))))))))))) := by
  unfold macroText
  simp only [show "@@macro ".toList = "@@macro".toList ++ [' '] from rfl, show "(".toList = ['('] from rfl,
    show ") \x7b\n".toList = [')', ' ', '{', '\n'] from rfl,
    show "    @@return ".toList = macroIndent ++ ("@@return".toList ++ [' ']) from rfl,
    show "\n\x7d\n".toList = ['\n', '}', '\n'] from rfl, List.append_assoc, List.cons_append, List.nil_append]

/-- **A macro is read as a block that defines it.** -/
theorem ReadableMacro.item {m : MacroConstruction} (h : ReadableMacro settings m) (hreturns : m.outputs ≠ [])
    {c : Cursor} {w : Text} (hc : c.rest = macroText settings m ++ w) :
    ∃ block d, Script.item c = .ok (.macroBlock block, d) ∧ Defines settings m block ∧ d.rest = '\n' :: w := by
  rw [macroText_append] at hc
  generalize hbody : ['\n'] ++ (lines settings macroIndent m.objects ++ (macroIndent ++ ("@@return" ++ (' ' ::
    (Text.join ", " m.outputs ++ ('\n' :: '}' :: '\n' :: w)))))) = body at hc
  have hsteps : ∀ b : Cursor, b.rest = body → ∃ steps d, macroSteps m.name b = .ok (steps, d) ∧
      Renders [] (arranged settings (preparedOf settings m.objects)) steps ∧
      d.rest = ' ' :: (Text.join ", " m.outputs ++ ('\n' :: '}' :: '\n' :: w)) := by
    intro b hb
    rw [← hbody] at hb
    obtain ⟨steps, d, gap, htakes, hrenders, hgap, hd⟩ :=
      h.body.takes isSeparator_macroIndent (List.all_eq_true.1 rfl) hb
    have hgap' : ∀ x ∈ gap ++ macroIndent, Lexeme.isSeparator x :=
      List.forall_mem_append.2 ⟨hgap, isSeparator_macroIndent⟩
    rw [← List.append_assoc] at hd
    obtain ⟨e, he, hrest⟩ := macroSteps_of_return m.name hgap' hd
    have hsteps := macroSteps_of_takes m.name htakes he
    rw [List.append_nil] at hsteps
    exact ⟨steps, e, hsteps, hrenders, hrest⟩
  obtain ⟨block, d, hd, ⟨hname, hinputs, houtputs, hrenders⟩, hrest⟩ :=
    item_macro h.name h.inputs h.outputs hreturns hsteps hc
  exact ⟨block, d, hd, ⟨hname, hinputs, houtputs, hrenders⟩, hrest⟩

theorem items_of_macros {w : Text} {P : List Item → Prop}
    (hmore : ∀ (c : Cursor) (lead : Text), (∀ x ∈ lead, Lexeme.isSeparator x) → c.rest = lead ++ w →
      ∃ more, items c = .ok more ∧ P more) :
    ∀ {macros : List MacroConstruction} {c : Cursor} {lead : Text},
    (∀ m ∈ macros, ReadableMacro settings m ∧ m.outputs ≠ []) → (∀ x ∈ lead, Lexeme.isSeparator x) →
    c.rest = lead ++ (macros.flatMap (fun m => macroText settings m ++ ['\n']) ++ w) →
    ∃ blocks more, items c = .ok (blocks.map .macroBlock ++ more) ∧ List.Forall₂ (Defines settings) macros blocks ∧
      P more
  | [], c, lead, _, hlead, hc => by
    obtain ⟨more, hitems, hP⟩ := hmore c lead hlead hc
    exact ⟨[], more, hitems, .nil, hP⟩
  | m :: macros, c, lead, hmacros, hlead, hc => by
    obtain ⟨hm, hreturns⟩ := hmacros m List.mem_cons_self
    generalize hbehind : macros.flatMap (fun m => macroText settings m ++ ['\n']) ++ w = behind
    have hc : c.rest = lead ++ (macroText settings m ++ ('\n' :: behind)) := by
      rw [hc, ← hbehind]
      simp
    have hat : ∃ rest, macroText settings m ++ ('\n' :: behind) = '@' :: rest := ⟨_, macroText_append settings m _⟩
    obtain ⟨rest, hrest⟩ := hat
    have hstart : c.skipSeparators.rest = macroText settings m ++ ('\n' :: behind) := by
      refine rest_skipSeparators hlead ?_ hc
      rw [hrest]
      exact endsBlank_cons (by decide) (by decide)
    have hopen : c.skipSeparators.atEnd = false ∧ c.skipSeparators.peek = some '@' := by
      rw [Cursor.atEnd, Cursor.peek, hstart, hrest]
      exact ⟨rfl, rfl⟩
    obtain ⟨block, d, hd, hdefines, hdrest⟩ := hm.item hreturns hstart
    have hbreaks : ∀ x ∈ ['\n', '\n'], Lexeme.isSeparator x := List.all_eq_true.1 rfl
    obtain ⟨blocks, more, hitems, hblocks, hP⟩ := items_of_macros hmore
      (fun m' hm' => hmacros m' (List.mem_cons_of_mem m hm')) hbreaks (show d.rest = _ by rw [hdrest, ← hbehind]; rfl)
    refine ⟨block :: blocks, more, ?_, .cons hdefines hblocks, hP⟩
    rw [items_eq, hopen.1, hopen.2, hd]
    simp only [Bool.false_eq_true, if_false, Option.some.injEq, bind, Except.bind, hitems]
    rfl

end

/-- **What is written of macros and a construction is read as these macros and this construction.**  There is one
block for each macro that is written, and behind the blocks one statement for each object with a label, in the
order in which objects are written.  A statement has the labels of its object with its flags and its right-hand
side, and is styled by a sheet before it if and only if the object has a body, which this sheet says. -/
theorem read_document {settings : Settings} {macros : List MacroConstruction} {objects : List Object}
    (hmacros : ∀ m ∈ writtenMacros settings macros, ReadableMacro settings m)
    (hobjects : Readable settings [] objects) :
    ∃ blocks steps, Script.read (document settings macros objects) =
        .ok (blocks.map .macroBlock ++ steps.map .step) ∧
      List.Forall₂ (Defines settings) (writtenMacros settings macros) blocks ∧
      Renders [] (arranged settings (preparedOf settings objects)) steps ∧
      (arranged settings (preparedOf settings objects)).Perm (preparedOf settings objects) := by
  have hscript : ∀ (c : Cursor) (lead : Text), (∀ x ∈ lead, Lexeme.isSeparator x) →
      c.rest = lead ++ script settings objects → ∃ more, items c = .ok more ∧
        ∃ steps, more = steps.map .step ∧ Renders [] (arranged settings (preparedOf settings objects)) steps := by
    intro c lead hlead hc
    rw [script, ← List.append_nil (lines settings [] objects)] at hc
    obtain ⟨steps, d, gap, htakes, hrenders, hgap, hd⟩ := hobjects.takes (fun _ hx => nomatch hx) hlead hc
    rw [List.append_nil] at hd
    have hend : items d = .ok [] := items_of_blank (hd ▸ hgap)
    have hitems := items_of_takes htakes hend
    rw [List.append_nil] at hitems
    exact ⟨_, hitems, steps, rfl, hrenders⟩
  have hwritten : ∀ m ∈ writtenMacros settings macros, ReadableMacro settings m ∧ m.outputs ≠ [] := by
    intro m hm
    refine ⟨hmacros m hm, ?_⟩
    have hsome := (List.mem_filter.1 hm).2
    rcases macroBlock?_eq settings m with hnone | ⟨hreturns, -⟩
    · rw [hnone] at hsome
      cases hsome
    · exact hreturns
  have hnil : ∀ x ∈ ([] : Text), Lexeme.isSeparator x := fun _ hx => nomatch hx
  obtain ⟨blocks, more, hitems, hblocks, steps, rfl, hrenders⟩ := items_of_macros hscript hwritten hnil
    (c := .start (document settings macros objects)) (document_eq settings objects macros)
  exact ⟨blocks, steps, hitems, hblocks, hrenders, arranged_perm settings _⟩

def doubled : MacroConstruction where
  name := "Doubled"
  inputs := ["A"]
  outputs := ["B"]
  objects := [⟨["B"], "point", "2 A", OrderedMap.empty⟩]

def dotted : Object where
  labels := ["C", "D"]
  typeName := "point"
  rhs := "(1, 2)"
  style := OrderedMap.ofList
    [("show", .table [("object", "true"), ("label", "false")]), ("pointSize", .table [("val", "9")])]

theorem read_doubled_dotted :
    ∃ block steps, Script.read (document {} [doubled] [dotted]) = .ok (.macroBlock block :: steps.map .step) ∧
      Defines {} doubled block ∧ Renders [] [prepare {} dotted] steps := by
  have hwritten : writtenMacros {} [doubled] = [doubled] := by
    rw [writtenMacros, List.filter_cons_of_pos (by decide +kernel)]
    rfl
  have hmacros : ∀ m ∈ writtenMacros {} [doubled], ReadableMacro {} m := by
    intro m hm
    rw [hwritten] at hm
    rw [List.mem_singleton.1 hm]
    refine ⟨by decide, by decide, by decide, by decide, ?_, ?_,
      isName_of_labels (by decide) (List.all_eq_true.1 rfl) (by decide) _⟩
    · intro o ho _
      rw [List.mem_singleton.1 ho]
      exact ⟨by decide, _, rfl⟩
    · intro p hp body hb
      rw [List.mem_singleton.1 hp] at hb
      cases hb
  have hbody : (prepare {} dotted).body = some "pointSize: 9".toList := by decide +kernel
  have hobjects : Readable {} [] [dotted] := by
    refine ⟨by decide, ?_, ?_, isName_of_labels (by decide) (List.all_eq_true.1 rfl) (by decide) _⟩
    · intro o ho _
      rw [List.mem_singleton.1 ho]
      exact ⟨by decide, _, rfl⟩
    · intro p hp body hb
      rw [List.mem_singleton.1 hp] at hb
      have hb := hbody.symm.trans hb
      rw [← Option.some.inj hb]
      decide +kernel
  obtain ⟨blocks, steps, hread, hblocks, hrenders, hperm⟩ := read_document hmacros hobjects
  rw [hwritten] at hblocks
  obtain ⟨block, _, hblock, hnil, rfl⟩ := List.forall₂_cons_left_iff.1 hblocks
  cases hnil
  have hprepared : arranged {} (preparedOf {} [dotted]) = [prepare {} dotted] := List.perm_singleton.1 hperm
  rw [hprepared] at hrenders
  exact ⟨block, steps, hread, hblock, hrenders⟩

end StyleScript.Construction
