import StyleScript.Proofs.Script.Macros
import StyleScript.Proofs.Script.Written
/-!
# Reading statements and macros

A statement is read as its labels with their flags, the sheet that styles it, and its right-hand side up to the
end of the line (`statement_of_rest`).  The flags `*` and `~` are read with blanks between them, so what stands
behind a label is given as a gap and what ends the flags.

Steps are read one behind another in a script as well as in a macro.  `Takes` says this of no reader in
particular, and each of the two repeating readers goes on where the steps end (`items_of_takes`,
`macroSteps_of_takes`).
-/
namespace StyleScript.Script

/-! ## Flags -/

def EndsFlags (w : Text) : Prop := ∃ x rest, w = x :: rest ∧ (x = ',' ∨ x = '=' ∨ x = '@')

theorem EndsFlags.endsBlank {w : Text} (h : EndsFlags w) : EndsBlank Lexeme.isInlineBlank w := by
  obtain ⟨x, rest, rfl, rfl | rfl | rfl⟩ := h <;> exact endsBlank_cons rfl (by decide)

theorem EndsFlags.head {w : Text} (h : EndsFlags w) {y : Char} (hy : y ∈ w.head?) : y = ',' ∨ y = '=' ∨ y = '@' := by
  obtain ⟨x, rest, rfl, hx⟩ := h
  exact Option.some.inj hy ▸ hx

theorem flags_of_ends {c : Cursor} {w : Text} (hw : EndsFlags w) (hc : c.rest = w) (sofar : Flags) :
    flags sofar c = (sofar, c) := by
  have hstar : c.eat? '*' = none := eat?_eq_none fun y hy => by
    rcases hw.head (hc ▸ hy) with rfl | rfl | rfl <;> decide
  have htilde : c.eat? '~' = none := eat?_eq_none fun y hy => by
    rcases hw.head (hc ▸ hy) with rfl | rfl | rfl <;> decide
  rw [flags_eq, hstar, htilde]

theorem flags_of_tilde {c : Cursor} {gap w : Text} (hgap : IsGap gap) (hw : EndsFlags w) (sofar : Flags)
    (hc : c.rest = '~' :: (gap ++ w)) :
    ∃ d, flags sofar c = ({ sofar with label := false }, d) ∧ d.rest = w := by
  have hstar : c.eat? '*' = none := eat?_eq_none fun y hy => by
    rw [hc] at hy
    exact Option.some.inj hy ▸ by decide
  have hrest : (c.move ['~'] (gap ++ w)).skipInline.rest = w :=
    rest_skipInline (hgap.all rfl) hw.endsBlank rfl
  refine ⟨_, ?_, hrest⟩
  rw [flags_eq, hstar, eat?_of_rest hc]
  exact flags_of_ends hw hrest _

theorem flags_of_rest {c : Cursor} {f : Flags} {gap w : Text} (hgap : IsGap gap) (hw : EndsFlags w)
    (hc : c.rest = f.text ++ (gap ++ w)) : ∃ d, flags {} c.skipInline = (f, d) ∧ d.skipInline.rest = w := by
  have hskip : ∀ {d : Cursor}, d.rest = gap ++ w → d.skipInline.rest = w :=
    rest_skipInline (hgap.all rfl) hw.endsBlank
  have hself : ∀ {d : Cursor}, d.rest = w → d.skipInline.rest = w := rest_skipInline_self hw.endsBlank
  have hfirst : ∀ {x : Char} {rest : Text}, (x = '*' ∨ x = '~') → c.rest = x :: rest →
      c.skipInline.rest = x :: rest := by
    rintro x rest (rfl | rfl) hx
    · exact rest_skipInline_self (endsBlank_cons rfl (by decide)) hx
    · exact rest_skipInline_self (endsBlank_cons rfl (by decide)) hx
  obtain ⟨object, label⟩ := f
  cases object with
  | true =>
    cases label with
    | true => exact ⟨c.skipInline, flags_of_ends hw (hskip hc) _, hself (hskip hc)⟩
    | false =>
      obtain ⟨d, hd, hrest⟩ := flags_of_tilde hgap hw {} (hfirst (.inr rfl) hc)
      exact ⟨d, hd, hself hrest⟩
  | false =>
    cases label with
    | true =>
      have hstar : c.skipInline.rest = '*' :: (gap ++ w) := hfirst (.inl rfl) hc
      have hrest : (c.skipInline.move ['*'] (gap ++ w)).skipInline.rest = w := hskip rfl
      refine ⟨_, ?_, hself hrest⟩
      rw [flags_eq, eat?_of_rest hstar]
      exact flags_of_ends hw hrest _
    | false =>
      have hstar : c.skipInline.rest = '*' :: ('~' :: (gap ++ w)) := hfirst (.inl rfl) hc
      have htilde : (c.skipInline.move ['*'] ('~' :: (gap ++ w))).skipInline.rest = '~' :: (gap ++ w) :=
        rest_skipInline_self (endsBlank_cons rfl (by decide)) rfl
      obtain ⟨d, hd, hrest⟩ := flags_of_tilde hgap hw ⟨false, true⟩ htilde
      refine ⟨d, ?_, hself hrest⟩
      rw [flags_eq, eat?_of_rest hstar]
      exact hd

/-! ## Labels with their flags and styles -/

/-- The sheet of a statement as it is written behind the labels. -/
def styleText (sheet : Option Text) : Text := (sheet.map fun (name : Text) => " @" ++ name).getD []

/-- A text at which a label ends with all that belongs to it. -/
def EndsTarget (w : Text) : Prop := ∃ x rest, w = x :: rest ∧ (x = ',' ∨ x = '=')

theorem EndsTarget.endsFlags {w : Text} (h : EndsTarget w) : EndsFlags w := by
  obtain ⟨x, rest, rfl, hx⟩ := h
  exact ⟨x, rest, rfl, hx.imp_right .inl⟩

theorem leavesLabel_flags (f : Flags) {gap w : Text} (hgap : IsGap gap) (hw : EndsFlags w) :
    LeavesLabel (f.text ++ (gap ++ w)) := by
  have hrest : LeavesLabel (gap ++ w) := by
    intro x hx
    cases gap with
    | nil => rcases hw.head hx with rfl | rfl | rfl <;> decide
    | cons y gap =>
      rw [← Option.some.inj hx, hgap y List.mem_cons_self]
      decide
  obtain ⟨object, label⟩ := f
  cases object with
  | true =>
    cases label with
    | true => exact hrest
    | false => exact fun x hx => Option.some.inj hx ▸ by decide
  | false => exact fun x hx => Option.some.inj hx ▸ by decide

section

variable {c : Cursor} {t : Target} {gap w : Text}

theorem target_of_flags (ht : IsLabel t.name) (hgap : IsGap gap) (hw : EndsFlags w)
    (hc : c.rest = t.text ++ (gap ++ w)) :
    ∃ d, d.rest = w ∧ ∀ styles e, styleRefs d = .ok (styles, e) → target c = .ok ((t, styles), e) := by
  rw [Target.text, List.append_assoc] at hc
  have hlabel := label_of_rest ht (leavesLabel_flags t.flags hgap hw) hc
  obtain ⟨d, hd, hrest⟩ := @flags_of_rest (c.move t.name (t.flags.text ++ (gap ++ w))) _ _ _ hgap hw rfl
  refine ⟨d.skipInline, hrest, fun styles e he => ?_⟩
  simp only [target, hlabel, bind, Except.bind, hd, he]
  rfl

theorem styleRefs_of_ends (hw : EndsTarget w) (hc : c.rest = w) : styleRefs c = .ok ([], c) := by
  obtain ⟨x, rest, rfl, hx⟩ := hw
  have hat : c.eat? '@' = none := eat?_eq_none fun y hy => by
    rw [hc] at hy
    rw [← Option.some.inj hy]
    rcases hx with rfl | rfl <;> decide
  have hpeek : ¬ c.peek = some '{' := by
    rw [Cursor.peek, hc]
    rcases hx with rfl | rfl <;> exact fun hy => absurd (Option.some.inj hy) (by decide)
  rw [styleRefs_eq, styleRef?, hat]
  simp only [if_neg hpeek]
  rfl

theorem styleRefs_of_named {name : Text} (hname : IsName name) (hgap : IsGap gap) (hw : EndsTarget w)
    (hc : c.rest = '@' :: (name ++ (gap ++ w))) :
    ∃ d, styleRefs c = .ok ([.named name c.position], d) ∧ d.rest = w := by
  have hleaves : LeavesName (gap ++ w) := by
    intro x hx
    cases gap with
    | nil => rcases hw.endsFlags.head hx with rfl | rfl | rfl <;> rfl
    | cons y gap =>
      rw [← Option.some.inj hx, hgap y List.mem_cons_self]
      rfl
  have hn := @name?_of_rest (c.move ['@'] (name ++ (gap ++ w))) _ _ hname hleaves rfl
  generalize hd : (c.move ['@'] (name ++ (gap ++ w))).move name (gap ++ w) = d at hn
  have hrest : d.skipInline.rest = w :=
    rest_skipInline (hgap.all rfl) hw.endsFlags.endsBlank (by rw [← hd]; rfl)
  refine ⟨d.skipInline, ?_, hrest⟩
  rw [styleRefs_eq, styleRef?, eat?_of_rest hc]
  simp only [hn, bind, Except.bind, styleRefs_of_ends hw hrest]
  rfl

/-- **A label is read with its flags and the sheet that was written behind it.** -/
theorem target_of_rest {sheet : Option Text} (ht : IsLabel t.name) (hsheet : ∀ name ∈ sheet, IsName name)
    (hgap : IsGap gap) (hw : EndsTarget w) (hc : c.rest = t.text ++ (styleText sheet ++ (gap ++ w))) :
    ∃ position d, target c = .ok ((t, sheet.toList.map (.named · position)), d) ∧ d.rest = w := by
  cases sheet with
  | none =>
    obtain ⟨d, hd, htarget⟩ := target_of_flags ht hgap hw.endsFlags hc
    exact ⟨c.position, d, htarget _ _ (styleRefs_of_ends hw hd), hd⟩
  | some name =>
    have hc : c.rest = t.text ++ ([' '] ++ ('@' :: (name ++ (gap ++ w)))) := hc
    obtain ⟨d, hd, htarget⟩ := target_of_flags ht isGap_blank ⟨'@', _, rfl, .inr (.inr rfl)⟩ hc
    obtain ⟨e, he, hrest⟩ := styleRefs_of_named (hsheet name rfl) hgap hw hd
    exact ⟨d.position, e, htarget _ _ he, hrest⟩

end

/-! ## Statements -/

theorem join_head {P : Char → Prop} (sep : Text) : ∀ {parts : List Text}, parts ≠ [] →
    (∀ part ∈ parts, ∃ x rest, part = x :: rest ∧ P x) → ∃ x rest, Text.join sep parts = x :: rest ∧ P x
  | [], hne, _ => absurd rfl hne
  | [part], _, h => h part List.mem_cons_self
  | part :: next :: parts, _, h => by
    obtain ⟨x, rest, hpart, hx⟩ := h part List.mem_cons_self
    refine ⟨x, rest ++ sep ++ Text.join sep (next :: parts), ?_, hx⟩
    rw [Text.join, hpart, List.cons_append, List.cons_append]

theorem IsLabel.exists_cons {label : Text} (h : IsLabel label) :
    ∃ x rest, label = x :: rest ∧ Text.startsLabel x := by
  obtain ⟨x, rest, rfl⟩ := List.exists_cons_of_ne_nil h.ne_nil
  exact ⟨x, rest, rfl, h.head rfl⟩

theorem targets_head {ts : List Target} (hne : ts ≠ []) (hts : ∀ t ∈ ts, IsLabel t.name) :
    ∃ x rest, Text.join ", " (ts.map Target.text) = x :: rest ∧ Text.startsLabel x := by
  refine join_head ", " (by simpa using hne) fun part hpart => ?_
  obtain ⟨t, ht, rfl⟩ := List.mem_map.1 hpart
  obtain ⟨x, rest, hname, hx⟩ := (hts t ht).exists_cons
  exact ⟨x, rest ++ t.flags.text, by rw [Target.text, hname, List.cons_append], hx⟩

section

variable {sheet : Option Text} (hsheet : ∀ name ∈ sheet, IsName name)
include hsheet

theorem targets_of_rest {w : Text} {ts : List Target} (hne : ts ≠ []) (hts : ∀ t ∈ ts, IsLabel t.name) {c : Cursor}
    (hc : c.rest = Text.join ", " (ts.map Target.text) ++ (styleText sheet ++ (' ' :: '=' :: w))) :
    ∃ position d, targets c = .ok ((ts, sheet.toList.map (.named · position)), d) ∧ d.rest = '=' :: w := by
  induction ts generalizing c with
  | nil => exact absurd rfl hne
  | cons t ts ih =>
    have ht := hts t List.mem_cons_self
    cases ts with
    | nil =>
      obtain ⟨position, d, hd, hrest⟩ := target_of_rest ht hsheet isGap_blank ⟨'=', w, rfl, .inr rfl⟩ hc
      refine ⟨position, d, ?_, hrest⟩
      have hcomma : d.eat? ',' = none := eat?_eq_none fun y hy => by
        rw [hrest] at hy
        exact Option.some.inj hy ▸ by decide
      rw [targets_eq, hd]
      simp only [bind, Except.bind, hcomma]
      rfl
    | cons u ts =>
      have hmore : ∀ v ∈ u :: ts, IsLabel v.name := fun v hv => hts v (List.mem_cons_of_mem t hv)
      generalize hrow : Text.join ", " ((u :: ts).map Target.text) ++ (styleText sheet ++ (' ' :: '=' :: w)) = row
      have hc : c.rest = t.text ++ (styleText none ++ ([] ++ (',' :: ' ' :: row))) := by
        rw [hc, ← hrow]
        simp [Text.join, styleText]
      have hnone : ∀ name ∈ (none : Option Text), IsName name := fun _ h => absurd h (Option.not_mem_none _)
      obtain ⟨position, d, hd, hrest⟩ := target_of_rest ht hnone isGap_nil ⟨',', _, rfl, .inl rfl⟩ hc
      have hnext : (d.move [','] (' ' :: row)).skipInline.rest = row := by
        obtain ⟨x, rest, hx, hstart⟩ := targets_head (List.cons_ne_nil u ts) hmore
        refine rest_skipInline_blank ?_ rfl
        rw [← hrow, hx]
        exact endsBlank_of_head blank_or_of_isInlineBlank (.inl hstart) _
      obtain ⟨position, e, he, heq⟩ := ih (List.cons_ne_nil u ts) hmore (hnext.trans hrow.symm)
      refine ⟨position, e, ?_, heq⟩
      rw [targets_eq, hd]
      simp only [bind, Except.bind, eat?_of_rest hrest, he]
      rfl

section

variable {ts : List Target} (hne : ts ≠ []) (hts : ∀ t ∈ ts, IsLabel t.name) {rhs : Text}
  (hrhs : Lexeme.Closed (fun _ => false) rhs) (hsome : rhs ≠ []) {c : Cursor} {w : Text}
  (hc : c.rest = Text.join ", " (ts.map Target.text) ++
    (styleText sheet ++ (' ' :: '=' :: ' ' :: (rhs ++ ('\n' :: w)))))
include hne hts hrhs hsome hc

/-- **A statement is read as it was written**, up to the end of the line. -/
theorem statement_of_rest (position : Position) :
    ∃ q d, statement position c = .ok (⟨ts, sheet.toList.map (.named · q), rhs, position⟩, d) ∧
      d.rest = '\n' :: w := by
  obtain ⟨q, d, hd, hrest⟩ := targets_of_rest hsheet hne hts hc
  have hjoined : Lexeme.Joined rhs ('\n' :: w) :=
    Lexeme.joined_of_head fun hy => absurd (Option.some.inj hy) (by decide)
  have hstart : (d.move ['='] (' ' :: (rhs ++ ('\n' :: w)))).skipInline.rest = rhs ++ ('\n' :: w) :=
    rest_skipInline_blank (endsBlank_of_closed hrhs hsome hjoined) rfl
  generalize hb : (d.move ['='] (' ' :: (rhs ++ ('\n' :: w)))).skipInline = b at hstart
  have hraw : b.raw (fun _ => false) = .ok (rhs, b.move rhs ('\n' :: w)) := by
    rw [Cursor.raw, hstart, Lexeme.raw_of_closed hrhs rfl hjoined]
    simp only
    rw [Text.trim_eq_self hrhs.trimmed]
  refine ⟨q, b.move rhs ('\n' :: w), ?_, rfl⟩
  have hempty : ¬ rhs.isEmpty = true := by rwa [List.isEmpty_iff]
  simp only [statement, hd, bind, Except.bind, expect_of_rest hrest, hb, hraw, if_neg hempty]
  rfl

theorem step_statement :
    ∃ q d, step c = .ok (.statement ⟨ts, sheet.toList.map (.named · q), rhs, c.position⟩, d) ∧
      d.rest = '\n' :: w := by
  obtain ⟨q, d, hd, hrest⟩ := statement_of_rest hsheet hne hts hrhs hsome hc c.position
  refine ⟨q, d, ?_, hrest⟩
  have hat : c.eat? '@' = none := eat?_eq_none fun y hy => by
    obtain ⟨x, rest, hx, hstart⟩ := targets_head hne hts
    rw [hc, hx] at hy
    exact Option.some.inj hy ▸ Text.ne_of_startsLabel hstart rfl
  rw [step, hat]
  simp only [hd]
  rfl

end

end

theorem beginsStep_targets {ts : List Target} (hne : ts ≠ []) (hts : ∀ t ∈ ts, IsLabel t.name) (w : Text) :
    BeginsStep (Text.join ", " (ts.map Target.text) ++ w) := by
  obtain ⟨x, rest, hx, hstart⟩ := targets_head hne hts
  rw [hx]
  exact ⟨x, rest ++ w, rfl, .inl hstart, fun hat => absurd hat (Text.ne_of_startsLabel hstart rfl)⟩

/-! ## Steps one behind another -/

/-- Steps that are read one behind another, from a cursor to a later one. -/
inductive Takes : Cursor → List Step → Cursor → Prop where
  | nil (c : Cursor) : Takes c [] c
  | cons {c d e : Cursor} {s : Step} {ss : List Step} (begins : BeginsStep c.skipSeparators.rest)
      (first : step c.skipSeparators = .ok (s, d)) (rest : Takes d ss e) : Takes c (s :: ss) e

theorem items_of_takes {c d : Cursor} {ss : List Step} (h : Takes c ss d) {more : List Item}
    (hd : items d = .ok more) : items c = .ok (ss.map .step ++ more) := by
  induction h with
  | nil => exact hd
  | cons begins first _ ih =>
    rw [items_eq, begins.atEnd_eq, if_neg begins.peek_ne, begins.item_of_step first]
    simp only [Bool.false_eq_true, if_false, bind, Except.bind, ih hd]
    rfl

theorem macroSteps_of_takes (name : Text) {c d : Cursor} {ss : List Step} (h : Takes c ss d) {more : List Step}
    {e : Cursor} (hd : macroSteps name d = .ok (more, e)) : macroSteps name c = .ok (ss ++ more, e) := by
  induction h with
  | nil => exact hd
  | cons begins first _ ih =>
    rw [macroSteps_eq, begins.atEnd_eq, decide_eq_false begins.peek_ne, begins.pass?_eq_none]
    simp only [Bool.or_self, Bool.false_eq_true, if_false, first, bind, Except.bind, ih hd]
    rfl

/-! ## Macros -/

section

variable {c : Cursor} {w : Text}

theorem pass?_of_rest {text : Text} (hc : c.rest = text ++ w) : c.pass? text = some (c.move text w) := by
  rw [Cursor.pass?, Text.after?_eq_some.2 hc]
  rfl

theorem word?_of_rest {word : Text} (hw : LeavesName w) (hc : c.rest = word ++ w) :
    c.word? word = some (c.move word w) := by
  rw [Cursor.word?, pass?_of_rest hc, Option.filter_some]
  have hpeek : (c.move word w).peek.any Text.continuesName = false := by
    show w.head?.any Text.continuesName = false
    cases hx : w.head? with
    | none => rfl
    | some x => exact hw x hx
  rw [hpeek]
  rfl

theorem leavesName_blank (w : Text) : LeavesName (' ' :: w) := fun _ hx => Option.some.inj hx ▸ rfl

theorem leavesName_paren (w : Text) : LeavesName ('(' :: w) := fun _ hx => Option.some.inj hx ▸ rfl

theorem macroSteps_of_return (name : Text) {gap : Text} (hgap : ∀ x ∈ gap, Lexeme.isSeparator x)
    (hc : c.rest = gap ++ ("@@return" ++ (' ' :: w))) :
    ∃ d, macroSteps name c = .ok ([], d) ∧ d.rest = ' ' :: w := by
  have hstart : c.skipSeparators.rest = "@@".toList ++ ("return" ++ (' ' :: w)) :=
    rest_skipSeparators hgap (endsBlank_cons (by decide) (by decide)) hc
  have hmore : (c.skipSeparators.atEnd || decide (c.skipSeparators.peek = some '}')) = false := by
    rw [Cursor.atEnd, Cursor.peek, hstart]
    rfl
  have hword := @word?_of_rest (c.skipSeparators.move "@@" ("return" ++ (' ' :: w))) _ _ (leavesName_blank w) rfl
  refine ⟨(c.skipSeparators.move "@@" ("return" ++ (' ' :: w))).move "return" (' ' :: w), ?_, rfl⟩
  rw [macroSteps_eq, hmore, pass?_of_rest hstart]
  simp only [Bool.false_eq_true, if_false]
  rw [hword]

/-- A text at which a row of labels ends: its closing bracket, or the end of the line. -/
def EndsLabels (close : Char) (w : Text) : Prop := ∃ x rest, w = x :: rest ∧ (x = close ∨ x = '\n')

theorem not_ends_of_startsLabel {close x : Char} (hclose : Text.isCloser close) (hx : Text.startsLabel x)
    (rest : Text) :
    (Lexeme.endsRaw (fun _ => false) (x :: rest) || decide ((x :: rest).head? = some close)) = false := by
  have hc : Text.startsLabel close = false := by
    simp only [Text.isCloser, Bool.or_eq_true, decide_eq_true_eq] at hclose
    rcases hclose with (rfl | rfl) | rfl <;> decide
  have hne : ∀ {y : Char}, Text.startsLabel y = false → x ≠ y := fun hy => Text.ne_of_startsLabel hx hy
  simp [Lexeme.endsRaw, Lexeme.startsComment, hne hc, @hne '\n' rfl, @hne ';' rfl, @hne '/' rfl]

variable {close : Char} (hclose : Text.isCloser close)
include hclose

theorem EndsLabels.spec (h : EndsLabels close w) :
    LeavesLabel w ∧ EndsBlank Lexeme.isInlineBlank w ∧ (∀ y ∈ w.head?, y ≠ ',') ∧
      (Lexeme.endsRaw (fun _ => false) w || decide (w.head? = some close)) = true := by
  obtain ⟨x, rest, rfl, hx⟩ := h
  have hx : (x = ')' ∨ x = ']' ∨ x = '}') ∧ x = close ∨ x = '\n' := by
    refine hx.imp_left fun hx => ⟨?_, hx⟩
    simpa only [hx, Text.isCloser, Bool.or_eq_true, decide_eq_true_eq, or_assoc] using hclose
  rcases hx with ⟨rfl | rfl | rfl, rfl⟩ | rfl
  all_goals
    refine ⟨fun y hy => ?_, endsBlank_cons rfl (by decide), fun y hy => ?_, ?_⟩
    · exact Option.some.inj hy ▸ by decide
    · exact Option.some.inj hy ▸ by decide
    · simp [Lexeme.endsRaw]

theorem labels_of_rest (hw : EndsLabels close w) : ∀ {names : List Text} {c : Cursor}, names ≠ [] →
    (∀ name ∈ names, IsLabel name) → c.rest = Text.join ", " names ++ w →
    ∃ d, labels c = .ok (names, d) ∧ d.rest = w
  | [], _, hne, _, _ => absurd rfl hne
  | [name], c, _, hnames, hc => by
    obtain ⟨hleaves, hblank, hcomma, -⟩ := hw.spec hclose
    have hlabel := label_of_rest (hnames name List.mem_cons_self) hleaves hc
    have hrest : (c.move name w).skipInline.rest = w := rest_skipInline_self hblank rfl
    refine ⟨_, ?_, hrest⟩
    rw [labels_eq, hlabel]
    simp only [bind, Except.bind]
    rw [eat?_eq_none (by rwa [hrest])]
    rfl
  | name :: next :: names, c, _, hnames, hc => by
    generalize hrow : Text.join ", " (next :: names) ++ w = row
    have hmore : ∀ label ∈ next :: names, IsLabel label := fun label hl => hnames label (List.mem_cons_of_mem name hl)
    have hc : c.rest = name ++ (',' :: ' ' :: row) := by
      rw [hc, ← hrow]
      simp [Text.join]
    have hleaves : LeavesLabel (',' :: ' ' :: row) := fun y hy => Option.some.inj hy ▸ by decide
    have hlabel := label_of_rest (hnames name List.mem_cons_self) hleaves hc
    have hcomma : (c.move name (',' :: ' ' :: row)).skipInline.rest = ',' :: ' ' :: row :=
      rest_skipInline_self (endsBlank_cons rfl (by decide)) rfl
    have hnext : ((c.move name (',' :: ' ' :: row)).skipInline.move [','] (' ' :: row)).skipInline.rest = row := by
      obtain ⟨x, rest, hx, hstart⟩ :=
        join_head ", " (List.cons_ne_nil next names) fun l hl => (hmore l hl).exists_cons
      refine rest_skipInline_blank ?_ rfl
      rw [← hrow, hx]
      exact endsBlank_of_head blank_or_of_isInlineBlank (.inl hstart) _
    obtain ⟨d, hd, hrest⟩ := labels_of_rest hw (List.cons_ne_nil next names) hmore (hnext.trans hrow.symm)
    refine ⟨d, ?_, hrest⟩
    rw [labels_eq, hlabel]
    simp only [bind, Except.bind, eat?_of_rest hcomma, hd]
    rfl

/-- **A row of labels is read as it was written**, an empty one as well. -/
theorem labelList_of_rest (hw : EndsLabels close w) {names : List Text} (hnames : ∀ name ∈ names, IsLabel name)
    {gap : Text} (hgap : IsGap gap) (hc : c.rest = gap ++ (Text.join ", " names ++ w)) :
    ∃ d, labelList close c = .ok (names, d) ∧ d.rest = w := by
  obtain ⟨-, hblank, -, hends⟩ := hw.spec hclose
  by_cases hne : names = []
  · subst hne
    have hstart : c.skipInline.rest = w := rest_skipInline (hgap.all rfl) hblank hc
    refine ⟨c.skipInline, ?_, hstart⟩
    rw [labelList, Cursor.atLineEnd, Cursor.peek, hstart, if_pos hends]
  · obtain ⟨x, rest, hx, hlabel⟩ := join_head ", " hne fun l hl => (hnames l hl).exists_cons
    have hstart : c.skipInline.rest = Text.join ", " names ++ w := by
      refine rest_skipInline (hgap.all rfl) ?_ hc
      rw [hx]
      exact endsBlank_of_head blank_or_of_isInlineBlank (.inl hlabel) _
    have hopen : (c.skipInline.atLineEnd || decide (c.skipInline.peek = some close)) = false := by
      rw [Cursor.atLineEnd, Cursor.peek, hstart, hx]
      exact not_ends_of_startsLabel hclose hlabel _
    obtain ⟨d, hd, hrest⟩ := labels_of_rest hclose hw hne hnames hstart
    refine ⟨d, ?_, hrest⟩
    rw [labelList, hopen]
    exact hd

end

section

variable {name : Text} {inputs outputs : List Text} {body w : Text}

/-- A macro is read with its name and its inputs, and with whatever is inside of it. -/
theorem macroBlock_of_inside {Q : List Step → Text → Prop} {c : Cursor} (hname : IsName name)
    (hinputs : ∀ l ∈ inputs, IsLabel l) (hreturns : outputs ≠ [])
    (hbody : ∀ b : Cursor, b.rest = body → ∃ ss ended d, inside name b = .ok ((ss, outputs), ended) ∧
      Q ss (Text.trim (b.upTo ended)) ∧ ended.skipSeparators.eat? '}' = some d ∧ d.rest = w)
    (position : Position)
    (hc : c.rest = ' ' :: (name ++ ('(' :: (Text.join ", " inputs ++ (')' :: ' ' :: '{' :: body))))) :
    ∃ block d, macroBlock position c = .ok (block, d) ∧ (block.name = name ∧ block.inputs = inputs ∧
      block.outputs = outputs ∧ Q block.body block.source) ∧ d.rest = w := by
  have hstart : c.skipInline.rest = name ++ ('(' :: (Text.join ", " inputs ++ (')' :: ' ' :: '{' :: body))) := by
    obtain ⟨x, rest, rfl, hx, -⟩ := isName_iff.1 hname
    exact rest_skipInline_blank
      (endsBlank_of_head blank_or_of_isInlineBlank (.inl (Text.startsLabel_of_startsName hx)) _) hc
  have hn := name?_of_rest hname (leavesName_paren _) hstart
  generalize hb : c.skipInline.move name ('(' :: (Text.join ", " inputs ++ (')' :: ' ' :: '{' :: body))) = b at hn
  have hparen : b.skipInline.rest = '(' :: (Text.join ", " inputs ++ (')' :: ' ' :: '{' :: body)) :=
    rest_skipInline_self (endsBlank_cons rfl (by decide)) (by rw [← hb]; rfl)
  obtain ⟨d, hd, hdrest⟩ := @labelList_of_rest
    (b.skipInline.move ['('] (Text.join ", " inputs ++ (')' :: ' ' :: '{' :: body))) _ ')' rfl
    ⟨')', _, rfl, .inl rfl⟩ _ hinputs _ isGap_nil rfl
  have hbrace : (d.move [')'] (' ' :: '{' :: body)).skipBlank.rest = '{' :: body :=
    congrArg Prod.snd (blank_append_of_all rfl (endsBlank_cons rfl (by decide)) (isGap_blank.all rfl))
  obtain ⟨opened, hopened, hrest⟩ : ∃ opened, (d.move [')'] (' ' :: '{' :: body)).skipBlank.expect '{'
      (.macroStart name) = .ok opened ∧ opened.rest = body := ⟨_, expect_of_rest hbrace _, rfl⟩
  obtain ⟨ss, ended, closed, hinside, hQ, hclosed, hclosedrest⟩ := hbody opened hrest
  have hsome : ¬ outputs.isEmpty = true := by rwa [List.isEmpty_iff]
  refine ⟨⟨name, inputs, outputs, ss, Text.trim (opened.upTo ended), position⟩, closed, ?_, ⟨rfl, rfl, rfl, hQ⟩,
    hclosedrest⟩
  rw [macroBlock_eq, hn]
  simp only [expect_of_rest hparen, bind, Except.bind, hd, expect_of_rest hdrest, hopened, hinside, if_neg hsome,
    hclosed]
  rfl

/-- Behind the words `@@macro` stands a macro. -/
theorem item_of_macroBlock {R : MacroBlock → Cursor → Prop} {c : Cursor} {row : Text}
    (hc : c.rest = "@@macro" ++ (' ' :: row))
    (hblock : ∀ b : Cursor, b.rest = ' ' :: row → ∃ block d, macroBlock c.position b = .ok (block, d) ∧ R block d) :
    ∃ block d, item c = .ok (.macroBlock block, d) ∧ R block d := by
  have hpass : c.pass? "@@" = some (c.move "@@" ("macro" ++ (' ' :: row))) := pass?_of_rest hc
  have hword : (c.move "@@" ("macro" ++ (' ' :: row))).word? "macro" = _ := word?_of_rest (leavesName_blank row) rfl
  obtain ⟨block, d, hd, hR⟩ := hblock ((c.move "@@" ("macro" ++ (' ' :: row))).move "macro" (' ' :: row)) rfl
  refine ⟨block, d, ?_, hR⟩
  rw [item, hpass]
  simp only [hword, hd]
  rfl

variable {P : List Step → Prop} {c : Cursor}
  (hname : IsName name) (hinputs : ∀ l ∈ inputs, IsLabel l) (houtputs : ∀ l ∈ outputs, IsLabel l)
  (hreturns : outputs ≠ [])
  (hbody : ∀ b : Cursor, b.rest = body → ∃ ss d, macroSteps name b = .ok (ss, d) ∧ P ss ∧
    d.rest = ' ' :: (Text.join ", " outputs ++ ('\n' :: '}' :: w)))
include hname hinputs houtputs hreturns hbody

/-- **A macro is read with its name, its inputs, its outputs**, and whatever steps its body is read as. -/
theorem macroBlock_of_rest (position : Position)
    (hc : c.rest = ' ' :: (name ++ ('(' :: (Text.join ", " inputs ++ (')' :: ' ' :: '{' :: body))))) :
    ∃ block d, macroBlock position c = .ok (block, d) ∧ (block.name = name ∧ block.inputs = inputs ∧
      block.outputs = outputs ∧ P block.body) ∧ d.rest = w := by
  refine macroBlock_of_inside (Q := fun ss _ => P ss) hname hinputs hreturns (fun b hb => ?_) position hc
  obtain ⟨ss, e, he, hP, herest⟩ := hbody b hb
  have heskip : e.skipInline.rest = Text.join ", " outputs ++ ('\n' :: '}' :: w) := by
    obtain ⟨x, rest, hx, hlabel⟩ := join_head ", " hreturns fun l hl => (houtputs l hl).exists_cons
    refine rest_skipInline_blank ?_ herest
    rw [hx]
    exact endsBlank_of_head blank_or_of_isInlineBlank (.inl hlabel) _
  obtain ⟨ended, hended, hendedrest⟩ := @labelList_of_rest e.skipInline _ '}' rfl
    ⟨'\n', _, rfl, .inr rfl⟩ _ houtputs _ isGap_nil heskip
  have hclosed : ended.skipSeparators.rest = '}' :: w :=
    @rest_skipSeparators ended ['\n'] ('}' :: w) (List.all_eq_true.1 rfl) (endsBlank_cons rfl (by decide)) hendedrest
  exact ⟨ss, ended, _, bind_eq_ok.2 ⟨_, he, bind_eq_ok.2 ⟨_, hended, rfl⟩⟩, hP, eat?_of_rest hclosed, rfl⟩

/-- **A macro is an item.** -/
theorem item_macro (hc : c.rest = "@@macro" ++
    (' ' :: (name ++ ('(' :: (Text.join ", " inputs ++ (')' :: ' ' :: '{' :: body)))))) :
    ∃ block d, item c = .ok (.macroBlock block, d) ∧ (block.name = name ∧ block.inputs = inputs ∧
      block.outputs = outputs ∧ P block.body) ∧ d.rest = w :=
  item_of_macroBlock hc fun _ hb => macroBlock_of_rest hname hinputs houtputs hreturns hbody c.position hb

end

end StyleScript.Script
