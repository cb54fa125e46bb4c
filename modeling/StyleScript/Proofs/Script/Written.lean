import Mathlib.Data.List.TakeWhile
import StyleScript.SheetWriter
import StyleScript.Proofs.Script.Prolonged
/-!
# Reading what is written

Names, labels and the entries of sheets are read in full in front of what a writer puts behind them.  The
statements follow one form: a cursor that stands before a written text and some rest answers what was written
and a cursor that stands before the rest.

A property name is followed by a blank, a `:`, a `;` or a `}`; a value is followed by blanks and then a `;` or
a `}`.  So a row of entries is read entry by entry (`entries_of_rest`) as soon as each value is closed.
-/
namespace StyleScript.Script

open Text (Context)

/-! ## Names and labels -/

def IsName (name : Text) : Prop := Lexeme.name? name = some (name, [])

def IsLabel (label : Text) : Prop := Lexeme.label? label = .ok (some (label, []))

def IsPropertyName (name : Text) : Prop := IsName name ∨ ∃ screen, name = '@' :: screen ∧ IsName screen

instance (name : Text) : Decidable (IsName name) := inferInstanceAs (Decidable (_ = _))

instance (label : Text) : Decidable (IsLabel label) := inferInstanceAs (Decidable (_ = _))

instance (name : Text) : Decidable (IsPropertyName name) :=
  decidable_of_iff (IsName name ∨ name.head? = some '@' ∧ IsName name.tail) <| by
    refine or_congr Iff.rfl ⟨fun ⟨hhead, hname⟩ => ⟨name.tail, ?_, hname⟩, ?_⟩
    · exact (List.cons_head?_tail hhead).symm
    · rintro ⟨screen, rfl, hname⟩
      exact ⟨rfl, hname⟩

/-- A text that goes on no name. -/
def LeavesName (w : Text) : Prop := ∀ c ∈ w.head?, Text.continuesName c = false

theorem isName_iff {name : Text} :
    IsName name ↔ ∃ c rest, name = c :: rest ∧ Text.startsName c ∧ ∀ d ∈ rest, Text.continuesName d := by
  constructor
  · intro h
    cases name with
    | nil => cases h
    | cons c rest =>
      simp only [IsName, Lexeme.name?] at h
      split at h
      · next hc =>
        simp only [Option.some.injEq, Prod.mk.injEq, List.dropWhile_eq_nil_iff] at h
        exact ⟨c, rest, rfl, hc, h.2⟩
      · cases h
  · rintro ⟨c, rest, rfl, hc, hrest⟩
    rw [IsName, Lexeme.name?, if_pos hc, List.takeWhile_eq_self_iff.2 hrest, List.dropWhile_eq_nil_iff.2 hrest]

theorem IsName.ne_nil {name : Text} (h : IsName name) : name ≠ [] := by
  rintro rfl
  cases h

theorem IsLabel.ne_nil {label : Text} (h : IsLabel label) : label ≠ [] := Lexeme.label?_ne_nil h

theorem IsName.head {name : Text} (h : IsName name) {c : Char} (hc : c ∈ name.head?) : Text.startsLabel c := by
  obtain ⟨d, rest, rfl, hd, -⟩ := isName_iff.1 h
  rw [← Option.some.inj hc]
  exact Text.startsLabel_of_startsName hd

theorem IsLabel.head {label : Text} (h : IsLabel label) {c : Char} (hc : c ∈ label.head?) : Text.startsLabel c := by
  cases label with
  | nil => cases hc
  | cons d rest =>
    simp only [IsLabel, Lexeme.label?] at h
    split at h
    · next hd => rwa [← Option.some.inj hc]
    · cases h

theorem IsPropertyName.head {name : Text} (h : IsPropertyName name) :
    ∃ c rest, name = c :: rest ∧ (Text.startsLabel c ∨ c = '@') := by
  rcases h with h | ⟨screen, rfl, -⟩
  · obtain ⟨c, rest, hname⟩ := List.exists_cons_of_ne_nil h.ne_nil
    exact ⟨c, rest, hname, .inl (h.head (by rw [hname]; rfl))⟩
  · exact ⟨'@', screen, rfl, .inr rfl⟩

theorem ne_of_head {c x : Char} (h : Text.startsLabel c ∨ c = '@') (hx : Text.startsLabel x = false)
    (hat : x ≠ '@' := by decide) : c ≠ x := by
  rcases h with h | rfl
  · exact Text.ne_of_startsLabel h hx
  · exact hat.symm

section

variable {c : Cursor} {w : Text}

theorem eat?_of_rest {x : Char} (hc : c.rest = x :: w) : c.eat? x = some (c.move [x] w) := by
  rw [Cursor.eat?, hc]
  exact if_pos rfl

theorem eat?_eq_none {x : Char} (h : ∀ y ∈ c.rest.head?, y ≠ x) : c.eat? x = none := by
  unfold Cursor.eat?
  cases hc : c.rest with
  | nil => rfl
  | cons y rest => exact if_neg (h y (by rw [hc]; rfl))

theorem expect_of_rest {x : Char} (hc : c.rest = x :: w) (place : Place) :
    c.expect x place = .ok (c.move [x] w) := by
  rw [Cursor.expect, eat?_of_rest hc]

theorem name?_of_rest {name : Text} (hname : IsName name) (hw : LeavesName w) (hc : c.rest = name ++ w) :
    c.name? = some (name, c.move name w) := by
  rw [Cursor.name?, hc, name?_append_of_head hw hname.ne_nil, hname]
  rfl

theorem label_of_rest {label : Text} (hlabel : IsLabel label) (hw : LeavesLabel w) (hc : c.rest = label ++ w) :
    c.label = .ok (label, c.move label w) := by
  obtain ⟨x, rest, rfl⟩ := List.exists_cons_of_ne_nil hlabel.ne_nil
  have hx : Text.startsLabel x := hlabel.head rfl
  have htail : Lexeme.labelTail false (x :: rest) = .ok (x :: rest, []) := by
    simp only [IsLabel, Lexeme.label?, if_pos hx] at hlabel
    cases hr : Lexeme.labelTail false (x :: rest) with
    | error halt => rw [hr] at hlabel; cases hlabel
    | ok p => rw [hr] at hlabel; exact congrArg Except.ok (Option.some.inj (Except.ok.inj hlabel))
  have happ := labelTail_append_of_head hw htail
  rw [Cursor.label, hc]
  rw [List.cons_append] at happ ⊢
  simp only [Lexeme.label?, if_pos hx, happ]
  rfl

theorem propertyName_of_rest {name : Text} (hname : IsPropertyName name) (hw : LeavesName w)
    (hc : c.rest = name ++ w) : ∃ d, propertyName c = .ok (name, d) ∧ d.rest = w := by
  rcases hname with hname | ⟨screen, rfl, hname⟩
  · have hat : c.eat? '@' = none := by
      refine eat?_eq_none fun y hy => Text.ne_of_startsLabel (hname.head ?_) rfl
      rwa [hc, List.head?_append_of_ne_nil _ hname.ne_nil] at hy
    refine ⟨c.move name w, ?_, rfl⟩
    rw [propertyName, hat, name?_of_rest hname hw hc]
  · rw [List.cons_append] at hc
    refine ⟨(c.move ['@'] (screen ++ w)).move screen w, ?_, rfl⟩
    rw [propertyName, eat?_of_rest hc]
    simp only
    rw [name?_of_rest hname hw rfl]

end

/-! ## Blank space -/

/-- A text where blank space ends. -/
def EndsBlank (passes : Char → Bool) (w : Text) : Prop :=
  (∀ c ∈ w.head?, passes c = false) ∧ Lexeme.startsComment w = false

theorem endsBlank_cons {passes : Char → Bool} {c : Char} {w : Text} (h : passes c = false) (hc : c ≠ '/') :
    EndsBlank passes (c :: w) := by
  refine ⟨fun d hd => Option.some.inj hd ▸ h, ?_⟩
  simp [Lexeme.startsComment, hc]

theorem endsBlank_nil (passes : Char → Bool) : EndsBlank passes [] :=
  ⟨fun x hx => absurd hx (Option.not_mem_none x), rfl⟩

theorem blank_of_endsBlank {passes : Char → Bool} {w : Text} (hw : EndsBlank passes w) :
    Lexeme.blank passes false w = ([], w) := by
  cases w with
  | nil => rfl
  | cons c w =>
    have hc := hw.1 c rfl
    have hs := hw.2
    simp only [Lexeme.blank, hc, hs]
    rfl

/-- Behind blank space a text begins where blank space ends. -/
theorem endsBlank_blank (passes : Char → Bool) : ∀ (inComment : Bool) (text : Text),
    EndsBlank passes (Lexeme.blank passes inComment text).2
  | _, [] => endsBlank_nil passes
  | inComment, c :: text => by
    rw [Lexeme.blank]
    split
    · exact endsBlank_blank passes _ text
    · next hstop =>
      simp only [Bool.or_eq_true, not_or, Bool.not_eq_true] at hstop
      exact ⟨fun x hx => Option.some.inj hx ▸ hstop.2, hstop.1.2⟩

theorem blank_append_gap {passes : Char → Bool} (hslash : passes '/' = false) (w : Text) : ∀ {gap : Text},
    (∀ c ∈ gap, passes c) →
    Lexeme.blank passes false (gap ++ w) = (gap ++ (Lexeme.blank passes false w).1, (Lexeme.blank passes false w).2)
  | [], _ => rfl
  | c :: gap, h => by
    have hc : c ≠ '/' := by
      rintro rfl
      rw [h '/' List.mem_cons_self] at hslash
      cases hslash
    have hs : Lexeme.startsComment (c :: (gap ++ w)) = false := by simp [Lexeme.startsComment, hc]
    have ih := blank_append_gap hslash w fun d hd => h d (List.mem_cons_of_mem c hd)
    rw [List.cons_append]
    simp only [Lexeme.blank, hs, h c List.mem_cons_self, Bool.false_and, Bool.or_false, Bool.or_true, if_true, ih]
    rfl

theorem blank_append_of_all {passes : Char → Bool} (hslash : passes '/' = false) {w : Text}
    (hw : EndsBlank passes w) {gap : Text} (h : ∀ c ∈ gap, passes c) :
    Lexeme.blank passes false (gap ++ w) = (gap, w) := by
  rw [blank_append_gap hslash w h, blank_of_endsBlank hw, List.append_nil]

section

variable {c : Cursor} {gap w : Text}

theorem rest_skipInline (hgap : ∀ x ∈ gap, Lexeme.isInlineBlank x) (hw : EndsBlank Lexeme.isInlineBlank w)
    (hc : c.rest = gap ++ w) : c.skipInline.rest = w := by
  show (Lexeme.blank Lexeme.isInlineBlank false c.rest).2 = w
  rw [hc, blank_append_of_all rfl hw hgap]

theorem rest_skipSeparators (hgap : ∀ x ∈ gap, Lexeme.isSeparator x) (hw : EndsBlank Lexeme.isSeparator w)
    (hc : c.rest = gap ++ w) : c.skipSeparators.rest = w := by
  show (Lexeme.blank Lexeme.isSeparator false c.rest).2 = w
  rw [hc, blank_append_of_all rfl hw hgap]

end

/-- Blank space in front of a cursor is skipped with the blank space that it stands before. -/
theorem skipSeparators_gap {gap : Text} (hgap : ∀ x ∈ gap, Lexeme.isSeparator x) (w : Text) (p : Position) :
    (⟨gap ++ w, p⟩ : Cursor).skipSeparators = (⟨w, p.past gap⟩ : Cursor).skipSeparators := by
  simp only [Cursor.skipSeparators, Cursor.skip, blank_append_gap rfl w hgap, Cursor.move, Position.past_append]

theorem isSeparator_of_isBlank {x : Char} (h : Text.isBlank x) : Lexeme.isSeparator x := by
  rw [Lexeme.isSeparator, h, Bool.true_or]

/-- A gap that a writer leaves. -/
def IsGap (gap : Text) : Prop := ∀ x ∈ gap, x = ' '

theorem isGap_nil : IsGap [] := fun _ hx => nomatch hx

theorem isGap_blank : IsGap [' '] := fun _ hx => List.mem_singleton.1 hx

theorem IsGap.all {gap : Text} (h : IsGap gap) {passes : Char → Bool} (hp : passes ' ') : ∀ x ∈ gap, passes x :=
  fun x hx => h x hx ▸ hp

theorem rest_skipInline_self {c : Cursor} {w : Text} (hw : EndsBlank Lexeme.isInlineBlank w) (hc : c.rest = w) :
    c.skipInline.rest = w :=
  @rest_skipInline c [] w (fun _ hx => nomatch hx) hw hc

theorem rest_skipInline_blank {c : Cursor} {w : Text} (hw : EndsBlank Lexeme.isInlineBlank w)
    (hc : c.rest = ' ' :: w) : c.skipInline.rest = w :=
  @rest_skipInline c [' '] w (isGap_blank.all rfl) hw hc

theorem endsBlank_of_head {passes : Char → Bool} (hpasses : ∀ x, passes x → Text.isBlank x ∨ x = ';') {x : Char}
    (hx : Text.startsLabel x ∨ x = '@') (rest : Text) : EndsBlank passes (x :: rest) := by
  refine endsBlank_cons ?_ (ne_of_head hx rfl)
  cases hp : passes x with
  | false => rfl
  | true =>
    rcases hx with hx | rfl
    · rcases hpasses x hp with hb | rfl
      · rw [Text.isBlank_of_startsLabel hx] at hb
        cases hb
      · exact absurd hx (by decide)
    · rcases hpasses '@' hp with hb | hb
      · exact absurd hb (by decide)
      · exact absurd hb (by decide)

theorem blank_or_of_isSeparator (x : Char) (h : Lexeme.isSeparator x) : Text.isBlank x ∨ x = ';' := by
  simpa only [Lexeme.isSeparator, Bool.or_eq_true, decide_eq_true_eq] using h

theorem blank_or_of_isInlineBlank (x : Char) (h : Lexeme.isInlineBlank x) : Text.isBlank x ∨ x = ';' := by
  simp only [Lexeme.isInlineBlank, Bool.and_eq_true] at h
  exact .inl h.2

/-! ## Entries -/

/-- An entry as it is written. -/
def Action.text (name : Text) : Action → Text
  | .reset => '~' :: name
  | .set value => if value.isEmpty then name else name ++ ": " ++ value

theorem Action.text_set (name value : Text) :
    (Action.set value).text name = name ++ if value.isEmpty then [] else ':' :: ' ' :: value := by
  rw [Action.text]
  split
  · rw [List.append_nil]
  · rw [List.append_assoc]
    rfl

/-- What an entry says, and of which property. -/
def Entry.meaning (e : Entry) : Text × Action := (e.name, e.action)

/-- A property name, and an action that is read as it is written. -/
structure Legible (name : Text) (action : Action) : Prop where
  name : IsPropertyName name
  value : ∀ value, action = .set value → Lexeme.Closed (· = '}') value

theorem Legible.head {name : Text} {action : Action} (h : Legible name action) :
    ∃ x rest, action.text name = x :: rest ∧ Lexeme.isSeparator x = false ∧ x ≠ '/' ∧ x ≠ '}' := by
  obtain ⟨x, rest, hname, hx⟩ := h.name.head
  cases action with
  | reset => exact ⟨'~', name, rfl, rfl, by decide, by decide⟩
  | set value =>
    have hblank := endsBlank_of_head blank_or_of_isSeparator hx []
    refine ⟨x, rest ++ if value.isEmpty then [] else ':' :: ' ' :: value, ?_, hblank.1 x rfl, ne_of_head hx rfl,
      ne_of_head hx rfl⟩
    rw [Action.text_set, hname]
    rfl

/-- A text at which an entry ends. -/
def EndsEntry (r : Text) : Prop := ∃ x rest, r = x :: rest ∧ (x = ';' ∨ x = '}')

theorem EndsEntry.endsBlank {r : Text} (h : EndsEntry r) : EndsBlank Lexeme.isInlineBlank r := by
  obtain ⟨x, rest, rfl, rfl | rfl⟩ := h
  · exact endsBlank_cons rfl (by decide)
  · exact endsBlank_cons rfl (by decide)

theorem EndsEntry.endsRaw {r : Text} (h : EndsEntry r) : Lexeme.endsRaw (· = '}') r := by
  obtain ⟨x, rest, rfl, rfl | rfl⟩ := h
  · rfl
  · rfl

theorem EndsEntry.head {r : Text} (h : EndsEntry r) {y : Char} (hy : y ≠ ';') (hy' : y ≠ '}') : r.head? ≠ some y := by
  obtain ⟨x, rest, rfl, rfl | rfl⟩ := h
  · exact fun he => hy (Option.some.inj he).symm
  · exact fun he => hy' (Option.some.inj he).symm

theorem head_gap {gap r : Text} (hgap : IsGap gap) (hr : EndsEntry r) {x : Char} (hx : x ∈ (gap ++ r).head?) :
    x = ' ' ∨ x = ';' ∨ x = '}' := by
  cases gap with
  | nil =>
    obtain ⟨y, rest, rfl, hy⟩ := hr
    rw [← Option.some.inj hx]
    exact .inr hy
  | cons y gap => exact .inl (Option.some.inj hx ▸ hgap y List.mem_cons_self)

theorem leavesName_gap {gap r : Text} (hgap : IsGap gap) (hr : EndsEntry r) : LeavesName (gap ++ r) := by
  intro x hx
  rcases head_gap hgap hr hx with rfl | rfl | rfl <;> rfl

theorem joined_gap {gap r : Text} (hgap : IsGap gap) (hr : EndsEntry r) (value : Text) :
    Lexeme.Joined value (gap ++ r) := by
  refine Lexeme.joined_of_head fun hh => ?_
  rcases head_gap hgap hr hh with h | h | h <;> exact absurd h (by decide)

/-- A closed value is not taken for a comment, and goes on with no blank in front of it. -/
theorem endsBlank_of_closed {stop : Char → Bool} {value r : Text} (h : Lexeme.Closed stop value) (hne : value ≠ [])
    (hj : Lexeme.Joined value r) : EndsBlank Lexeme.isInlineBlank (value ++ r) := by
  obtain ⟨x, rest, rfl⟩ := List.exists_cons_of_ne_nil hne
  have hx : Text.isBlank x = false := h.trimmed.1 x rfl
  refine ⟨fun y hy => ?_, ?_⟩
  · rw [← Option.some.inj hy, Lexeme.isInlineBlank, hx, Bool.and_false]
  · rw [Lexeme.startsComment_append hj]
    have hthrough := h.through
    cases hs : Lexeme.startsComment (x :: rest) with
    | false => rfl
    | true => simp [Lexeme.through?, Lexeme.endsRaw, hs] at hthrough

theorem raw_of_rest {c : Cursor} {value gap r : Text} (h : Lexeme.Closed (· = '}') value) (hne : value ≠ [])
    (hgap : IsGap gap) (hr : EndsEntry r) (hc : c.rest = value ++ (gap ++ r)) :
    ∃ d, c.raw (· = '}') = .ok (value, d) ∧ d.rest = r := by
  have hraw := Lexeme.raw_of_closed_blanks Lexeme.stopsOutside_brace h hne (hgap.all rfl) hr.endsRaw
    (fun _ => Lexeme.joined_of_head (hr.head (by decide) (by decide))) hc
  exact ⟨_, hraw, rfl⟩

/-- **An entry is read as it was written**, up to the `;` or `}` that ends it. -/
theorem entry_of_rest {c : Cursor} {name : Text} {action : Action} (he : Legible name action) {gap r : Text}
    (hgap : IsGap gap) (hr : EndsEntry r) (hc : c.rest = action.text name ++ (gap ++ r)) :
    ∃ d, entry c = .ok (⟨name, action, c.position⟩, d) ∧ d.skipInline.rest = r := by
  obtain ⟨x, more, hname, hx⟩ := he.name.head
  have hskip : ∀ {d : Cursor}, d.rest = gap ++ r → d.skipInline.rest = r :=
    rest_skipInline (hgap.all rfl) hr.endsBlank
  cases action with
  | reset =>
    have hc : c.rest = '~' :: (name ++ (gap ++ r)) := hc
    have hstart : (c.move ['~'] (name ++ (gap ++ r))).skipInline.rest = name ++ (gap ++ r) := by
      refine rest_skipInline_self ?_ rfl
      rw [hname]
      exact endsBlank_of_head blank_or_of_isInlineBlank hx _
    obtain ⟨d, hd, hrest⟩ := propertyName_of_rest he.name (leavesName_gap hgap hr) hstart
    refine ⟨d, ?_, hskip hrest⟩
    rw [entry, eat?_of_rest hc]
    simp only [hd]
    rfl
  | set value =>
    have htilde : c.eat? '~' = none := by
      refine eat?_eq_none fun y hy => ?_
      rw [hc, Action.text_set, hname] at hy
      exact Option.some.inj hy ▸ ne_of_head hx rfl
    by_cases hvalue : value = []
    · -- the bare name, whose value is the empty text
      subst hvalue
      have hc : c.rest = name ++ (gap ++ r) := hc
      obtain ⟨d, hd, hrest⟩ := propertyName_of_rest he.name (leavesName_gap hgap hr) hc
      have hr' : d.skipInline.rest = r := hskip hrest
      have hcolon : d.skipInline.eat? ':' = none := by
        refine eat?_eq_none fun y hy hcolon => ?_
        rw [hr', hcolon] at hy
        exact hr.head (by decide) (by decide) hy
      refine ⟨d.skipInline, ?_, rest_skipInline_self hr.endsBlank hr'⟩
      rw [entry, htilde]
      simp only [hd, bind, Except.bind]
      rw [entryValue, hcolon]
      rfl
    · have hc : c.rest = name ++ (':' :: ' ' :: (value ++ (gap ++ r))) := by
        rw [hc, Action.text_set, if_neg (by rwa [List.isEmpty_iff])]
        simp
      have hleaves : LeavesName (':' :: ' ' :: (value ++ (gap ++ r))) := fun y hy => by
        rw [← Option.some.inj hy]; rfl
      obtain ⟨d, hd, hrest⟩ := propertyName_of_rest he.name hleaves hc
      have hcolon := rest_skipInline_self (endsBlank_cons (by decide) (by decide)) hrest
      have hclosed := he.value value rfl
      have hvalue' : (d.skipInline.move [':'] (' ' :: (value ++ (gap ++ r)))).skipInline.rest =
          value ++ (gap ++ r) := by
        refine rest_skipInline_blank ?_ rfl
        exact endsBlank_of_closed hclosed hvalue (joined_gap hgap hr value)
      obtain ⟨b, hb, hbr⟩ := raw_of_rest hclosed hvalue hgap hr hvalue'
      refine ⟨b, ?_, rest_skipInline_self hr.endsBlank hbr⟩
      rw [entry, htilde]
      simp only [hd, bind, Except.bind]
      rw [entryValue, eat?_of_rest hcolon]
      simp only [hb]
      rfl

/-- **A row of entries is read as it was written**, behind blanks or a `;` and up to its closing brace. -/
theorem entries_of_rest (opened : Position) {w : Text} : ∀ {es : List (Text × Action)} {c : Cursor}
    {lead gap : Text}, (∀ e ∈ es, Legible e.1 e.2) → (∀ x ∈ lead, Lexeme.isSeparator x) → IsGap gap →
    c.rest = lead ++ (Text.join "; " (es.map fun e => e.2.text e.1) ++ (gap ++ '}' :: w)) →
    ∃ read d, entries opened c = .ok (read, d) ∧ d.rest = w ∧ read.map Entry.meaning = es
  | [], c, lead, gap, _, hlead, hgap, hc => by
    have hstart : c.skipSeparators.rest = '}' :: w := by
      refine @rest_skipSeparators c (lead ++ gap) _ (fun x hx => ?_) (endsBlank_cons rfl (by decide)) ?_
      · rcases List.mem_append.1 hx with hx | hx
        · exact hlead x hx
        · exact hgap.all rfl x hx
      · rw [hc, List.append_assoc]
        rfl
    refine ⟨[], c.skipSeparators.move ['}'] w, ?_, rfl, rfl⟩
    rw [entries_eq, eat?_of_rest hstart]
  | e :: es, c, lead, gap, hes, hlead, hgap, hc => by
    have he := hes e List.mem_cons_self
    have hmore : ∀ e ∈ es, Legible e.1 e.2 := fun f hf => hes f (List.mem_cons_of_mem e hf)
    -- what stands behind the entry: the closing brace, or `;` and the next entry
    obtain ⟨gap₁, r, lead₂, gap₂, hrow, hgap₁, hr, hlead₂, hgap₂, hnext⟩ :
        ∃ gap₁ r lead₂ gap₂, Text.join "; " ((e :: es).map fun e => e.2.text e.1) ++ (gap ++ '}' :: w) =
          e.2.text e.1 ++ (gap₁ ++ r) ∧ IsGap gap₁ ∧ EndsEntry r ∧ (∀ x ∈ lead₂, Lexeme.isSeparator x) ∧
          IsGap gap₂ ∧ r = lead₂ ++ (Text.join "; " (es.map fun e => e.2.text e.1) ++ (gap₂ ++ '}' :: w)) := by
      cases es with
      | nil =>
        refine ⟨gap, '}' :: w, [], [], rfl, hgap, ⟨'}', w, rfl, .inr rfl⟩, ?_, isGap_nil, rfl⟩
        exact fun _ hx => nomatch hx
      | cons f es =>
        refine ⟨[], _, [';', ' '], gap, ?_, isGap_nil, ⟨';', _, rfl, .inl rfl⟩, List.all_eq_true.1 rfl, hgap, rfl⟩
        simp [Text.join]
    rw [hrow] at hc
    obtain ⟨x, rest, htext, hsep, hslash, hbrace⟩ := he.head
    have hstart : c.skipSeparators.rest = e.2.text e.1 ++ (gap₁ ++ r) := by
      refine rest_skipSeparators hlead ?_ hc
      rw [htext]
      exact endsBlank_cons hsep hslash
    have hopen : c.skipSeparators.eat? '}' = none := by
      refine eat?_eq_none fun y hy => ?_
      rw [hstart, htext] at hy
      exact Option.some.inj hy ▸ hbrace
    have hmore' : ¬ c.skipSeparators.atEnd = true := by
      rw [Cursor.atEnd, hstart, htext]
      exact Bool.false_ne_true
    obtain ⟨d, hd, hrest⟩ := entry_of_rest he hgap₁ hr hstart
    obtain ⟨read, b, hread, hb, hmeaning⟩ := entries_of_rest opened hmore hlead₂ hgap₂ (hrest.trans hnext)
    have hends : (d.skipInline.atLineEnd || decide (d.skipInline.peek = some '}')) = true := by
      obtain ⟨y, rest, rfl, rfl | rfl⟩ := hr
      · rw [Cursor.atLineEnd, hrest]; rfl
      · rw [Cursor.peek, hrest]; simp
    refine ⟨⟨e.1, e.2, c.skipSeparators.position⟩ :: read, b, ?_, hb, ?_⟩
    · rw [entries_eq, hopen]
      simp only [hmore', hd, bind, Except.bind, hends, if_true, hread]
      rfl
    · rw [List.map_cons, hmeaning]
      rfl

/-! ## Steps -/

/-- A text at which a step begins: a label, or `@` and no other `@`. -/
def BeginsStep (w : Text) : Prop :=
  ∃ x rest, w = x :: rest ∧ (Text.startsLabel x ∨ x = '@') ∧ (x = '@' → rest.head? ≠ some '@')

namespace BeginsStep

theorem endsBlank {w : Text} (h : BeginsStep w) : EndsBlank Lexeme.isSeparator w := by
  obtain ⟨x, rest, rfl, hx, -⟩ := h
  exact endsBlank_of_head blank_or_of_isSeparator hx rest

variable {c : Cursor} (h : BeginsStep c.rest)
include h

theorem atEnd_eq : c.atEnd = false := by
  obtain ⟨x, rest, hc, -, -⟩ := h
  rw [Cursor.atEnd, hc]
  rfl

theorem peek_ne : c.peek ≠ some '}' := by
  obtain ⟨x, rest, hc, hx, -⟩ := h
  rw [Cursor.peek, hc]
  exact fun hy => ne_of_head hx rfl (by decide) (Option.some.inj hy)

theorem pass?_eq_none : c.pass? "@@" = none := by
  obtain ⟨x, rest, hc, -, hat⟩ := h
  rw [Cursor.pass?, hc]
  by_cases hx : '@' = x
  · have hrest := hat hx.symm
    cases rest with
    | nil => simp [Text.after?]
    | cons y rest =>
      have hy : '@' ≠ y := fun hy => hrest (by rw [← hy]; rfl)
      simp [Text.after?, hy]
  · simp [Text.after?, hx]

theorem item_of_step {s : Step} {d : Cursor} (hs : step c = .ok (s, d)) : item c = .ok (.step s, d) := by
  rw [item, h.pass?_eq_none]
  simp only [hs]
  rfl

end BeginsStep

theorem items_of_blank {c : Cursor} (h : ∀ x ∈ c.rest, Lexeme.isSeparator x) : items c = .ok [] := by
  have hrest := rest_skipSeparators h (endsBlank_nil _) (List.append_nil c.rest).symm
  rw [items_eq, Cursor.atEnd, hrest]
  rfl

/-! ## Sheets -/

theorem beginsStep_definition {name : Text} (hname : IsName name) (w : Text) : BeginsStep ('@' :: (name ++ w)) := by
  obtain ⟨x, rest, rfl, hx, -⟩ := isName_iff.1 hname
  refine ⟨'@', _, rfl, .inr rfl, fun _ hy => ?_⟩
  exact Text.ne_of_startsLabel (Text.startsLabel_of_startsName hx) rfl (Option.some.inj hy)

theorem definition_eq (name body : Text) : SheetWriter.definition name body =
    '@' :: (name ++ (' ' :: '=' :: ' ' :: '{' :: ' ' :: (body ++ [' ', '}']))) := by
  simp [SheetWriter.definition]

theorem sheetBody_of_rest {c : Cursor} {es : List (Text × Action)} (hes : ∀ e ∈ es, Legible e.1 e.2) {w : Text}
    (hc : c.rest = '{' :: ' ' :: (Text.join "; " (es.map fun e => e.2.text e.1) ++ (' ' :: '}' :: w))) :
    ∃ read d, sheetBody c = .ok (read, d) ∧ read.map Entry.meaning = es ∧ d.rest = w := by
  obtain ⟨read, d, hread, hrest, hmeaning⟩ :=
    @entries_of_rest c.position w es (c.move ['{'] _) [' '] [' '] hes (isGap_blank.all rfl) isGap_blank rfl
  refine ⟨read, d, ?_, hmeaning, hrest⟩
  rw [sheetBody, expect_of_rest hc]
  exact hread

section

variable {name body w : Text} {P : List Entry → Prop} {c : Cursor}
  (hname : IsName name)
  (hbody : ∀ b : Cursor, b.rest = '{' :: body → ∃ es d, sheetBody b = .ok (es, d) ∧ P es ∧ d.rest = w)
include hname hbody

/-- A definition is read as the sheet of its name, whatever its body is read as. -/
theorem sheetDef_of_rest (position : Position) (hc : c.rest = name ++ (' ' :: '=' :: ' ' :: '{' :: body)) :
    ∃ es d, sheetDef position c = .ok (⟨name, es, position⟩, d) ∧ P es ∧ d.rest = w := by
  have hn := name?_of_rest hname (fun x hx => by rw [← Option.some.inj hx]; rfl) hc
  generalize hb : c.move name (' ' :: '=' :: ' ' :: '{' :: body) = b at hn
  have heq : b.skipInline.rest = '=' :: ' ' :: '{' :: body :=
    rest_skipInline_blank (endsBlank_cons rfl (by decide)) (by rw [← hb]; rfl)
  have hopen : (b.skipInline.move ['='] (' ' :: '{' :: body)).skipInline.rest = '{' :: body :=
    rest_skipInline_blank (endsBlank_cons rfl (by decide)) rfl
  obtain ⟨es, d, hes, hP, hd⟩ := hbody _ hopen
  refine ⟨es, d, ?_, hP, hd⟩
  have hpeek : (b.skipInline.move ['='] (' ' :: '{' :: body)).skipInline.peek = some '{' := congrArg List.head? hopen
  rw [sheetDef, hn]
  simp only [expect_of_rest heq, bind, Except.bind]
  rw [if_pos hpeek, hes]
  rfl

theorem step_definition (hc : c.rest = '@' :: (name ++ (' ' :: '=' :: ' ' :: '{' :: body))) :
    ∃ es d, step c = .ok (.sheet ⟨name, es, c.position⟩, d) ∧ P es ∧ d.rest = w := by
  obtain ⟨es, d, hes, hP, hd⟩ := sheetDef_of_rest hname hbody c.position (c := c.move ['@'] _) rfl
  refine ⟨es, d, ?_, hP, hd⟩
  rw [step, eat?_of_rest hc]
  simp only [hes]
  rfl

theorem item_definition (hc : c.rest = '@' :: (name ++ (' ' :: '=' :: ' ' :: '{' :: body))) :
    ∃ es d, item c = .ok (.step (.sheet ⟨name, es, c.position⟩), d) ∧ P es ∧ d.rest = w := by
  obtain ⟨es, d, hes, hP, hd⟩ := step_definition hname hbody hc
  exact ⟨es, d, (hc ▸ beginsStep_definition hname _ : BeginsStep c.rest).item_of_step hes, hP, hd⟩

end

/-- A script may be one item and nothing else. -/
theorem read_of_item {rest : Text} {i : Item} {d : Cursor} (h : item (.start ('@' :: rest)) = .ok (i, d))
    (hd : d.rest = []) : read ('@' :: rest) = .ok [i] := by
  have hstart : (Cursor.start ('@' :: rest)).skipSeparators = Cursor.start ('@' :: rest) := rfl
  have hend : items d = .ok [] := items_of_blank (by rw [hd]; exact fun _ hx => nomatch hx)
  rw [read, items_eq, hstart, h]
  simp only [ok_bind, hend]
  rfl

/-- **The definition of a sheet is read as that sheet**, and as nothing else. -/
theorem read_definition {name : Text} (hname : IsName name) {es : List (Text × Action)}
    (hes : ∀ e ∈ es, Legible e.1 e.2) :
    ∃ read, Script.read (SheetWriter.definition name (Text.join "; " (es.map fun e => e.2.text e.1))) =
      .ok [.step (.sheet ⟨name, read, .start⟩)] ∧ read.map Entry.meaning = es := by
  generalize hrow : Text.join "; " (es.map fun e => e.2.text e.1) = row
  have hbody : ∀ b : Cursor, b.rest = '{' :: ' ' :: (row ++ [' ', '}']) →
      ∃ read d, sheetBody b = .ok (read, d) ∧ read.map Entry.meaning = es ∧ d.rest = [] :=
    fun b hb => sheetBody_of_rest hes (hrow ▸ hb)
  obtain ⟨read, d, hread, hmeaning, hd⟩ := item_definition hname hbody
    (c := .start (SheetWriter.definition name row)) (definition_eq name row)
  rw [definition_eq] at hread ⊢
  exact ⟨read, read_of_item hread hd, hmeaning⟩

end StyleScript.Script
