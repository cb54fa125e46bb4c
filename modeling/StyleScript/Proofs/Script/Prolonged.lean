import Mathlib.Data.List.Forall2
import StyleScript.Proofs.Script.Equations
import StyleScript.Proofs.Script.Raw
/-!
# In front of more text, and at another place

A reader looks one line break ahead at most.  So a cursor may be *prolonged*: its text goes on with `tail`,
which is empty or begins with a line break, and it may stand at another position.  What was read is then read
again, and the cursor behind it is again a prolonged one.  `Carried` says this of results: a success carries
over; a failure carries over only if nothing was added, since more text may close what was left open.

Positions are compared by a relation `ρ` that one step on both sides preserves, so that one law serves for a
script that moves down some lines and for one that is read with no regard to places.
-/
namespace StyleScript.Script

open Text (Context)

/-- Nothing, or a line break and more. -/
def EndsLine (tail : Text) : Prop := tail = [] ∨ ∃ more, tail = '\n' :: more

theorem EndsLine.head {tail : Text} (h : EndsLine tail) {c : Char} (hc : c ∈ tail.head?) : c = '\n' := by
  rcases h with rfl | ⟨more, rfl⟩
  · cases hc
  · exact (Option.some.inj hc).symm

theorem EndsLine.joined {tail : Text} (h : EndsLine tail) (u : Text) : Lexeme.Joined u tail :=
  Lexeme.joined_of_head fun hc => absurd (h.head hc) (by decide)

/-- Positions that stay related when the same character is passed. -/
def Stepping (ρ : Position → Position → Prop) : Prop := ∀ p q c, ρ p q → ρ (p.next c) (q.next c)

theorem Stepping.past {ρ : Position → Position → Prop} (h : Stepping ρ) :
    ∀ (text : Text) {p q : Position}, ρ p q → ρ (p.past text) (q.past text)
  | [], _, _, hpq => hpq
  | c :: text, _, _, hpq => h.past text (h _ _ c hpq)

theorem stepping_anywhere : Stepping fun _ _ => True := fun _ _ _ _ => trivial

/-- `d` stands before what `c` stands before, and then `tail`. -/
structure Prolonged (ρ : Position → Position → Prop) (tail : Text) (c d : Cursor) : Prop where
  rest : d.rest = c.rest ++ tail
  position : ρ c.position d.position

/-- Two failures for the same cause, at related places. -/
structure SameFault (ρ : Position → Position → Prop) (e f : Fault) : Prop where
  cause : f.cause = e.cause
  position : Option.Rel ρ e.position f.position

/-- A success that carries over; a failure does if nothing was added. -/
def Carried {α β : Type} (ρ : Position → Position → Prop) (tail : Text) (R : α → β → Prop) :
    Except Fault α → Except Fault β → Prop
  | .ok a, y => ∃ b, y = .ok b ∧ R a b
  | .error e, y => tail = [] → ∃ f, y = .error f ∧ SameFault ρ e f

/-- Related results with prolonged cursors behind them. -/
def Behind {α β : Type} (ρ : Position → Position → Prop) (tail : Text) (R : α → β → Prop) (x : α × Cursor)
    (y : β × Cursor) : Prop := R x.1 y.1 ∧ Prolonged ρ tail x.2 y.2

section

variable {α β γ δ : Type} {ρ : Position → Position → Prop} {tail : Text} {R : α → β → Prop} {S : γ → δ → Prop}

theorem Carried.ok {a : α} {b : β} (h : R a b) : Carried ρ tail R (.ok a) (.ok b) := ⟨b, rfl, h⟩

theorem Carried.error {e f : Fault} (h : tail = [] → SameFault ρ e f) :
    Carried ρ tail R (.error e : Except Fault α) (.error f) := fun ht => ⟨f, rfl, h ht⟩

/-- A failure carries over to anything once text was added. -/
theorem Carried.error_of_ne {e : Fault} (y : Except Fault β) (h : tail ≠ []) :
    Carried ρ tail R (.error e) y := fun ht => absurd ht h

theorem Carried.bind {x : Except Fault α} {y : Except Fault β} {f : α → Except Fault γ} {g : β → Except Fault δ}
    (h : Carried ρ tail R x y) (k : ∀ a b, x = .ok a → y = .ok b → R a b → Carried ρ tail S (f a) (g b)) :
    Carried ρ tail S (x >>= f) (y >>= g) := by
  cases x with
  | ok a =>
    obtain ⟨b, rfl, hab⟩ := h
    exact k a b rfl rfl hab
  | error e =>
    intro ht
    obtain ⟨f', rfl, hf⟩ := h ht
    exact ⟨f', rfl, hf⟩

end

/-! ## Lexemes in front of more text -/

section

variable {tail : Text}

theorem blank_tail (ht : EndsLine tail) (passes : Char → Bool) : ∀ (inComment : Bool) (u : Text),
    Lexeme.blank passes inComment (u ++ tail) =
      if (Lexeme.blank passes inComment u).2 = [] then
        (u ++ (Lexeme.blank passes false tail).1, (Lexeme.blank passes false tail).2)
      else ((Lexeme.blank passes inComment u).1, (Lexeme.blank passes inComment u).2 ++ tail)
  | inComment, [] => by
    -- a comment is over at the line break with which the rest begins
    have : Lexeme.blank passes inComment tail = Lexeme.blank passes false tail := by
      rcases ht with rfl | ⟨more, rfl⟩
      · rfl
      · simp [Lexeme.blank, Lexeme.startsComment]
    simp [Lexeme.blank, this]
  | inComment, c :: u => by
    have hs := Lexeme.startsComment_append (ht.joined (c :: u))
    rw [List.cons_append] at hs ⊢
    simp only [Lexeme.blank, hs]
    split
    · next hpass =>
      rw [blank_tail ht passes _ u]
      split <;> simp
    · simp

theorem inlineBlank_tail (ht : EndsLine tail) (u : Text) :
    Lexeme.blank Lexeme.isInlineBlank false (u ++ tail) =
      ((Lexeme.blank Lexeme.isInlineBlank false u).1, (Lexeme.blank Lexeme.isInlineBlank false u).2 ++ tail) := by
  have hstop : Lexeme.blank Lexeme.isInlineBlank false tail = ([], tail) := by
    rcases ht with rfl | ⟨more, rfl⟩
    · rfl
    · simp [Lexeme.blank, Lexeme.startsComment, Lexeme.isInlineBlank]
  rw [blank_tail ht, hstop]
  split
  · next hnil =>
    have := Lexeme.blank_append Lexeme.isInlineBlank false u
    rw [hnil, List.append_nil] at this
    simp [hnil, this]
  · rfl

theorem span_append_of_head {p : Char → Bool} {w : Text} (hw : ∀ c ∈ w.head?, p c = false) : ∀ u : Text,
    (u ++ w).takeWhile p = u.takeWhile p ∧ (u ++ w).dropWhile p = u.dropWhile p ++ w
  | [] => by
    cases w with
    | nil => exact ⟨rfl, rfl⟩
    | cons d w =>
      rw [List.nil_append, List.takeWhile_cons, List.dropWhile_cons, hw d rfl]
      exact ⟨rfl, rfl⟩
  | c :: u => by
    obtain ⟨h1, h2⟩ := span_append_of_head hw u
    rw [List.cons_append, List.takeWhile_cons, List.dropWhile_cons, List.takeWhile_cons, List.dropWhile_cons, h1, h2]
    split <;> exact ⟨rfl, rfl⟩

theorem name?_append_of_head {w : Text} (hw : ∀ c ∈ w.head?, Text.continuesName c = false) {u : Text}
    (hu : u ≠ []) : Lexeme.name? (u ++ w) = (Lexeme.name? u).map fun (name, left) => (name, left ++ w) := by
  obtain ⟨c, rest, rfl⟩ := List.exists_cons_of_ne_nil hu
  obtain ⟨h1, h2⟩ := span_append_of_head hw rest
  rw [List.cons_append]
  simp only [Lexeme.name?, h1, h2]
  split <;> rfl

def LeavesLabel (w : Text) : Prop := ∀ c ∈ w.head?, Text.continuesLabel c = false ∧ c ≠ '{'

theorem labelTail_append_of_head {w : Text} (hw : LeavesLabel w) {inSubscript : Bool} {u taken left : Text}
    (h : Lexeme.labelTail inSubscript u = .ok (taken, left)) :
    Lexeme.labelTail inSubscript (u ++ w) = .ok (taken, left ++ w) := by
  fun_induction Lexeme.labelTail inSubscript u generalizing taken left with
  | case1 rest t l hr ih =>
    simp only [Except.ok.injEq, Prod.mk.injEq] at h
    rw [List.cons_append, List.cons_append, Lexeme.labelTail, ih hr, ← h.1, ← h.2]
  | case2 => cases h
  | case3 c rest hsub hc ih =>
    obtain ⟨m, hm, rfl⟩ := Lexeme.extend_eq_ok h
    rw [List.cons_append, Lexeme.labelTail, if_pos hc, ih hm]
    · rfl
    · intro more he hmore
      cases rest with
      | nil =>
        rw [List.nil_append] at hmore
        exact (hw '{' (by rw [hmore]; rfl)).2 rfl
      | cons d rest =>
        rw [List.cons_append, List.cons.injEq] at hmore
        exact hsub rest he (by rw [hmore.1])
  | case4 c rest hsub hc =>
    simp only [Except.ok.injEq, Prod.mk.injEq] at h
    rw [List.cons_append, Lexeme.labelTail, if_neg hc, ← h.1, ← h.2]
    · rfl
    · rintro more rfl -
      exact hc (by decide)
  | case5 =>
    simp only [Except.ok.injEq, Prod.mk.injEq] at h
    rw [← h.1, ← h.2]
    cases w with
    | nil => rfl
    | cons c w =>
      obtain ⟨h1, h2⟩ := hw c rfl
      rw [List.nil_append, Lexeme.labelTail, if_neg (by rw [h1]; exact Bool.false_ne_true)]
      rintro more rfl -
      exact absurd h1 (by decide)
  | case6 rest ih =>
    obtain ⟨m, hm, rfl⟩ := Lexeme.extend_eq_ok h
    rw [List.cons_append, Lexeme.labelTail, if_pos rfl, ih hm]
    rfl
  | case7 => cases h
  | case8 c rest h1 h2 ih =>
    obtain ⟨m, hm, rfl⟩ := Lexeme.extend_eq_ok h
    rw [List.cons_append, Lexeme.labelTail, if_neg h1, if_neg h2, ih hm]
    rfl
  | case9 => cases h

theorem label?_append_of_head {w : Text} (hw : LeavesLabel w) {u taken left : Text}
    (h : Lexeme.label? u = .ok (some (taken, left))) : Lexeme.label? (u ++ w) = .ok (some (taken, left ++ w)) := by
  cases u with
  | nil => cases h
  | cons x rest =>
    rw [Lexeme.label?] at h
    split at h
    · next hx =>
      cases hl : Lexeme.labelTail false (x :: rest) with
      | error halt => rw [hl] at h; cases h
      | ok p =>
        rw [hl] at h
        cases h
        rw [List.cons_append, Lexeme.label?, if_pos hx, ← List.cons_append, labelTail_append_of_head hw hl]
        rfl
    · cases h

/-- A word is found in front of a text if it does not go on into that text. -/
theorem after?_append_of_head {word w : Text} (hw : ∀ x ∈ w.head?, x ∉ word) (u : Text) :
    Text.after? word (u ++ w) = (Text.after? word u).map (· ++ w) := by
  refine Option.ext fun left => ?_
  rw [Text.after?_eq_some, Option.map_eq_some_iff]
  constructor
  · intro h
    rcases List.append_eq_append_iff.1 h with ⟨v, hv, hl⟩ | ⟨v, hv, hl⟩
    · cases v with
      | nil => exact ⟨[], Text.after?_eq_some.2 (by simpa using hv.symm), hl⟩
      | cons x v => exact absurd (hv ▸ List.mem_append_right u List.mem_cons_self) (hw x (by rw [hl]; rfl))
    · exact ⟨v, Text.after?_eq_some.2 hv, hl.symm⟩
  · rintro ⟨v, hv, rfl⟩
    rw [Text.after?_eq_some.1 hv, List.append_assoc]

theorem raw_tail (ht : EndsLine tail) {stop : Char → Bool} {context : Context} {u taken left : Text}
    (h : Lexeme.raw stop context u = .ok (taken, left)) :
    Lexeme.raw stop context (u ++ tail) = .ok (taken, left ++ tail) := by
  fun_induction Lexeme.raw stop context u generalizing taken left with
  | case1 =>
    simp only [Except.ok.injEq, Prod.mk.injEq] at h
    rw [← h.1, ← h.2, List.nil_append]
    refine Lexeme.raw_of_endsRaw stop ?_
    rcases ht with rfl | ⟨more, rfl⟩ <;> rfl
  | case2 => cases h
  | case3 depth c rest he =>
    simp only [Except.ok.injEq, Prod.mk.injEq] at h
    rw [← Lexeme.endsRaw_append stop (ht.joined (c :: rest))] at he
    rw [List.cons_append] at he
    rw [List.cons_append, Lexeme.raw, if_pos he, ← h.1, ← h.2]
    rfl
  | case4 => cases h
  | case5 depth c rest he hc t l hr ih =>
    simp only [Except.ok.injEq, Prod.mk.injEq] at h
    rw [← Lexeme.endsRaw_append stop (ht.joined (c :: rest)), List.cons_append] at he
    rw [List.cons_append, Lexeme.raw, if_neg he, if_neg hc, ih hr, ← h.1, ← h.2]
  | case6 => cases h
  | case7 => cases h
  | case8 context c rest hp ih =>
    obtain ⟨m, hm, rfl⟩ := Lexeme.extend_eq_ok h
    cases context with
    | plain depth => exact absurd rfl (hp depth)
    | quoted depth => simp only [List.cons_append, Lexeme.raw, ih hm]; rfl
    | escaped depth => simp only [List.cons_append, Lexeme.raw, ih hm]; rfl

end

/-! ## Cursors in front of more text -/

section

variable {ρ : Position → Position → Prop} {tail : Text} {c d : Cursor}

theorem Prolonged.move (hρ : Stepping ρ) (h : Prolonged ρ tail c d) (taken left : Text) :
    Prolonged ρ tail (c.move taken left) (d.move taken (left ++ tail)) :=
  ⟨rfl, hρ.past taken h.position⟩

theorem Prolonged.peek_eq (h : Prolonged ρ tail c d) (ht : tail = []) : d.peek = c.peek := by
  rw [Cursor.peek, Cursor.peek, h.rest, ht, List.append_nil]

theorem Prolonged.sameFault (h : Prolonged ρ tail c d) (cause : Cause) :
    SameFault ρ (c.fault cause) (d.fault cause) := ⟨rfl, .some h.position⟩

theorem Prolonged.peek_iff (ht : EndsLine tail) (h : Prolonged ρ tail c d) {x : Char} (hx : x ≠ '\n') :
    d.peek = some x ↔ c.peek = some x := by
  rw [Cursor.peek, Cursor.peek, h.rest]
  cases hc : c.rest with
  | nil => exact ⟨fun he => absurd (ht.head he) hx, fun he => nomatch he⟩
  | cons y rest => rfl

theorem Prolonged.atLineEnd_eq (ht : EndsLine tail) (h : Prolonged ρ tail c d) : d.atLineEnd = c.atLineEnd := by
  rw [Cursor.atLineEnd, Cursor.atLineEnd, h.rest]
  cases hc : c.rest with
  | nil => rcases ht with rfl | ⟨more, rfl⟩ <;> rfl
  | cons y rest => exact Lexeme.endsRaw_append _ (ht.joined _)

theorem Prolonged.skipInline (hρ : Stepping ρ) (ht : EndsLine tail) (h : Prolonged ρ tail c d) :
    Prolonged ρ tail c.skipInline d.skipInline := by
  simp only [Cursor.skipInline, Cursor.skip, h.rest, inlineBlank_tail ht]
  exact h.move hρ _ _

/-- Blanks and line breaks end where they did if they ended at something. -/
theorem Prolonged.skip (hρ : Stepping ρ) (ht : EndsLine tail) (h : Prolonged ρ tail c d) {passes : Char → Bool}
    (hleft : (c.skip passes).rest ≠ [] ∨ tail = []) : Prolonged ρ tail (c.skip passes) (d.skip passes) := by
  rcases hleft with hleft | rfl
  · have hleft : (Lexeme.blank passes false c.rest).2 ≠ [] := hleft
    simp only [Cursor.skip, h.rest, blank_tail ht, if_neg hleft]
    exact h.move hρ _ _
  · have hrest := h.rest
    rw [List.append_nil] at hrest
    have := h.move hρ (Lexeme.blank passes false c.rest).1 (Lexeme.blank passes false c.rest).2
    rw [List.append_nil] at this
    simp only [Cursor.skip, hrest]
    exact this

/-- Blanks and line breaks lead on into what was added, or end on both sides at the same. -/
theorem Prolonged.skip_or (hρ : Stepping ρ) (ht : EndsLine tail) (h : Prolonged ρ tail c d) (passes : Char → Bool) :
    ((c.skip passes).rest = [] ∧ tail ≠ []) ∨
      Prolonged ρ tail (c.skip passes) (d.skip passes) ∧ (d.skip passes).atEnd = (c.skip passes).atEnd := by
  by_cases hopen : (c.skip passes).rest = [] ∧ tail ≠ []
  · exact .inl hopen
  · rw [not_and_or, not_not] at hopen
    have hs := h.skip hρ ht hopen
    refine .inr ⟨hs, ?_⟩
    rw [Cursor.atEnd, Cursor.atEnd, hs.rest]
    cases hr : (c.skip passes).rest with
    | cons x rest => rfl
    | nil => rw [hopen.resolve_left (not_not.2 hr)]; rfl

theorem eat?_of_rest_nil (h : c.rest = []) (x : Char) : c.eat? x = none := by
  simp only [Cursor.eat?, h]

theorem Prolonged.eat? (hρ : Stepping ρ) (ht : EndsLine tail) (h : Prolonged ρ tail c d) {x : Char}
    (hx : x ≠ '\n') : Option.Rel (Prolonged ρ tail) (c.eat? x) (d.eat? x) := by
  unfold Cursor.eat?
  rw [h.rest]
  cases hc : c.rest with
  | nil =>
    rcases ht with rfl | ⟨more, rfl⟩
    · exact .none
    · rw [List.nil_append]
      simp only [if_neg hx.symm]
      exact .none
  | cons y rest =>
    rw [List.cons_append]
    simp only
    split
    · exact .some (h.move hρ [y] rest)
    · exact .none

theorem Prolonged.expect (hρ : Stepping ρ) (ht : EndsLine tail) (h : Prolonged ρ tail c d) {x : Char}
    (hx : x ≠ '\n') (place : Place) :
    Carried ρ tail (Prolonged ρ tail) (c.expect x place) (d.expect x place) := by
  have he := h.eat? hρ ht hx
  unfold Cursor.expect
  generalize c.eat? x = a at he
  generalize d.eat? x = b at he
  cases he with
  | some hab => exact .ok hab
  | none => exact .error fun hnil => by rw [h.peek_eq hnil]; exact h.sameFault _

theorem Prolonged.name? (hρ : Stepping ρ) (ht : EndsLine tail) (h : Prolonged ρ tail c d) :
    Option.Rel (Behind ρ tail Eq) c.name? d.name? := by
  have hhead : ∀ x ∈ tail.head?, Text.continuesName x = false := fun x hx => by rw [ht.head hx]; rfl
  unfold Cursor.name?
  rw [h.rest]
  by_cases hc : c.rest = []
  · rw [hc]
    rcases ht with rfl | ⟨more, rfl⟩ <;> exact .none
  · rw [name?_append_of_head hhead hc]
    cases Lexeme.name? c.rest with
    | none => exact .none
    | some p => exact .some ⟨rfl, h.move hρ _ _⟩

theorem Prolonged.raw (hρ : Stepping ρ) (ht : EndsLine tail) (h : Prolonged ρ tail c d) (stop : Char → Bool) :
    Carried ρ tail (Behind ρ tail Eq) (c.raw stop) (d.raw stop) := by
  unfold Cursor.raw
  rw [h.rest]
  cases hr : Lexeme.raw stop (.plain 0) c.rest with
  | ok p =>
    obtain ⟨taken, left⟩ := p
    rw [raw_tail ht hr]
    exact .ok ⟨rfl, h.move hρ _ _⟩
  | error halt =>
    rintro rfl
    rw [List.append_nil, hr]
    exact ⟨_, rfl, rfl, .some (hρ.past _ h.position)⟩

end

/-! ## Sheets in front of more text -/

/-- Entries that say the same, at related places. -/
structure Entry.Alike (ρ : Position → Position → Prop) (e f : Entry) : Prop where
  name : f.name = e.name
  action : f.action = e.action
  position : ρ e.position f.position

section

variable {ρ : Position → Position → Prop} {tail : Text}

theorem propertyName_carried (hρ : Stepping ρ) (ht : EndsLine tail) {c d : Cursor} (h : Prolonged ρ tail c d) :
    Carried ρ tail (Behind ρ tail Eq) (propertyName c) (propertyName d) := by
  have he := h.eat? hρ ht (x := '@') (by decide)
  unfold propertyName
  generalize c.eat? '@' = a at he
  generalize d.eat? '@' = b at he
  cases he with
  | some hab =>
    have hn := hab.name? hρ ht
    rename_i a b
    simp only
    generalize a.name? = x at hn
    generalize b.name? = y at hn
    cases hn with
    | some hxy => exact .ok ⟨congrArg ('@' :: ·) hxy.1, hxy.2⟩
    | none => exact .error fun _ => hab.sameFault _
  | none =>
    have hn := h.name? hρ ht
    simp only
    generalize c.name? = x at hn
    generalize d.name? = y at hn
    cases hn with
    | some hxy => exact .ok hxy
    | none => exact .error fun hnil => by rw [h.peek_eq hnil]; exact h.sameFault _

theorem entryValue_carried (hρ : Stepping ρ) (ht : EndsLine tail) {c d : Cursor} (h : Prolonged ρ tail c d) :
    Carried ρ tail (Behind ρ tail Eq) (entryValue c) (entryValue d) := by
  have he := h.eat? hρ ht (x := ':') (by decide)
  unfold entryValue
  generalize c.eat? ':' = a at he
  generalize d.eat? ':' = b at he
  cases he with
  | some hab => exact (hab.skipInline hρ ht).raw hρ ht _
  | none => exact .ok ⟨rfl, h⟩

theorem entry_carried (hρ : Stepping ρ) (ht : EndsLine tail) {c d : Cursor} (h : Prolonged ρ tail c d) :
    Carried ρ tail (Behind ρ tail (Entry.Alike ρ)) (entry c) (entry d) := by
  have he := h.eat? hρ ht (x := '~') (by decide)
  unfold entry
  generalize c.eat? '~' = a at he
  generalize d.eat? '~' = b at he
  cases he with
  | some hab =>
    refine (propertyName_carried hρ ht (hab.skipInline hρ ht)).bind ?_
    rintro ⟨name, a⟩ ⟨_, b⟩ - - ⟨rfl, hab⟩
    exact .ok ⟨⟨rfl, rfl, h.position⟩, hab⟩
  | none =>
    refine (propertyName_carried hρ ht h).bind ?_
    rintro ⟨name, a⟩ ⟨_, b⟩ - - ⟨rfl, hab⟩
    refine (entryValue_carried hρ ht (hab.skipInline hρ ht)).bind ?_
    rintro ⟨value, a⟩ ⟨_, b⟩ - - ⟨rfl, hab⟩
    exact .ok ⟨⟨rfl, rfl, h.position⟩, hab⟩

theorem entries_carried (hρ : Stepping ρ) (ht : EndsLine tail) {p q : Position} (hpq : ρ p q) (c d : Cursor)
    (h : Prolonged ρ tail c d) :
    Carried ρ tail (Behind ρ tail (List.Forall₂ (Entry.Alike ρ))) (entries p c) (entries q d) := by
  rw [entries_eq p c]
  rcases h.skip_or hρ ht Lexeme.isSeparator with
    ⟨(hnil : c.skipSeparators.rest = []), hne⟩ |
    ⟨(hs : Prolonged ρ tail c.skipSeparators d.skipSeparators),
      (hend : d.skipSeparators.atEnd = c.skipSeparators.atEnd)⟩
  · -- nothing is left of the sheet, which is refused as long as nothing is added
    rw [eat?_of_rest_nil hnil]
    simp only
    rw [if_pos (by rw [Cursor.atEnd, hnil]; rfl)]
    exact .error_of_ne _ hne
  · have heat := hs.eat? hρ ht (x := '}') (by decide)
    rw [entries_eq q d]
    generalize hx : c.skipSeparators.eat? '}' = x at heat
    generalize d.skipSeparators.eat? '}' = y at heat
    cases heat with
    | some hab => exact .ok ⟨.nil, hab⟩
    | none =>
      simp only [hend]
      by_cases hleft : c.skipSeparators.atEnd = true
      · rw [if_pos hleft, if_pos hleft]
        exact .error fun _ => ⟨rfl, .some hpq⟩
      · rw [if_neg hleft, if_neg hleft]
        refine (entry_carried hρ ht hs).bind ?_
        rintro ⟨e, a⟩ ⟨f, b⟩ hea - ⟨hef, hab⟩
        have hab' := hab.skipInline hρ ht
        have hcond : (b.skipInline.atLineEnd || decide (b.skipInline.peek = some '}')) =
            (a.skipInline.atLineEnd || decide (a.skipInline.peek = some '}')) := by
          rw [hab'.atLineEnd_eq ht, decide_eq_decide.2 (hab'.peek_iff ht (by decide))]
        simp only [hcond]
        split
        · have : a.skipInline.size < c.size := by
            have := entry_size_lt hea
            have := Cursor.skipInline_size_le a
            have := Cursor.skipSeparators_size_le c
            omega
          refine (entries_carried hρ ht hpq a.skipInline b.skipInline hab').bind ?_
          rintro ⟨more, a⟩ ⟨more', b⟩ - - ⟨hmore, hab⟩
          exact .ok ⟨.cons hef hmore, hab⟩
        · exact .error fun hnil => by rw [hab'.peek_eq hnil]; exact hab'.sameFault _
termination_by c.size

theorem sheetBody_carried (hρ : Stepping ρ) (ht : EndsLine tail) {c d : Cursor} (h : Prolonged ρ tail c d) :
    Carried ρ tail (Behind ρ tail (List.Forall₂ (Entry.Alike ρ))) (sheetBody c) (sheetBody d) := by
  refine (h.expect hρ ht (by decide) _).bind ?_
  rintro a b - - hab
  exact entries_carried hρ ht h.position a b hab

end

end StyleScript.Script
