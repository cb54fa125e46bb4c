import StyleScript.Proofs.Script.Shortened
/-!
# Behind a brace

Two scripts may be the same up to a brace and differ behind it.  A reader that stops in front of the brace does the
same in both (`Heeds`), since nothing it looks at lies further on: a brace goes on no name and no label, and it begins
no comment.  A sheet or a macro may also end with the brace itself, and then each script goes on with its own text
(`Passed`).  Statements are no such items, as their right-hand sides end only at the end of a line.
-/
namespace StyleScript

section

variable {α β : Type} {R : α → β → Prop} {x : Option α} {y : Option β}

theorem exists_of_rel (h : Option.Rel R x y) {a : α} (hx : x = some a) : ∃ b, y = some b ∧ R a b := by
  subst hx
  cases h with
  | some hab => exact ⟨_, rfl, hab⟩

theorem eq_none_of_rel (h : Option.Rel R x y) (hx : x = none) : y = none := by
  subst hx
  cases h
  rfl

end

/-! ## Lexemes -/

namespace Lexeme

open Text (Context)

variable {t : Text}

theorem joined_brace (u t : Text) : Joined u ('}' :: t) :=
  joined_of_head fun h => absurd (Option.some.inj h) (by decide)

theorem length_blank_le (passes : Char → Bool) (inComment : Bool) (text : Text) :
    (blank passes inComment text).2.length ≤ text.length := by
  have hlength := congrArg List.length (blank_append passes inComment text)
  rw [List.length_append] at hlength
  omega

theorem blank_fenced {passes : Char → Bool} (hp : passes '}' = false) : ∀ {inComment : Bool} {u taken left : Text},
    blank passes inComment (u ++ '}' :: t) = (taken, left) → t.length < left.length →
    ∃ l, left = l ++ '}' :: t ∧ ∀ t', blank passes inComment (u ++ '}' :: t') = (taken, l ++ '}' :: t')
  | true, [], taken, left, h, hlong => by
    -- a comment would go on behind the brace
    have hle := length_blank_le passes true t
    cases h
    exact absurd hlong (Nat.not_lt.2 hle)
  | false, [], taken, left, h, hlong => by
    have hstop : ∀ t', blank passes false ('}' :: t') = ([], '}' :: t') := fun t' => by
      rw [blank, hp]
      rfl
    rw [List.nil_append, hstop] at h
    cases h
    exact ⟨[], rfl, hstop⟩
  | inComment, c :: u, taken, left, h, hlong => by
    have hs : ∀ t', startsComment (c :: (u ++ '}' :: t')) = startsComment (c :: u) := fun t' =>
      startsComment_append (joined_brace (c :: u) t')
    simp only [List.cons_append, blank, hs] at h ⊢
    split at h
    · next hpass =>
      obtain ⟨rfl, rfl⟩ := Prod.mk.inj h
      obtain ⟨l, hl, hblank⟩ := blank_fenced hp (u := u) rfl hlong
      exact ⟨l, hl, fun t' => by rw [if_pos hpass, hblank t']⟩
    · next hpass =>
      cases h
      exact ⟨c :: u, rfl, fun t' => by rw [if_neg hpass]; rfl⟩

theorem raw_fenced {stop : Char → Bool} : ∀ {context : Context} {u taken left : Text},
    raw stop context (u ++ '}' :: t) = .ok (taken, left) → t.length < left.length →
    ∃ l, left = l ++ '}' :: t ∧ ∀ t', raw stop context (u ++ '}' :: t') = .ok (taken, l ++ '}' :: t')
  | context, [], taken, left, h, hlong => by
    -- in a string or in brackets the brace would have been taken
    obtain ⟨rfl, rfl⟩ := nil_of_append_eq (raw_append h) hlong
    obtain rfl : context = .plain 0 := by
      have hthrough := through?_of_raw h
      rw [through?] at hthrough
      exact Option.some.inj hthrough
    refine ⟨[], rfl, fun t' => ?_⟩
    simp only [List.nil_append, raw] at h ⊢
    split at h
    · next hend => exact if_pos hend
    · split at h
      · cases h
      · split at h <;> cases h
  | .plain depth, c :: u, taken, left, h, hlong => by
    have hend : ∀ t', endsRaw stop (c :: (u ++ '}' :: t')) = endsRaw stop (c :: u) := fun t' =>
      endsRaw_append stop (joined_brace (c :: u) t')
    simp only [raw, List.cons_append, hend] at h ⊢
    split at h
    · next he =>
      cases h
      exact ⟨c :: u, rfl, fun t' => if_pos he⟩
    · next he =>
      split at h
      · cases h
      · next hc =>
        split at h
        · next hr =>
          cases h
          obtain ⟨l, rfl, hl⟩ := raw_fenced hr hlong
          exact ⟨l, rfl, fun t' => by rw [if_neg he, if_neg hc, hl t']⟩
        · cases h
  | .quoted depth, c :: u, taken, left, h, hlong => by
    simp only [raw, List.cons_append] at h ⊢
    obtain ⟨m, hm, rfl⟩ := extend_eq_ok h
    obtain ⟨l, rfl, hl⟩ := raw_fenced hm hlong
    exact ⟨l, rfl, fun t' => by rw [hl t']; rfl⟩
  | .escaped depth, c :: u, taken, left, h, hlong => by
    simp only [raw, List.cons_append] at h ⊢
    obtain ⟨m, hm, rfl⟩ := extend_eq_ok h
    obtain ⟨l, rfl, hl⟩ := raw_fenced hm hlong
    exact ⟨l, rfl, fun t' => by rw [hl t']; rfl⟩

end Lexeme

namespace Script

open Cursor

/-! ## Cursors -/

/-- Cursors at the same place, in front of the same text and a brace; behind the brace each has its own text. -/
structure Fenced (t t' : Text) (c d : Cursor) : Prop where
  rest : ∃ u, c.rest = u ++ '}' :: t ∧ d.rest = u ++ '}' :: t'
  position : d.position = c.position

/-- Such cursors, or cursors right behind the brace. -/
def Passed (t t' : Text) (c d : Cursor) : Prop := Fenced t t' c d ∨ (c.rest = t ∧ d = ⟨t', c.position⟩)

section

variable {t t' : Text} {c d e : Cursor}

theorem Passed.fenced (h : Passed t t' c d) (hlong : t.length < c.size) : Fenced t t' c d := by
  rcases h with h | ⟨hc, -⟩
  · exact h
  · rw [size, hc] at hlong
    exact absurd hlong (Nat.lt_irrefl _)

namespace Fenced

theorem move (h : Fenced t t' c d) (taken l : Text) :
    Fenced t t' (c.move taken (l ++ '}' :: t)) (d.move taken (l ++ '}' :: t')) :=
  ⟨⟨l, rfl, rfl⟩, congrArg (Position.past · taken) h.position⟩

theorem peek_eq (h : Fenced t t' c d) : d.peek = c.peek := by
  obtain ⟨u, hc, hd⟩ := h.rest
  rw [peek, peek, hc, hd]
  cases u <;> rfl

theorem atEnd_eq (h : Fenced t t' c d) : d.atEnd = c.atEnd := by
  obtain ⟨u, hc, hd⟩ := h.rest
  rw [atEnd, atEnd, hc, hd]
  cases u <;> rfl

theorem atLineEnd_eq (h : Fenced t t' c d) : d.atLineEnd = c.atLineEnd := by
  obtain ⟨u, hc, hd⟩ := h.rest
  rw [atLineEnd, atLineEnd, hc, hd]
  cases u with
  | nil => rfl
  | cons x u =>
    exact (Lexeme.endsRaw_append _ (Lexeme.joined_brace (x :: u) t')).trans
      (Lexeme.endsRaw_append _ (Lexeme.joined_brace (x :: u) t)).symm

theorem skip (h : Fenced t t' c d) {passes : Char → Bool} (hp : passes '}' = false)
    (hlong : t.length < (c.skip passes).size) : Fenced t t' (c.skip passes) (d.skip passes) := by
  obtain ⟨u, hc, hd⟩ := h.rest
  rw [Cursor.skip, hc] at hlong
  rw [Cursor.skip, Cursor.skip, hc, hd]
  obtain ⟨l, hl, hblank⟩ := Lexeme.blank_fenced hp rfl hlong
  rw [hl, hblank t']
  exact h.move _ l

theorem skipInline (h : Fenced t t' c d) (hlong : t.length < c.skipInline.size) :
    Fenced t t' c.skipInline d.skipInline := h.skip rfl hlong

theorem skipSeparators (h : Fenced t t' c d) (hlong : t.length < c.skipSeparators.size) :
    Fenced t t' c.skipSeparators d.skipSeparators := h.skip rfl hlong

theorem skipBlank (h : Fenced t t' c d) (hlong : t.length < c.skipBlank.size) :
    Fenced t t' c.skipBlank d.skipBlank := h.skip rfl hlong

theorem eat? (h : Fenced t t' c d) {x : Char} (hx : x ≠ '}') :
    Option.Rel (Fenced t t') (c.eat? x) (d.eat? x) := by
  obtain ⟨u, hc, hd⟩ := h.rest
  unfold Cursor.eat?
  rw [hc, hd]
  cases u with
  | nil =>
    simp only [List.nil_append, if_neg hx.symm]
    exact .none
  | cons y u =>
    simp only [List.cons_append]
    split
    · exact .some (h.move [y] u)
    · exact .none

theorem eat?_brace (h : Fenced t t' c d) : Option.Rel (Passed t t') (c.eat? '}') (d.eat? '}') := by
  obtain ⟨u, hc, hd⟩ := h.rest
  unfold Cursor.eat?
  rw [hc, hd]
  cases u with
  | nil =>
    simp only [List.nil_append, if_true]
    exact .some (.inr ⟨rfl, congrArg (Cursor.mk t' <| Position.past · ['}']) h.position⟩)
  | cons y u =>
    simp only [List.cons_append]
    split
    · exact .some (.inl (h.move [y] u))
    · exact .none

theorem expect (h : Fenced t t' c d) {x : Char} (hx : x ≠ '}') {place : Place} (he : c.expect x place = .ok e) :
    ∃ e', d.expect x place = .ok e' ∧ Fenced t t' e e' := by
  unfold Cursor.expect at he ⊢
  split at he
  · next heat =>
    cases he
    obtain ⟨e', he', hee'⟩ := exists_of_rel (h.eat? hx) heat
    exact ⟨e', by rw [he'], hee'⟩
  · cases he

theorem pass? (h : Fenced t t' c d) {word : Text} (hword : '}' ∉ word) :
    Option.Rel (Fenced t t') (c.pass? word) (d.pass? word) := by
  obtain ⟨u, hc, hd⟩ := h.rest
  have hfound : ∀ t, Text.after? word (u ++ '}' :: t) = (Text.after? word u).map (· ++ '}' :: t) := fun t =>
    after?_append_of_head (fun x hx => Option.some.inj hx ▸ hword) u
  unfold Cursor.pass?
  rw [hc, hd, hfound, hfound]
  cases Text.after? word u with
  | none => exact .none
  | some l => exact .some (h.move word l)

theorem word? (h : Fenced t t' c d) {word : Text} (hword : '}' ∉ word) (he : c.word? word = some e) :
    ∃ e', d.word? word = some e' ∧ Fenced t t' e e' := by
  obtain ⟨hpass, hends⟩ := Option.filter_eq_some_iff.1 he
  obtain ⟨e', he', hee'⟩ := exists_of_rel (h.pass? hword) hpass
  exact ⟨e', Option.filter_eq_some_iff.2 ⟨he', by rwa [hee'.peek_eq]⟩, hee'⟩

theorem name? (h : Fenced t t' c d) {name : Text} (he : c.name? = some (name, e)) :
    ∃ e', d.name? = some (name, e') ∧ Fenced t t' e e' := by
  obtain ⟨u, hc, hd⟩ := h.rest
  have hname : ∀ t, Lexeme.name? (u ++ '}' :: t) = (Lexeme.name? u).map fun p => (p.1, p.2 ++ '}' :: t) := by
    intro t
    cases u with
    | nil => rfl
    | cons x u =>
      refine name?_append_of_head (fun y hy => ?_) (List.cons_ne_nil x u)
      obtain rfl : '}' = y := Option.some.inj hy
      rfl
  unfold Cursor.name? at he ⊢
  rw [hc, hname] at he
  rw [hd, hname]
  cases hu : Lexeme.name? u with
  | none => rw [hu] at he; cases he
  | some p =>
    rw [hu] at he
    cases he
    exact ⟨_, rfl, h.move p.1 p.2⟩

end Fenced

end

/-! ## Readers -/

/-- A reader that stops in front of the brace, and to which the text behind it does not matter. -/
def Heeds {α : Type} (t t' : Text) (f : Cursor → Except Fault (α × Cursor)) : Prop :=
  ∀ ⦃c d : Cursor⦄ ⦃a : α⦄ ⦃e : Cursor⦄, Fenced t t' c d → f c = .ok (a, e) → t.length < e.size →
    ∃ e', f d = .ok (a, e') ∧ Fenced t t' e e'

/-- A reader that may end with the brace. -/
def HeedsClosed {α : Type} (t t' : Text) (f : Cursor → Except Fault (α × Cursor)) : Prop :=
  ∀ ⦃c d : Cursor⦄ ⦃a : α⦄ ⦃e : Cursor⦄, Fenced t t' c d → f c = .ok (a, e) → t.length ≤ e.size →
    ∃ e', f d = .ok (a, e') ∧ Passed t t' e e'

section

variable {t t' : Text}

theorem HeedsClosed.heeds {α : Type} {f : Cursor → Except Fault (α × Cursor)} (hf : HeedsClosed t t' f) :
    Heeds t t' f := by
  intro c d a e hcd h hlong
  obtain ⟨e', he', hpassed⟩ := hf hcd h (Nat.le_of_lt hlong)
  exact ⟨e', he', hpassed.fenced hlong⟩

theorem label_heeds : Heeds t t' Cursor.label := by
  intro c d label e hcd h hlong
  obtain ⟨u, hc, hd⟩ := hcd.rest
  unfold Cursor.label at h ⊢
  rw [hc] at h
  rw [hd]
  split at h
  · next hl =>
    cases h
    obtain ⟨l, rfl, hshort⟩ := Lexeme.label?_shortened hl hlong
    have hleaves : LeavesLabel ('}' :: t') := fun x hx => Option.some.inj hx ▸ ⟨rfl, by decide⟩
    rw [label?_append_of_head hleaves hshort]
    exact ⟨_, rfl, hcd.move label l⟩
  · cases h
  · cases h

theorem raw_heeds (stop : Char → Bool) : Heeds t t' (Cursor.raw · stop) := by
  intro c d text e hcd h hlong
  obtain ⟨u, hc, hd⟩ := hcd.rest
  simp only [Cursor.raw] at h ⊢
  rw [hc] at h
  rw [hd]
  split at h
  · next taken left hl =>
    cases h
    obtain ⟨l, rfl, hraw⟩ := Lexeme.raw_fenced hl hlong
    rw [hraw t']
    exact ⟨_, rfl, hcd.move taken l⟩
  · cases h

theorem propertyName_heeds : Heeds t t' propertyName := by
  intro c d name e hcd h _
  unfold propertyName at h ⊢
  split at h
  · next b hat =>
    split at h
    · next hname =>
      cases h
      obtain ⟨b', hb', hbb'⟩ := exists_of_rel (hcd.eat? (by decide)) hat
      obtain ⟨e', he', hee'⟩ := hbb'.name? hname
      exact ⟨e', by simp only [hb', he'], hee'⟩
    · cases h
  · next hat =>
    split at h
    · next hname =>
      cases h
      obtain ⟨e', he', hee'⟩ := hcd.name? hname
      exact ⟨e', by simp only [eq_none_of_rel (hcd.eat? (by decide)) hat, he'], hee'⟩
    · cases h

theorem entryValue_heeds : Heeds t t' entryValue := by
  intro c d value e hcd h hlong
  unfold entryValue at h ⊢
  split at h
  · next hcolon =>
    have := raw_size_le h
    obtain ⟨b', hb', hbb'⟩ := exists_of_rel (hcd.eat? (by decide)) hcolon
    rw [hb']
    exact raw_heeds _ (hbb'.skipInline (by omega)) h hlong
  · next hcolon =>
    cases h
    exact ⟨d, by rw [eq_none_of_rel (hcd.eat? (by decide)) hcolon], hcd⟩

theorem entry_heeds : Heeds t t' entry := by
  intro c d en e hcd h hlong
  unfold entry at h ⊢
  rw [hcd.position]
  split at h
  · next b htilde =>
    simp only [bind_eq_ok, pure_eq_ok, Prod.exists, Prod.mk.injEq] at h
    obtain ⟨name, e, hname, rfl, rfl⟩ := h
    have := propertyName_size_lt hname
    obtain ⟨b', hb', hbb'⟩ := exists_of_rel (hcd.eat? (by decide)) htilde
    obtain ⟨e', he', hee'⟩ := propertyName_heeds (hbb'.skipInline (by omega)) hname hlong
    exact ⟨e', by simp only [hb', he']; rfl, hee'⟩
  · next htilde =>
    simp only [bind_eq_ok, pure_eq_ok, Prod.exists, Prod.mk.injEq] at h
    obtain ⟨name, b, hname, value, e, hvalue, rfl, rfl⟩ := h
    have := entryValue_size_le hvalue
    have := skipInline_size_le b
    obtain ⟨b', hb', hbb'⟩ := propertyName_heeds hcd hname (by omega)
    obtain ⟨e', he', hee'⟩ := entryValue_heeds (hbb'.skipInline (by omega)) hvalue hlong
    exact ⟨e', by simp only [eq_none_of_rel (hcd.eat? (by decide)) htilde, hb', ok_bind, he']; rfl, hee'⟩

theorem entries_heeds (opened : Position) : ∀ (c d : Cursor) {es : List Entry} {e : Cursor}, Fenced t t' c d →
    entries opened c = .ok (es, e) → t.length ≤ e.size → ∃ e', entries opened d = .ok (es, e') ∧ Passed t t' e e'
  | c, d, es, e, hcd, h, hlong => by
    rw [entries_eq] at h ⊢
    split at h
    · next hbrace =>
      cases h
      have := eat?_size_lt hbrace
      obtain ⟨e', he', hpassed⟩ := exists_of_rel (hcd.skipSeparators (by omega)).eat?_brace hbrace
      exact ⟨e', by rw [he'], hpassed⟩
    · next hbrace =>
      split at h
      · cases h
      · next hend =>
        simp only [bind_eq_ok, Prod.exists] at h
        obtain ⟨en, b, hentry, h⟩ := h
        split at h
        · next hends =>
          simp only [bind_eq_ok, pure_eq_ok, Prod.exists, Prod.mk.injEq] at h
          obtain ⟨more, e, hmore, rfl, rfl⟩ := h
          have := entries_size_lt hmore
          have := skipInline_size_le b
          have := entry_size_lt hentry
          have := skipSeparators_size_le c
          have hs := hcd.skipSeparators (by omega)
          obtain ⟨b', hb', hbb'⟩ := entry_heeds hs hentry (by omega)
          have hskip := hbb'.skipInline (by omega)
          obtain ⟨e', he', hee'⟩ := entries_heeds opened b.skipInline b'.skipInline hskip hmore hlong
          refine ⟨e', ?_, hee'⟩
          rw [← hs.atEnd_eq] at hend
          rw [← hskip.atLineEnd_eq, ← hskip.peek_eq] at hends
          simp only [eq_none_of_rel hs.eat?_brace hbrace, if_neg hend, hb', ok_bind, if_pos hends, he']
          rfl
        · cases h
termination_by c => c.size

theorem sheetBody_heeds : HeedsClosed t t' sheetBody := by
  intro c d es e hcd h hlong
  simp only [sheetBody, bind_eq_ok] at h
  obtain ⟨b, hb, h⟩ := h
  obtain ⟨b', hb', hbb'⟩ := hcd.expect (by decide) hb
  obtain ⟨e', he', hee'⟩ := entries_heeds _ b b' hbb' h hlong
  rw [← hcd.position] at he'
  exact ⟨e', bind_eq_ok.2 ⟨b', hb', he'⟩, hee'⟩

theorem sheetDef_heeds (position : Position) : HeedsClosed t t' (sheetDef position) := by
  intro c d definition e hcd h hlong
  unfold sheetDef at h ⊢
  split at h
  · cases h
  · next name b hname =>
    simp only [bind_eq_ok] at h
    obtain ⟨g, hg, h⟩ := h
    split at h
    · next hopen =>
      simp only [bind_eq_ok, pure_eq_ok, Prod.exists, Prod.mk.injEq] at h
      obtain ⟨es, e, hes, rfl, rfl⟩ := h
      have := sheetBody_size_lt hes
      have := skipInline_size_le g
      have := expect_size_lt hg
      obtain ⟨b', hb', hbb'⟩ := hcd.name? hname
      obtain ⟨g', hg', hgg'⟩ := (hbb'.skipInline (by omega)).expect (by decide) hg
      have hskip := hgg'.skipInline (by omega)
      obtain ⟨e', he', hee'⟩ := sheetBody_heeds hskip hes hlong
      rw [← hskip.peek_eq] at hopen
      exact ⟨e', by simp only [hb', hg', ok_bind, if_pos hopen, he']; rfl, hee'⟩
    · cases h

theorem flags_heeds : ∀ (c d : Cursor) (sofar : Flags), Fenced t t' c d → t.length < (flags sofar c).2.size →
    (flags sofar d).1 = (flags sofar c).1 ∧ Fenced t t' (flags sofar c).2 (flags sofar d).2
  | c, d, sofar, hcd, hlong => by
    rw [flags_eq sofar c] at hlong ⊢
    rw [flags_eq sofar d]
    cases hstar : c.eat? '*' with
    | some b =>
      obtain ⟨b', hb', hbb'⟩ := exists_of_rel (hcd.eat? (by decide)) hstar
      rw [hstar] at hlong
      have := flags_size_le { sofar with object := false } b.skipInline
      have : b.skipInline.size < c.size := Nat.lt_of_le_of_lt (skipInline_size_le b) (eat?_size_lt hstar)
      rw [hb']
      exact flags_heeds b.skipInline b'.skipInline _ (hbb'.skipInline (by simp only at hlong; omega)) hlong
    | none =>
      rw [hstar] at hlong
      rw [eq_none_of_rel (hcd.eat? (by decide)) hstar]
      cases htilde : c.eat? '~' with
      | some b =>
        obtain ⟨b', hb', hbb'⟩ := exists_of_rel (hcd.eat? (by decide)) htilde
        rw [htilde] at hlong
        have := flags_size_le { sofar with label := false } b.skipInline
        have : b.skipInline.size < c.size := Nat.lt_of_le_of_lt (skipInline_size_le b) (eat?_size_lt htilde)
        rw [hb']
        exact flags_heeds b.skipInline b'.skipInline _ (hbb'.skipInline (by simp only at hlong; omega)) hlong
      | none =>
        rw [eq_none_of_rel (hcd.eat? (by decide)) htilde]
        exact ⟨rfl, hcd⟩
termination_by c => c.size

theorem styleRef?_heeds {c d e : Cursor} {style : StyleRef} (hcd : Fenced t t' c d)
    (h : styleRef? c = .ok (some (style, e))) (hlong : t.length < e.size) :
    ∃ e', styleRef? d = .ok (some (style, e')) ∧ Fenced t t' e e' := by
  unfold styleRef? at h ⊢
  rw [hcd.position, hcd.peek_eq]
  split at h
  · next b hat =>
    split at h
    · next hname =>
      cases h
      obtain ⟨b', hb', hbb'⟩ := exists_of_rel (hcd.eat? (by decide)) hat
      obtain ⟨e', he', hee'⟩ := hbb'.name? hname
      exact ⟨e', by simp only [hb', he'], hee'⟩
    · cases h
  · next hat =>
    split at h
    · next hopen =>
      simp only [bind_eq_ok, pure_eq_ok, Prod.exists, Option.some.injEq, Prod.mk.injEq] at h
      obtain ⟨es, e, hes, rfl, rfl⟩ := h
      obtain ⟨e', he', hee'⟩ := sheetBody_heeds.heeds hcd hes hlong
      exact ⟨e', by simp only [eq_none_of_rel (hcd.eat? (by decide)) hat, if_pos hopen, he']; rfl, hee'⟩
    · cases h

theorem styleRef?_eq_none_of_fenced {c d : Cursor} (hcd : Fenced t t' c d) (h : styleRef? c = .ok none) :
    styleRef? d = .ok none := by
  unfold styleRef? at h ⊢
  split at h
  · split at h <;> cases h
  · next hat =>
    split at h
    · simp only [bind_eq_ok, pure_eq_ok, Prod.exists] at h
      obtain ⟨_, _, _, hnone⟩ := h
      cases hnone
    · next hopen =>
      rw [eq_none_of_rel (hcd.eat? (by decide)) hat]
      exact if_neg (by rwa [hcd.peek_eq])

theorem styleRefs_heeds : ∀ (c d : Cursor) {styles : List StyleRef} {e : Cursor}, Fenced t t' c d →
    styleRefs c = .ok (styles, e) → t.length < e.size → ∃ e', styleRefs d = .ok (styles, e') ∧ Fenced t t' e e'
  | c, d, styles, e, hcd, h, hlong => by
    rw [styleRefs_eq, bind_eq_ok] at h
    obtain ⟨first, hfirst, h⟩ := h
    rw [styleRefs_eq]
    cases first with
    | none =>
      cases h
      exact ⟨d, by rw [styleRef?_eq_none_of_fenced hcd hfirst]; rfl, hcd⟩
    | some p =>
      obtain ⟨style, b⟩ := p
      simp only [bind_eq_ok, pure_eq_ok, Prod.exists, Prod.mk.injEq] at h
      obtain ⟨more, e, hmore, rfl, rfl⟩ := h
      have := styleRefs_size_le hmore
      have := skipInline_size_le b
      have := styleRef?_size_lt hfirst
      obtain ⟨b', hb', hbb'⟩ := styleRef?_heeds hcd hfirst (by omega)
      obtain ⟨e', he', hee'⟩ := styleRefs_heeds b.skipInline b'.skipInline (hbb'.skipInline (by omega)) hmore hlong
      exact ⟨e', by simp only [hb', ok_bind, he']; rfl, hee'⟩
termination_by c => c.size

theorem target_heeds : Heeds t t' target := by
  intro c d a e hcd h hlong
  simp only [target, bind_eq_ok, pure_eq_ok, Prod.exists, Prod.mk.injEq] at h
  obtain ⟨name, b, hname, styles, e, hstyles, rfl, rfl⟩ := h
  have := styleRefs_size_le hstyles
  have := skipInline_size_le (flags {} b.skipInline).2
  have := flags_size_le {} b.skipInline
  have := skipInline_size_le b
  obtain ⟨b', hb', hbb'⟩ := label_heeds hcd hname (by omega)
  obtain ⟨hshown, hflags⟩ := flags_heeds b.skipInline b'.skipInline {} (hbb'.skipInline (by omega)) (by omega)
  obtain ⟨e', he', hee'⟩ := styleRefs_heeds _ _ (hflags.skipInline (by omega)) hstyles hlong
  exact ⟨e', by simp only [target, hb', ok_bind, hshown, he']; rfl, hee'⟩

theorem targets_heeds : ∀ (c d : Cursor) {a : List Target × List StyleRef} {e : Cursor}, Fenced t t' c d →
    targets c = .ok (a, e) → t.length < e.size → ∃ e', targets d = .ok (a, e') ∧ Fenced t t' e e'
  | c, d, a, e, hcd, h, hlong => by
    rw [targets_eq] at h
    simp only [bind_eq_ok, Prod.exists] at h
    obtain ⟨first, styles, b, hfirst, h⟩ := h
    rw [targets_eq]
    split at h
    · next hcomma =>
      cases h
      obtain ⟨b', hb', hbb'⟩ := target_heeds hcd hfirst hlong
      exact ⟨b', by simp only [hb', ok_bind, eq_none_of_rel (hbb'.eat? (by decide)) hcomma]; rfl, hbb'⟩
    · next g hcomma =>
      simp only [bind_eq_ok, pure_eq_ok, Prod.exists, Prod.mk.injEq] at h
      obtain ⟨more, moreStyles, e, hmore, rfl, rfl⟩ := h
      have := targets_size_lt hmore
      have := skipInline_size_le g
      have := eat?_size_lt hcomma
      have := target_size_lt hfirst
      obtain ⟨b', hb', hbb'⟩ := target_heeds hcd hfirst (by omega)
      obtain ⟨g', hg', hgg'⟩ := exists_of_rel (hbb'.eat? (by decide)) hcomma
      obtain ⟨e', he', hee'⟩ := targets_heeds g.skipInline g'.skipInline (hgg'.skipInline (by omega)) hmore hlong
      exact ⟨e', by simp only [hb', ok_bind, hg', he']; rfl, hee'⟩
termination_by c => c.size

theorem statement_heeds (position : Position) : Heeds t t' (statement position) := by
  intro c d s e hcd h hlong
  simp only [statement, bind_eq_ok, Prod.exists] at h
  obtain ⟨ts, styles, b, hb, g, hg, rhs, e, hraw, h⟩ := h
  split at h
  · cases h
  · next hsome =>
    cases h
    have := raw_size_le hraw
    have := skipInline_size_le g
    have := expect_size_lt hg
    obtain ⟨b', hb', hbb'⟩ := targets_heeds c d hcd hb (by omega)
    obtain ⟨g', hg', hgg'⟩ := hbb'.expect (by decide) hg
    obtain ⟨e', he', hee'⟩ := raw_heeds _ (hgg'.skipInline (by omega)) hraw hlong
    exact ⟨e', by simp only [statement, hb', ok_bind, hg', he', if_neg hsome]; rfl, hee'⟩

theorem labels_heeds : ∀ (c d : Cursor) {names : List Text} {e : Cursor}, Fenced t t' c d →
    labels c = .ok (names, e) → t.length < e.size → ∃ e', labels d = .ok (names, e') ∧ Fenced t t' e e'
  | c, d, names, e, hcd, h, hlong => by
    rw [labels_eq] at h
    simp only [bind_eq_ok, Prod.exists] at h
    obtain ⟨name, b, hname, h⟩ := h
    have := skipInline_size_le b
    rw [labels_eq]
    split at h
    · next hcomma =>
      cases h
      obtain ⟨b', hb', hbb'⟩ := label_heeds hcd hname (by omega)
      have hskip := hbb'.skipInline hlong
      exact ⟨_, by simp only [hb', ok_bind, eq_none_of_rel (hskip.eat? (by decide)) hcomma]; rfl, hskip⟩
    · next g hcomma =>
      simp only [bind_eq_ok, pure_eq_ok, Prod.exists, Prod.mk.injEq] at h
      obtain ⟨more, e, hmore, rfl, rfl⟩ := h
      have := labels_size_lt hmore
      have := skipInline_size_le g
      have := eat?_size_lt hcomma
      have := label_size_lt hname
      obtain ⟨b', hb', hbb'⟩ := label_heeds hcd hname (by omega)
      obtain ⟨g', hg', hgg'⟩ := exists_of_rel ((hbb'.skipInline (by omega)).eat? (by decide)) hcomma
      obtain ⟨e', he', hee'⟩ := labels_heeds g.skipInline g'.skipInline (hgg'.skipInline (by omega)) hmore hlong
      exact ⟨e', by simp only [hb', ok_bind, hg', he']; rfl, hee'⟩
termination_by c => c.size

theorem labelList_heeds (close : Char) : Heeds t t' (labelList close) := by
  intro c d names e hcd h hlong
  unfold labelList at h ⊢
  have hsize : e.size ≤ c.skipInline.size := by
    split at h
    · cases h
      exact Nat.le_refl _
    · exact Nat.le_of_lt (labels_size_lt h)
  have hskip := hcd.skipInline (Nat.lt_of_lt_of_le hlong hsize)
  rw [hskip.atLineEnd_eq, hskip.peek_eq]
  split at h
  · next hopen =>
    cases h
    exact ⟨_, if_pos hopen, hskip⟩
  · next hopen =>
    rw [if_neg hopen]
    exact labels_heeds _ _ hskip h hlong

end

/-! ## Steps, macros and items -/

/-- Sheets end with a brace, and statements at the end of a line. -/
def Step.braced : Step → Bool
  | .sheet _ => true
  | .statement _ => false

/-- Sheets and macros end with a brace, and statements at the end of a line. -/
def Item.braced : Item → Bool
  | .step s => s.braced
  | .macroBlock _ => true

/-- A reader that may end with the brace where it reads something `braced`. -/
def HeedsBraced {α : Type} (t t' : Text) (braced : α → Bool) (f : Cursor → Except Fault (α × Cursor)) : Prop :=
  ∀ ⦃c d : Cursor⦄ ⦃a : α⦄ ⦃e : Cursor⦄, Fenced t t' c d → f c = .ok (a, e) → t.length ≤ e.size →
    (braced a = false → t.length < e.size) → ∃ e', f d = .ok (a, e') ∧ Passed t t' e e'

section

variable {t t' : Text}

theorem HeedsBraced.heeds {α : Type} {braced : α → Bool} {f : Cursor → Except Fault (α × Cursor)}
    (hf : HeedsBraced t t' braced f) : Heeds t t' f := by
  intro c d a e hcd h hlong
  obtain ⟨e', he', hpassed⟩ := hf hcd h (Nat.le_of_lt hlong) fun _ => hlong
  exact ⟨e', he', hpassed.fenced hlong⟩

theorem step_heeds : HeedsBraced t t' Step.braced step := by
  intro c d s e hcd h hlong hplain
  unfold step at h ⊢
  rw [hcd.position]
  split at h
  · next b hat =>
    simp only [bind_eq_ok, pure_eq_ok, Prod.exists, Prod.mk.injEq] at h
    obtain ⟨definition, e, hdef, rfl, rfl⟩ := h
    obtain ⟨b', hb', hbb'⟩ := exists_of_rel (hcd.eat? (by decide)) hat
    obtain ⟨e', he', hee'⟩ := sheetDef_heeds _ hbb' hdef hlong
    exact ⟨e', by simp only [hb', he']; rfl, hee'⟩
  · next hat =>
    simp only [bind_eq_ok, pure_eq_ok, Prod.exists, Prod.mk.injEq] at h
    obtain ⟨s, e, hs, rfl, rfl⟩ := h
    obtain ⟨e', he', hee'⟩ := statement_heeds _ hcd hs (hplain rfl)
    exact ⟨e', by simp only [eq_none_of_rel (hcd.eat? (by decide)) hat, he']; rfl, .inl hee'⟩

theorem macroSteps_heeds (name : Text) : ∀ (c d : Cursor) {ss : List Step} {e : Cursor}, Fenced t t' c d →
    macroSteps name c = .ok (ss, e) → t.length < e.size → ∃ e', macroSteps name d = .ok (ss, e') ∧ Fenced t t' e e'
  | c, d, ss, e, hcd, h, hlong => by
    rw [macroSteps_eq] at h ⊢
    split at h
    · cases h
    · next hmore =>
      split at h
      · next b hpass =>
        split at h
        · next e hreturn =>
          cases h
          have := word?_size_le hreturn
          have := pass?_size_le hpass
          have hs := hcd.skipSeparators (by omega)
          obtain ⟨b', hb', hbb'⟩ := exists_of_rel (hs.pass? (by decide)) hpass
          obtain ⟨e', he', hee'⟩ := hbb'.word? (by decide) hreturn
          exact ⟨e', by simp only [hs.atEnd_eq, hs.peek_eq, if_neg hmore, hb', he'], hee'⟩
        · split at h <;> cases h
      · next hpass =>
        simp only [bind_eq_ok, pure_eq_ok, Prod.exists, Prod.mk.injEq] at h
        obtain ⟨s, b, hstep, more, e, hrest, rfl, rfl⟩ := h
        have := macroSteps_size_le hrest
        have := step_size_lt hstep
        have := skipSeparators_size_le c
        have hs := hcd.skipSeparators (by omega)
        obtain ⟨b', hb', hbb'⟩ := step_heeds.heeds hs hstep (by omega)
        obtain ⟨e', he', hee'⟩ := macroSteps_heeds name b b' hbb' hrest hlong
        refine ⟨e', ?_, hee'⟩
        simp only [hs.atEnd_eq, hs.peek_eq, if_neg hmore, eq_none_of_rel (hs.pass? (by decide)) hpass, hb', ok_bind, he']
        rfl
termination_by c => c.size

theorem inside_heeds (name : Text) : Heeds t t' (inside name) := by
  intro c d a e hcd h hlong
  simp only [inside, bind_eq_ok, pure_eq_ok, Prod.exists, Prod.mk.injEq] at h
  obtain ⟨ss, b, hsteps, outputs, e, houtputs, rfl, rfl⟩ := h
  have := labelList_size_le houtputs
  have := skipInline_size_le b
  obtain ⟨b', hb', hbb'⟩ := macroSteps_heeds name c d hcd hsteps (by omega)
  obtain ⟨e', he', hee'⟩ := labelList_heeds _ (hbb'.skipInline (by omega)) houtputs hlong
  exact ⟨e', bind_eq_ok.2 ⟨_, hb', bind_eq_ok.2 ⟨_, he', rfl⟩⟩, hee'⟩

theorem inside_size_le {name : Text} {c e : Cursor} {a : List Step × List Text} (h : inside name c = .ok (a, e)) :
    e.size ≤ c.size := by
  simp only [inside, bind_eq_ok, pure_eq_ok, Prod.exists, Prod.mk.injEq] at h
  obtain ⟨ss, b, hsteps, outputs, e, houtputs, rfl, rfl⟩ := h
  have := labelList_size_le houtputs
  have := skipInline_size_le b
  have := macroSteps_size_le hsteps
  omega

theorem Fenced.upTo_eq {c d e e' : Cursor} (hcd : Fenced t t' c d) (hee' : Fenced t t' e e') : d.upTo e' = c.upTo e := by
  obtain ⟨u, hc, hd⟩ := hcd.rest
  obtain ⟨v, he, he'⟩ := hee'.rest
  have hlength : ∀ t, (u ++ '}' :: t).length - (v ++ '}' :: t).length = u.length - v.length := fun t => by
    rw [List.length_append, List.length_append]
    omega
  rw [upTo, upTo, size, size, size, size, hc, hd, he, he', hlength, hlength,
    List.take_append_of_le_length (Nat.sub_le ..), List.take_append_of_le_length (Nat.sub_le ..)]

theorem macroBlock_heeds (position : Position) : HeedsClosed t t' (macroBlock position) := by
  intro c d block e hcd h hlong
  rw [macroBlock_eq] at h ⊢
  split at h
  · cases h
  · next name named hname =>
    simp only [bind_eq_ok, Prod.exists] at h
    obtain ⟨inner, hinner, inputs, listed, hlisted, closed, hclosed, opened, hopened, body, outputs, ended, hinside, h⟩ := h
    split at h
    · cases h
    · next hsome =>
      split at h
      · next e hbrace =>
        cases h
        have := eat?_size_lt hbrace
        have := skipSeparators_size_le ended
        have := inside_size_le hinside
        have := expect_size_lt hopened
        have := skipBlank_size_le closed
        have := expect_size_lt hclosed
        have := labelList_size_le hlisted
        have := expect_size_lt hinner
        have := skipInline_size_le named
        have := name?_size_lt hname
        obtain ⟨named', hnamed', hn⟩ := (hcd.skipInline (by omega)).name? hname
        obtain ⟨inner', hinner', hi⟩ := (hn.skipInline (by omega)).expect (by decide) hinner
        obtain ⟨listed', hlisted', hl⟩ := labelList_heeds _ hi hlisted (by omega)
        obtain ⟨closed', hclosed', hc⟩ := hl.expect (by decide) hclosed
        obtain ⟨opened', hopened', ho⟩ := (hc.skipBlank (by omega)).expect (by decide) hopened
        obtain ⟨ended', hended', he⟩ := inside_heeds _ ho hinside (by omega)
        obtain ⟨e', he', hpassed⟩ := exists_of_rel (he.skipSeparators (by omega)).eat?_brace hbrace
        refine ⟨e', ?_, hpassed⟩
        simp only [hnamed', hinner', ok_bind, hlisted', hclosed', hopened', hended', if_neg hsome, he', ho.upTo_eq he]
        rfl
      · cases h

/-- **An item** is read whatever stands behind the brace in front of which it stops, or with which it ends. -/
theorem item_heeds : HeedsBraced t t' Item.braced item := by
  intro c d i e hcd h hlong hplain
  unfold item at h ⊢
  rw [hcd.position]
  split at h
  · next b hpass =>
    split at h
    · next g hmacro =>
      simp only [bind_eq_ok, pure_eq_ok, Prod.exists, Prod.mk.injEq] at h
      obtain ⟨block, e, hblock, rfl, rfl⟩ := h
      obtain ⟨b', hb', hbb'⟩ := exists_of_rel (hcd.pass? (by decide)) hpass
      obtain ⟨g', hg', hgg'⟩ := hbb'.word? (by decide) hmacro
      obtain ⟨e', he', hee'⟩ := macroBlock_heeds _ hgg' hblock hlong
      exact ⟨e', by simp only [hb', hg', he']; rfl, hee'⟩
    · split at h <;> cases h
  · next hpass =>
    simp only [bind_eq_ok, pure_eq_ok, Prod.exists, Prod.mk.injEq] at h
    obtain ⟨s, e, hs, rfl, rfl⟩ := h
    obtain ⟨e', he', hee'⟩ := step_heeds hcd hs hlong hplain
    exact ⟨e', by simp only [eq_none_of_rel (hcd.pass? (by decide)) hpass, he']; rfl, hee'⟩

end

end Script
end StyleScript
