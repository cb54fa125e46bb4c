import StyleScript.Proofs.Script.Fenced
import StyleScript.Proofs.Script.Sources
/-!
# What stands between the items of a script

The reader skips the separators in front of an item and does not ask whether there are any.  Behind a statement there
are, since its right-hand side ends only at a line break, at a `;` or at a comment, which ends at a line break again.  A
sheet or a macro ends with its brace, and behind that any script may go on at once: all of this one up to the brace is
read as before (`item_heeds`), and then the other one as it is read elsewhere.  So items are separated behind statements,
and behind braces nothing has to separate them (`separated_unless_braced`).
-/
namespace StyleScript

/-! ## Separators -/

namespace Lexeme

/-- Whether there is a line break in a text, or a `;` that stands outside of comments. -/
def separates : (inComment : Bool) → Text → Bool
  | _, [] => false
  | inComment, c :: rest =>
    let comment := (inComment && c ≠ '\n') || startsComment (c :: rest)
    c = '\n' || (!comment && c = ';') || separates comment rest

theorem separates_of_break {inComment : Bool} {gap : Text} (h : '\n' ∈ gap) : separates inComment gap := by
  induction gap generalizing inComment with
  | nil => cases h
  | cons c rest ih =>
    rcases List.mem_cons.1 h with rfl | h
    · rfl
    · simp only [separates, ih h, Bool.or_true]

/-- A comment with something behind it goes up to a line break. -/
theorem break_mem_blank {passes : Char → Bool} (hp : passes '\n') : ∀ {text : Text},
    (blank passes true text).2 ≠ [] → '\n' ∈ (blank passes true text).1
  | [], h => absurd rfl h
  | c :: rest, h => by
    by_cases hc : c = '\n'
    · rw [blank, if_pos (by rw [hc, hp, Bool.or_true])]
      exact hc ▸ List.mem_cons_self
    · have hcomment : ((true && decide (c ≠ '\n')) || startsComment (c :: rest)) = true := by simp [hc]
      simp only [blank, hcomment, Bool.true_or, if_true] at h ⊢
      exact List.mem_cons_of_mem c (break_mem_blank hp h)

/-- Where a line ends and more is to come, what is skipped does separate. -/
theorem separates_blank {text : Text} (hend : endsRaw (fun _ => false) text)
    (hmore : (blank isSeparator false text).2 ≠ []) : separates false (blank isSeparator false text).1 := by
  cases text with
  | nil => exact absurd rfl hmore
  | cons c rest =>
    by_cases hcomment : startsComment (c :: rest)
    · simp only [blank, hcomment, Bool.or_true, Bool.true_or, if_true] at hmore ⊢
      exact separates_of_break (List.mem_cons_of_mem c (break_mem_blank rfl hmore))
    · have hc : c = '\n' ∨ c = ';' := by simpa [endsRaw, hcomment] using hend
      have hpass : isSeparator c := by rcases hc with rfl | rfl <;> rfl
      rw [blank, if_pos (by rw [hpass, Bool.or_true])]
      rcases hc with rfl | rfl <;> rfl

/-- Raw text stops only where it may end. -/
theorem endsRaw_of_raw {stop : Char → Bool} {context : Text.Context} {text taken left : Text}
    (h : raw stop context text = .ok (taken, left)) : endsRaw stop left := by
  fun_induction raw stop context text generalizing taken left with
  | case1 => cases h; rfl
  | case2 => cases h
  | case3 depth c rest he =>
    cases h
    exact (Bool.and_eq_true_iff.1 he).2
  | case4 => cases h
  | case5 depth c rest he hc t l hr ih =>
    cases h
    exact ih hr
  | case6 => cases h
  | case7 => cases h
  | case8 context c rest hp ih =>
    obtain ⟨m, hm, rfl⟩ := extend_eq_ok h
    exact ih hm

end Lexeme

namespace Script

open Cursor

/-! ## How items end -/

section

variable {c d e : Cursor}

theorem atLineEnd_of_statement {position : Position} {s : Statement} (h : statement position c = .ok (s, d)) :
    d.atLineEnd := by
  simp only [statement, bind_eq_ok, Prod.exists] at h
  obtain ⟨ts, styles, b, -, g, -, rhs, d, hraw, h⟩ := h
  split at h
  · cases h
  · cases h
    unfold Cursor.raw at hraw
    split at hraw
    · next hleft =>
      cases hraw
      exact Lexeme.endsRaw_of_raw hleft
    · cases hraw

/-- **A statement ends where a line does.** -/
theorem atLineEnd_of_item {i : Item} (h : item c = .ok (i, d)) (hplain : i.braced = false) : d.atLineEnd := by
  cases itemFrom_of_item h with
  | macroBlock => cases hplain
  | sheet => cases hplain
  | statement _ _ hstatement => exact atLineEnd_of_statement hstatement

/-- The last character in front of `d` is a brace. -/
def Cursor.Closes (c d : Cursor) : Prop := ∃ u, c.rest = u ++ '}' :: d.rest

theorem Cursor.Reaches.closes (h : c.Reaches d) (hd : d.Closes e) : c.Closes e := by
  obtain ⟨taken, hc, -⟩ := h
  obtain ⟨u, hu⟩ := hd
  exact ⟨taken ++ u, by rw [hc, hu, List.append_assoc]⟩

theorem closes_of_eat? (h : c.eat? '}' = some d) : c.Closes d := by
  unfold Cursor.eat? at h
  split at h
  · cases h
  · next x left hc =>
    split at h
    · next hx =>
      cases h
      exact ⟨[], by rw [hc, hx]; rfl⟩
    · cases h

theorem entries_closes (opened : Position) : ∀ (c : Cursor) {es : List Entry} {d : Cursor},
    entries opened c = .ok (es, d) → c.Closes d
  | c, es, d, h => by
    rw [entries_eq] at h
    split at h
    · next hbrace =>
      cases h
      exact (reaches_skipSeparators c).closes (closes_of_eat? hbrace)
    · split at h
      · cases h
      · simp only [bind_eq_ok, Prod.exists] at h
        obtain ⟨en, b, hentry, h⟩ := h
        split at h
        · simp only [bind_eq_ok, pure_eq_ok, Prod.exists, Prod.mk.injEq] at h
          obtain ⟨more, d, hmore, rfl, rfl⟩ := h
          have := entry_size_lt hentry
          have := skipSeparators_size_le c
          have := skipInline_size_le b
          have hreaches : c.Reaches b.skipInline :=
            ((reaches_skipSeparators c).trans ((entry_yields inside_anywhere).of_ok hentry).2).trans (reaches_skipInline b)
          exact hreaches.closes (entries_closes opened b.skipInline hmore)
        · cases h
termination_by c => c.size

theorem sheetBody_closes {es : List Entry} (h : sheetBody c = .ok (es, d)) : c.Closes d := by
  simp only [sheetBody, bind_eq_ok] at h
  obtain ⟨b, hb, h⟩ := h
  exact ((expect_yields inside_anywhere _ _).of_ok hb).closes (entries_closes _ b h)

theorem sheetDef_closes {position : Position} {definition : SheetDef} (h : sheetDef position c = .ok (definition, d)) :
    c.Closes d := by
  unfold sheetDef at h
  split at h
  · cases h
  · next name b hname =>
    simp only [bind_eq_ok] at h
    obtain ⟨g, hg, h⟩ := h
    split at h
    · simp only [bind_eq_ok, pure_eq_ok, Prod.exists, Prod.mk.injEq] at h
      obtain ⟨es, d, hes, rfl, rfl⟩ := h
      have hreaches : c.Reaches g.skipInline := (((reaches_name? hname).trans (reaches_skipInline b)).trans
        ((expect_yields inside_anywhere _ _).of_ok hg)).trans (reaches_skipInline g)
      exact hreaches.closes (sheetBody_closes hes)
    · cases h

theorem macroBlock_closes {position : Position} {block : MacroBlock} (h : macroBlock position c = .ok (block, d)) :
    c.Closes d := by
  obtain ⟨named, inner, listed, closed, opened, ended, hname, hinner, hlisted, hclosed, hopened, hinside, -, hbrace, -, -⟩ :=
    macroBlock_eq_ok h
  have hinner : c.Reaches inner := (((reaches_skipInline c).trans (reaches_name? hname)).trans
    (reaches_skipInline named)).trans ((expect_yields inside_anywhere _ _).of_ok hinner)
  have hclosed : inner.Reaches closed := ((labelList_yields _ inside_anywhere).of_ok hlisted).trans
    ((expect_yields inside_anywhere _ _).of_ok hclosed)
  have hopened : closed.Reaches opened := (reaches_skipBlank closed).trans
    ((expect_yields inside_anywhere _ _).of_ok hopened)
  have hended : opened.Reaches ended.skipSeparators := (reaches_inside hinside).trans (reaches_skipSeparators ended)
  exact (((hinner.trans hclosed).trans hopened).trans hended).closes (closes_of_eat? hbrace)

/-- **A sheet or a macro ends with its brace.** -/
theorem closes_of_item {i : Item} (h : item c = .ok (i, d)) (hbraced : i.braced) : c.Closes d := by
  cases itemFrom_of_item h with
  | macroBlock hmark hword hblock =>
    exact ((reaches_pass? hmark).trans (reaches_word? hword)).closes (macroBlock_closes hblock)
  | sheet _ hmark hsheet => exact (reaches_eat? hmark).closes (sheetDef_closes hsheet)
  | statement => cases hbraced

end

/-! ## Where items stand -/

/-- An item of a script, with the cursors where it begins and where it ends. -/
structure Span where
  item : Item
  start : Cursor
  stop : Cursor

/-- These items are read from the cursor on, and there they stand. -/
inductive Spans : Cursor → List Span → Prop
  | nil {c : Cursor} (hend : c.skipSeparators.atEnd) : Spans c []
  | cons {c d : Cursor} {i : Item} {more : List Span} (hbrace : c.skipSeparators.peek ≠ some '}')
      (hitem : item c.skipSeparators = .ok (i, d)) (hmore : Spans d more) :
      Spans c (⟨i, c.skipSeparators, d⟩ :: more)

theorem not_atEnd_of_item {c d : Cursor} {i : Item} (h : item c = .ok (i, d)) : ¬ c.atEnd := by
  intro hend
  have hsize := item_size_lt h
  rw [atEnd, List.isEmpty_iff] at hend
  rw [size, size, hend] at hsize
  exact absurd hsize (Nat.not_lt_zero _)

theorem exists_spans : ∀ (c : Cursor) {is : List Item}, items c = .ok is → ∃ ss, Spans c ss ∧ ss.map Span.item = is
  | c, is, h => by
    rw [items_eq] at h
    split at h
    · next hend =>
      cases h
      exact ⟨[], .nil hend, rfl⟩
    · split at h
      · cases h
      · next hbrace =>
        simp only [bind_eq_ok, pure_eq_ok, Prod.exists] at h
        obtain ⟨i, d, hitem, more, hmore, rfl⟩ := h
        have : d.size < c.size := Nat.lt_of_lt_of_le (item_size_lt hitem) (skipSeparators_size_le c)
        obtain ⟨ss, hss, rfl⟩ := exists_spans d hmore
        exact ⟨_, .cons hbrace hitem hss, rfl⟩
termination_by c => c.size

theorem items_of_item {c d : Cursor} {i : Item} (hbrace : c.skipSeparators.peek ≠ some '}')
    (hitem : item c.skipSeparators = .ok (i, d)) : items c = (items d).map (i :: ·) := by
  rw [items_eq, if_neg (not_atEnd_of_item hitem), if_neg hbrace, hitem]
  simp only [ok_bind]
  cases items d <;> rfl

theorem items_of_spans {c : Cursor} {ss : List Span} (h : Spans c ss) : items c = .ok (ss.map Span.item) := by
  induction h with
  | nil hend => rw [items_eq, if_pos hend]; rfl
  | cons hbrace hitem _ ih => rw [items_of_item hbrace hitem, ih]; rfl

theorem Spans.closes {c : Cursor} {ss : List Span} {a : Span} (h : Spans c ss) (ha : a ∈ ss)
    (hbraced : a.item.braced) : c.Closes a.stop := by
  induction h with
  | nil => cases ha
  | cons _ hitem _ ih =>
    rcases List.mem_cons.1 ha with rfl | ha
    · exact (reaches_skipSeparators _).closes (closes_of_item hitem hbraced)
    · exact ((reaches_skipSeparators _).trans ((item_yields inside_anywhere).of_ok hitem).2).closes (ih ha)

theorem Cursor.Closes.size_lt {c d : Cursor} (h : c.Closes d) : d.size < c.size := by
  obtain ⟨u, hu⟩ := h
  rw [size, size, hu, List.length_append, List.length_cons]
  omega

/-! ## Behind statements -/

theorem upTo_skip (passes : Char → Bool) (c : Cursor) : c.upTo (c.skip passes) = (Lexeme.blank passes false c.rest).1 :=
  List.append_cancel_right ((reaches_skip passes c).rest_eq.symm.trans (Lexeme.blank_append passes false c.rest).symm)

/-- Between two spans there is a line break, or a `;` outside of comments. -/
def Span.Separated (a b : Span) : Prop := Lexeme.separates false (a.stop.upTo b.start)

instance (a b : Span) : Decidable (a.Separated b) := inferInstanceAs (Decidable (_ = true))

theorem isChain_of_spans {c : Cursor} {ss : List Span} (h : Spans c ss) :
    ss.IsChain fun a b => a.item.braced = false → a.Separated b := by
  induction h with
  | nil => exact .nil
  | cons _ hitem hmore ih =>
    cases hmore with
    | nil => exact .singleton _
    | cons _ hnext _ =>
      refine .cons_cons (fun hplain => ?_) ih
      rw [Span.Separated, Cursor.skipSeparators, upTo_skip]
      refine Lexeme.separates_blank (atLineEnd_of_item hitem hplain) fun hnil => ?_
      exact not_atEnd_of_item hnext (List.isEmpty_iff.2 hnil)

/-! ## Behind braces -/

theorem Passed.eq_of_rest {t t' : Text} {c d : Cursor} (h : Passed t t' c d) (hc : c.rest = t) :
    d = ⟨t', c.position⟩ := by
  rcases h with h | ⟨-, hd⟩
  · obtain ⟨u, hu, -⟩ := h.rest
    have hlength := congrArg List.length (hu.symm.trans hc)
    rw [List.length_append, List.length_cons] at hlength
    omega
  · exact hd

/-- All up to a brace is read as before, and what is behind it is read from there on. -/
theorem items_of_fenced {t' : Text} {c : Cursor} {ss back : List Span} {a : Span} (h : Spans c ss)
    (hbraced : a.item.braced) : ∀ (front : List Span) (d : Cursor), ss = front ++ a :: back →
    Fenced a.stop.rest t' c d →
    items d = (items ⟨t', a.stop.position⟩).map ((front ++ [a]).map Span.item ++ ·) := by
  induction h with
  | nil => exact fun front d hss => absurd hss.symm (List.append_ne_nil_of_right_ne_nil _ (List.cons_ne_nil _ _))
  | @cons c e i more hbrace hitem hmore ih =>
    intro front d hss hcd
    have hsize := item_size_lt hitem
    cases front with
    | nil =>
      -- this item ends with the brace itself, so that nothing is left of what the two scripts share
      obtain ⟨rfl, rfl⟩ := List.cons.inj hss
      have hs := hcd.skipSeparators hsize
      obtain ⟨e', hitem', hpassed⟩ := item_heeds hs hitem (Nat.le_refl _) fun hplain => absurd hbraced (by simp [hplain])
      rw [← hs.peek_eq] at hbrace
      rw [items_of_item hbrace hitem', hpassed.eq_of_rest rfl]
      rfl
    | cons s front =>
      -- an item before it ends in front of the brace, of whatever kind it is
      obtain ⟨rfl, rfl⟩ := List.cons.inj hss
      have := (hmore.closes (List.mem_append_right front List.mem_cons_self) hbraced).size_lt
      have hs := hcd.skipSeparators (Nat.lt_trans this hsize)
      obtain ⟨e', hitem', hee'⟩ := item_heeds.heeds hs hitem this
      rw [← hs.peek_eq] at hbrace
      rw [items_of_item hbrace hitem', ih front e' rfl hee']
      cases items ⟨t', a.stop.position⟩ <;> rfl

/-- How the items of a script stand in it. -/
structure LaidOut (text : Text) (ss : List Span) : Prop where
  spans : Spans (.start text) ss
  separated : ss.IsChain fun a b => a.item.braced = false → a.Separated b
  /-- Whatever text goes on right behind a brace, the items up to there stay, and those of the text follow. -/
  free : ∀ front a back, ss = front ++ a :: back → a.item.braced → ∀ w,
    read ((Cursor.start text).upTo a.stop ++ w) =
      (items ⟨w, a.stop.position⟩).map ((front ++ [a]).map Span.item ++ ·)

/-- **Items are separated unless a brace ends the first of them.**  In a script that is read there is a line break, or a
`;` outside of comments, between a statement and the next item.  Behind a sheet or a macro none is asked for. -/
theorem separated_unless_braced {text : Text} {is : List Item} (h : read text = .ok is) :
    ∃ ss, ss.map Span.item = is ∧ LaidOut text ss := by
  obtain ⟨ss, hss, his⟩ := exists_spans _ h
  refine ⟨ss, his, hss, isChain_of_spans hss, fun front a back hfront hbraced w => ?_⟩
  obtain ⟨u, hu⟩ := hss.closes (hfront ▸ List.mem_append_right front List.mem_cons_self) hbraced
  have hupTo : (Cursor.start text).upTo a.stop = u ++ ['}'] := by
    rw [upTo, size, size, hu, List.append_cons, List.length_append, Nat.add_sub_cancel, List.take_left]
  rw [hupTo, ← List.append_cons]
  exact items_of_fenced hss hbraced front _ hfront ⟨⟨u, hu, rfl⟩, rfl⟩

/-- Between the sheet and `B=1` stands a blank and no more, and the text is read all the same. -/
theorem not_separated_of_sheet :
    ∃ a b : Span, Spans (.start "@a=\x7b\x7d B=1".toList) [a, b] ∧ ¬ a.Separated b ∧
      read "@a=\x7b\x7d B=1".toList = .ok [a.item, b.item] ∧
      ∃ ss, ss.map Span.item = [a.item, b.item] ∧ LaidOut "@a=\x7b\x7d B=1".toList ss := by
  have hsheet : item (.start "@a=\x7b\x7d B=1".toList) =
      .ok (.step (.sheet ⟨"a".toList, [], ⟨1, 1⟩⟩), ⟨" B=1".toList, ⟨1, 6⟩⟩) := by decide +kernel
  have hstatement : item ⟨"B=1".toList, ⟨1, 7⟩⟩ =
      .ok (.step (.statement ⟨[⟨"B".toList, {}⟩], [], "1".toList, ⟨1, 7⟩⟩), ⟨[], ⟨1, 10⟩⟩) := by decide +kernel
  have hspans : Spans (.start "@a=\x7b\x7d B=1".toList) _ :=
    .cons (by decide) hsheet (.cons (by decide) hstatement (.nil rfl))
  have hread := items_of_spans hspans
  exact ⟨_, _, hspans, by decide, hread, separated_unless_braced hread⟩

end Script
end StyleScript
