import StyleScript.Proofs.Script.Places
import StyleScript.Proofs.Script.Moved
/-!
# Two scripts, one behind the other

A script that is put behind another one, on a line of its own, is read as if it stood alone, except that its places
are some lines further down (`read_joined`).  The first script is read as before, since more text after a line break
changes nothing of an item (`item_moved`); where its items end, the reader has passed all of it and stands at the line
break, and whether it has skipped some blanks there or not does not matter (`items_eq_of_skipSeparators`).
-/
namespace StyleScript

namespace Position

/-- The same place some lines further down. -/
def down (lines : Nat) (p : Position) : Position := ⟨p.line + lines, p.column⟩

theorem next_down (lines : Nat) (p : Position) (c : Char) : (p.next c).down lines = (p.down lines).next c := by
  unfold next
  split
  · exact congrArg (Position.mk · 1) (Nat.add_right_comm ..)
  · rfl

theorem past_line (text : Text) : ∀ p : Position, (p.past text).line = p.line + text.count '\n' := by
  induction text with
  | nil => exact fun p => rfl
  | cons c text ih =>
    intro p
    rw [past_cons, ih]
    by_cases hc : c = '\n'
    · rw [hc, List.count_cons_self, next, if_pos rfl]
      show p.line + 1 + text.count '\n' = p.line + (text.count '\n' + 1)
      omega
    · rw [List.count_cons_of_ne hc, next, if_neg hc]

end Position

namespace Script

theorem items_eq_of_skipSeparators {c d : Cursor} (h : c.skipSeparators = d.skipSeparators) : items c = items d := by
  rw [items_eq c, items_eq d, h]

section

variable {f : Position → Position} (hf : ∀ p c, f (p.next c) = (f p).next c) {tail : Text} (ht : EndsLine tail)
include hf ht

/-- Where nothing but blanks is left in front of more text, these blanks are skipped with those of the text. -/
theorem items_of_nothing_left {c d : Cursor} (h : Prolonged (By f) tail c d) (hblank : c.skipSeparators.rest = []) :
    items d = items ⟨tail, f (c.position.past c.rest)⟩ := by
  refine items_eq_of_skipSeparators ?_
  have hblank : (Lexeme.blank Lexeme.isSeparator false c.rest).2 = [] := hblank
  have hposition : f (c.position.past c.rest) = d.position.past c.rest :=
    ((stepping_by hf).past c.rest h.position).symm
  simp only [Cursor.skipSeparators, Cursor.skip, Cursor.move, h.rest, blank_tail ht, if_pos hblank, hposition,
    Position.past_append]

/-- **Items in front of more text** are the moved items, and then those of the text. -/
theorem items_moved (c d : Cursor) (h : Prolonged (By f) tail c d) {is : List Item} (his : items c = .ok is) :
    items d = (items ⟨tail, f (c.position.past c.rest)⟩).map (is.map (Item.moved f) ++ ·) := by
  rw [items_eq c] at his
  split at his
  · next hend =>
    rw [Cursor.atEnd, List.isEmpty_iff] at hend
    cases his
    rw [items_of_nothing_left hf ht h hend]
    cases items ⟨tail, f (c.position.past c.rest)⟩ <;> rfl
  · next hend =>
    split at his
    · cases his
    · next hbrace =>
      rcases h.skip_or (stepping_by hf) ht Lexeme.isSeparator with
        ⟨(hnil : c.skipSeparators.rest = []), -⟩ |
        ⟨(hs : Prolonged (By f) tail c.skipSeparators d.skipSeparators),
          (hend' : d.skipSeparators.atEnd = c.skipSeparators.atEnd)⟩
      · exact absurd (by rw [Cursor.atEnd, hnil]; rfl) hend
      · simp only [bind_eq_ok, pure_eq_ok, Prod.exists] at his
        obtain ⟨i, a, hitem, more, hmore, rfl⟩ := his
        have hreaches : c.Reaches a :=
          (Cursor.reaches_skipSeparators c).trans ((item_yields Cursor.inside_anywhere).of_ok hitem).2
        have hcarried := item_moved hf ht hs
        rw [hitem] at hcarried
        obtain ⟨⟨_, b⟩, hitem', rfl, hab⟩ := hcarried
        have : a.size < c.size := Nat.lt_of_lt_of_le (item_size_lt hitem) (Cursor.skipSeparators_size_le c)
        rw [items_eq d, if_neg (by rwa [hend']), if_neg (mt (hs.peek_iff ht (by decide)).1 hbrace), hitem']
        simp only [bind, Except.bind]
        rw [items_moved a b hab hmore, hreaches.past]
        cases items ⟨tail, f (c.position.past c.rest)⟩ <;> rfl
termination_by c.size

end

theorem items_of_nil (p : Position) : items ⟨[], p⟩ = .ok [] := by rw [items_eq]; rfl

/-- A line break in front of items is a blank. -/
theorem items_break (text : Text) (p : Position) : items ⟨'\n' :: text, p⟩ = items ⟨text, p.next '\n'⟩ := by
  refine items_eq_of_skipSeparators ?_
  have hblank : Lexeme.isSeparator '\n' = true := by decide
  simp [Cursor.skipSeparators, Cursor.skip, Cursor.move, Lexeme.blank, Lexeme.startsComment, hblank]

/-- The number of lines before what stands behind a text and a line break. -/
def linesOf (text : Text) : Nat := text.count '\n' + 1

/-- **Two scripts that are read are read as one**: the items of the first, and then those of the second, moved down by
the lines of the first. -/
theorem read_joined {first second : Text} {is js : List Item} (hfirst : read first = .ok is)
    (hsecond : read second = .ok js) :
    read (first ++ '\n' :: second) = .ok (is ++ js.map (Item.moved (·.down (linesOf first)))) := by
  have hstay : Prolonged (By id) ('\n' :: second) (.start first) (.start (first ++ '\n' :: second)) := ⟨rfl, rfl⟩
  have hbehind : Prolonged (By (·.down (linesOf first))) [] (.start second)
      ⟨second, (Position.start.past first).next '\n'⟩ := by
    refine ⟨(List.append_nil _).symm, ?_⟩
    rw [Position.next, if_pos rfl, Position.past_line]
    rfl
  have htwo : items ⟨second, (Position.start.past first).next '\n'⟩ =
      .ok (js.map (Item.moved (·.down (linesOf first)))) := by
    rw [items_moved (Position.next_down _) (.inl rfl) _ _ hbehind hsecond, items_of_nil]
    exact congrArg Except.ok (List.append_nil _)
  have hone := items_moved (fun _ _ => rfl) (.inr ⟨second, rfl⟩) _ _ hstay hfirst
  rw [Item.moved_id, List.map_id] at hone
  refine hone.trans ?_
  rw [id, items_break]
  exact (congrArg (Except.map (is ++ ·)) htwo).trans rfl

end Script
end StyleScript
