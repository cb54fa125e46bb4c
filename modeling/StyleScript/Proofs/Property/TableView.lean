import StyleScript.Property.TableView
import StyleScript.Proofs.Number.Integers
import StyleScript.Proofs.Property.Aspects
/-!
# Columns of the table view

A column is read as an integer of 64 bits, whichever it is, but it is written as the integer that a number is cut to.
So a column is kept if it has at most 53 significant bits or is the greatest of all, and any other is written as another
column (`column_kept_iff`).
-/
namespace StyleScript.TableView

open Binary64 (IsExact int64Least int64Greatest)

variable {n : Int}

/-- The attributes of a column and nothing else. -/
def ofColumn (n : Int) : Attributes := OrderedMap.ofList [("column", Text.ofInt n)]

theorem negation_ofInt (n : Int) : Text.negation (Text.ofInt n) = (true, Text.ofInt n) := by
  obtain ⟨c, text, htext⟩ := List.exists_cons_of_ne_nil (Text.ofInt_ne_nil n)
  have hc : c ≠ '~' := by
    rintro rfl
    exact absurd (Text.isDigit_or_minus_of_mem_ofInt (htext ▸ List.mem_cons_self)) (by decide)
  rw [htext, Text.negation_of_ne hc]

/-- The decimal of an integer names no flag. -/
theorem word_ofInt (hleast : int64Least ≤ n) (hgreatest : n ≤ int64Greatest) :
    word column (Text.ofInt n) = .ok ("column", Text.ofInt n) := by
  have hflag : Text.ofInt n ≠ "points" := fun h =>
    absurd (Text.isDigit_or_minus_of_mem_ofInt (h ▸ List.mem_cons_self : 'p' ∈ Text.ofInt n)) (by decide)
  rw [word, negation_ofInt]
  dsimp only
  rw [if_neg hflag, column, Text.integer64?_ofInt hleast hgreatest]

/-- The decimal of every integer of 64 bits is read as this column. -/
theorem decode_ofInt (hleast : int64Least ≤ n) (hgreatest : n ≤ int64Greatest) :
    format.decode (Text.ofInt n) = .ok (some (ofColumn n)) := by
  have htokens : Text.tokens (Text.ofInt n) = .ok [Text.ofInt n] := (Text.part_ofInt n).dividesInto.atEnd
  have hsettings : settings [Text.ofInt n] = .ok [("column", Text.ofInt n)] :=
    bind_eq_ok.2 ⟨_, word_ofInt hleast hgreatest, rfl⟩
  exact bind_eq_ok.2 ⟨_, htokens, bind_eq_ok.2 ⟨_, hsettings, rfl⟩⟩

theorem unlessDefault?_ofColumn (hleast : int64Least ≤ n) (hgreatest : n ≤ int64Greatest) (hn : n ≠ -1) :
    (ofColumn n).unlessDefault? "column" "-1" = some (Text.ofInt n) := by
  have hsame : Text.sameValue (Text.ofInt n) (Text.ofInt (-1)) = false :=
    Bool.eq_false_iff.2 (mt (Text.sameValue_ofInt_of_small hleast hgreatest (by decide)).1 hn)
  have hget : (ofColumn n).get? "column" = some (Text.ofInt n) := rfl
  rw [Attributes.unlessDefault?, hget, Option.filter_some, if_pos]
  exact congrArg (!·) hsame

/-- A column other than the default is written as the integer that its decimal is cut to. -/
theorem encode_ofColumn (hleast : int64Least ≤ n) (hgreatest : n ≤ int64Greatest) (hn : n ≠ -1) :
    format.encode (ofColumn n) = some (Text.truncateText (Text.ofInt n)) := by
  have hwrite : write (ofColumn n) = [Text.truncateText (Text.ofInt n)] := by
    rw [write, unlessDefault?_ofColumn hleast hgreatest hn]
    rfl
  have hne : ∀ t ∈ [Text.truncateText (Text.ofInt n)], t ≠ [] :=
    List.forall_mem_singleton.2 (Text.truncateText_ne_nil (Text.ofInt_ne_nil n))
  show Text.nonempty? (Text.words (write (ofColumn n))) = _
  rw [hwrite, Text.nonempty?_words hne (List.cons_ne_nil _ _)]
  exact congrArg some (Text.words_eq_join hne)

/-- **A column is kept exactly if it is an exact integer.**  The decimal of every integer of 64 bits is read as this
column; the default apart, the column is written as this decimal again, and cutting leaves the decimal as it is, if and
only if the integer has at most 53 significant bits or is the greatest one. -/
theorem column_kept_iff (hleast : int64Least ≤ n) (hgreatest : n ≤ int64Greatest) :
    format.decode (Text.ofInt n) = .ok (some (ofColumn n)) ∧
      (n ≠ -1 → (format.encode (ofColumn n) = some (Text.ofInt n) ↔ IsExact n)) ∧
      (Text.truncateText (Text.ofInt n) = Text.ofInt n ↔ IsExact n) := by
  have hcut := Text.truncateText_ofInt_iff hleast hgreatest
  refine ⟨decode_ofInt hleast hgreatest, fun hn => ?_, hcut⟩
  rw [encode_ofColumn hleast hgreatest hn, Option.some_inj]
  exact hcut

/-- The least natural number that no number is cut to is read as a column, and another column is written. -/
theorem column_changed_of_odd : ∃ a, format.decode "9007199254740993" = .ok (some a) ∧
    format.encode a ≠ some "9007199254740993" ∧ Text.truncateText "9007199254740993" ≠ "9007199254740993" := by
  have hinexact : ¬IsExact 9007199254740993 := by
    rintro (h | ⟨digits, places, hdigits, h⟩)
    · exact absurd h (by decide)
    · cases places with
      | zero => omega
      | succ places =>
        rw [Nat.pow_succ, ← Nat.mul_assoc] at h
        omega
  obtain ⟨hdecode, hencode, htruncate⟩ := @column_kept_iff 9007199254740993 (by decide) (by decide)
  exact ⟨_, hdecode, mt (hencode (by decide)).1 hinexact, mt htruncate.1 hinexact⟩

end StyleScript.TableView
