/-!
# Ranges of code points

A property of characters is a list of ranges in ascending order.  The look-up stops at the first range
that begins past the character, so that the common characters, which come first, are found at once and a
character that precedes every range costs one comparison.
-/
namespace StyleScript.Text

/-- First and last code point of each range; the ranges ascend and do not touch. -/
abbrev Ranges := List (Nat × Nat)

/-- Whether a code point lies in one of the ranges. -/
def Ranges.holds : Ranges → Nat → Bool
  | [], _ => false
  | (first, last) :: rest, n => if n < first then false else if n ≤ last then true else Ranges.holds rest n

/-- Each range begins after `bound` and after the end of the one before it. -/
def Ranges.Ascending : Nat → Ranges → Bool
  | _, [] => true
  | bound, (first, last) :: rest => bound ≤ first && first ≤ last && Ranges.Ascending (last + 1) rest

theorem Ranges.holds_iff {bound n : Nat} {ranges : Ranges} (h : Ranges.Ascending bound ranges) :
    ranges.holds n ↔ ∃ r ∈ ranges, r.1 ≤ n ∧ n ≤ r.2 := by
  induction ranges generalizing bound with
  | nil => simp [holds]
  | cons r rest ih =>
    obtain ⟨first, last⟩ := r
    simp only [Ascending, Bool.and_eq_true, decide_eq_true_eq] at h
    obtain ⟨⟨_, h2⟩, h3⟩ := h
    have later : ∀ r ∈ rest, last < r.1 := by
      clear ih h2
      generalize hb : last + 1 = b at h3
      replace hb : last < b := by omega
      induction rest generalizing b with
      | nil => simp
      | cons s rest ihr =>
        simp only [Ascending, Bool.and_eq_true, decide_eq_true_eq] at h3
        intro t ht
        rcases List.mem_cons.1 ht with rfl | ht
        · omega
        · exact ihr (s.2 + 1) h3.2 (by omega) t ht
    simp only [holds, List.mem_cons, exists_eq_or_imp]
    by_cases hlt : n < first
    · simp only [hlt, if_true, Bool.false_eq_true, false_iff]
      rintro (h | ⟨s, hs, h, _⟩)
      · omega
      · have := later s hs; omega
    · by_cases hle : n ≤ last
      · simp only [hlt, hle, if_false, if_true, true_iff]
        exact .inl ⟨by omega, trivial⟩
      · simp only [hlt, hle, if_false, ih h3]
        constructor
        · exact fun h => .inr h
        · rintro (h | h)
          · exact h.2.elim
          · exact h

end StyleScript.Text
