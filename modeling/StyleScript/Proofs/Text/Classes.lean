import Mathlib.Data.List.TakeWhile
import StyleScript.Text.Classes
/-!
# Character classes that keep apart

What begins a name is never a blank, so a reader that skips blanks stops where a name begins
(`isBlank_of_isAlphabetic`).  The two classes are tables; the blanks are few, and each of them is looked up in
the other table once.  Trimming then changes nothing that begins and ends with no blank (`trim_eq_self`).
-/
namespace StyleScript.Text

/-! ## Code points of a few ranges -/

def Ranges.points (ranges : Ranges) : List Nat :=
  ranges.flatMap fun r => List.range' r.1 (r.2 + 1 - r.1)

theorem Ranges.mem_points {bound n : Nat} {ranges : Ranges} (h : Ranges.Ascending bound ranges)
    (hn : ranges.holds n) : n ∈ ranges.points := by
  obtain ⟨r, hr, h1, h2⟩ := (Ranges.holds_iff h).1 hn
  rw [Ranges.points, List.mem_flatMap]
  refine ⟨r, hr, ?_⟩
  rw [List.mem_range'_1]
  omega

/-! ## Names and labels begin with no blank -/

theorem isAlphabetic_of_isBlank {c : Char} (h : isBlank c) : isAlphabetic c = false := by
  have hc : c.toNat ∈ blankRanges.points := @Ranges.mem_points 0 _ _ (by decide) h
  have none : ∀ n ∈ blankRanges.points, alphabeticRanges.holds n = false := by decide +kernel
  exact none _ hc

theorem startsLabel_of_startsName {c : Char} (h : startsName c) : startsLabel c := by
  simp only [startsName, startsLabel, Bool.or_eq_true] at h ⊢
  exact .inl h

theorem isBlank_of_startsLabel {c : Char} (h : startsLabel c) : isBlank c = false := by
  cases hb : isBlank c with
  | false => rfl
  | true =>
    have ha := isAlphabetic_of_isBlank hb
    simp only [startsLabel, ha, Bool.false_or, Bool.or_eq_true, decide_eq_true_eq] at h
    rcases h with rfl | rfl
    · exact absurd hb (by decide)
    · exact absurd hb (by decide)

theorem isNumeric_of_isBlank {c : Char} (h : isBlank c) : isNumeric c = false := by
  have hc : c.toNat ∈ blankRanges.points := @Ranges.mem_points 0 _ _ (by decide) h
  have none : ∀ n ∈ blankRanges.points, numericRanges.holds n = false := by decide +kernel
  exact none _ hc

theorem isBlank_of_continuesLabel {c : Char} (h : continuesLabel c) : isBlank c = false := by
  cases hb : isBlank c with
  | false => rfl
  | true =>
    simp only [continuesLabel, isAlphanumeric, isAlphabetic_of_isBlank hb, isNumeric_of_isBlank hb, Bool.or_false,
      Bool.false_or, Bool.or_eq_true, decide_eq_true_eq] at h
    rcases h with (rfl | rfl) | rfl
    all_goals exact absurd hb (by decide)

theorem ne_of_startsLabel {c d : Char} (h : startsLabel c) (hd : startsLabel d = false) : c ≠ d := by
  rintro rfl
  rw [h] at hd
  cases hd

/-! ## Decimal digits -/

theorem forall_isDigit {P : Char → Prop} (h : ∀ n ∈ List.range' 48 10, P (Char.ofNat n)) {c : Char}
    (hc : c.isDigit) : P c := by
  have hmem : c.toNat ∈ List.range' 48 10 := by
    rw [List.mem_range'_1]
    simp only [Char.isDigit, Bool.and_eq_true, decide_eq_true_eq] at hc
    exact ⟨UInt32.le_iff_toNat_le.1 hc.1, Nat.lt_succ_of_le (UInt32.le_iff_toNat_le.1 hc.2)⟩
  have := h _ hmem
  rwa [Char.ofNat_toNat] at this

theorem isDigit_of_mem_ofNat {n : Nat} {c : Char} (h : c ∈ ofNat n) : c.isDigit :=
  Nat.isDigit_of_mem_toDigits (by decide) (by decide) h

/-! ## Trimming -/

/-- A text that neither begins nor ends with a blank. -/
def Trimmed (text : Text) : Prop :=
  (∀ c ∈ text.head?, isBlank c = false) ∧ ∀ c ∈ text.getLast?, isBlank c = false

instance (text : Text) : Decidable (Trimmed text) :=
  decidable_of_iff ((text.head?.all fun c => !isBlank c) && text.getLast?.all fun c => !isBlank c) <| by
    simp [Trimmed, Option.all_eq_true]

theorem trimLeft_eq_self : ∀ {text : Text}, (∀ c ∈ text.head?, isBlank c = false) → trimLeft text = text
  | [], _ => rfl
  | c :: rest, h => by
    have hc := h c rfl
    rw [trimLeft, List.dropWhile_cons, hc]
    rfl

theorem trimRight_eq_reverse (text : Text) : trimRight text = (trimLeft text.reverse).reverse := rfl

theorem trimRight_eq_self {text : Text} (h : ∀ c ∈ text.getLast?, isBlank c = false) : trimRight text = text := by
  rw [trimRight_eq_reverse, trimLeft_eq_self, List.reverse_reverse]
  intro c hc
  rw [List.head?_reverse] at hc
  exact h c hc

theorem trim_eq_self {text : Text} (h : Trimmed text) : trim text = text := by
  rw [trim, trimLeft_eq_self h.1, trimRight_eq_self h.2]

theorem head?_trimLeft {text : Text} {c : Char} (h : c ∈ (trimLeft text).head?) : isBlank c = false := by
  have hnot := List.head?_dropWhile_not isBlank text
  rw [Option.mem_def] at h
  rw [trimLeft] at h
  rw [h] at hnot
  simpa using hnot

theorem trimRight_append_blank (text : Text) {gap : Text} (h : ∀ c ∈ gap, isBlank c) :
    trimRight (text ++ gap) = trimRight text := by
  rw [trimRight, trimRight, List.reverse_append]
  congr 1
  exact List.dropWhile_append_of_pos fun c hc => h c (List.mem_reverse.1 hc)

theorem trim_append_blank {text : Text} (h : Trimmed text) (hne : text ≠ []) {gap : Text}
    (hgap : ∀ c ∈ gap, isBlank c) : trim (text ++ gap) = text := by
  obtain ⟨c, rest, rfl⟩ := List.exists_cons_of_ne_nil hne
  rw [trim, @trimLeft_eq_self (c :: rest ++ gap) (fun d hd => h.1 d hd), trimRight_append_blank _ hgap,
    trimRight_eq_self h.2]

/-- A text is what is left of it when it is trimmed, between blanks. -/
theorem exists_gaps (text : Text) : ∃ lead tail, text = lead ++ trim text ++ tail ∧ (∀ c ∈ lead, isBlank c) ∧
    ∀ c ∈ tail, isBlank c := by
  refine ⟨text.takeWhile isBlank, ((trimLeft text).reverse.takeWhile isBlank).reverse, ?_,
    fun c hc => ?_, fun c hc => ?_⟩
  · rw [List.append_assoc, trim, trimRight, ← List.reverse_append, List.takeWhile_append_dropWhile,
      List.reverse_reverse, trimLeft, List.takeWhile_append_dropWhile]
  · exact List.mem_takeWhile_imp hc
  · exact List.mem_takeWhile_imp (List.mem_reverse.1 hc)

theorem length_trim_le (text : Text) : (trim text).length ≤ text.length := by
  rw [trim, trimRight, List.length_reverse]
  refine Nat.le_trans (List.dropWhile_sublist _).length_le ?_
  rw [List.length_reverse]
  exact (List.dropWhile_sublist _).length_le

theorem trimmed_trim (text : Text) : Trimmed (trim text) := by
  constructor
  · intro c hc
    rw [trim, trimRight_eq_reverse, List.head?_reverse] at hc
    -- what is left of the reversed text is a tail of it, so both end alike
    obtain ⟨front, hfront⟩ := @List.dropWhile_suffix _ (trimLeft text).reverse isBlank
    rw [trimLeft] at hc
    have hlast : (trimLeft text).head? = some c := by
      rw [← List.getLast?_reverse, ← hfront]
      rw [List.getLast?_append, hc]
      rfl
    exact head?_trimLeft hlast
  · intro c hc
    rw [trim, trimRight_eq_reverse, List.getLast?_reverse] at hc
    exact head?_trimLeft hc

theorem trimmed_of_trim_eq_self {text : Text} (h : trim text = text) : Trimmed text := h ▸ trimmed_trim text

theorem trimmed_of_length_trim {text : Text} (h : (trim text).length = text.length) : Trimmed text := by
  obtain ⟨lead, tail, htext, -, -⟩ := exists_gaps text
  have hlength := congrArg List.length htext
  rw [List.length_append, List.length_append] at hlength
  have hlead : lead = [] := List.eq_nil_of_length_eq_zero (by omega)
  have htail : tail = [] := List.eq_nil_of_length_eq_zero (by omega)
  rw [hlead, htail, List.append_nil] at htext
  exact trimmed_of_trim_eq_self htext.symm

theorem trimmed_of_no_blank {text : Text} (h : ∀ c ∈ text, isBlank c = false) : Trimmed text :=
  ⟨fun c hc => h c (List.mem_of_mem_head? hc), fun c hc => h c (List.mem_of_mem_getLast? hc)⟩

end StyleScript.Text
