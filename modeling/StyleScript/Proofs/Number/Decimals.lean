import Mathlib.Data.List.TakeWhile
import StyleScript.Number.Reading
import StyleScript.Proofs.Number.Rounding
import StyleScript.Proofs.Text.Classes
/-!
# Decimals read as numbers

Digits are read as the number they write (`digitsValue_ofNat`), and a positional decimal as the number nearest to it.
If a decimal lies in the interval of a magnitude it is read as that magnitude (`ofDecimal_places`); in particular a
natural number below `2 ^ 53` is read exactly (`float?_ofNat`).
-/
namespace StyleScript

/-! ## Digits -/

namespace Text

theorem digitsValue_eq : ∀ (sofar : Nat) (text : Text), digitsValue sofar text = Nat.ofDigitChars 10 text sofar
  | _, [] => rfl
  | sofar, c :: text => digitsValue_eq (10 * sofar + (c.toNat - '0'.toNat)) text

theorem digitsValue_ofNat (n : Nat) : digitsValue 0 (ofNat n) = n := by
  rw [digitsValue_eq, ofNat, Nat.ofDigitChars_ten_toDigits]

theorem ofNat_injective {m n : Nat} (h : ofNat m = ofNat n) : m = n := by
  rw [← digitsValue_ofNat m, h, digitsValue_ofNat]

theorem digitsValue_append (sofar : Nat) (text more : Text) :
    digitsValue sofar (text ++ more) = digitsValue (digitsValue sofar text) more := by
  rw [digitsValue_eq, digitsValue_eq, digitsValue_eq, Nat.ofDigitChars_append]

theorem digitsValue_zeros (sofar n : Nat) : digitsValue sofar (List.replicate n '0') = sofar * 10 ^ n := by
  rw [digitsValue_eq, Nat.ofDigitChars_replicate_zero, Nat.mul_comm]

theorem length_ofNat_pos (n : Nat) : 0 < (ofNat n).length := Nat.length_toDigits_pos

theorem lt_pow_length_ofNat (n : Nat) : n < 10 ^ (ofNat n).length :=
  (Nat.length_toDigits_le_iff (by decide) (length_ofNat_pos n)).1 (Nat.le_refl _)

theorem pow_length_ofNat_le {n : Nat} (h : 0 < n) : 10 ^ ((ofNat n).length - 1) ≤ n := by
  rcases Nat.eq_zero_or_pos ((ofNat n).length - 1) with h0 | hpos
  · rw [h0]
    exact h
  · refine Nat.le_of_not_lt fun hlt => ?_
    have := (Nat.length_toDigits_le_iff (by decide) hpos).2 hlt
    have := length_ofNat_pos n
    simp only [ofNat] at *
    omega

end Text

theorem Text.isBlank_of_isDigit {c : Char} (h : c.isDigit) : Text.isBlank c = false :=
  Text.forall_isDigit (P := fun c => Text.isBlank c = false) (by decide) h

/-! ## Positional decimals -/

namespace Text

variable {whole fraction : Text} {negative : Bool}

theorem decimalParts?_whole (hne : whole ≠ []) (hw : whole.all Char.isDigit) :
    decimalParts? whole = some (whole, [], 0) := by
  have htake : whole.takeWhile Char.isDigit = whole := List.takeWhile_eq_self_iff.2 (List.all_eq_true.1 hw)
  have hdrop : whole.dropWhile Char.isDigit = [] := List.dropWhile_eq_nil_iff.2 (List.all_eq_true.1 hw)
  simp only [decimalParts?, htake, hdrop]
  rw [if_neg (by simpa using hne)]

theorem decimalParts?_point (hne : whole ≠ []) (hw : whole.all Char.isDigit) (hf : fraction.all Char.isDigit) :
    decimalParts? (whole ++ '.' :: fraction) = some (whole, fraction, 0) := by
  have hall := List.all_eq_true.1 hw
  have htake : (whole ++ '.' :: fraction).takeWhile Char.isDigit = whole := by
    rw [List.takeWhile_append_of_pos hall]
    exact List.append_nil whole
  have hdrop : (whole ++ '.' :: fraction).dropWhile Char.isDigit = '.' :: fraction := by
    rw [List.dropWhile_append_of_pos hall]
    rfl
  have htake' : fraction.takeWhile Char.isDigit = fraction := List.takeWhile_eq_self_iff.2 (List.all_eq_true.1 hf)
  have hdrop' : fraction.dropWhile Char.isDigit = [] := List.dropWhile_eq_nil_iff.2 (List.all_eq_true.1 hf)
  simp only [decimalParts?, htake, hdrop, htake', hdrop']
  rw [if_neg (by simp [hne])]

/-- A text that begins with a digit is no word and has no sign. -/
theorem magnitude?_of_isDigit {c : Char} {text : Text} (hc : c.isDigit) :
    magnitude? negative (c :: text) = (decimalParts? (c :: text)).map fun (whole, fraction, e) =>
      .ofDecimal negative (digitsValue 0 (whole ++ fraction)) (e - fraction.length) := by
  have hlower : c.toLower ≠ 'i' ∧ c.toLower ≠ 'n' :=
    forall_isDigit (P := fun c => c.toLower ≠ 'i' ∧ c.toLower ≠ 'n') (by decide) hc
  have hinf : lowered (c :: text) ≠ "inf" := fun h => hlower.1 (List.cons.inj h).1
  have hinfinity : lowered (c :: text) ≠ "infinity" := fun h => hlower.1 (List.cons.inj h).1
  have hnan : lowered (c :: text) ≠ "nan" := fun h => hlower.2 (List.cons.inj h).1
  have hword : (decide (lowered (c :: text) = "inf") || decide (lowered (c :: text) = "infinity")) = false := by
    rw [decide_eq_false hinf, decide_eq_false hinfinity]
    rfl
  rw [magnitude?, hword, if_neg Bool.false_ne_true, if_neg hnan]

/-- A positional decimal is read as the number nearest to it. -/
theorem magnitude?_positional (hne : whole ≠ []) (hw : whole.all Char.isDigit) (hf : fraction.all Char.isDigit) :
    magnitude? negative (if fraction.isEmpty then whole else whole ++ '.' :: fraction) =
      some (.ofDecimal negative (digitsValue 0 (whole ++ fraction)) (-(fraction.length : Int))) := by
  obtain ⟨c, whole, rfl⟩ := List.exists_cons_of_ne_nil hne
  have hc : c.isDigit := List.all_eq_true.1 hw c List.mem_cons_self
  cases fraction with
  | nil =>
    rw [List.isEmpty_nil, if_pos rfl, magnitude?_of_isDigit hc, decimalParts?_whole hne hw]
    rfl
  | cons d fraction =>
    rw [List.isEmpty_cons, if_neg Bool.false_ne_true, List.cons_append, magnitude?_of_isDigit hc, ← List.cons_append,
      decimalParts?_point hne hw hf, Option.map_some]
    dsimp only
    rw [Int.zero_sub]

theorem float?_of_isDigit {c : Char} {text : Text} (hc : c.isDigit) :
    float? (c :: text) = magnitude? false (c :: text) := by
  have hsign : c ≠ '-' ∧ c ≠ '+' := forall_isDigit (P := fun c => c ≠ '-' ∧ c ≠ '+') (by decide) hc
  rw [float?]
  · rintro rest ⟨⟩
    exact hsign.1 rfl
  · rintro rest ⟨⟩
    exact hsign.2 rfl

end Text

/-! ## Decimals in an interval -/

namespace Binary64

theorem ofUnits_eq {units num den : Nat} (negative : Bool) (hunits : Representable units) (hden : 0 < den)
    (h : (interval units).Covers num den) : ofUnits negative num den = finite negative units := by
  rw [ofUnits, roundUnits_eq hden hunits.spaced h, if_pos hunits.finite]

theorem one_eq : one = 2 ^ 1074 := by decide +kernel

theorem one_pos : 0 < one := by decide +kernel

theorem overflow_eq : overflow = 2 ^ 1024 * one := by decide +kernel

section

variable {units digits places : Nat}

/-- Below a decimal in the interval of a magnitude there is half a unit, above it one and a half magnitudes. -/
theorem Interval.Covers.between (hpos : 0 < units) (h : (interval units).Covers (digits * one) (10 ^ places)) :
    2 * 10 ^ places ≤ 4 * (digits * one) ∧ 4 * (digits * one) ≤ 6 * units * 10 ^ places := by
  have hstep := spacing_le hpos
  have hbelow := below_le units
  have hend := spacing_pos units
  obtain ⟨hlow, hhigh, -⟩ := h
  rw [interval_eq] at hlow hhigh
  dsimp only at hlow hhigh
  exact ⟨Nat.le_trans (Nat.mul_le_mul_right _ (by omega)) hlow,
    Nat.le_trans hhigh (Nat.mul_le_mul_right _ (by omega))⟩

theorem digits_pos_of_covers (hpos : 0 < units) (h : (interval units).Covers (digits * one) (10 ^ places)) :
    0 < digits := by
  have hlow := (h.between hpos).1
  have hscale : 0 < 10 ^ places := Nat.pow_pos (by decide)
  refine Nat.pos_of_ne_zero fun h0 => ?_
  rw [h0, Nat.zero_mul] at hlow
  omega

/-- What is read as a finite magnitude is far below the end of the range. -/
theorem length_le_of_covers (hunits : Representable units) (hpos : 0 < units)
    (h : (interval units).Covers (digits * one) (10 ^ places)) : (Text.ofNat digits).length ≤ places + 310 := by
  obtain ⟨e, he, hrange⟩ : ∃ e, e = 309 ∧ 2 * 2 ^ 1024 ≤ 10 ^ e := ⟨309, rfl, by decide +kernel⟩
  have hfinite : 6 * units * 10 ^ places < 6 * overflow * 10 ^ places :=
    Nat.mul_lt_mul_of_pos_right (Nat.mul_lt_mul_of_pos_left hunits.finite (by decide)) (Nat.pow_pos (by decide))
  have hratio : 6 * overflow * 10 ^ places = 6 * (2 ^ 1024 * 10 ^ places) * one := by
    rw [overflow_eq]
    generalize 2 ^ 1024 = range
    ring
  have hcancel : 4 * digits < 6 * (2 ^ 1024 * 10 ^ places) := by
    refine Nat.lt_of_mul_lt_mul_right (a := one) ?_
    rw [Nat.mul_assoc, ← hratio]
    exact Nat.lt_of_le_of_lt (h.between hpos).2 hfinite
  have hpow : 2 * (2 ^ 1024 * 10 ^ places) ≤ 10 ^ (e + places) := by
    rw [← Nat.mul_assoc, Nat.pow_add]
    exact Nat.mul_le_mul_right (10 ^ places) hrange
  have hbound : digits < 10 ^ (e + places) := by
    generalize 2 ^ 1024 * 10 ^ places = bound at *
    omega
  have hlead := Text.pow_length_ofNat_le (digits_pos_of_covers hpos h)
  have := (Nat.pow_lt_pow_iff_right (by decide)).1 (Nat.lt_of_le_of_lt hlead hbound)
  omega

/-- What is read as a magnitude that is not zero is far above the least one. -/
theorem places_lt_of_covers (hpos : 0 < units) (h : (interval units).Covers (digits * one) (10 ^ places)) :
    places < (Text.ofNat digits).length + 324 := by
  obtain ⟨e, he, hrange⟩ : ∃ e, e = 324 ∧ 2 * one ≤ 10 ^ e := ⟨324, rfl, by decide +kernel⟩
  have hlow := (h.between hpos).1
  have hbound : 10 ^ places < 10 ^ ((Text.ofNat digits).length + e) := by
    calc 10 ^ places ≤ digits * (2 * one) := by rw [Nat.mul_left_comm]; omega
      _ < 10 ^ (Text.ofNat digits).length * (2 * one) :=
        Nat.mul_lt_mul_of_pos_right (Text.lt_pow_length_ofNat digits) (Nat.mul_pos Nat.two_pos one_pos)
      _ ≤ 10 ^ (Text.ofNat digits).length * 10 ^ e := Nat.mul_le_mul_left _ hrange
      _ = 10 ^ ((Text.ofNat digits).length + e) := (Nat.pow_add ..).symm
  have := (Nat.pow_lt_pow_iff_right (by decide)).1 hbound
  omega

end

/-- **A decimal in the interval of a magnitude is read as the magnitude.** -/
theorem ofDecimal_places {units digits places : Nat} (negative : Bool) (hunits : Representable units)
    (hpos : 0 < units) (h : (interval units).Covers (digits * one) (10 ^ places)) :
    ofDecimal negative digits (-(places : Int)) = finite negative units := by
  have hdigits := digits_pos_of_covers hpos h
  have hupper := length_le_of_covers hunits hpos h
  have hlower := places_lt_of_covers hpos h
  have hlength : (Nat.toDigits 10 digits).length = (Text.ofNat digits).length := rfl
  rw [ofDecimal.eq_def, if_neg hdigits.ne']
  dsimp only
  rw [hlength, if_neg (by omega), if_neg (by omega)]
  cases places with
  | zero =>
    refine ofUnits_eq negative hunits Nat.one_pos ?_
    have hshape : digits * Nat.pow 10 0 * one = digits * one := by
      rw [show Nat.pow 10 0 = 1 from rfl, Nat.mul_one]
    rw [hshape]
    exact h
  | succ e => exact ofUnits_eq negative hunits (Nat.pow_pos (by decide)) h

/-- A natural number below `2 ^ 53` is a magnitude. -/
theorem representable_mul_one {n : Nat} (h : n < 2 ^ 53) : Representable (n * one) := by
  refine ⟨one_eq ▸ spacing_dvd_mul_pow 1074 h.le, ?_⟩
  rw [overflow_eq]
  exact Nat.mul_lt_mul_of_pos_right (Nat.lt_trans h (by decide +kernel)) one_pos

theorem same_finite {m n : Nat} : same (finite false m) (finite false n) ↔ m = n := by
  simp [same, equals]

end Binary64

/-! ## Natural numbers -/

namespace Text

theorem exists_cons_ofNat (n : Nat) : ∃ c text, ofNat n = c :: text ∧ c.isDigit := by
  obtain ⟨c, text, h⟩ := List.exists_cons_of_ne_nil (show ofNat n ≠ [] from Nat.toDigits_ne_nil)
  exact ⟨c, text, h, isDigit_of_mem_ofNat (h ▸ List.mem_cons_self)⟩

theorem allDigits_ofNat (n : Nat) : allDigits (ofNat n) :=
  List.all_eq_true.2 fun _ hc => isDigit_of_mem_ofNat hc

theorem trim_ofNat (n : Nat) : trim (ofNat n) = ofNat n :=
  trim_eq_self (trimmed_of_no_blank fun _ hc => isBlank_of_isDigit (isDigit_of_mem_ofNat hc))

theorem le_of_natural? {greatest n : Nat} {text : Text} (h : natural? greatest text = some n) : n ≤ greatest := by
  rw [natural?] at h
  split at h
  · next hdigits =>
    cases h
    rw [Bool.and_eq_true, decide_eq_true_eq] at hdigits
    exact hdigits.2
  · cases h

theorem natural?_ofNat {greatest n : Nat} (h : n ≤ greatest) : natural? greatest (ofNat n) = some n := by
  obtain ⟨c, text, htext, hc⟩ := exists_cons_ofNat n
  have hplus : after? ['+'] (ofNat n) = none := by
    rw [htext, after?, if_neg fun h => forall_isDigit (P := (· ≠ '+')) (by decide) hc h.symm]
  have hempty : (ofNat n).isEmpty = false := by rw [htext]; rfl
  rw [natural?, hplus, Option.getD_none, hempty, allDigits_ofNat, digitsValue_ofNat, decide_eq_true h]
  rfl

/-- Digits are read as the number nearest to the one that they write, also behind a sign. -/
theorem magnitude?_digits {digits : Text} (negative : Bool) (hne : digits ≠ []) (hall : allDigits digits) :
    magnitude? negative digits = some (.ofDecimal negative (digitsValue 0 digits) 0) := by
  have hread := @magnitude?_positional digits [] negative hne hall rfl
  rwa [List.isEmpty_nil, if_pos rfl, List.append_nil] at hread

theorem magnitude?_ofNat_eq (negative : Bool) (n : Nat) :
    magnitude? negative (ofNat n) = some (.ofDecimal negative n 0) := by
  have hread := @magnitude?_digits (ofNat n) negative Nat.toDigits_ne_nil (allDigits_ofNat n)
  rwa [digitsValue_ofNat] at hread

/-- A natural number that is a magnitude is read exactly. -/
theorem magnitude?_ofNat {n : Nat} (negative : Bool) (h : Binary64.Representable (n * Binary64.one)) :
    magnitude? negative (ofNat n) = some (.finite negative (n * Binary64.one)) := by
  rw [magnitude?_ofNat_eq]
  rcases Nat.eq_zero_or_pos n with rfl | hpos
  · rw [Nat.zero_mul]
    rfl
  · have hunits := Nat.mul_pos hpos Binary64.one_pos
    have hcovers := @Binary64.covers_self _ 1 hunits Nat.one_pos
    rw [Nat.mul_one] at hcovers
    exact congrArg some (@Binary64.ofDecimal_places _ n 0 negative h hunits hcovers)

theorem float?_ofNat_eq_magnitude? (n : Nat) : float? (ofNat n) = magnitude? false (ofNat n) := by
  obtain ⟨c, text, htext, hc⟩ := exists_cons_ofNat n
  rw [htext, float?_of_isDigit hc]

/-- Natural numbers below `2 ^ 53` are read exactly. -/
theorem float?_ofNat {n : Nat} (h : n < 2 ^ 53) : float? (ofNat n) = some (.finite false (n * Binary64.one)) := by
  rw [float?_ofNat_eq_magnitude?, magnitude?_ofNat false (Binary64.representable_mul_one h)]

/-- A natural number, with a sign or with leading zeros, is read as its digits are. -/
theorem float?_of_natural? {greatest n : Nat} {text : Text} (h : natural? greatest text = some n) :
    float? text = float? (ofNat n) := by
  rw [natural?] at h
  split at h
  · next hall =>
    cases h
    rw [Bool.and_eq_true, Bool.and_eq_true, Bool.not_eq_true', List.isEmpty_eq_false_iff] at hall
    obtain ⟨⟨hne, hall⟩, -⟩ := hall
    rw [float?_ofNat_eq_magnitude?, magnitude?_ofNat_eq]
    cases hsign : after? ['+'] text with
    | some digits =>
      rw [hsign, Option.getD_some] at hne hall
      rw [after?_eq_some.1 hsign]
      exact magnitude?_digits false hne hall
    | none =>
      rw [hsign, Option.getD_none] at hne hall
      rw [Option.getD_none, ← magnitude?_digits false hne hall]
      obtain ⟨c, rest, rfl⟩ := List.exists_cons_of_ne_nil hne
      exact float?_of_isDigit (List.all_eq_true.1 hall c List.mem_cons_self)
  · cases h

/-- Natural numbers say the same only if they are the same. -/
theorem sameValue_ofNat {m n : Nat} (hm : m < 2 ^ 53) (hn : n < 2 ^ 53) :
    sameValue (ofNat m) (ofNat n) ↔ m = n := by
  constructor
  · intro h
    rw [sameValue, trim_ofNat, trim_ofNat, float?_ofNat hm, float?_ofNat hn, Bool.or_eq_true] at h
    rcases h with h | h
    · have := congrArg (digitsValue 0) (of_decide_eq_true h)
      rwa [digitsValue_ofNat, digitsValue_ofNat] at this
    · exact Nat.eq_of_mul_eq_mul_right Binary64.one_pos (Binary64.same_finite.1 h)
  · rintro rfl
    rw [sameValue, decide_eq_true rfl]
    rfl

end Text
end StyleScript
