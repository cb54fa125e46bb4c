import StyleScript.Proofs.Number.Shortest
import StyleScript.Proofs.Text.Tokens
/-!
# Integers that numbers are cut to

An integer that a number was cut to is written in decimal, and that decimal is read as a number that is cut to the same
integer (`exists_float?_ofInt`).  Below the ends of the range of 64 bits this is because a magnitude without its
fraction is a magnitude again; the greatest integer is none, but its decimal is rounded up and cut to it.  So different
integers that numbers were cut to never say the same (`sameValue_ofInt`).

Of all integers of 64 bits these are the greatest one and those with at most 53 significant bits (`isCut_iff_isExact`).
The decimal of any other is rounded when it is read as a number, and cutting it changes it (`truncateText_ofInt_iff`).
-/
namespace StyleScript

namespace Binary64

/-! ## What is read is a number -/

theorem representable_zero : Representable 0 := ⟨Nat.dvd_zero _, by decide +kernel⟩

theorem isValue_ofDecimal (negative : Bool) (digits : Nat) (exponent : Int) :
    (ofDecimal negative digits exponent).IsValue := by
  have hzero : (finite negative 0).IsValue := ⟨fun _ _ h => by cases h; exact representable_zero⟩
  rw [ofDecimal.eq_def]
  split
  · exact hzero
  · dsimp only
    split
    · exact ⟨fun _ _ h => by cases h⟩
    · split
      · exact hzero
      · split
        · exact isValue_ofUnits negative _ Nat.one_pos
        · exact isValue_ofUnits negative _ (Nat.pow_pos (by decide))

/-! ## Magnitudes without their fraction -/

/-- One is a power of two in units; which one it is takes no part below. -/
theorem exists_one_eq_pow : ∃ e, one = 2 ^ e := ⟨_, one_eq⟩

theorem representable_whole {units : Nat} (h : Representable units) : Representable (units / one * one) := by
  have hle : units / one * one ≤ units := Nat.div_mul_le_self units one
  refine ⟨?_, Nat.lt_of_le_of_lt hle h.finite⟩
  obtain ⟨k, hlow, hhigh⟩ := exists_binade units
  have hgrid : 2 ^ k ∣ units := spacing_eq hlow hhigh ▸ h.spaced
  obtain ⟨e, hone⟩ := exists_one_eq_pow
  rcases Nat.le_total k e with hk | hk
  · have hspaced := spacing_dvd_of_lt (Nat.lt_of_le_of_lt hle hhigh)
    have hdvd : 2 ^ k ∣ one := hone ▸ Nat.pow_dvd_pow 2 hk
    exact Nat.dvd_trans hspaced (Nat.dvd_trans hdvd (Nat.dvd_mul_left one _))
  · have hdvd : one ∣ units := hone ▸ Nat.dvd_trans (Nat.pow_dvd_pow 2 hk) hgrid
    rw [Nat.div_mul_cancel hdvd]
    exact h.spaced

theorem representable_int64 : Representable (2 ^ 63 * one) := by
  have hpos := one_pos
  refine ⟨?_, ?_⟩
  · obtain ⟨e, hone⟩ := exists_one_eq_pow
    have := spacing_dvd_mul_pow (63 + e) (show 1 ≤ 2 ^ 53 by decide)
    rw [Nat.one_mul, pow_add, ← hone] at this
    exact this
  · rw [overflow_eq]
    generalize one = units at *
    exact Nat.mul_lt_mul_of_pos_right (by decide +kernel) hpos

/-- A natural number of 64 bits is a magnitude if it has at most 53 significant bits. -/
theorem representable_mul_one_iff {k : Nat} (h : k ≤ 2 ^ 63) :
    Representable (k * one) ↔ ∃ digits places : Nat, digits < 2 ^ 53 ∧ k = digits * 2 ^ places := by
  obtain ⟨e, hone⟩ := exists_one_eq_pow
  constructor
  · intro hk
    obtain ⟨j, hlow, hhigh⟩ := exists_binade k
    rcases hlow with rfl | hlow
    · exact ⟨k, 0, hhigh, (Nat.mul_one k).symm⟩
    · have hstep : spacing (k * one) = 2 ^ (j + e) := by
        rw [hone]
        refine spacing_eq (.inr ?_) ?_
        · rw [← Nat.add_assoc, Nat.pow_add]
          exact Nat.mul_le_mul_right _ hlow
        · rw [← Nat.add_assoc, Nat.pow_add]
          exact Nat.mul_lt_mul_of_pos_right hhigh (Nat.two_pow_pos e)
      have hspaced := hk.spaced
      rw [hstep, hone, Nat.pow_add] at hspaced
      obtain ⟨digits, rfl⟩ := Nat.dvd_of_mul_dvd_mul_right (Nat.two_pow_pos e) hspaced
      refine ⟨digits, j, ?_, Nat.mul_comm ..⟩
      rw [Nat.add_comm, Nat.pow_add] at hhigh
      exact Nat.lt_of_mul_lt_mul_left hhigh
  · rintro ⟨digits, places, hdigits, rfl⟩
    refine ⟨?_, ?_⟩
    · rw [hone, Nat.mul_assoc, ← Nat.pow_add]
      exact spacing_dvd_mul_pow _ hdigits.le
    · exact Nat.lt_of_le_of_lt (Nat.mul_le_mul_right one h) representable_int64.finite

/-- An integer that some number is cut to. -/
def IsCut (n : Int) : Prop := ∃ x : Binary64, x.IsValue ∧ x.toInt64 = n

/-- An integer that a number is cut to is the greatest one, or its magnitude is one. -/
theorem IsCut.cases {n : Int} (h : IsCut n) : n = int64Greatest ∨ ∃ k : Nat, Representable (k * one) ∧
    (n = k ∧ n ≤ int64Greatest ∨ n = -k ∧ int64Least ≤ n) := by
  obtain ⟨x, hx, rfl⟩ := h
  cases x with
  | nan => exact .inr ⟨0, (Nat.zero_mul one).symm ▸ representable_zero, .inl ⟨rfl, by decide⟩⟩
  | infinity negative =>
    cases negative with
    | false => exact .inl rfl
    | true => exact .inr ⟨2 ^ 63, representable_int64, .inr ⟨rfl, by decide⟩⟩
  | finite negative units =>
    have hwhole := representable_whole (hx.representable negative units rfl)
    have hleast : int64Least = -(2 ^ 63 : Nat) := rfl
    have hgreatest : int64Greatest = (2 ^ 63 - 1 : Nat) := rfl
    rw [toInt64]
    cases negative with
    | false =>
      rw [wholePart]
      generalize units / one = k at *
      by_cases hk : (k : Int) ≤ int64Greatest
      · exact .inr ⟨k, hwhole, .inl (by omega)⟩
      · exact .inl (by omega)
    | true =>
      rw [wholePart]
      generalize units / one = k at *
      by_cases hk : int64Least ≤ -(k : Int)
      · exact .inr ⟨k, hwhole, .inr (by omega)⟩
      · exact .inr ⟨2 ^ 63, representable_int64, .inr (by omega)⟩

theorem toInt64_whole {n : Nat} (negative : Bool) : (finite negative (n * one)).toInt64 =
    max int64Least (min int64Greatest (if negative then -n else n)) := by
  have hdiv : n * one / one = n := Nat.mul_div_cancel n one_pos
  cases negative with
  | false => rw [toInt64, wholePart, hdiv]; rfl
  | true => rw [toInt64, wholePart, hdiv]; rfl

/-- The integer has at most 53 significant bits, or it is the greatest one, to which everything past the range is cut. -/
def IsExact (n : Int) : Prop :=
  n = int64Greatest ∨ ∃ digits places : Nat, digits < 2 ^ 53 ∧ n.natAbs = digits * 2 ^ places

/-- **The integers of 64 bits that numbers are cut to.** -/
theorem isCut_iff_isExact {n : Int} (hleast : int64Least ≤ n) (hgreatest : n ≤ int64Greatest) :
    IsCut n ↔ IsExact n := by
  have hbound : n.natAbs ≤ 2 ^ 63 := by
    have hl : int64Least = -(2 ^ 63 : Nat) := rfl
    have hg : int64Greatest = (2 ^ 63 - 1 : Nat) := rfl
    omega
  constructor
  · intro h
    rcases h.cases with heq | ⟨k, hk, hn⟩
    · exact .inl heq
    · have habs : n.natAbs = k := by omega
      rw [← habs] at hk
      exact .inr ((representable_mul_one_iff hbound).1 hk)
  · rintro (rfl | hdigits)
    · exact ⟨infinity false, ⟨fun _ _ h => nomatch h⟩, rfl⟩
    · have hvalue := (representable_mul_one_iff hbound).2 hdigits
      refine ⟨finite (n < 0) (n.natAbs * one), ⟨fun _ _ h => by cases h; exact hvalue⟩, ?_⟩
      rw [toInt64_whole]
      by_cases hn : n < 0
      · rw [if_pos (decide_eq_true hn)]
        omega
      · rw [if_neg (by simpa using hn)]
        omega

theorem toInt64_bounds : ∀ x : Binary64, int64Least ≤ x.toInt64 ∧ x.toInt64 ≤ int64Greatest
  | nan => by decide
  | infinity negative => by cases negative <;> decide
  | finite negative units => by
    have hrange : int64Least ≤ int64Greatest := by decide
    rw [toInt64]
    omega

theorem toInt64_eq_of_same : ∀ {x y : Binary64}, x.same y → x.toInt64 = y.toInt64
  | nan, nan, _ => rfl
  | infinity s, infinity t, h => by
    rw [show s = t from of_decide_eq_true h]
  | finite s m, finite t n, h => by
    have hequal : m = n ∧ (s = t ∨ m = 0) := by simpa [same, equals] using h
    obtain ⟨rfl, rfl | rfl⟩ := hequal
    · rfl
    · have hzero : ∀ negative, wholePart negative 0 = 0 := fun negative => by
        cases negative with
        | false => rw [wholePart, Nat.zero_div]; rfl
        | true => rw [wholePart, Nat.zero_div]; rfl
      rw [toInt64, toInt64, hzero, hzero]

/-! ## Rounded integers -/

theorem units_eq_of_same {s t : Bool} {m n : Nat} (h : same (finite s m) (finite t n)) : m = n := by
  have hequal : m = n ∧ (s = t ∨ m = 0) := by simpa [same, equals] using h
  exact hequal.1

/-- Rounding changes an integer by a half of it at most. -/
theorem roundUnits_whole_le (n : Nat) :
    n * one ≤ 2 * roundUnits (n * one) 1 ∧ 2 * roundUnits (n * one) 1 ≤ 3 * (n * one) := by
  rcases Nat.eq_zero_or_pos n with rfl | hpos
  · rw [Nat.zero_mul]
    decide +kernel
  · obtain ⟨hup, hdown⟩ := @roundUnits_near (n * one) 1 Nat.one_pos
    have hstep := spacing_le (Nat.mul_pos hpos one_pos)
    rw [Nat.mul_one, Nat.one_mul, Nat.div_one] at hup hdown
    omega

/-- The decimal digits of an integer of 64 bits are rounded to a finite number. -/
theorem ofDecimal_whole {n : Nat} (negative : Bool) (h : n ≤ 2 ^ 63) :
    ofDecimal negative n 0 = finite negative (roundUnits (n * one) 1) := by
  rcases Nat.eq_zero_or_pos n with rfl | hpos
  · rw [Nat.zero_mul]
    cases negative <;> decide +kernel
  · have hlength : (Nat.toDigits 10 n).length ≤ 19 := by
      have hrange : n < 10 ^ 19 := Nat.lt_of_le_of_lt h (by decide)
      have hlead := Nat.lt_of_le_of_lt (Text.pow_length_ofNat_le hpos) hrange
      have hless := (Nat.pow_lt_pow_iff_right (by decide)).1 hlead
      rw [Text.ofNat] at hless
      omega
    have hfinite : roundUnits (n * one) 1 < overflow := by
      have hround := (roundUnits_whole_le n).2
      have hscale := Nat.mul_le_mul_right one h
      have hrange : 2 * (2 ^ 63 * one) < overflow := by
        rw [← Nat.mul_assoc, overflow_eq]
        exact Nat.mul_lt_mul_of_pos_right (by decide +kernel) one_pos
      generalize 2 ^ 63 * one = greatest at hscale hrange
      omega
    rw [ofDecimal.eq_def, if_neg hpos.ne']
    dsimp only
    rw [if_neg (by omega), if_neg (by omega)]
    show ofUnits negative (n * Nat.pow 10 0 * one) 1 = _
    rw [show Nat.pow 10 0 = 1 from rfl, Nat.mul_one, ofUnits, if_pos hfinite]

end Binary64

namespace Text

open Binary64 (IsCut IsExact int64Least int64Greatest roundUnits)

theorem isValue_of_float? {text : Text} {x : Binary64} (h : float? text = some x) : x.IsValue := by
  have hmagnitude : ∀ {negative : Bool} {text : Text}, magnitude? negative text = some x → x.IsValue := by
    intro negative text h
    rw [magnitude?] at h
    split at h
    · cases h
      exact ⟨fun _ _ h => by cases h⟩
    · split at h
      · cases h
        exact ⟨fun _ _ h => by cases h⟩
      · obtain ⟨p, -, rfl⟩ := Option.map_eq_some_iff.1 h
        exact Binary64.isValue_ofDecimal ..
  unfold float? at h
  split at h <;> exact hmagnitude h

theorem isCut_of_truncated {what text : Text} {n : Int} (h : truncated what text = .ok n) : IsCut n := by
  obtain ⟨x, hx, h⟩ := bind_eq_ok.1 h
  refine ⟨x, ?_, pure_eq_ok.1 h⟩
  rw [number] at hx
  split at hx
  · next hfloat =>
    cases hx
    exact isValue_of_float? hfloat
  · cases hx

/-- **The decimal of an integer that a number was cut to is cut to it again.** -/
theorem exists_float?_ofInt {n : Int} (h : IsCut n) : ∃ x, float? (ofInt n) = some x ∧ x.toInt64 = n := by
  have hleast : int64Least = -(2 ^ 63 : Nat) := rfl
  have hgreatest : int64Greatest = (2 ^ 63 - 1 : Nat) := rfl
  rcases h.cases with rfl | ⟨k, hk, ⟨rfl, hle⟩ | ⟨rfl, hle⟩⟩
  · refine ⟨.finite false (2 ^ 63 * Binary64.one), by decide +kernel, ?_⟩
    rw [Binary64.toInt64_whole]
    decide
  · refine ⟨.finite false (k * Binary64.one), ?_, ?_⟩
    · show float? (ofNat k) = _
      rw [float?_ofNat_eq_magnitude?, magnitude?_ofNat false hk]
    · rw [Binary64.toInt64_whole, if_neg Bool.false_ne_true]
      omega
  · cases k with
    | zero => exact ⟨.finite false 0, by decide +kernel, by decide +kernel⟩
    | succ m =>
      refine ⟨.finite true ((m + 1) * Binary64.one), ?_, ?_⟩
      · show float? ('-' :: ofNat (m + 1)) = _
        rw [float?, magnitude?_ofNat true hk]
      · rw [Binary64.toInt64_whole, if_pos rfl]
        omega

/-! ## Decimals of integers -/

theorem ofInt_injective {m n : Int} (h : ofInt m = ofInt n) : m = n := by
  have hminus : ∀ {k : Nat} {text : Text}, ofNat k ≠ '-' :: text := fun hk =>
    absurd (isDigit_of_mem_ofNat (hk ▸ List.mem_cons_self)) (by decide)
  cases m with
  | ofNat k =>
    cases n with
    | ofNat l => exact congrArg Int.ofNat (ofNat_injective h)
    | negSucc l => exact absurd h hminus
  | negSucc k =>
    cases n with
    | ofNat l => exact absurd h.symm hminus
    | negSucc l => exact congrArg Int.negSucc (Nat.succ.inj (ofNat_injective (List.cons.inj h).2))

theorem ofInt_ne_nil : ∀ n : Int, ofInt n ≠ []
  | .ofNat _ => Nat.toDigits_ne_nil
  | .negSucc _ => List.cons_ne_nil _ _

theorem isDigit_or_minus_of_mem_ofInt : ∀ {n : Int} {c : Char}, c ∈ ofInt n → c.isDigit ∨ c = '-'
  | .ofNat _, _, h => .inl (isDigit_of_mem_ofNat h)
  | .negSucc _, _, h => (List.mem_cons.1 h).symm.imp_left isDigit_of_mem_ofNat

theorem trim_ofInt (n : Int) : trim (ofInt n) = ofInt n := by
  refine trim_eq_self (trimmed_of_no_blank fun c hc => ?_)
  rcases isDigit_or_minus_of_mem_ofInt hc with h | rfl
  · exact isBlank_of_isDigit h
  · decide

theorem isPlain_of_mem_ofInt {n : Int} {c : Char} (h : c ∈ ofInt n) : isPlain c := by
  rcases isDigit_or_minus_of_mem_ofInt h with hdigit | rfl
  · exact forall_isDigit (P := fun c => isPlain c) (by decide) hdigit
  · decide

theorem part_ofInt (n : Int) : Part isBlank (ofInt n) :=
  part_of_plain (ofInt_ne_nil n) (List.all_eq_true.2 fun _ hc => isPlain_of_mem_ofInt hc)

theorem scalar_ofInt (n : Int) : scalar (ofInt n) = .ok (ofInt n) :=
  scalar_bare (part_ofInt n).trimmed fun hq =>
    absurd (isPlain_of_mem_ofInt (List.mem_of_mem_head? hq)) (by decide)

theorem truncated_ofInt (what : Text) {n : Int} (h : IsCut n) : truncated what (ofInt n) = .ok n := by
  obtain ⟨x, hx, hn⟩ := exists_float?_ofInt h
  rw [truncated, number, trim_ofInt, hx]
  exact congrArg Except.ok hn

theorem truncateText_ofInt {n : Int} (h : IsCut n) : truncateText (ofInt n) = ofInt n := by
  obtain ⟨x, hx, hn⟩ := exists_float?_ofInt h
  rw [truncateText, trim_ofInt, hx]
  dsimp only
  rw [hn, ite_self]

theorem truncateText_ne_nil {text : Text} (h : text ≠ []) : truncateText text ≠ [] := by
  rw [truncateText]
  split
  · split
    · exact ofInt_ne_nil _
    · exact h
  · exact h

/-- Integers that numbers were cut to say the same only if they are the same. -/
theorem sameValue_ofInt {m n : Int} (hm : IsCut m) (hn : IsCut n) : sameValue (ofInt m) (ofInt n) ↔ m = n := by
  obtain ⟨x, hx, rfl⟩ := exists_float?_ofInt hm
  obtain ⟨y, hy, rfl⟩ := exists_float?_ofInt hn
  constructor
  · intro h
    rw [sameValue, trim_ofInt, trim_ofInt, hx, hy, Bool.or_eq_true] at h
    rcases h with h | h
    · rw [of_decide_eq_true h] at hx
      rw [Option.some.inj (hx.symm.trans hy)]
    · exact Binary64.toInt64_eq_of_same h
  · intro h
    rw [sameValue, h, decide_eq_true rfl]
    rfl

/-! ## Decimals of 64 bits -/

/-- An integer of 64 bits is read from its decimal. -/
theorem integer64?_ofInt {n : Int} (hleast : int64Least ≤ n) (hgreatest : n ≤ int64Greatest) :
    integer64? (ofInt n) = some n := by
  have hl : int64Least = -(2 ^ 63 : Nat) := rfl
  have hg : int64Greatest = (2 ^ 63 - 1 : Nat) := rfl
  cases n with
  | ofNat k =>
    obtain ⟨c, text, htext, hc⟩ := exists_cons_ofNat k
    have hk : (k : Int) ≤ int64Greatest := hgreatest
    have hread : natural? 0x7fffffffffffffff (ofNat k) = some k := natural?_ofNat (by omega)
    show integer64? (ofNat k) = _
    rw [htext, integer64?, ← htext, hread]
    · rfl
    · rintro digits ⟨⟩
      exact absurd hc (by decide)
  | negSucc k =>
    obtain ⟨c, text, htext, hc⟩ := exists_cons_ofNat (k + 1)
    have hplus : (ofNat (k + 1)).head? ≠ some '+' := by
      rw [htext, List.head?_cons, Ne, Option.some_inj]
      rintro rfl
      exact absurd hc (by decide)
    have hread : natural? 0x8000000000000000 (ofNat (k + 1)) = some (k + 1) := natural?_ofNat (by omega)
    show integer64? ('-' :: ofNat (k + 1)) = _
    rw [integer64?, if_neg hplus, hread]
    rfl

/-- The decimal of an integer of 64 bits is read as the number nearest to it. -/
theorem exists_float?_rounded {n : Int} (hleast : int64Least ≤ n) (hgreatest : n ≤ int64Greatest) :
    ∃ negative, float? (ofInt n) = some (.finite negative (roundUnits (n.natAbs * Binary64.one) 1)) := by
  have hl : int64Least = -(2 ^ 63 : Nat) := rfl
  have hg : int64Greatest = (2 ^ 63 - 1 : Nat) := rfl
  have hdigits : ∀ {k : Nat} (negative : Bool), k ≤ 2 ^ 63 →
      magnitude? negative (ofNat k) = some (.finite negative (roundUnits (k * Binary64.one) 1)) := by
    intro k negative hk
    rw [magnitude?_ofNat_eq, Binary64.ofDecimal_whole negative hk]
  cases n with
  | ofNat k =>
    have hk : (k : Int) ≤ int64Greatest := hgreatest
    refine ⟨false, ?_⟩
    show float? (ofNat k) = _
    rw [float?_ofNat_eq_magnitude?]
    exact hdigits false (by omega)
  | negSucc k =>
    refine ⟨true, ?_⟩
    show float? ('-' :: ofNat (k + 1)) = _
    rw [float?]
    exact hdigits true (by omega)

/-- It is cut to an integer that stays as it is from then on. -/
theorem exists_truncateText_ofInt {n : Int} (hleast : int64Least ≤ n) (hgreatest : n ≤ int64Greatest) :
    ∃ m, IsExact m ∧ truncateText (ofInt n) = ofInt m := by
  obtain ⟨negative, hread⟩ := exists_float?_rounded hleast hgreatest
  obtain ⟨hlow, hhigh⟩ := Binary64.toInt64_bounds (.finite negative (roundUnits (n.natAbs * Binary64.one) 1))
  refine ⟨_, (Binary64.isCut_iff_isExact hlow hhigh).1 ⟨_, isValue_of_float? hread, rfl⟩, ?_⟩
  rw [truncateText, trim_ofInt, hread]
  rfl

/-- **The decimal of an integer of 64 bits is left as it is exactly if a number is cut to the integer.** -/
theorem truncateText_ofInt_iff {n : Int} (hleast : int64Least ≤ n) (hgreatest : n ≤ int64Greatest) :
    truncateText (ofInt n) = ofInt n ↔ IsExact n := by
  constructor
  · intro h
    obtain ⟨m, hm, hcut⟩ := exists_truncateText_ofInt hleast hgreatest
    rwa [ofInt_injective (hcut.symm.trans h)] at hm
  · intro h
    exact truncateText_ofInt ((Binary64.isCut_iff_isExact hleast hgreatest).2 h)

/-- The decimal of an integer of 64 bits says the same as a small one only if the integers are the same. -/
theorem sameValue_ofInt_of_small {m n : Int} (hleast : int64Least ≤ m) (hgreatest : m ≤ int64Greatest)
    (hn : n.natAbs < 2 ^ 51) : sameValue (ofInt m) (ofInt n) ↔ m = n := by
  have hl : int64Least = -(2 ^ 63 : Nat) := rfl
  have hg : int64Greatest = (2 ^ 63 - 1 : Nat) := rfl
  have hsmall : ∀ {k : Int}, k.natAbs < 2 ^ 53 → IsCut k := fun {k} hk =>
    (Binary64.isCut_iff_isExact (by omega) (by omega)).2 (.inr ⟨k.natAbs, 0, hk, (Nat.mul_one _).symm⟩)
  constructor
  · intro h
    have hcut : IsCut m := by
      obtain ⟨negative, hm⟩ := exists_float?_rounded hleast hgreatest
      obtain ⟨other, hread⟩ := @exists_float?_rounded n (by omega) (by omega)
      rw [sameValue, trim_ofInt, trim_ofInt, hm, hread, Bool.or_eq_true] at h
      rcases h with h | h
      · exact ofInt_injective (of_decide_eq_true h) ▸ hsmall (by omega)
      · have hequal := Binary64.units_eq_of_same h
        have hdown := (Binary64.roundUnits_whole_le m.natAbs).1
        have hup := (Binary64.roundUnits_whole_le n.natAbs).2
        rw [← hequal] at hup
        have hratio : m.natAbs * Binary64.one ≤ 3 * n.natAbs * Binary64.one := by
          rw [Nat.mul_assoc]
          exact Nat.le_trans hdown hup
        have habs := Nat.le_of_mul_le_mul_right hratio Binary64.one_pos
        exact hsmall (by omega)
    exact (sameValue_ofInt hcut (hsmall (by omega))).1 h
  · rintro rfl
    rw [sameValue, decide_eq_true rfl]
    rfl

end Text
end StyleScript
