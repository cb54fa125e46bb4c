import Mathlib.Data.Nat.Log
import Mathlib.Tactic.Ring
import StyleScript.Number.Shortest
/-!
# Rounding to a magnitude

Magnitudes come in binades: from `2 ^ (52 + k)` to `2 ^ (53 + k)` units they stand `2 ^ k` units apart, below that one
unit (`spacing_eq`).  A quotient is rounded on the grid of the binade it lies in, which need not be the binade of the
result.  `roundUnits_eq` says that nothing is lost by that: whatever lies in the interval around a magnitude rounds to
it.  What rounding has made is a magnitude (`representable_roundUnits`), at most half a step away (`roundUnits_near`).
-/
namespace StyleScript.Binary64

/-! ## To the nearest natural number -/

theorem nearestEven_near (num : Nat) {den : Nat} (hden : 0 < den) :
    2 * (nearestEven num den * den) ≤ 2 * num + den ∧ 2 * num ≤ 2 * (nearestEven num den * den) + den := by
  have hdiv : num / den * den + num % den = num := Nat.div_add_mod' num den
  have hmod : num % den < den := Nat.mod_lt num hden
  have hsucc : (num / den + 1) * den = num / den * den + den := Nat.succ_mul (num / den) den
  rw [nearestEven]
  split
  · omega
  · split
    · rw [hsucc]; omega
    · split
      · omega
      · rw [hsucc]; omega

/-- What is at most one half away is the nearest natural, and of two equally near the even one. -/
theorem nearestEven_eq {num den q : Nat} (hden : 0 < den) (hlow : 2 * (q * den) ≤ 2 * num + den)
    (hhigh : 2 * num ≤ 2 * (q * den) + den)
    (hodd : q % 2 = 1 → 2 * (q * den) < 2 * num + den ∧ 2 * num < 2 * (q * den) + den) :
    nearestEven num den = q := by
  have hdiv : num / den * den + num % den = num := Nat.div_add_mod' num den
  have hmod : num % den < den := Nat.mod_lt num hden
  have hside : ∀ {m n : Nat}, m < n → m * den + den ≤ n * den := fun h =>
    Nat.succ_mul _ den ▸ Nat.mul_le_mul_right den h
  rw [nearestEven]
  generalize num / den = whole at *
  -- the quotient without its fraction is `q`, or the natural just below
  have hle : whole ≤ q := by
    by_contra hlt
    have := hside (Nat.lt_of_not_le hlt)
    omega
  have hge : q ≤ whole + 1 := by
    by_contra hlt
    have hsucc : (whole + 1) * den = whole * den + den := Nat.succ_mul whole den
    have := hside (Nat.lt_of_not_le hlt)
    omega
  rcases Nat.lt_or_eq_of_le hle with hlt | rfl
  · obtain rfl : q = whole + 1 := by omega
    have hsucc : (whole + 1) * den = whole * den + den := Nat.succ_mul whole den
    rw [if_neg (by omega)]
    split
    · rfl
    · rw [if_neg (by omega)]
  · split
    · rfl
    · rw [if_neg (by omega), if_pos (by omega)]

/-! ## Binades -/

theorem exists_binade (units : Nat) : ∃ k, (k = 0 ∨ 2 ^ (52 + k) ≤ units) ∧ units < 2 ^ (53 + k) := by
  refine ⟨units.log2 - 52, ?_, ?_⟩
  · rcases Nat.eq_zero_or_pos (units.log2 - 52) with h | h
    · exact .inl h
    · refine .inr ?_
      rw [show 52 + (units.log2 - 52) = units.log2 by omega]
      exact Nat.log2_self_le fun h0 => by simp [h0] at h
  · exact Nat.lt_of_lt_of_le Nat.lt_log2_self (Nat.pow_le_pow_right Nat.two_pos (by omega))

theorem spacing_eq {units k : Nat} (hlow : k = 0 ∨ 2 ^ (52 + k) ≤ units) (hhigh : units < 2 ^ (53 + k)) :
    spacing units = 2 ^ k := by
  rw [spacing]
  show (if units < 2 ^ 53 then 1 else 2 ^ (units.log2 - 52)) = 2 ^ k
  rcases hlow with rfl | hlow
  · rw [if_pos hhigh]
    rfl
  · have hne : units ≠ 0 := (Nat.lt_of_lt_of_le (Nat.two_pow_pos _) hlow).ne'
    have hlog : units.log2 = 52 + k := (Nat.log2_eq_iff hne).2 ⟨hlow, by rwa [Nat.add_right_comm]⟩
    split
    · next h53 =>
      have : 52 + k < 53 := (Nat.pow_lt_pow_iff_right (by decide)).1 (Nat.lt_of_le_of_lt hlow h53)
      rw [show k = 0 by omega, Nat.pow_zero]
    · rw [hlog, Nat.add_sub_cancel_left]

theorem spacing_pos (units : Nat) : 0 < spacing units := by
  obtain ⟨k, hlow, hhigh⟩ := exists_binade units
  rw [spacing_eq hlow hhigh]
  exact Nat.two_pow_pos k

theorem spacing_le {units : Nat} (hpos : 0 < units) : spacing units ≤ units := by
  obtain ⟨k, hlow, hhigh⟩ := exists_binade units
  rw [spacing_eq hlow hhigh]
  rcases hlow with rfl | hlow
  · exact hpos
  · exact Nat.le_trans (Nat.pow_le_pow_right Nat.two_pos (Nat.le_add_left k 52)) hlow

/-- A step is one unit, or small against the magnitudes that stand a step apart. -/
theorem spacing_small (units : Nat) : spacing units = 1 ∨ 2 ^ 52 * spacing units ≤ units := by
  obtain ⟨k, hlow, hhigh⟩ := exists_binade units
  rw [spacing_eq hlow hhigh]
  rcases hlow with rfl | hlow
  · exact .inl rfl
  · exact .inr (Nat.pow_add 2 52 k ▸ hlow)

/-- Magnitudes up to the end of a binade stand on its grid or on a finer one. -/
theorem spacing_dvd_of_lt {units k : Nat} (h : units < 2 ^ (53 + k)) : spacing units ∣ 2 ^ k := by
  obtain ⟨j, hlow, hhigh⟩ := exists_binade units
  rw [spacing_eq hlow hhigh]
  refine Nat.pow_dvd_pow 2 ?_
  rcases hlow with rfl | hlow
  · exact Nat.zero_le k
  · have := (Nat.pow_lt_pow_iff_right (by decide)).1 (Nat.lt_of_le_of_lt hlow h)
    omega

theorem spacing_dvd_mul_pow {n : Nat} (k : Nat) (h : n ≤ 2 ^ 53) : spacing (n * 2 ^ k) ∣ n * 2 ^ k := by
  rcases Nat.lt_or_eq_of_le h with h | rfl
  · refine Nat.dvd_mul_left_of_dvd (spacing_dvd_of_lt ?_) n
    rw [Nat.pow_add]
    exact Nat.mul_lt_mul_of_pos_right h (Nat.two_pow_pos k)
  · rw [← Nat.pow_add]
    refine Nat.dvd_trans (spacing_dvd_of_lt (k := k + 1) ?_) (Nat.pow_dvd_pow 2 (by omega))
    exact Nat.pow_lt_pow_right (by decide) (by omega)

/-! ## Magnitudes -/

/-- A number of units that is a finite magnitude. -/
structure Representable (units : Nat) : Prop where
  spaced : spacing units ∣ units
  finite : units < overflow

/-- A rounded quotient is at most half a step away. -/
theorem roundUnits_near (num : Nat) {den : Nat} (hden : 0 < den) :
    2 * (roundUnits num den * den) ≤ 2 * num + den * spacing (num / den) ∧
      2 * num ≤ 2 * (roundUnits num den * den) + den * spacing (num / den) := by
  have hgrid : roundUnits num den * den =
      nearestEven num (den * spacing (num / den)) * (den * spacing (num / den)) := by
    rw [roundUnits, Nat.mul_comm den, Nat.mul_assoc]
  rw [hgrid]
  exact nearestEven_near num (Nat.mul_pos hden (spacing_pos _))

theorem spacing_roundUnits_dvd (num : Nat) {den : Nat} (hden : 0 < den) :
    spacing (roundUnits num den) ∣ roundUnits num den := by
  obtain ⟨k, hlow, hhigh⟩ := exists_binade (num / den)
  rw [roundUnits, spacing_eq hlow hhigh]
  refine spacing_dvd_mul_pow k ?_
  have hgrid : 0 < den * 2 ^ k := Nat.mul_pos hden (Nat.two_pow_pos k)
  -- the quotient is below the end of its binade, which is itself a point of the grid
  have hend : 2 * num < 2 * (2 ^ 53 * (den * 2 ^ k)) := by
    have := (Nat.div_lt_iff_lt_mul hden).1 hhigh
    rw [Nat.pow_add] at this
    calc 2 * num < 2 * (2 ^ 53 * 2 ^ k * den) := Nat.mul_lt_mul_of_pos_left this Nat.two_pos
      _ = 2 * (2 ^ 53 * (den * 2 ^ k)) := by ring
  have hnear := (nearestEven_near num hgrid).1
  by_contra hlt
  have hnext : (2 ^ 53 + 1) * (den * 2 ^ k) ≤ nearestEven num (den * 2 ^ k) * (den * 2 ^ k) :=
    Nat.mul_le_mul_right _ (Nat.lt_of_not_le hlt)
  rw [Nat.succ_mul] at hnext
  omega

/-! ## What rounds to a magnitude -/

/-- Whether a quotient of units lies in an interval. -/
structure Interval.Covers (i : Interval) (num den : Nat) : Prop where
  low : i.low * den ≤ 4 * num
  high : 4 * num ≤ i.high * den
  inside : i.closed = false → i.low * den < 4 * num ∧ 4 * num < i.high * den

/-- The way down to the lower end of an interval, in quarters of a unit. -/
def below (units : Nat) : Nat :=
  if spacing units ≠ 1 && units = 2 ^ 52 * spacing units then spacing units else 2 * spacing units

theorem interval_eq (units : Nat) : interval units =
    ⟨4 * units - below units, 4 * units + 2 * spacing units, units / spacing units % 2 = 0⟩ := rfl

theorem below_pos (units : Nat) : 0 < below units := by
  have := spacing_pos units
  rw [below]
  split <;> omega

theorem below_le (units : Nat) : below units ≤ 2 * spacing units := by
  rw [below]
  split <;> omega

theorem Interval.Covers.bounds {units num den : Nat} (h : (interval units).Covers num den) :
    4 * (units * den) ≤ 4 * num + below units * den ∧ 4 * num ≤ 4 * (units * den) + 2 * (spacing units * den) ∧
      (units / spacing units % 2 = 1 → 4 * (units * den) < 4 * num + below units * den ∧
        4 * num < 4 * (units * den) + 2 * (spacing units * den)) := by
  obtain ⟨hlow, hhigh, hinside⟩ := h
  rw [interval_eq] at hlow hhigh hinside
  have hdown : 4 * (units * den) ≤ (4 * units - below units) * den + below units * den := by
    rw [← Nat.add_mul, ← Nat.mul_assoc]
    exact Nat.mul_le_mul_right den (by omega)
  have hup : (4 * units + 2 * spacing units) * den = 4 * (units * den) + 2 * (spacing units * den) := by ring
  dsimp only at hlow hhigh hinside
  rw [hup] at hhigh hinside
  refine ⟨by omega, hhigh, fun hodd => ?_⟩
  obtain ⟨hl, hh⟩ := hinside (by simp [hodd])
  exact ⟨by omega, hh⟩

theorem covers_self {units den : Nat} (hunits : 0 < units) (hden : 0 < den) :
    (interval units).Covers (units * den) den := by
  have hlow : (4 * units - below units) * den < 4 * (units * den) := by
    rw [← Nat.mul_assoc]
    exact Nat.mul_lt_mul_of_pos_right (by have := below_pos units; omega) hden
  have hhigh : 4 * (units * den) < (4 * units + 2 * spacing units) * den := by
    rw [← Nat.mul_assoc]
    exact Nat.mul_lt_mul_of_pos_right (by have := spacing_pos units; omega) hden
  exact ⟨hlow.le, hhigh.le, fun _ => ⟨hlow, hhigh⟩⟩

/-- Only the quotient counts. -/
theorem covers_mul_right {i : Interval} {num den c : Nat} (hc : 0 < c) :
    i.Covers (num * c) (den * c) ↔ i.Covers num den := by
  have hle : ∀ {m n : Nat}, m * c ≤ n * c ↔ m ≤ n := Nat.mul_le_mul_right_iff hc
  have hlt : ∀ {m n : Nat}, m * c < n * c ↔ m < n := Nat.mul_lt_mul_right hc
  constructor
  · rintro ⟨hlow, hhigh, hinside⟩
    simp only [← Nat.mul_assoc, hle, hlt] at hlow hhigh hinside
    exact ⟨hlow, hhigh, hinside⟩
  · rintro ⟨hlow, hhigh, hinside⟩
    constructor <;> simp only [← Nat.mul_assoc, hle, hlt] <;> assumption

/-- The grid of the magnitude's own binade. -/
theorem roundUnits_eq_of_spacing {units num den : Nat} (hden : 0 < den) (hspaced : spacing units ∣ units)
    (h : (interval units).Covers num den) (hgrid : spacing (num / den) = spacing units) :
    roundUnits num den = units := by
  obtain ⟨hlow, hhigh, hodd⟩ := h.bounds
  have hbelow : below units * den ≤ 2 * (spacing units * den) := by
    rw [← Nat.mul_assoc]
    exact Nat.mul_le_mul_right den (below_le units)
  have hpoint : units / spacing units * (den * spacing units) = units * den := by
    rw [Nat.mul_comm den, ← Nat.mul_assoc, Nat.div_mul_cancel hspaced]
  have hstep : den * spacing units = spacing units * den := Nat.mul_comm den (spacing units)
  have hnearest : nearestEven num (den * spacing units) = units / spacing units := by
    refine nearestEven_eq (Nat.mul_pos hden (spacing_pos units)) ?_ ?_ fun h => ?_
    · omega
    · omega
    · have := hodd h
      omega
  rw [roundUnits, hgrid, hnearest, Nat.div_mul_cancel hspaced]

/-- The grid of the binade below, on which the magnitude is an even point. -/
theorem roundUnits_eq_of_halved {units num den : Nat} (hden : 0 < den) (hspaced : spacing units ∣ units)
    (hgrid : spacing units = 2 * spacing (num / den)) (hlow : 4 * (units * den) ≤ 4 * num + spacing units * den)
    (hhigh : num ≤ units * den) : roundUnits num den = units := by
  have hpos := spacing_pos (num / den)
  rw [roundUnits]
  generalize spacing (num / den) = step at *
  rw [hgrid] at hspaced hlow
  obtain ⟨q, rfl⟩ := hspaced
  have hpoint : 2 * q * (den * step) = 2 * step * q * den := by ring
  have hstep : 2 * step * den = 2 * (den * step) := by ring
  have hnearest : nearestEven num (den * step) = 2 * q :=
    nearestEven_eq (Nat.mul_pos hden hpos) (by omega) (by omega) (by omega)
  rw [hnearest]
  ring

/-- The quotient without its fraction lies as near to the magnitude, up to one unit. -/
theorem Interval.Covers.floor {units num den : Nat} (hden : 0 < den) (h : (interval units).Covers num den) :
    4 * (num / den) ≤ 4 * units + 2 * spacing units ∧ 4 * units < 4 * (num / den) + 4 + below units := by
  obtain ⟨hdown, hup, -⟩ := h.bounds
  have hfloor : num / den * den ≤ num := Nat.div_mul_le_self num den
  have hceil : num < num / den * den + den := Nat.lt_div_mul_add hden
  constructor
  · refine Nat.le_of_mul_le_mul_right ?_ hden
    rw [Nat.add_mul, Nat.mul_assoc, Nat.mul_assoc, Nat.mul_assoc]
    omega
  · refine Nat.lt_of_mul_lt_mul_right (a := den) ?_
    rw [Nat.add_mul, Nat.add_mul, Nat.mul_assoc, Nat.mul_assoc]
    omega

/-- Points of a grid are at least a step apart. -/
theorem add_le_of_dvd {a b step : Nat} (ha : step ∣ a) (hb : step ∣ b) (h : a < b) : a + step ≤ b := by
  obtain ⟨m, rfl⟩ := ha
  obtain ⟨n, rfl⟩ := hb
  exact Nat.mul_le_mul_left step (Nat.lt_of_mul_lt_mul_left h)

/-- Only the least magnitude of a binade is near to the binade below, and the way down to there is short. -/
theorem below_of_least {units k : Nat} (hk : k ≠ 0) (hleast : units = 2 ^ (52 + k)) : below units = spacing units := by
  have hstep : spacing units = 2 ^ k :=
    spacing_eq (.inr hleast.ge) (hleast ▸ Nat.pow_lt_pow_right (by decide) (by omega))
  have hne : spacing units ≠ 1 := hstep ▸ (Nat.one_lt_two_pow hk).ne'
  rw [below, if_pos]
  rw [Bool.and_eq_true]
  exact ⟨decide_eq_true hne, decide_eq_true (by rw [hstep, hleast, Nat.pow_add])⟩

/-- **Whatever lies in the interval of a magnitude rounds to it**, also from the binade below. -/
theorem roundUnits_eq {units num den : Nat} (hden : 0 < den) (hspaced : spacing units ∣ units)
    (h : (interval units).Covers num den) : roundUnits num den = units := by
  obtain ⟨k, hlow, hhigh⟩ := exists_binade units
  obtain ⟨hfloor_le, hlt_floor⟩ := h.floor hden
  have hstep := spacing_eq hlow hhigh
  have hbelow := below_le units
  have hk : 0 < 2 ^ k := Nat.two_pow_pos k
  have hgrid : 2 ^ k ∣ units := hstep ▸ hspaced
  rw [hstep] at hfloor_le hbelow
  by_cases hsame : k = 0 ∨ 2 ^ (52 + k) ≤ num / den
  · refine roundUnits_eq_of_spacing hden hspaced h ?_
    rw [hstep]
    refine spacing_eq hsame ?_
    have hend := add_le_of_dvd hgrid (Nat.pow_dvd_pow 2 (Nat.le_add_left k 53)) hhigh
    omega
  · obtain ⟨hk0, hless⟩ := not_or.1 hsame
    have hge := hlow.resolve_left hk0
    have hleast : units = 2 ^ (52 + k) := by
      by_contra hne
      have hnext := add_le_of_dvd (Nat.pow_dvd_pow 2 (Nat.le_add_left k 52)) hgrid (by omega)
      omega
    have hshort := below_of_least hk0 hleast
    obtain ⟨j, rfl⟩ : ∃ j, k = j + 1 := ⟨k - 1, by omega⟩
    have hhalf : 2 ^ (j + 1) = 2 * 2 ^ j := Nat.pow_succ'
    have hbinade : 2 ^ (52 + (j + 1)) = 2 ^ 52 * 2 ^ (j + 1) := Nat.pow_add 2 52 (j + 1)
    rw [hshort, hstep] at hlt_floor
    have hnear := h.bounds.1
    rw [hshort] at hnear
    refine roundUnits_eq_of_halved hden hspaced ?_ hnear ?_
    · rw [hstep, hhalf]
      refine congrArg (2 * ·) (spacing_eq ?_ ?_).symm
      · rw [Nat.pow_add]
        omega
      · rw [show 53 + j = 52 + (j + 1) by omega]
        exact Nat.not_le.1 hless
    · refine Nat.le_trans (Nat.lt_div_mul_add hden).le ?_
      rw [← Nat.succ_mul]
      exact Nat.mul_le_mul_right den (by omega)

end StyleScript.Binary64
