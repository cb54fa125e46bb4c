import StyleScript.Property.Color
import StyleScript.Proofs.Number.Shortest
/-!
# Bytes as numbers

A byte is written in decimal, or as its share of 255.  Both are read back, scaled and rounded to the same byte
(`toByte_ofNat`, `toByte_share`): the errors of dividing, rounding and multiplying are far below one half.
-/
namespace StyleScript.Binary64

/-- What is less than one half away from a byte is rounded to it. -/
theorem toByte_near {n units : Nat} (h : n < 256) (hlow : 2 * (n * one) ≤ 2 * units + one)
    (hhigh : 2 * units < 2 * (n * one) + one) : (finite false units).toByte = n := by
  have hstep : n * (2 * one) = 2 * (n * one) := Nat.mul_left_comm ..
  have hnext : (n + 1) * (2 * one) = n * (2 * one) + 2 * one := Nat.succ_mul ..
  have hround : (2 * units + one) / (2 * one) = n := Nat.div_eq_of_lt_le (by omega) (by omega)
  rw [toByte, hround]
  omega

theorem toByte_whole {n : Nat} (h : n < 256) : (finite false (n * one)).toByte = n := by
  have hone := one_pos
  exact toByte_near h (by omega) (by omega)

/-- The share of a byte is a finite number, off by far less than one. -/
theorem exists_share {n : Nat} (h : n < 256) : ∃ units, ofRatio n 255 = finite false units ∧
    2 ^ 20 * (255 * units) ≤ 2 ^ 20 * (n * one) + one ∧ 2 ^ 20 * (n * one) ≤ 2 ^ 20 * (255 * units) + one := by
  obtain ⟨hbelow, habove⟩ := roundUnits_near (n * one) (show 0 < 255 by decide)
  have hsmall := spacing_small (n * one / 255)
  have hmax : n * one ≤ 255 * one := Nat.mul_le_mul_right one (Nat.le_of_lt_succ h)
  have hone : 2 ^ 40 ≤ one := by decide +kernel
  have hfinite : 2 * one < overflow := by decide +kernel
  refine ⟨roundUnits (n * one) 255, ?_, ?_, ?_⟩
  · rw [ofRatio, ofUnits, if_pos]
    refine Nat.lt_of_le_of_lt ?_ hfinite
    generalize one = unit at *
    omega
  · generalize one = unit at *
    omega
  · generalize one = unit at *
    omega

/-- **A byte is read back from its share.** -/
theorem toByte_share {n : Nat} (h : n < 256) : ((ofRatio n 255).scale 255).toByte = n := by
  obtain ⟨units, hunits, hbelow, habove⟩ := exists_share h
  obtain ⟨hlow, hhigh⟩ := roundUnits_near (255 * units) Nat.one_pos
  have hsmall := spacing_small (255 * units / 1)
  have hmax : n * one ≤ 255 * one := Nat.mul_le_mul_right one (Nat.le_of_lt_succ h)
  have hone : 2 ^ 40 ≤ one := by decide +kernel
  have hfinite : 300 * one < overflow := by decide +kernel
  rw [Nat.div_one] at *
  rw [hunits, scale, ofUnits, if_pos]
  · refine toByte_near h ?_ ?_
    · generalize one = unit at *
      omega
    · generalize one = unit at *
      omega
  · refine Nat.lt_of_le_of_lt ?_ hfinite
    generalize one = unit at *
    omega

/-- Only the greatest byte has a share near to one. -/
theorem apartFromOne_share {n : Nat} (h : n < 255) : Color.apartFromOne (ofRatio n 255) := by
  obtain ⟨units, hunits, hbelow, habove⟩ := exists_share (Nat.lt_succ_of_lt h)
  obtain ⟨hlow, -⟩ := roundUnits_near one (show 0 < 1000000 by decide)
  have hsmall := spacing_small (one / 1000000)
  have hmax : n * one ≤ 254 * one := Nat.mul_le_mul_right one (Nat.le_of_lt_succ h)
  have hone : 2 ^ 40 ≤ one := by decide +kernel
  rw [hunits, Color.apartFromOne, decide_eq_true_eq]
  generalize one = unit at *
  rw [if_pos (by omega)]
  omega

theorem apartFromOne_one : Color.apartFromOne (finite false one) = false := by
  rw [Color.apartFromOne, if_neg (Nat.lt_irrefl one), Nat.sub_self]
  exact decide_eq_false (Nat.not_lt_zero _)

theorem ofRatio_greatest : ofRatio 255 255 = finite false one := by
  have hunits : Representable one := Nat.one_mul one ▸ representable_mul_one (by decide)
  have hcovers := @covers_self one 255 one_pos (by decide)
  rw [Nat.mul_comm] at hcovers
  exact ofUnits_eq false hunits (by decide) hcovers

end StyleScript.Binary64
