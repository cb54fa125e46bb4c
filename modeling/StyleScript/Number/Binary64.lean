/-!
# Binary floating point

The numbers of a style are binary64: a sign and a multiple of `2 ^ -1074` that has at most 53 significant
bits.  A magnitude is kept as that multiple, a natural number of *units*, so that every operation is exact
integer arithmetic, equal numbers are equal values, and the order of magnitudes is the order of naturals.

The one rounding is `roundUnits`, to the nearest magnitude and in a tie to the one with an even last bit;
reading a decimal, dividing and multiplying all go through it.
-/
namespace StyleScript

/-- A binary64 number: not a number, an infinity, or a signed magnitude in units of `2 ^ -1074`. -/
inductive Binary64 where
  | nan
  | infinity (negative : Bool)
  | finite (negative : Bool) (units : Nat)
  deriving DecidableEq, Repr

namespace Binary64

/-! ## Rounding -/

/-- The number one, in units. -/
def one : Nat := Nat.pow 2 1074

/-- The least magnitude past the finite ones, in units. -/
def overflow : Nat := Nat.pow 2 2098

/-- The natural number nearest to a quotient, the even one of two equally near. -/
def nearestEven (num den : Nat) : Nat :=
  let q := num / den
  let twice := 2 * (num % den)
  if twice < den then q else if den < twice then q + 1 else if q % 2 = 0 then q else q + 1

/-- The units between neighbouring magnitudes near `units`: one below `2 ^ 53`, then doubling. -/
def spacing (units : Nat) : Nat :=
  if units < Nat.pow 2 53 then 1 else Nat.pow 2 (units.log2 - 52)

/-- The magnitude nearest to a quotient of units. -/
def roundUnits (num den : Nat) : Nat :=
  let step := spacing (num / den)
  nearestEven num (den * step) * step

/-- The number nearest to `num / den` units; past the finite magnitudes it is an infinity. -/
def ofUnits (negative : Bool) (num den : Nat) : Binary64 :=
  let units := roundUnits num den
  if units < overflow then finite negative units else infinity negative

/-- The number nearest to the quotient of two naturals. -/
def ofRatio (num den : Nat) : Binary64 := ofUnits false (num * one) den

/-- The number nearest to `digits * 10 ^ exponent`.  Powers far outside of the range are not computed:
below `10 ^ -330` everything rounds to zero, from `10 ^ 310` on to infinity.  A number of `size` digits lies
between `10 ^ (size - 1)` and `10 ^ size`. -/
def ofDecimal (negative : Bool) (digits : Nat) (exponent : Int) : Binary64 :=
  if digits = 0 then finite negative 0
  else
    let size : Int := exponent + (Nat.toDigits 10 digits).length
    if 310 < size then infinity negative
    else if size < -330 then finite negative 0
    else match exponent with
      | .ofNat e => ofUnits negative (digits * Nat.pow 10 e * one) 1
      | .negSucc e => ofUnits negative (digits * one) (Nat.pow 10 (e + 1))

/-! ## Parts of a number -/

def isFinite : Binary64 → Bool
  | finite _ _ => true
  | _ => false

/-- The value without its fraction, toward zero. -/
def wholePart : Bool → Nat → Int
  | false, units => (units / one : Nat)
  | true, units => -(units / one : Nat)

/-- The least and the greatest 64-bit integer. -/
def int64Least : Int := -0x8000000000000000
def int64Greatest : Int := 0x7fffffffffffffff

/-- The value cut toward zero to a 64-bit integer: out of range the nearest one, and zero for what is not a
number. -/
def toInt64 : Binary64 → Int
  | nan => 0
  | infinity true => int64Least
  | infinity false => int64Greatest
  | finite negative units => max int64Least (min int64Greatest (wholePart negative units))

/-- The value rounded to the nearest integer, halves upward, and forced into `0 … 255`. -/
def toByte : Binary64 → Nat
  | nan => 0
  | infinity negative => if negative then 0 else 255
  | finite true _ => 0
  | finite false units => min 255 ((2 * units + one) / (2 * one))

def scale (factor : Nat) : Binary64 → Binary64
  | nan => nan
  | infinity negative => if factor = 0 then nan else infinity negative
  | finite negative units => ofUnits negative (factor * units) 1

/-! ## Comparing -/

/-- Numeric equality: the two zeros are equal, and what is not a number equals nothing. -/
def equals : Binary64 → Binary64 → Bool
  | infinity s, infinity t => s = t
  | finite s m, finite t n => m = n && (s = t || m = 0)
  | _, _ => false

/-- Equality of what two numbers say: numeric equality, and *not a number* is the same as itself. -/
def same : Binary64 → Binary64 → Bool
  | nan, nan => true
  | a, b => equals a b

theorem same_refl (a : Binary64) : same a a := by
  cases a <;> simp [same, equals]

theorem same_symm {a b : Binary64} (h : same a b) : same b a := by
  cases a <;> cases b <;> simp_all [same, equals]
  rcases h with ⟨rfl, rfl | h⟩ <;> simp_all

theorem same_trans {a b c : Binary64} (h : same a b) (k : same b c) : same a c := by
  cases a <;> cases b <;> cases c <;> simp [same, equals] at h k ⊢ <;> grind

/-! ## The 64 bits -/

def signBit (negative : Bool) : Nat := if negative then 0x8000000000000000 else 0

/-- The binary64 word of a number; every *not a number* has the quiet word. -/
def word : Binary64 → Nat
  | nan => 0x7ff8000000000000
  | infinity negative => signBit negative + 0x7ff0000000000000
  | finite negative units =>
    let hidden := Nat.pow 2 52
    let magnitude :=
      if units < hidden then units
      else (units.log2 - 51) * hidden + (units / Nat.pow 2 (units.log2 - 52) - hidden)
    signBit negative + magnitude

end Binary64
end StyleScript
