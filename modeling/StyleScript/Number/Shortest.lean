import StyleScript.Text.Basic
import StyleScript.Number.Binary64
/-!
# Writing numbers

A number is written with the fewest decimal digits that read back as it, the nearest such decimal, and of
two equally near the larger; always positionally, without an exponent.

The decimals that round to a magnitude fill an interval around it, whose ends belong to it when the last
bit is even.  For one digit, two digits, and so on, the two neighbours of the magnitude on the decimal grid
are tried; the first grid with a neighbour in the interval wins.  If any point of a grid lies in the
interval then so does one of these two.
-/
namespace StyleScript.Binary64

/-! ## The interval that rounds to a magnitude -/

/-- The interval of decimals that round to a magnitude, in quarters of a unit. -/
structure Interval where
  low : Nat
  high : Nat
  closed : Bool

/-- Half the way to either neighbour.  Below a power of two the neighbour is nearer. -/
def interval (units : Nat) : Interval :=
  let step := spacing units
  let below := if step ≠ 1 && units = Nat.pow 2 52 * step then step else 2 * step
  ⟨4 * units - below, 4 * units + 2 * step, units / step % 2 = 0⟩

structure Decimal where
  digits : Nat
  exponent : Int
  deriving DecidableEq, Repr

/-- The two factors by which a decimal grid is compared with units in integers: a decimal `c` on the grid
equals `u` units when `c * grid = u * lift`. -/
def grid (exponent : Int) : Nat := one * Nat.pow 10 exponent.toNat
def lift (exponent : Int) : Nat := Nat.pow 10 (-exponent).toNat

/-- Whether a point of a grid lies in an interval. -/
def Interval.holds (i : Interval) (exponent : Int) (digits : Nat) : Bool :=
  let point := 4 * digits * grid exponent
  let low := i.low * lift exponent
  let high := i.high * lift exponent
  if i.closed then low ≤ point && point ≤ high else low < point && point < high

/-! ## The shortest decimal -/

/-- How many digits a positive magnitude has before the point; zero or less counts the zeros behind it. -/
def wholeDigits (units : Nat) : Int :=
  (Text.ofNat (units * Nat.pow 10 400 / one)).length - (400 : Int)

/-- The neighbour of a magnitude on a grid that lies in its interval, the nearer one if both do, and the
upper one of two equally near. -/
def onGrid? (units : Nat) (exponent : Int) : Option Decimal :=
  let value := units * lift exponent
  let lower := value / grid exponent
  let upper := lower + 1
  let i := interval units
  let nearLower := 2 * (value % grid exponent) < grid exponent
  if i.holds exponent lower && (nearLower || !i.holds exponent upper) then some ⟨lower, exponent⟩
  else if i.holds exponent upper then some ⟨upper, exponent⟩
  else none

/-- The shortest decimal that reads back as a positive magnitude.  Seventeen digits always do. -/
def shortest (units : Nat) : Decimal :=
  let whole := wholeDigits units
  ((List.range 17).findSome? fun (n : Nat) => onGrid? units (whole - (n + 1))).getD
    ⟨units * lift (whole - 17) / grid (whole - 17), whole - 17⟩

/-! ## Positional text -/

/-- The text without the zeros it ends with. -/
def dropZeros (text : Text) : Text := (text.reverse.dropWhile (· = '0')).reverse

def Decimal.text (d : Decimal) : Text :=
  match d.exponent with
  | .ofNat e => Text.ofNat d.digits ++ List.replicate e '0'
  | .negSucc e =>
    let digits := Text.ofNat d.digits
    let padded := List.replicate (e + 2 - digits.length) '0' ++ digits
    let whole := padded.take (padded.length - (e + 1))
    let fraction := dropZeros (padded.drop (padded.length - (e + 1)))
    if fraction.isEmpty then whole else whole ++ '.' :: fraction

def signText (negative : Bool) : Text := if negative then ['-'] else []

/-- The shortest text that reads back as the number. -/
def text : Binary64 → Text
  | nan => "NaN"
  | infinity negative => signText negative ++ "inf"
  | finite negative units =>
    signText negative ++ (if units = 0 then ['0'] else (shortest units).text)

/-- The text of a number in an element: a whole number below `10 ^ 15` has one zero behind the point. -/
def elementText : Binary64 → Text
  | finite negative units =>
    if units % one = 0 && units < Nat.pow 10 15 * one then
      signText negative ++ Text.ofNat (units / one) ++ ".0"
    else text (finite negative units)
  | value => text value

end StyleScript.Binary64
