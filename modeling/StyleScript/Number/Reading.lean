import StyleScript.Text.Quoted
import StyleScript.Number.Binary64
/-!
# Reading numbers

A number is written in decimal: digits with at most one point, at least one digit, and an exponent of ten
after `e` or `E`; or it is `inf`, `infinity` or `nan` in any case.  A sign may lead.  Integers of a fixed
range are digits after an optional sign.  Blanks are no part of a number; readers that admit them trim.
-/
namespace StyleScript.Text

/-! ## Integers -/

/-- A natural number up to `greatest`: digits, after at most one `+`. -/
def natural? (greatest : Nat) (text : Text) : Option Nat :=
  let digits := (after? ['+'] text).getD text
  if !digits.isEmpty && allDigits digits && digitsValue 0 digits ≤ greatest then
    some (digitsValue 0 digits)
  else none

def natural8? : Text → Option Nat := natural? 0xff

def natural32? : Text → Option Nat := natural? 0xffffffff

def natural64? : Text → Option Nat := natural? 0xffffffffffffffff

def integer64? : Text → Option Int
  | '-' :: digits =>
      if digits.head? = some '+' then none
      else (natural? 0x8000000000000000 digits).map fun n => -n
  | text => (natural? 0x7fffffffffffffff text).map Int.ofNat

/-! ## Floating point -/

/-- An exponent of ten: a sign and digits, and nothing else. -/
def exponent? : Text → Option Int
  | '-' :: digits =>
      if !digits.isEmpty && allDigits digits then some (-(digitsValue 0 digits : Nat)) else none
  | '+' :: digits => if !digits.isEmpty && allDigits digits then some (digitsValue 0 digits : Nat) else none
  | digits => if !digits.isEmpty && allDigits digits then some (digitsValue 0 digits : Nat) else none

/-- The digits before and behind the point, and the exponent, of an unsigned decimal. -/
def decimalParts? (text : Text) : Option (Text × Text × Int) :=
  let whole := text.takeWhile Char.isDigit
  let rest := text.dropWhile Char.isDigit
  let fraction := match rest with
    | '.' :: more => more.takeWhile Char.isDigit
    | _ => []
  let tail := match rest with
    | '.' :: more => more.dropWhile Char.isDigit
    | _ => rest
  if whole.isEmpty && fraction.isEmpty then none
  else match tail with
    | [] => some (whole, fraction, 0)
    | c :: written =>
        if c = 'e' || c = 'E' then (exponent? written).map fun e => (whole, fraction, e) else none

def magnitude? (negative : Bool) (text : Text) : Option Binary64 :=
  if lowered text = "inf" || lowered text = "infinity" then some (.infinity negative)
  else if lowered text = "nan" then some .nan
  else (decimalParts? text).map fun (whole, fraction, e) =>
    .ofDecimal negative (digitsValue 0 (whole ++ fraction)) (e - fraction.length)

def float? : Text → Option Binary64
  | '-' :: text => magnitude? true text
  | '+' :: text => magnitude? false text
  | text => magnitude? false text

/-! ## Numbers in values -/

/-- The number a text stands for, blanks around it aside; a failure names `what` was to be a number. -/
def number (what text : Text) : Except Cause Binary64 :=
  match float? (trim text) with
  | some value => .ok value
  | none => .error (.notNumber what text)

def truncated (what text : Text) : Except Cause Int := do
  return (← number what text).toInt64

/-- A finite number without its fraction; any other text as it is. -/
def truncateText (text : Text) : Text :=
  match float? (trim text) with
  | some value => if value.isFinite then ofInt value.toInt64 else text
  | none => text

/-- Whether two texts say the same: they are equal, or both are numbers and the same number. -/
def sameValue (a b : Text) : Bool :=
  a = b || match float? (trim a), float? (trim b) with
    | some x, some y => x.same y
    | _, _ => false

end StyleScript.Text
