/-!
# Text

Scripts, property values and names are lists of characters.  A reader then consumes a text from its
front by recursion, a printer appends, and what one wrote the other reads back by induction on the
list.  A string literal stands for its characters wherever a text is expected.

This module holds the operations that know nothing of styles: cutting at a separator, taking off a
known beginning, joining, measuring, and the decimal digits of a number.
-/
namespace StyleScript

/-- A text is the list of its characters. -/
abbrev Text := List Char

instance : Coe String Text := ⟨String.toList⟩

namespace Text

/-! ## Cutting -/

/-- Cuts a text at the first `sep`, which is dropped. -/
def cut? (sep : Char) : Text → Option (Text × Text)
  | [] => none
  | c :: rest => if c = sep then some ([], rest) else (cut? sep rest).map fun (a, b) => (c :: a, b)

/-- The parts of a text between occurrences of `sep`. -/
def splitAt (sep : Char) : Text → List Text
  | [] => [[]]
  | c :: rest =>
    if c = sep then [] :: splitAt sep rest
    else match splitAt sep rest with
      | [] => [[c]]
      | part :: more => (c :: part) :: more

/-- What follows `lead`, if the text begins with it. -/
def after? : Text → Text → Option Text
  | [], text => some text
  | _ :: _, [] => none
  | p :: lead, c :: rest => if p = c then after? lead rest else none

def beforeLast? (c : Char) (text : Text) : Option Text :=
  match text.reverse with
  | d :: rest => if d = c then some rest.reverse else none
  | [] => none

/-- Whether `part` occurs somewhere in the text. -/
def holds (part : Text) : Text → Bool
  | [] => part.isEmpty
  | c :: rest => (after? part (c :: rest)).isSome || holds part rest

theorem cut?_eq_some {sep : Char} {text a b : Text} (h : cut? sep text = some (a, b)) :
    text = a ++ sep :: b ∧ sep ∉ a := by
  induction text generalizing a b with
  | nil => simp [cut?] at h
  | cons c rest ih =>
    by_cases hc : c = sep
    · simp [cut?, hc] at h
      obtain ⟨rfl, rfl⟩ := h
      simp [hc]
    · simp only [cut?, hc, if_false, Option.map_eq_some_iff] at h
      obtain ⟨⟨a', b'⟩, hab, heq⟩ := h
      obtain ⟨rfl, rfl⟩ := Prod.mk.injEq .. ▸ heq
      obtain ⟨rfl, hn⟩ := ih hab
      exact ⟨rfl, by simp [hn, Ne.symm hc]⟩

theorem cut?_append {sep : Char} {a : Text} (b : Text) (h : sep ∉ a) :
    cut? sep (a ++ sep :: b) = some (a, b) := by
  induction a with
  | nil => simp [cut?]
  | cons c a ih =>
    rw [List.mem_cons, not_or] at h
    simp [cut?, Ne.symm h.1, ih h.2]

theorem after?_eq_some {lead text rest : Text} : after? lead text = some rest ↔ text = lead ++ rest := by
  induction lead generalizing text with
  | nil => simp [after?]
  | cons p lead ih =>
    cases text with
    | nil => simp [after?]
    | cons c text =>
      by_cases h : p = c
      · simp [after?, h, ih]
      · simp [after?, h, Ne.symm h]

/-! ## Joining and measuring -/

/-- The parts one after the other, with `sep` between two of them. -/
def join (sep : Text) : List Text → Text
  | [] => []
  | [part] => part
  | part :: next :: rest => part ++ sep ++ join sep (next :: rest)

/-- The parts that say something, with single blanks between them. -/
def words (parts : List Text) : Text :=
  join " " (parts.filter fun part => !part.isEmpty)

/-- How many bytes the text takes in UTF-8. -/
def byteLength : Text → Nat
  | [] => 0
  | c :: rest => c.utf8Size + byteLength rest

/-- The text without its ASCII capitals; every other character stays. -/
def lowered (text : Text) : Text :=
  text.map Char.toLower

/-- Absent when nothing was written. -/
def nonempty? (text : Text) : Option Text :=
  if text.isEmpty then none else some text

/-! ## Decimal digits -/

/-- The decimal digits of a natural number. -/
def ofNat (n : Nat) : Text := Nat.toDigits 10 n

/-- The decimal digits of an integer, after a minus sign if it is negative. -/
def ofInt : Int → Text
  | .ofNat n => ofNat n
  | .negSucc n => '-' :: ofNat (n + 1)

def ofBool (b : Bool) : Text := if b then "true" else "false"

def hexDigit? (c : Char) : Option Nat :=
  if c.isDigit then some (c.toNat - '0'.toNat)
  else if 'a' ≤ c ∧ c ≤ 'f' then some (c.toNat - 'a'.toNat + 10)
  else if 'A' ≤ c ∧ c ≤ 'F' then some (c.toNat - 'A'.toNat + 10)
  else none

/-- The number written by a list of hexadecimal digits, after the digits read so far. -/
def hexValue? (sofar : Nat) : Text → Option Nat
  | [] => some sofar
  | c :: rest => (hexDigit? c).bind fun d => hexValue? (16 * sofar + d) rest

/-- The number written by a list of decimal digits, after the digits read so far. -/
def digitsValue (sofar : Nat) : Text → Nat
  | [] => sofar
  | c :: rest => digitsValue (10 * sofar + (c.toNat - '0'.toNat)) rest

def allDigits (text : Text) : Bool := text.all Char.isDigit

end Text
end StyleScript
