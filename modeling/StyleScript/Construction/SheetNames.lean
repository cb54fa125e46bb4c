import StyleScript.Text.Basic
/-!
# Names for sheets

Names are handed out once.  A wanted name that is taken gives way to the next numbered one.  Of the numbered
names behind a counter as many as are taken, and one more, are tried; one of these is free.
-/
namespace StyleScript.Construction

/-- The names handed out so far, and the last number. -/
structure SheetNames where
  lead : Text
  counter : Nat := 0
  used : List Text := []

namespace SheetNames

def numbered (names : SheetNames) (n : Nat) : Text := names.lead ++ Text.ofNat n

def nextNumber (names : SheetNames) : Nat :=
  ((List.range' (names.counter + 1) (names.used.length + 1)).find? fun n =>
    !names.used.contains (names.numbered n)).getD (names.counter + names.used.length + 1)

def next (names : SheetNames) : Text × SheetNames :=
  let n := names.nextNumber
  (names.numbered n, { names with counter := n, used := names.numbered n :: names.used })

/-- Hands out a wanted name, or else the next numbered one. -/
def claim (names : SheetNames) (wanted : Text) : Text × SheetNames :=
  if names.used.contains wanted then names.next
  else (wanted, { names with used := wanted :: names.used })

end SheetNames
end StyleScript.Construction
