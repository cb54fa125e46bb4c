import StyleScript.Text.Classes
/-!
# References

The labels to which a right-hand side may refer: every run of characters of the shape of a label outside of
strings.  Names of functions are among them; they matter only if an object has the same name.
-/
namespace StyleScript.Construction

def startsReference (c : Char) : Bool := Text.isAlphabetic c || c = '$'

/-- Takes the rest of a reference behind the character `last`.  A brace behind `_` opens a subscript, which
holds any character and nests. -/
def referenceTail : (last : Char) → (depth : Nat) → Text → Text × Text
  | _, _, [] => ([], [])
  | last, depth, c :: rest =>
    let inside :=
      if c = '{' && last = '_' then some (depth + 1)
      else if c = '}' && 0 < depth then some (depth - 1)
      else if 0 < depth || Text.continuesLabel c then some depth
      else none
    match inside with
    | some depth =>
      let (taken, left) := referenceTail c depth rest
      (c :: taken, left)
    | none => ([], c :: rest)

/-- What follows a string, behind its opening quote. -/
def afterString : Text → Text
  | [] => []
  | '"' :: rest => rest
  | '\\' :: _ :: rest => afterString rest
  | _ :: rest => afterString rest

theorem referenceTail_length_le (last : Char) (depth : Nat) (text : Text) :
    (referenceTail last depth text).2.length ≤ text.length := by
  induction text generalizing last depth with
  | nil => simp [referenceTail]
  | cons c rest ih =>
    simp only [referenceTail]
    split
    · have := ih c (by assumption)
      simp only [List.length_cons]
      omega
    · simp

theorem afterString_length_le (text : Text) : (afterString text).length ≤ text.length := by
  fun_induction afterString text with
  | case1 => simp
  | case2 => simp
  | case3 _ rest ih => simp only [List.length_cons]; omega
  | case4 _ rest _ _ ih => simp only [List.length_cons]; omega

/-- The references of a right-hand side, in order and with repetitions. -/
def references : Text → List Text
  | [] => []
  | c :: rest =>
    if c = '"' then references (afterString rest)
    else if startsReference c then
      (c :: (referenceTail c 0 rest).1) :: references (referenceTail c 0 rest).2
    else references rest
termination_by text => text.length
decreasing_by
  · have := afterString_length_le rest
    simp only [List.length_cons]
    omega
  · have := referenceTail_length_le c 0 rest
    simp only [List.length_cons]
    omega
  · simp

end StyleScript.Construction
