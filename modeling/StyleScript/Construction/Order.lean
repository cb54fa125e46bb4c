import StyleScript.Construction.Reference
/-!
# The order of statements

A statement should come after those whose labels it refers to.  Of all statements that wait for nothing, the
first in the list is placed next, so that the order changes no more than it must.  Statements that wait for
each other, or for such ones, keep their order at the end.

Each statement counts what it still waits for.  The counts and the ready statements together fall with every
placement, which is why the sorting ends.
-/
namespace StyleScript.Construction

/-- What one statement brings to the order: its labels and its right-hand side. -/
structure Vertex where
  labels : List Text
  rhs : Text

def owner? (vertices : List Vertex) (label : Text) : Option Nat :=
  vertices.findIdx? fun v => v.labels.contains label

/-- The other statements that statement `i` refers to, in ascending order. -/
def dependencies (vertices : List Vertex) (i : Nat) (v : Vertex) : List Nat :=
  let owners := (references v.rhs).filterMap (owner? vertices)
  (List.range vertices.length).filter fun j => j ≠ i && owners.contains j

def dependencyLists (vertices : List Vertex) : List (List Nat) :=
  vertices.mapIdx fun i v => dependencies vertices i v

/-- The statements that refer to statement `i`, in ascending order. -/
def dependents (lists : List (List Nat)) (i : Nat) : List Nat :=
  (List.range lists.length).filter fun j => (lists.getD j []).contains i

/-! ## Placing -/

def insertAscending (n : Nat) : List Nat → List Nat
  | [] => [n]
  | m :: rest => if n < m then n :: m :: rest else m :: insertAscending n rest

/-- How many others each statement still waits for, and the ascending list of those that wait for none and
are not yet placed. -/
structure Waiting where
  counts : List Nat
  ready : List Nat

def total : List Nat → Nat
  | [] => 0
  | n :: counts => n + total counts

/-- The sum of what is waited for, and of what is ready. -/
def Waiting.weight (w : Waiting) : Nat := total w.counts + w.ready.length

/-- One statement waits for one other less. -/
def Waiting.release (w : Waiting) (j : Nat) : Waiting :=
  match w.counts[j]? with
  | some (k + 1) =>
    ⟨w.counts.set j k, if k = 0 then insertAscending j w.ready else w.ready⟩
  | _ => w

theorem length_insertAscending (n : Nat) (l : List Nat) : (insertAscending n l).length = l.length + 1 := by
  induction l with
  | nil => rfl
  | cons m rest ih => unfold insertAscending; split <;> simp [ih]

theorem total_set {l : List Nat} {i n m : Nat} (h : l[i]? = some n) :
    total (l.set i m) + n = total l + m := by
  induction l generalizing i with
  | nil => simp at h
  | cons a l ih =>
    cases i with
    | zero =>
      simp only [List.getElem?_cons_zero, Option.some.injEq] at h
      simp only [List.set_cons_zero, total]
      omega
    | succ i =>
      simp only [List.getElem?_cons_succ] at h
      have := ih h
      simp only [List.set_cons_succ, total]
      omega

theorem weight_release_le (w : Waiting) (j : Nat) : (w.release j).weight ≤ w.weight := by
  unfold Waiting.release
  split
  · next k hk =>
    have := total_set (m := k) hk
    simp only [Waiting.weight]
    split
    · rw [length_insertAscending]; omega
    · omega
  · exact Nat.le_refl _

theorem weight_foldl_release_le (js : List Nat) (w : Waiting) :
    (js.foldl Waiting.release w).weight ≤ w.weight := by
  induction js generalizing w with
  | nil => exact Nat.le_refl _
  | cons j js ih => exact Nat.le_trans (ih _) (weight_release_le w j)

set_option linter.unusedVariables false in
/-- The statements that can be placed, in the order in which they are. -/
def placed (lists : List (List Nat)) (w : Waiting) : List Nat :=
  match h : w.ready with
  | [] => []
  | i :: rest => i :: placed lists ((dependents lists i).foldl Waiting.release ⟨w.counts, rest⟩)
termination_by w.weight
decreasing_by
  have := weight_foldl_release_le (dependents lists i) ⟨w.counts, rest⟩
  simp only [Waiting.weight, h, List.length_cons] at *
  omega

def Waiting.start (lists : List (List Nat)) : Waiting :=
  let counts := lists.map List.length
  ⟨counts, (List.range lists.length).filter fun i => counts[i]? = some 0⟩

/-- The order of the statements, as their indices. -/
def dependencyOrder (vertices : List Vertex) : List Nat :=
  let lists := dependencyLists vertices
  let first := placed lists (.start lists)
  first ++ (List.range vertices.length).filter fun i => !first.contains i

end StyleScript.Construction
