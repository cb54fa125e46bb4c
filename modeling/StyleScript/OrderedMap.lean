import StyleScript.Text.Basic
/-!
# Ordered maps

A map that remembers in which order its keys came: a list of pairs with distinct keys.  Setting a key that
is there changes its value and leaves it where it stands; a new key goes to the end.  Two maps are equal
when they hold the same pairs in the same order.

What setting a key does is said of the keys by `keys_set` and of the values by `get?_set`.
-/
namespace StyleScript

/-- Pairs with distinct keys, in the order of insertion. -/
structure OrderedMap (κ β : Type) where
  pairs : List (κ × β)
  distinct : (pairs.map Prod.fst).Nodup
  deriving DecidableEq

namespace OrderedMap

variable {κ β : Type}

def empty : OrderedMap κ β := ⟨[], List.nodup_nil⟩

instance : EmptyCollection (OrderedMap κ β) := ⟨empty⟩
instance : Inhabited (OrderedMap κ β) := ⟨empty⟩

def keys (m : OrderedMap κ β) : List κ := m.pairs.map Prod.fst

def values (m : OrderedMap κ β) : List β := m.pairs.map Prod.snd

def size (m : OrderedMap κ β) : Nat := m.pairs.length

def isEmpty (m : OrderedMap κ β) : Bool := m.pairs.isEmpty

theorem keys_nodup (m : OrderedMap κ β) : m.keys.Nodup := m.distinct

theorem ext {m n : OrderedMap κ β} (h : m.pairs = n.pairs) : m = n := by
  cases m; cases n; cases h; rfl

theorem isEmpty_iff {m : OrderedMap κ β} : m.isEmpty ↔ m = ∅ :=
  ⟨fun h => ext (List.isEmpty_iff.1 h), fun h => h ▸ rfl⟩

variable [DecidableEq κ]

/-! ## Looking up -/

def find? (key : κ) : List (κ × β) → Option β
  | [] => none
  | (k, v) :: rest => if k = key then some v else find? key rest

def get? (m : OrderedMap κ β) (key : κ) : Option β := find? key m.pairs

def contains (m : OrderedMap κ β) (key : κ) : Bool := (m.get? key).isSome

theorem find?_isSome {key : κ} {pairs : List (κ × β)} :
    (find? key pairs).isSome ↔ key ∈ pairs.map Prod.fst := by
  induction pairs with
  | nil => simp [find?]
  | cons p rest ih =>
    by_cases h : p.1 = key
    · simp [find?, h]
    · simp [find?, h, ih, Ne.symm h]

theorem find?_eq_none {key : κ} {pairs : List (κ × β)} :
    find? key pairs = none ↔ key ∉ pairs.map Prod.fst := by
  rw [← find?_isSome, Option.not_isSome_iff_eq_none]

theorem contains_iff {m : OrderedMap κ β} {key : κ} : m.contains key ↔ key ∈ m.keys := find?_isSome

theorem get?_eq_none {m : OrderedMap κ β} {key : κ} : m.get? key = none ↔ key ∉ m.keys := find?_eq_none

/-! ## Setting -/

def setIn (key : κ) (value : β) : List (κ × β) → List (κ × β)
  | [] => [(key, value)]
  | (k, v) :: rest => if k = key then (k, value) :: rest else (k, v) :: setIn key value rest

theorem map_fst_setIn (key : κ) (value : β) (pairs : List (κ × β)) :
    (setIn key value pairs).map Prod.fst =
      if key ∈ pairs.map Prod.fst then pairs.map Prod.fst else pairs.map Prod.fst ++ [key] := by
  induction pairs with
  | nil => simp [setIn]
  | cons p rest ih =>
    by_cases h : p.1 = key
    · simp [setIn, h]
    · simp only [setIn, h, if_false, List.map_cons, ih, List.mem_cons, Ne.symm h, false_or]
      split <;> simp

/-- Sets a key: in its place if it is there, else at the end. -/
def set (m : OrderedMap κ β) (key : κ) (value : β) : OrderedMap κ β :=
  ⟨setIn key value m.pairs, by
    rw [map_fst_setIn]
    split
    · exact m.distinct
    · next h =>
      refine List.nodup_append.2 ⟨m.distinct, by simp, fun a ha b hb hab => h ?_⟩
      rw [List.mem_singleton] at hb
      exact hb ▸ hab ▸ ha⟩

theorem find?_setIn (key other : κ) (value : β) (pairs : List (κ × β)) :
    find? other (setIn key value pairs) = if key = other then some value else find? other pairs := by
  induction pairs with
  | nil => simp [setIn, find?]
  | cons p rest ih =>
    by_cases h : p.1 = key
    · subst h
      by_cases ho : p.1 = other <;> simp [setIn, find?, ho]
    · by_cases ho : p.1 = other
      · subst ho
        simp [setIn, h, find?, Ne.symm h]
      · simp [setIn, h, find?, ho, ih]

theorem get?_set (m : OrderedMap κ β) (key other : κ) (value : β) :
    (m.set key value).get? other = if key = other then some value else m.get? other :=
  find?_setIn ..

theorem keys_set (m : OrderedMap κ β) (key : κ) (value : β) :
    (m.set key value).keys = if key ∈ m.keys then m.keys else m.keys ++ [key] :=
  map_fst_setIn ..

def union (m : OrderedMap κ β) (pairs : List (κ × β)) : OrderedMap κ β :=
  pairs.foldl (fun m (key, value) => m.set key value) m

def ofList (pairs : List (κ × β)) : OrderedMap κ β := union ∅ pairs

@[simp] theorem union_nil (m : OrderedMap κ β) : m.union [] = m := rfl

@[simp] theorem union_cons (m : OrderedMap κ β) (p : κ × β) (pairs : List (κ × β)) :
    m.union (p :: pairs) = (m.set p.1 p.2).union pairs := rfl

/-- Changes the value of a key, from nothing if the key is new. -/
def alter (m : OrderedMap κ β) (key : κ) (change : Option β → β) : OrderedMap κ β :=
  m.set key (change (m.get? key))

/-! ## Removing -/

def filter (keep : κ → β → Bool) (m : OrderedMap κ β) : OrderedMap κ β :=
  ⟨m.pairs.filter fun p => keep p.1 p.2, m.distinct.sublist (List.filter_sublist.map _)⟩

/-- Takes a key away; the others keep their order. -/
def erase (m : OrderedMap κ β) (key : κ) : OrderedMap κ β := m.filter fun k _ => k ≠ key

/-! ## Comparing without the order -/

/-- Whether both maps hold the same keys with the same values, in whatever order. -/
def sameContent [DecidableEq β] (m n : OrderedMap κ β) : Bool :=
  m.size = n.size && m.pairs.all fun (key, value) => n.get? key = some value

end OrderedMap
end StyleScript
