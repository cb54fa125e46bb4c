import Mathlib.Data.List.Perm.Subperm
import StyleScript.Property.Basic
/-!
# Attributes as tables

What a property says is in its attributes looked up by key; their order does not count.  `get?_union` and
`get?_overlaid` say what is found in a table that was put together, and `equivalent_iff` that two tables are
equivalent for a format exactly if, completed, they say the same under every key.  One table is searched for the keys
of the other only, but their sizes are equal and keys do not repeat, so none is missed.  Hence equivalence is an
equivalence relation (`equivalence_by_keys`).
-/
namespace StyleScript

/-! ## Numbers and texts that say the same -/

namespace Text

theorem sameValue_refl (a : Text) : sameValue a a := by
  rw [sameValue, decide_eq_true rfl]
  rfl

theorem sameValue_eq_true {a b : Text} : sameValue a b ↔
    a = b ∨ ∃ x y, float? (trim a) = some x ∧ float? (trim b) = some y ∧ x.same y := by
  rw [sameValue, Bool.or_eq_true, decide_eq_true_eq]
  refine or_congr_right ?_
  cases float? (trim a) <;> cases float? (trim b) <;> simp

theorem sameValue_symm {a b : Text} (h : sameValue a b) : sameValue b a := by
  rw [sameValue_eq_true] at h ⊢
  rcases h with rfl | ⟨x, y, hx, hy, hxy⟩
  · exact .inl rfl
  · exact .inr ⟨y, x, hy, hx, Binary64.same_symm hxy⟩

theorem sameValue_trans {a b c : Text} (h : sameValue a b) (k : sameValue b c) : sameValue a c := by
  rw [sameValue_eq_true] at h k ⊢
  rcases h with rfl | ⟨x, y, hx, hy, hxy⟩
  · exact k
  · rcases k with rfl | ⟨y', z, hy', hz, hyz⟩
    · exact .inr ⟨x, y, hx, hy, hxy⟩
    · cases hy.symm.trans hy'
      exact .inr ⟨x, z, hx, hz, Binary64.same_trans hxy hyz⟩

/-- Both say nothing, or the same. -/
abbrev Same (x y : Option Text) : Prop := Option.Rel (fun v w => sameValue v w) x y

theorem same_refl (x : Option Text) : Same x x := by
  cases x with
  | none => exact .none
  | some v => exact .some (sameValue_refl v)

theorem same_symm {x y : Option Text} (h : Same x y) : Same y x := by
  cases h with
  | none => exact .none
  | some hvw => exact .some (sameValue_symm hvw)

theorem same_trans {x y z : Option Text} (h : Same x y) (k : Same y z) : Same x z := by
  cases h with
  | none => exact k
  | some hvw =>
    cases k with
    | some hwu => exact .some (sameValue_trans hvw hwu)

end Text

/-! ## Looking up -/

namespace OrderedMap

variable {κ β : Type} [DecidableEq κ]

theorem find?_eq_some {key : κ} {value : β} : ∀ {pairs : List (κ × β)}, (pairs.map Prod.fst).Nodup →
    (find? key pairs = some value ↔ (key, value) ∈ pairs)
  | [], _ => by simp [find?]
  | p :: pairs, h => by
    rw [List.map_cons, List.nodup_cons] at h
    obtain ⟨k, v⟩ := p
    rw [find?]
    split
    · next hk =>
      have hnot : (key, value) ∉ pairs := fun hmem =>
        h.1 (List.mem_map.2 ⟨(key, value), hmem, hk.symm⟩)
      simp [hk, hnot, eq_comm]
    · next hk => simp [find?_eq_some h.2, Ne.symm hk]

theorem get?_eq_some {m : OrderedMap κ β} {key : κ} {value : β} : m.get? key = some value ↔ (key, value) ∈ m.pairs :=
  find?_eq_some m.distinct

theorem mem_keys_of_get? {m : OrderedMap κ β} {key : κ} {value : β} (h : m.get? key = some value) : key ∈ m.keys :=
  contains_iff.1 (by rw [contains, h]; rfl)

theorem exists_get?_of_ne_empty {m : OrderedMap κ β} (h : m ≠ ∅) : ∃ key value, m.get? key = some value := by
  cases hpairs : m.pairs with
  | nil => exact absurd (ext hpairs) h
  | cons p pairs => exact ⟨p.1, p.2, get?_eq_some.2 (hpairs ▸ List.mem_cons_self)⟩

/-- The same pairs in another order say the same. -/
theorem find?_of_perm {key : κ} {pairs more : List (κ × β)} (h : (pairs.map Prod.fst).Nodup) (hperm : pairs.Perm more) :
    find? key pairs = find? key more := by
  have hmore : (more.map Prod.fst).Nodup := (hperm.map Prod.fst).nodup_iff.1 h
  apply Option.ext
  intro value
  rw [find?_eq_some h, find?_eq_some hmore]
  exact hperm.mem_iff

theorem find?_map_snd {γ : Type} (f : β → γ) (key : κ) : ∀ pairs : List (κ × β),
    find? key (pairs.map fun p => (p.1, f p.2)) = (find? key pairs).map f
  | [] => rfl
  | p :: pairs => by
    rw [List.map_cons, find?, find?, find?_map_snd f key pairs]
    split <;> rfl

theorem find?_append (key : κ) : ∀ pairs more : List (κ × β),
    find? key (pairs ++ more) = (find? key pairs).or (find? key more)
  | [], _ => rfl
  | p :: pairs, more => by
    rw [List.cons_append, find?, find?, find?_append key pairs more]
    split <;> rfl

/-- Keys with a value each: under the key at a place is the value at that place. -/
theorem find?_zip {key : κ} : ∀ {keys : List κ} {values : List β} {i : Nat}, keys.Nodup →
    keys.length ≤ values.length → keys[i]? = some key → find? key (keys.zip values) = values[i]?
  | [], _, _, _, _, h => by cases h
  | _ :: _, [], _, _, hlength, _ => absurd hlength (Nat.not_succ_le_zero _)
  | k :: keys, v :: values, 0, _, _, h => by
    cases h
    rw [List.zip_cons_cons, find?, if_pos rfl, List.getElem?_cons_zero]
  | k :: keys, v :: values, i + 1, hnodup, hlength, h => by
    rw [List.getElem?_cons_succ] at h ⊢
    obtain ⟨hk, hnodup⟩ := List.nodup_cons.1 hnodup
    have hne : k ≠ key := fun heq => hk (heq ▸ List.mem_of_getElem? h)
    rw [List.zip_cons_cons, find?, if_neg hne]
    exact find?_zip hnodup (Nat.le_of_succ_le_succ hlength) h

/-- Rows of which some say something, each under its own key. -/
theorem find?_filterMap {γ : Type} (value : γ → Option β) (key : κ) : ∀ {rows : List (κ × γ)},
    (rows.map Prod.fst).Nodup →
    find? key (rows.filterMap fun row => (value row.2).map (row.1, ·)) = (find? key rows).bind value
  | [], _ => rfl
  | row :: rows, h => by
    rw [List.map_cons, List.nodup_cons] at h
    have hrest := find?_filterMap value key h.2
    rw [find?]
    split
    · next hk =>
      have hnone : find? key rows = none := find?_eq_none.2 (hk ▸ h.1)
      rw [hnone] at hrest
      cases hv : value row.2 with
      | none => rw [List.filterMap_cons_none (by rw [hv]; rfl), hrest, Option.bind_some, hv]; rfl
      | some v => rw [List.filterMap_cons_some (by rw [hv]; rfl), find?, if_pos hk, Option.bind_some, hv]
    · next hk =>
      cases hv : value row.2 with
      | none => rw [List.filterMap_cons_none (by rw [hv]; rfl), hrest]
      | some v => rw [List.filterMap_cons_some (by rw [hv]; rfl), find?, if_neg hk, hrest]

omit [DecidableEq κ] in
theorem keys_filterMap_sublist {γ : Type} (value : γ → Option β) (rows : List (κ × γ)) :
    ((rows.filterMap fun row => (value row.2).map (row.1, ·)).map Prod.fst).Sublist (rows.map Prod.fst) := by
  induction rows with
  | nil => exact List.Sublist.slnil
  | cons row rows ih =>
    cases hv : value row.2 with
    | none => rw [List.filterMap_cons_none (by rw [hv]; rfl)]; exact ih.cons row.1
    | some v => rw [List.filterMap_cons_some (by rw [hv]; rfl)]; exact ih.cons_cons row.1

/-- What is laid over a table is found first, if no key repeats in it. -/
theorem get?_union (key : κ) : ∀ {pairs : List (κ × β)} (m : OrderedMap κ β), (pairs.map Prod.fst).Nodup →
    (m.union pairs).get? key = (find? key pairs).or (m.get? key)
  | [], _, _ => rfl
  | p :: pairs, m, h => by
    rw [List.map_cons, List.nodup_cons] at h
    rw [union_cons, get?_union key (m.set p.1 p.2) h.2, get?_set, find?]
    split
    · next hk => rw [find?_eq_none.2 (hk ▸ h.1)]; rfl
    · rfl

theorem get?_ofList {key : κ} {pairs : List (κ × β)} (h : (pairs.map Prod.fst).Nodup) :
    (ofList pairs).get? key = find? key pairs := by
  rw [ofList, get?_union key ∅ h]
  exact Option.or_none

theorem union_append (m : OrderedMap κ β) (pairs more : List (κ × β)) :
    m.union (pairs ++ more) = (m.union pairs).union more :=
  List.foldl_append

theorem get?_union_of_not_mem {key : κ} : ∀ {pairs : List (κ × β)} {m : OrderedMap κ β}, key ∉ pairs.map Prod.fst →
    (m.union pairs).get? key = m.get? key
  | [], _, _ => rfl
  | p :: pairs, m, h => by
    rw [List.map_cons, List.mem_cons, not_or] at h
    rw [union_cons, get?_union_of_not_mem h.2, get?_set, if_neg (Ne.symm h.1)]

theorem get?_union_isSome (key : κ) : ∀ (pairs : List (κ × β)) (m : OrderedMap κ β),
    ((m.union pairs).get? key).isSome ↔ (m.get? key).isSome ∨ key ∈ pairs.map Prod.fst
  | [], m => by simp
  | p :: pairs, m => by
    rw [union_cons, get?_union_isSome key pairs, get?_set, List.map_cons, List.mem_cons]
    by_cases hk : p.1 = key
    · simp [hk]
    · simp [hk, Ne.symm hk]

theorem ofList_ne_empty {pairs : List (κ × β)} (h : pairs ≠ []) : ofList pairs ≠ ∅ := by
  obtain ⟨p, rest, rfl⟩ := List.exists_cons_of_ne_nil h
  intro hempty
  have hfound := (get?_union_isSome p.1 (p :: rest) ∅).2 (.inr List.mem_cons_self)
  rw [← ofList, hempty] at hfound
  cases hfound

/-- What is found in a table was laid over it or was there before. -/
theorem mem_or_get?_of_union {key : κ} {value : β} : ∀ {pairs : List (κ × β)} {m : OrderedMap κ β},
    (m.union pairs).get? key = some value → (key, value) ∈ pairs ∨ m.get? key = some value
  | [], _, h => .inr h
  | p :: pairs, m, h => by
    rcases mem_or_get?_of_union (m := m.set p.1 p.2) h with hmem | hset
    · exact .inl (List.mem_cons_of_mem p hmem)
    · rw [get?_set] at hset
      split at hset
      · next hk =>
        cases hset
        exact .inl (hk ▸ List.mem_cons_self)
      · exact .inr hset

/-! ## Setting new keys -/

theorem setIn_of_not_mem {key : κ} (value : β) : ∀ {pairs : List (κ × β)}, key ∉ pairs.map Prod.fst →
    setIn key value pairs = pairs ++ [(key, value)]
  | [], _ => rfl
  | p :: pairs, h => by
    rw [List.map_cons, List.mem_cons, not_or] at h
    rw [setIn, if_neg (Ne.symm h.1), setIn_of_not_mem value h.2]
    rfl

theorem pairs_set_of_not_mem (m : OrderedMap κ β) {key : κ} (value : β) (h : key ∉ m.keys) :
    (m.set key value).pairs = m.pairs ++ [(key, value)] :=
  setIn_of_not_mem value h

theorem setIn_concat {key : κ} (old value : β) : ∀ {pairs : List (κ × β)}, key ∉ pairs.map Prod.fst →
    setIn key value (pairs ++ [(key, old)]) = pairs ++ [(key, value)]
  | [], _ => if_pos rfl
  | p :: pairs, h => by
    rw [List.map_cons, List.mem_cons, not_or] at h
    rw [List.cons_append, setIn, if_neg (Ne.symm h.1), setIn_concat old value h.2]
    rfl

/-- Pairs with keys of their own are put behind the others. -/
theorem pairs_union_of_nodup : ∀ {pairs : List (κ × β)} {m : OrderedMap κ β},
    ((m.pairs ++ pairs).map Prod.fst).Nodup → (m.union pairs).pairs = m.pairs ++ pairs
  | [], _, _ => (List.append_nil _).symm
  | p :: pairs, m, h => by
    have hnew : p.1 ∉ m.keys := by
      rw [List.map_append, List.nodup_append] at h
      exact fun hmem => h.2.2 p.1 hmem p.1 List.mem_cons_self rfl
    have hset := pairs_set_of_not_mem m p.2 hnew
    rw [union_cons, pairs_union_of_nodup (by rwa [hset, List.append_assoc]), hset, List.append_assoc]
    rfl

theorem pairs_ofList {pairs : List (κ × β)} (h : (pairs.map Prod.fst).Nodup) : (ofList pairs).pairs = pairs :=
  pairs_union_of_nodup h

theorem ofList_pairs (m : OrderedMap κ β) : ofList m.pairs = m := ext (pairs_ofList m.distinct)

/-! ## Leaving keys out -/

section

variable (keep : κ → Bool)

theorem filter_setIn (key : κ) (value : β) : ∀ pairs : List (κ × β), (setIn key value pairs).filter (fun p => keep p.1) =
    if keep key then setIn key value (pairs.filter fun p => keep p.1) else pairs.filter fun p => keep p.1
  | [] => List.filter_cons
  | p :: pairs => by
    rw [setIn]
    by_cases hkey : p.1 = key
    · subst hkey
      rw [if_pos rfl, List.filter_cons, List.filter_cons]
      split
      · exact (if_pos rfl).symm
      · rfl
    · rw [if_neg hkey, List.filter_cons, filter_setIn key value pairs, List.filter_cons]
      split
      · split
        · exact (if_neg hkey).symm
        · rfl
      · rfl

/-- A key that is left out may as well not be set. -/
theorem filter_set (m : OrderedMap κ β) (key : κ) (value : β) : (m.set key value).filter (fun k _ => keep k) =
    if keep key then (m.filter fun k _ => keep k).set key value else m.filter fun k _ => keep k := by
  refine ext ((filter_setIn keep key value m.pairs).trans ?_)
  split <;> rfl

theorem filter_union : ∀ (pairs : List (κ × β)) (m : OrderedMap κ β), (m.union pairs).filter (fun k _ => keep k) =
    (m.filter fun k _ => keep k).union (pairs.filter fun p => keep p.1)
  | [], _ => rfl
  | p :: pairs, m => by
    rw [union_cons, filter_union pairs, filter_set, List.filter_cons]
    split
    · exact (union_cons ..).symm
    · rfl

end

/-! ## Tables with the same keys -/

omit [DecidableEq κ] in
theorem size_eq_of_keys {m n : OrderedMap κ β} (h : ∀ key, key ∈ m.keys ↔ key ∈ n.keys) : m.size = n.size := by
  have hperm := (List.perm_ext_iff_of_nodup m.keys_nodup n.keys_nodup).2 h
  have hlength := hperm.length_eq
  rwa [keys, keys, List.length_map, List.length_map] at hlength

omit [DecidableEq κ] in
theorem mem_keys_iff_of_size {m n : OrderedMap κ β} (hsize : m.size = n.size) (h : ∀ key ∈ m.keys, key ∈ n.keys)
    (key : κ) : key ∈ m.keys ↔ key ∈ n.keys := by
  have hsub := List.Nodup.subperm m.keys_nodup h
  have hlength : n.keys.length ≤ m.keys.length := by
    rw [keys, keys, List.length_map, List.length_map]
    exact Nat.le_of_eq hsize.symm
  have hperm := hsub.perm_of_length_le hlength
  exact hperm.mem_iff

end OrderedMap

namespace Attributes

theorem get?_overlaid (defaults attrs : Attributes) (key : Text) :
    (overlaid defaults attrs).get? key = (attrs.get? key).or (defaults.get? key) :=
  OrderedMap.get?_union key defaults attrs.distinct

theorem hasReset_eq_false {attrs : Attributes} : attrs.hasReset = false ↔ attrs.get? resetMark = none := by
  rw [hasReset, OrderedMap.contains, Option.isSome_eq_false_iff, Option.isNone_iff_eq_none]

end Attributes

/-! ## Equivalent attributes -/

namespace PropertyFormat

variable {format : PropertyFormat} {a b : Attributes}

theorem isSome_iff_of_rel {α β : Type} {R : α → β → Prop} {x : Option α} {y : Option β} (h : Option.Rel R x y) :
    x.isSome ↔ y.isSome := by
  cases h <;> exact Iff.rfl

/-- **Equivalence is equality key by key**, once the defaults are filled in and numbers are compared as numbers. -/
theorem equivalent_iff : format.equivalent a b ↔ ∀ key,
    Option.Rel (fun v w => Text.sameValue v w) ((format.complete a).get? key) ((format.complete b).get? key) := by
  simp only [equivalent, Bool.and_eq_true, decide_eq_true_eq, List.all_eq_true, Option.any_eq_true]
  generalize format.complete a = m
  generalize format.complete b = n
  constructor
  · rintro ⟨hsize, hall⟩ key
    have hkeys := OrderedMap.mem_keys_iff_of_size hsize fun key hkey => by
      obtain ⟨p, hp, rfl⟩ := List.mem_map.1 hkey
      obtain ⟨w, hw, -⟩ := hall p hp
      exact OrderedMap.mem_keys_of_get? hw
    cases hm : m.get? key with
    | some v =>
      obtain ⟨w, hw, hsame⟩ := hall (key, v) (OrderedMap.get?_eq_some.1 hm)
      rw [hw]
      exact .some hsame
    | none =>
      rw [OrderedMap.get?_eq_none.2 (mt (hkeys key).2 (OrderedMap.get?_eq_none.1 hm))]
      exact .none
  · intro hrel
    have hfound : ∀ key v, m.get? key = some v → ∃ w, n.get? key = some w ∧ Text.sameValue v w := by
      intro key v hv
      have := hrel key
      rw [hv] at this
      cases hw : n.get? key with
      | none => rw [hw] at this; cases this
      | some w => rw [hw] at this; exact ⟨w, rfl, by cases this; assumption⟩
    refine ⟨OrderedMap.size_eq_of_keys fun key => ?_, fun p hp => hfound p.1 p.2 (OrderedMap.get?_eq_some.2 hp)⟩
    rw [← OrderedMap.contains_iff, ← OrderedMap.contains_iff]
    exact isSome_iff_of_rel (hrel key)

/-- **Equivalence is an equivalence relation**, of every format, however it completes attributes.  Only one of the two
tables is searched, and yet they agree under every key. -/
theorem equivalence_by_keys (format : PropertyFormat) : (Equivalence fun a b => format.equivalent a b) ∧
    ∀ a b, format.equivalent a b ↔ ∀ key, Text.Same ((format.complete a).get? key) ((format.complete b).get? key) := by
  refine ⟨⟨?refl, ?symm, ?trans⟩, fun _ _ => equivalent_iff⟩
  case refl =>
    intro a
    exact equivalent_iff.2 fun key => Text.same_refl _
  case symm =>
    intro a b h
    exact equivalent_iff.2 fun key => Text.same_symm (equivalent_iff.1 h key)
  case trans =>
    intro a b c h k
    exact equivalent_iff.2 fun key => Text.same_trans (equivalent_iff.1 h key) (equivalent_iff.1 k key)

/-- What the written form of attributes says: nothing, if nothing is written. -/
def reread (format : PropertyFormat) (attrs : Attributes) : Except Cause (Option Attributes) :=
  match format.encode attrs with
  | none => .ok (some ∅)
  | some text => format.decode text

end PropertyFormat
end StyleScript
