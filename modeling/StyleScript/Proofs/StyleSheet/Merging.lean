import StyleScript.Proofs.Property.Tables
import StyleScript.StyleSheet
/-!
# Merging is associative

Sheets merge at two levels, the properties of a sheet and the attributes of a property, and on both an ordered map is
laid over another: what a key holds afterwards depends on what it held and on what comes.  `laid_assoc` deals with
the two at once, from one law on that dependence (`Layering`).  Two maps are equal when their keys stand in the same
order and hold the same (`eq_of_keys_of_get?`), so only `keys_laid` and `get?_laid` look at the fold.

The law is where the reset mark comes in: of three values for one property the last decides alone if it resets, and
otherwise the middle one keeps its mark, so that it makes no difference which two come together first.
-/
namespace StyleScript

namespace OrderedMap

variable {κ β : Type} [DecidableEq κ]

theorem eq_of_find? : ∀ {pairs more : List (κ × β)}, pairs.map Prod.fst = more.map Prod.fst →
    (pairs.map Prod.fst).Nodup → (∀ key, find? key pairs = find? key more) → pairs = more
  | [], [], _, _, _ => rfl
  | p :: pairs, q :: more, hkeys, hnodup, hfind => by
    rw [List.map_cons, List.map_cons, List.cons.injEq] at hkeys
    rw [List.map_cons, List.nodup_cons] at hnodup
    have hhead : p = q := by
      have h := hfind p.1
      rw [find?, if_pos rfl, find?, if_pos hkeys.1.symm] at h
      exact Prod.ext hkeys.1 (Option.some.inj h)
    refine List.cons_eq_cons.2 ⟨hhead, eq_of_find? hkeys.2 hnodup.2 fun key => ?_⟩
    by_cases hkey : p.1 = key
    · rw [find?_eq_none.2 (hkey ▸ hnodup.1), find?_eq_none.2 (hkeys.2 ▸ hkey ▸ hnodup.1)]
    · have h := hfind key
      rwa [find?, if_neg hkey, find?, if_neg (hhead ▸ hkey)] at h

/-- **A map is its keys in order and what they hold.** -/
theorem eq_of_keys_of_get? {m n : OrderedMap κ β} (hkeys : m.keys = n.keys) (h : ∀ key, m.get? key = n.get? key) :
    m = n :=
  ext (eq_of_find? hkeys m.distinct h)

theorem get?_alter (m : OrderedMap κ β) (key other : κ) (change : Option β → β) :
    (m.alter key change).get? other = if key = other then some (change (m.get? key)) else m.get? other :=
  get?_set ..

/-! ## One map laid over another -/

/-- Pairs come onto a map one after the other, each combined with what its key holds. -/
def laid (combine : Option β → β → β) (m : OrderedMap κ β) (pairs : List (κ × β)) : OrderedMap κ β :=
  pairs.foldl (fun m p => m.alter p.1 (combine · p.2)) m

variable {combine : Option β → β → β}

theorem laid_cons (m : OrderedMap κ β) (p : κ × β) (pairs : List (κ × β)) :
    m.laid combine (p :: pairs) = (m.alter p.1 (combine · p.2)).laid combine pairs :=
  rfl

theorem keys_laid_pairs : ∀ {pairs : List (κ × β)} (m : OrderedMap κ β), (pairs.map Prod.fst).Nodup →
    (m.laid combine pairs).keys = m.keys ++ (pairs.map Prod.fst).filter (· ∉ m.keys)
  | [], m, _ => (List.append_nil m.keys).symm
  | p :: pairs, m, h => by
    rw [List.map_cons, List.nodup_cons] at h
    rw [laid_cons, keys_laid_pairs _ h.2, alter, keys_set, List.map_cons]
    split
    · next hk => rw [List.filter_cons_of_neg (by simpa using hk)]
    · next hk =>
      have hrest : (pairs.map Prod.fst).filter (· ∉ m.keys ++ [p.1]) = (pairs.map Prod.fst).filter (· ∉ m.keys) :=
        List.filter_congr fun k hk => by
          have hne : k ≠ p.1 := fun heq => h.1 (heq ▸ hk)
          simp [hne]
      rw [List.filter_cons_of_pos (by simpa using hk), hrest, List.append_assoc]
      rfl

theorem get?_laid_pairs (key : κ) : ∀ {pairs : List (κ × β)} (m : OrderedMap κ β), (pairs.map Prod.fst).Nodup →
    (m.laid combine pairs).get? key = ((find? key pairs).map (combine (m.get? key))).or (m.get? key)
  | [], _, _ => rfl
  | p :: pairs, m, h => by
    rw [List.map_cons, List.nodup_cons] at h
    rw [laid_cons, get?_laid_pairs key _ h.2, get?_alter, find?]
    split
    · next hk =>
      subst hk
      rw [find?_eq_none.2 h.1]
      rfl
    · rfl

/-- The keys that are new come behind the others, in their order. -/
theorem keys_laid (m n : OrderedMap κ β) :
    (m.laid combine n.pairs).keys = m.keys ++ n.keys.filter (· ∉ m.keys) :=
  keys_laid_pairs m n.distinct

theorem get?_laid (m n : OrderedMap κ β) (key : κ) :
    (m.laid combine n.pairs).get? key = ((n.get? key).map (combine (m.get? key))).or (m.get? key) :=
  get?_laid_pairs key m n.distinct

/-- How values come on top of what is there: on nothing a value stands as it is, and two that come one after the
other leave what the two, put together first, leave. -/
structure Layering (combine : Option β → β → β) : Prop where
  first : ∀ value, combine none value = value
  assoc : ∀ old value next, combine (some (combine old value)) next = combine old (combine (some value) next)

theorem laid_assoc (h : Layering combine) (a b c : OrderedMap κ β) :
    (a.laid combine b.pairs).laid combine c.pairs = a.laid combine (b.laid combine c.pairs).pairs := by
  refine eq_of_keys_of_get? ?_ fun key => ?_
  · rw [keys_laid, keys_laid, keys_laid, keys_laid, List.filter_append, List.append_assoc, List.filter_filter]
    refine congrArg (fun new => a.keys ++ (b.keys.filter (· ∉ a.keys) ++ new)) (List.filter_congr fun k _ => ?_)
    by_cases hk : k ∈ a.keys <;> simp [hk]
  · rw [get?_laid, get?_laid, get?_laid, get?_laid]
    -- with nothing in between the first law is used, with a value in between the second
    cases b.get? key <;> cases c.get? key <;> simp [h.first, h.assoc]

theorem empty_laid (h : Layering combine) (m : OrderedMap κ β) : (∅ : OrderedMap κ β).laid combine m.pairs = m := by
  refine eq_of_keys_of_get? ?_ fun key => ?_
  · rw [keys_laid]
    exact List.filter_eq_self.2 fun k _ => decide_eq_true List.not_mem_nil
  · rw [get?_laid]
    exact (Option.or_none ..).trans (congrArg (Option.map · _) (funext h.first) |>.trans Option.map_id')

/-- A union takes whatever comes. -/
theorem layering_last : Layering (fun (_ : Option β) value => value) where
  first _ := rfl
  assoc _ _ _ := rfl

end OrderedMap

/-! ## The attributes of a property -/

namespace Attributes

theorem overlaid_assoc (a b c : Attributes) : (a.overlaid b).overlaid c = a.overlaid (b.overlaid c) :=
  OrderedMap.laid_assoc OrderedMap.layering_last a b c

theorem hasReset_overlaid (a b : Attributes) : (a.overlaid b).hasReset = (b.hasReset || a.hasReset) := by
  rw [hasReset, OrderedMap.contains, get?_overlaid, Option.isSome_or]
  rfl

end Attributes

namespace StyleSheet

/-- Attributes come on top of others by the same law, the reset mark included. -/
theorem layering_overlay : OrderedMap.Layering overlay where
  first _ := rfl
  assoc old value next := by
    cases old with
    | none => rfl
    | some old =>
      by_cases hnext : next.hasReset
      · simp [overlay, hnext]
      · by_cases hvalue : value.hasReset
        · simp [overlay, hnext, hvalue, Attributes.hasReset_overlaid]
        · simp [overlay, hnext, hvalue, Attributes.hasReset_overlaid, Attributes.overlaid_assoc]

/-! ## Sheets -/

theorem properties_merge (a b : StyleSheet) :
    (a.merge b).properties = a.properties.laid overlay b.properties.pairs :=
  rfl

theorem merge_assoc (a b c : StyleSheet) : (a.merge b).merge c = a.merge (b.merge c) :=
  congrArg (StyleSheet.mk a.name) (OrderedMap.laid_assoc layering_overlay a.properties b.properties c.properties)

theorem merge_named (a : StyleSheet) (name : Text) : a.merge (named name) = a := rfl

theorem named_merge (name : Text) (a : StyleSheet) : (named name).merge a = ⟨name, a.properties⟩ :=
  congrArg (StyleSheet.mk name) (OrderedMap.empty_laid layering_overlay a.properties)

/-- Sheets that are merged onto one can be merged among themselves first. -/
theorem foldl_merge (a : StyleSheet) : ∀ sheets : List StyleSheet, sheets.foldl merge a = a.merge (merged sheets)
  | [] => rfl
  | sheet :: sheets => by
    have hfirst : merged (sheet :: sheets) = (inline.merge sheet).merge (merged sheets) := foldl_merge _ sheets
    rw [List.foldl_cons, foldl_merge (a.merge sheet), hfirst, ← merge_assoc, ← merge_assoc]
    rfl

theorem merged_append (sheets more : List StyleSheet) :
    merged (sheets ++ more) = (merged sheets).merge (merged more) := by
  rw [merged, List.foldl_append, ← merged, foldl_merge]

theorem merged_cons (sheet : StyleSheet) (sheets : List StyleSheet) :
    merged (sheet :: sheets) = (merged [sheet]).merge (merged sheets) :=
  merged_append [sheet] sheets

theorem merged_merged (sheets : List StyleSheet) : merged [merged sheets] = merged sheets := by
  rw [merged, List.foldl_cons, List.foldl_nil, ← foldl_merge]
  rfl

/-! ## Brackets -/

/-- A row of sheets put into brackets: a sheet as it stands, or a group of such parts. -/
inductive Bracketing where
  | sheet (sheet : StyleSheet)
  | group (parts : List Bracketing)

namespace Bracketing

mutual

/-- The sheet of a part, that of a group merged of its own parts. -/
def value : Bracketing → StyleSheet
  | .sheet s => s
  | .group parts => merged (values parts)

def values : List Bracketing → List StyleSheet
  | [] => []
  | part :: parts => part.value :: values parts

end

mutual

/-- The sheets of a part without the brackets. -/
def flat : Bracketing → List StyleSheet
  | .sheet s => [s]
  | .group parts => flatten parts

def flatten : List Bracketing → List StyleSheet
  | [] => []
  | part :: parts => part.flat ++ flatten parts

end

mutual

theorem merged_value : ∀ part : Bracketing, merged [part.value] = merged part.flat
  | .sheet s => by rw [value, flat]
  | .group parts => by rw [value, flat, merged_merged, merged_values parts]

theorem merged_values : ∀ parts : List Bracketing, merged (values parts) = merged (flatten parts)
  | [] => by rw [values, flatten]
  | part :: parts => by
    rw [values, flatten, merged_cons, merged_append, merged_value part, merged_values parts]

end

end Bracketing

/-- **Sheets merge as a monoid.**  Merging is associative, the order of properties and attributes included.  An empty
sheet of whatever name changes nothing that it is merged into, and takes on the properties of what is merged into it.
So however a row of sheets is put into brackets, the groups merged of their own parts merge to what the row merges
to. -/
theorem merging_monoid :
    (∀ a b c : StyleSheet, (a.merge b).merge c = a.merge (b.merge c)) ∧
      (∀ (a : StyleSheet) (name : Text),
        a.merge (named name) = a ∧ ((named name).merge a).properties = a.properties) ∧
      ∀ parts : List Bracketing, merged (Bracketing.values parts) = merged (Bracketing.flatten parts) :=
  ⟨merge_assoc,
    fun a name => ⟨merge_named a name, by rw [named_merge]⟩,
    Bracketing.merged_values⟩

end StyleSheet
end StyleScript
