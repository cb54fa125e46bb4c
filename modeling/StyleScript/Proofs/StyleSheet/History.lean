import Mathlib.Data.List.Induction
import StyleScript.Proofs.StyleSheet.Merging
import StyleScript.Proofs.Property.Aspects
import StyleScript.Session
/-!
# What a row of merged sheets says of a property

The history of a property begins at the last sheet that resets it, or, if none does, at the first that holds it.
Nothing in front of that place counts (`get?_merged_of_beginsAt`), and behind it no sheet resets, so that the
attributes only grow and under every key the last sheet that says something decides (`said?_foldl_merge`).  The order
of the properties does not depend on any of this: it is that of their first occurrences.
-/
namespace StyleScript

open Attributes (hasReset)

/-! ## Lists -/

theorem eraseDups_of_nodup {α : Type} [BEq α] [LawfulBEq α] : ∀ {xs : List α}, xs.Nodup → xs.eraseDups = xs
  | [], _ => List.eraseDups_nil
  | x :: xs, h => by
    rw [List.nodup_cons] at h
    have hrest : xs.filter (fun y => !y == x) = xs :=
      List.filter_eq_self.2 fun y hy => by simpa using fun heq : y = x => h.1 (heq ▸ hy)
    rw [List.eraseDups_cons, hrest, eraseDups_of_nodup h.2]

theorem removeAll_eraseDups {α : Type} [BEq α] [LawfulBEq α] (xs ys : List α) :
    ys.removeAll xs.eraseDups = ys.removeAll xs :=
  List.filter_congr fun y _ => by rw [Bool.eq_iff_iff]; simp

theorem exists_last {α : Type} {p : α → Bool} : ∀ {xs : List α}, xs.any p →
    ∃ k, xs[k]?.any p ∧ ¬(xs.drop (k + 1)).any p
  | x :: xs, h => by
    by_cases hrest : xs.any p
    · obtain ⟨k, hk, hlater⟩ := exists_last hrest
      exact ⟨k + 1, hk, hlater⟩
    · rw [List.any_cons, Bool.or_eq_true] at h
      exact ⟨0, h.resolve_right hrest, hrest⟩

theorem exists_first {α : Type} {p : α → Bool} : ∀ {xs : List α}, xs.any p →
    ∃ k, xs[k]?.any p ∧ ¬(xs.take k).any p
  | x :: xs, h => by
    by_cases hx : p x
    · exact ⟨0, hx, Bool.false_ne_true⟩
    · rw [List.any_cons, Bool.or_eq_true] at h
      obtain ⟨k, hk, hbefore⟩ := exists_first (h.resolve_left hx)
      refine ⟨k + 1, hk, ?_⟩
      rw [List.take_succ_cons, List.any_cons, Bool.or_eq_true, not_or]
      exact ⟨hx, hbefore⟩

theorem OrderedMap.keys_laid_eq_removeAll {κ β : Type} [DecidableEq κ] [BEq κ] [LawfulBEq κ]
    {combine : Option β → β → β} (m n : OrderedMap κ β) :
    (m.laid combine n.pairs).keys = m.keys ++ n.keys.removeAll m.keys := by
  rw [keys_laid]
  exact congrArg (m.keys ++ ·) (List.filter_congr fun k _ => by rw [Bool.eq_iff_iff]; simp)

namespace StyleSheet

/-! ## One sheet -/

def holds (property : Text) (sheet : StyleSheet) : Bool := (sheet.get? property).isSome

def resets (property : Text) (sheet : StyleSheet) : Bool := (sheet.get? property).any hasReset

/-- What a sheet says of a property under a key. -/
def said? (property key : Text) (sheet : StyleSheet) : Option Text := (sheet.get? property).bind (·.get? key)

variable {property : Text} {sheet : StyleSheet}

theorem holds_iff : sheet.holds property ↔ property ∈ sheet.properties.keys := OrderedMap.contains_iff

theorem holds_of_resets (h : sheet.resets property) : sheet.holds property := by
  rw [resets, Option.any_eq_true] at h
  obtain ⟨attrs, hattrs, -⟩ := h
  rw [holds, hattrs]
  rfl

/-! ## Two sheets -/

theorem get?_merge (property : Text) (a b : StyleSheet) :
    (a.merge b).get? property = ((b.get? property).map (overlay (a.get? property))).or (a.get? property) :=
  OrderedMap.get?_laid a.properties b.properties property

theorem resets_merge (property : Text) (a b : StyleSheet) :
    (a.merge b).resets property = (b.resets property || a.resets property) := by
  rw [resets, resets, resets, get?_merge]
  cases a.get? property with
  | none => cases b.get? property <;> simp [overlay]
  | some old =>
    cases b.get? property with
    | none => rfl
    | some incoming =>
      by_cases hreset : incoming.hasReset <;> simp [overlay, hreset, Attributes.hasReset_overlaid]

/-- A sheet hides what was in front of it if it resets the property, or if nothing was there. -/
theorem get?_merge_of_hides (a : StyleSheet) {b : StyleSheet} (hb : b.holds property)
    (h : b.resets property ∨ ¬a.holds property) : (a.merge b).get? property = b.get? property := by
  rw [holds, Option.isSome_iff_exists] at hb
  obtain ⟨incoming, hb⟩ := hb
  rw [get?_merge, hb, Option.map_some, Option.some_or, Option.some.injEq]
  rcases h with hreset | hnew
  · rw [resets, hb, Option.any_some] at hreset
    cases a.get? property with
    | none => rfl
    | some old => exact if_pos hreset
  · rw [holds, Option.not_isSome_iff_eq_none] at hnew
    rw [hnew]
    rfl

theorem said?_merge (key : Text) (a : StyleSheet) {b : StyleSheet} (h : ¬b.resets property) :
    (a.merge b).said? property key = (b.said? property key).or (a.said? property key) := by
  rw [said?, said?, said?, get?_merge]
  cases hb : b.get? property with
  | none => rfl
  | some incoming =>
    rw [resets, hb, Option.any_some] at h
    cases a.get? property with
    | none => exact (Option.or_none ..).symm
    | some old =>
      simp only [Option.map_some, Option.some_or, Option.bind_some, overlay, h]
      exact Attributes.get?_overlaid old incoming key

/-! ## A row of sheets -/

theorem resets_merged (property : Text) (sheets : List StyleSheet) :
    (merged sheets).resets property = sheets.any (resets property) := by
  induction sheets using List.reverseRecOn with
  | nil => rfl
  | append_singleton sheets sheet ih =>
    rw [merged, List.foldl_concat, ← merged, resets_merge, ih, List.any_append, Bool.or_comm]
    simp

/-- Where none of the sheets resets the property, the last one that says something under a key decides, and if there
is none, what was there before. -/
theorem said?_foldl_merge (key : Text) : ∀ {sheets : List StyleSheet} (base : StyleSheet),
    ¬sheets.any (resets property) → (sheets.foldl merge base).said? property key =
      (sheets.reverse.findSome? (said? property key)).or (base.said? property key)
  | [], _, _ => rfl
  | sheet :: sheets, base, h => by
    rw [List.any_cons, Bool.or_eq_true, not_or] at h
    rw [List.foldl_cons, said?_foldl_merge key _ h.2, said?_merge key base h.1, List.reverse_cons,
      List.findSome?_append, Option.or_assoc, List.findSome?_singleton]

/-- The properties stand in the order in which they first occur. -/
theorem keys_merged (sheets : List StyleSheet) :
    (merged sheets).properties.keys = (sheets.flatMap (·.properties.keys)).eraseDups := by
  induction sheets using List.reverseRecOn with
  | nil => rfl
  | append_singleton sheets sheet ih =>
    have hnodup := sheet.properties.keys_nodup.filter (!(sheets.flatMap (·.properties.keys)).elem ·)
    rw [merged, List.foldl_concat, ← merged, properties_merge, OrderedMap.keys_laid_eq_removeAll, ih,
      removeAll_eraseDups, List.flatMap_append, List.flatMap_singleton, List.eraseDups_append, List.removeAll,
      eraseDups_of_nodup hnodup]

theorem holds_merged (property : Text) (sheets : List StyleSheet) :
    (merged sheets).holds property ↔ sheets.any (holds property) := by
  rw [holds_iff, keys_merged, List.mem_eraseDups, List.mem_flatMap, List.any_eq_true]
  simp only [holds_iff]

/-! ## Where a history begins -/

/-- The history of a property begins at a place: at the last sheet that resets it, or, if none does, at the first
that holds it. -/
def BeginsAt (property : Text) (sheets : List StyleSheet) (k : Nat) : Prop :=
  if sheets.any (resets property) then
    sheets[k]?.any (resets property) ∧ ¬(sheets.drop (k + 1)).any (resets property)
  else sheets[k]?.any (holds property) ∧ ¬(sheets.take k).any (holds property)

instance (property : Text) (sheets : List StyleSheet) (k : Nat) : Decidable (BeginsAt property sheets k) :=
  inferInstanceAs (Decidable (ite ..))

theorem exists_beginsAt {sheets : List StyleSheet} (h : sheets.any (holds property)) :
    ∃ k, BeginsAt property sheets k := by
  by_cases hreset : sheets.any (resets property)
  · simpa only [BeginsAt, if_pos hreset] using exists_last hreset
  · simpa only [BeginsAt, if_neg hreset] using exists_first h

/-- What the place where a history begins is for: the sheet there holds the property, it resets it or none before
holds it, and none behind it resets it. -/
theorem drop_of_beginsAt {sheets : List StyleSheet} {k : Nat} (h : BeginsAt property sheets k) :
    ∃ sheet, sheets.drop k = sheet :: sheets.drop (k + 1) ∧ sheet.holds property ∧
      (sheet.resets property ∨ ¬(sheets.take k).any (holds property)) ∧
      ¬(sheets.drop (k + 1)).any (resets property) := by
  have hdrop : ∀ {p : StyleSheet → Bool}, sheets[k]?.any p →
      ∃ sheet, sheets.drop k = sheet :: sheets.drop (k + 1) ∧ p sheet := by
    intro p hp
    rw [Option.any_eq_true] at hp
    obtain ⟨sheet, hsheet, hp⟩ := hp
    obtain ⟨hk, rfl⟩ := List.getElem?_eq_some_iff.1 hsheet
    exact ⟨_, List.drop_eq_getElem_cons hk, hp⟩
  by_cases hreset : sheets.any (resets property)
  · rw [BeginsAt, if_pos hreset] at h
    obtain ⟨sheet, hsheet, hresets⟩ := hdrop h.1
    exact ⟨sheet, hsheet, holds_of_resets hresets, .inl hresets, h.2⟩
  · rw [BeginsAt, if_neg hreset] at h
    obtain ⟨sheet, hsheet, hholds⟩ := hdrop h.1
    refine ⟨sheet, hsheet, hholds, .inr h.2, fun hlater => hreset ?_⟩
    rw [List.any_eq_true] at hlater ⊢
    exact hlater.imp fun s hs => ⟨List.mem_of_mem_drop hs.1, hs.2⟩

/-- The sheets in front of the place have no influence. -/
theorem get?_merged_of_beginsAt {sheets : List StyleSheet} {k : Nat} (h : BeginsAt property sheets k) :
    (merged sheets).get? property = (merged (sheets.drop k)).get? property := by
  obtain ⟨sheet, hdrop, hholds, hhides, -⟩ := drop_of_beginsAt h
  rw [← List.take_append_drop k sheets, merged_append, List.take_append_drop]
  refine get?_merge_of_hides _ ?_ ?_
  · rw [holds_merged, hdrop, List.any_cons, hholds, Bool.true_or]
  · refine hhides.imp (fun hresets => ?_) (mt (holds_merged ..).1)
    rw [resets_merged, hdrop, List.any_cons, hresets, Bool.true_or]

theorem said?_merged_drop {sheets : List StyleSheet} {k : Nat} (h : BeginsAt property sheets k) (key : Text) :
    (merged (sheets.drop k)).said? property key = (sheets.drop k).reverse.findSome? (said? property key) := by
  obtain ⟨sheet, hdrop, -, -, hlater⟩ := drop_of_beginsAt h
  have hfirst : (inline.merge sheet).said? property key = sheet.said? property key := by
    rw [inline, named_merge]
    rfl
  rw [hdrop, merged, List.foldl_cons, said?_foldl_merge key _ hlater, hfirst, List.reverse_cons,
    List.findSome?_append, List.findSome?_singleton]

/-- **A reset cuts history, and otherwise the last writer wins.**  The properties of merged sheets stand in the order
in which they first occur.  A property that some of them hold is there, its history begins somewhere, and it says
what the sheets from there on say on their own: under each key, the mark included, what the last of them that has the
key says, and nothing if none has it. -/
theorem last_writer_since_reset (sheets : List StyleSheet) :
    (merged sheets).properties.keys = (sheets.flatMap (·.properties.keys)).eraseDups ∧
      ∀ property, sheets.any (holds property) →
        (∃ k, BeginsAt property sheets k) ∧
        ∀ k, BeginsAt property sheets k →
          (merged sheets).get? property = (merged (sheets.drop k)).get? property ∧
          ∃ attrs, (merged sheets).get? property = some attrs ∧
            ∀ key, attrs.get? key = (sheets.drop k).reverse.findSome? (said? property key) := by
  refine ⟨keys_merged sheets, fun property hholds => ⟨exists_beginsAt hholds, fun k hk => ?_⟩⟩
  have hget := get?_merged_of_beginsAt hk
  obtain ⟨attrs, hattrs⟩ := Option.isSome_iff_exists.1 ((holds_merged property sheets).2 hholds)
  refine ⟨hget, attrs, hattrs, fun key => ?_⟩
  rw [← said?_merged_drop hk key, said?, ← hget, hattrs, Option.bind_some]

/-- A fill set twice with a reset before the second time. -/
def recoloured : List StyleSheet :=
  [⟨"base".toList, OrderedMap.ofList [("color".toList, .table [("fill", "1"), ("line", "2")])]⟩,
    ⟨"caption".toList, OrderedMap.ofList [("caption".toList, .table [("text", "area")])]⟩,
    ⟨"plain".toList, OrderedMap.ofList [("color".toList, .table [("~", ""), ("fill", "3")])]⟩,
    ⟨[], OrderedMap.ofList [("color".toList, .table [("text", "4"), ("fill", "5")])]⟩]

theorem last_writer_of_recoloured : recoloured.any (holds "color".toList) ∧ BeginsAt "color".toList recoloured 2 ∧
    ∃ attrs, (merged recoloured).get? "color".toList = some attrs ∧ attrs.get? "~".toList = some [] ∧
      attrs.get? "fill".toList = some "5".toList ∧ attrs.get? "line".toList = none := by
  have hholds : recoloured.any (holds "color".toList) := by decide +kernel
  have hbegins : BeginsAt "color".toList recoloured 2 := by decide +kernel
  obtain ⟨-, attrs, hattrs, hkeys⟩ := ((last_writer_since_reset recoloured).2 _ hholds).2 2 hbegins
  refine ⟨hholds, hbegins, attrs, hattrs, ?_⟩
  rw [hkeys, hkeys, hkeys]
  decide +kernel

end StyleSheet

/-! ## The style of a statement -/

namespace Session

theorem foldlM_merge_resolve (session : Session) (scope : Scope) :
    ∀ (styles : List Script.StyleRef) (base : StyleSheet),
    styles.foldlM (fun (merged : StyleSheet) ref => do return merged.merge (← session.resolve scope ref)) base =
      (styles.mapM (session.resolve scope)).map (·.foldl StyleSheet.merge base)
  | [], _ => rfl
  | ref :: styles, base => by
    rw [List.foldlM_cons, List.mapM_cons]
    cases session.resolve scope ref with
    | error fault => rfl
    | ok sheet =>
      refine (foldlM_merge_resolve session scope styles (base.merge sheet)).trans ?_
      simp only [ok_bind]
      cases styles.mapM (session.resolve scope) <;> rfl

/-- The style of a statement is what the sheets it names merge to, from left to right. -/
theorem styleOf_eq (session : Session) (scope : Scope) (styles : List Script.StyleRef) :
    session.styleOf scope styles =
      if styles.isEmpty then .ok none
      else (styles.mapM (session.resolve scope)).map fun sheets => some (StyleSheet.merged sheets) := by
  rw [styleOf, foldlM_merge_resolve]
  cases styles.mapM (session.resolve scope) <;> rfl

end Session
end StyleScript
