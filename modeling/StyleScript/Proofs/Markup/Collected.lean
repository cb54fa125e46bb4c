import StyleScript.Markup.Collector
import StyleScript.Proofs.Color.Rereading
import StyleScript.Proofs.Property.Families
/-!
# What is collected of messages

The messages of a property go to the host as elements, and a style is collected of such elements again (`collected`).
The members of a family may come in any order, since they are sorted before they are flattened
(`sorted_of_perm`).  Numbers in decimal digits are read back as they were, and so are the bytes of a color.
-/
namespace StyleScript

namespace Text

variable {sep : Char} {part : Text}

theorem splitAt_append (h : sep ∉ part) (rest : Text) : splitAt sep (part ++ sep :: rest) = part :: splitAt sep rest := by
  induction part with
  | nil => simp [splitAt]
  | cons c part ih =>
    rw [List.mem_cons, not_or] at h
    rw [List.cons_append, splitAt, if_neg (Ne.symm h.1), ih h.2]

theorem splitAt_of_not_mem (h : sep ∉ part) : splitAt sep part = [part] := by
  induction part with
  | nil => rfl
  | cons c part ih =>
    rw [List.mem_cons, not_or] at h
    rw [splitAt, if_neg (Ne.symm h.1), ih h.2]

end Text

namespace Markup

open Attributes (greatestNumber)

namespace Collector

/-- One more message to the host: an element is collected, and what is no element leaves no trace in a style. -/
def tell (c : Collector) : Route → Collector
  | .element name attrs => c.add name attrs
  | .script _ _ | .random _ => c

/-- A member whose number is written in digits has this number. -/
theorem natural32?_trim_ofNat {n : Nat} (h : n ≤ greatestNumber) :
    Text.natural32? (Text.trim (Text.ofNat n)) = some n := by
  rw [Text.trim_ofNat]
  exact Text.natural?_ofNat h

/-- The bytes of a color are read back as they were. -/
theorem components?_bytes (r g b : Fin 256) :
    components? ("rgb(" ++ Text.join "," [Text.ofNat r, Text.ofNat g, Text.ofNat b] ++ ")") =
      some [Text.ofNat r, Text.ofNat g, Text.ofNat b] := by
  generalize hinner : Text.join "," [Text.ofNat r, Text.ofNat g, Text.ofNat b] = inner
  have htrim : Text.trim ("rgb(" ++ inner ++ ")") = "rgb(" ++ inner ++ ")" := by
    have hlast : ("rgb(" ++ inner ++ ")" : Text).getLast? = some ')' := List.getLast?_concat
    apply Text.trim_eq_self
    refine ⟨fun c hc => ?_, fun c hc => ?_⟩
    · cases hc
      decide
    · rw [hlast] at hc
      cases hc
      decide
  have hlead : (Text.after? "rgba(" ("rgb(" ++ inner ++ ")")).or (Text.after? "rgb(" ("rgb(" ++ inner ++ ")")) =
      some (inner ++ [')']) := rfl
  have hcomma : ∀ n, ',' ∉ Text.ofNat n := fun n h => absurd (Text.isDigit_of_mem_ofNat h) (by decide)
  have hparts : Text.splitAt ',' inner = [Text.ofNat r, Text.ofNat g, Text.ofNat b] := by
    have hjoin : inner = Text.ofNat r ++ ',' :: (Text.ofNat g ++ ',' :: Text.ofNat b) := by
      simp [← hinner, Text.join]
    rw [hjoin, Text.splitAt_append (hcomma r), Text.splitAt_append (hcomma g), Text.splitAt_of_not_mem (hcomma b)]
  have hbyte : ∀ byte : Fin 256, (Text.natural8? (Text.ofNat byte)).isSome := fun byte => by
    unfold Text.natural8?
    rw [Text.natural?_ofNat (Nat.le_of_lt_succ byte.isLt)]
    rfl
  unfold components?
  simp only [htrim, hlead, Option.bind_eq_bind, Option.bind_some, Color.beforeLast?_concat, hparts, List.map_cons,
    List.map_nil, Text.trim_ofNat]
  apply if_pos
  refine ⟨.inl rfl, ?_⟩
  simp [hbyte]

/-- **Members with numbers of their own stand in ascending order, in whatever order they came.** -/
theorem sorted_of_perm {members : OrderedMap Nat Attributes} {ascending : List (Nat × Attributes)}
    (hascending : (ascending.map Prod.fst).Pairwise (· < ·)) (hperm : members.pairs.Perm ascending) :
    sorted members = ascending :=
  Attributes.eq_of_perm_of_ascending (Attributes.pairwise_mergeSort_of_nodup members.distinct) hascending
    ((List.mergeSort_perm _ _).trans hperm)

theorem sorted_empty : sorted ∅ = [] := List.mergeSort_nil

/-- Of corners alone the style map has at most one entry. -/
theorem finish_corners (corners : OrderedMap Nat Attributes) : finish { corners } =
    withFamily ∅ "startPoint" (Attributes.assembled (upToGap 0 (sorted corners))) := by
  unfold finish
  simp only [sorted_empty]
  rfl

/-- Of tags alone the style map has at most one entry. -/
theorem finish_bars (bars : OrderedMap Nat Attributes) : finish { bars } =
    withFamily ∅ "tag" (Attributes.assembled ((sorted bars).map fun (bar, tags) => (bar, barAttributes tags))) := by
  unfold finish
  simp only [sorted_empty]
  rfl

/-! ## Families in the style map -/

section

variable {map : StyleMap} {name : Text}

theorem keys_withFamily (hname : name ∉ map.keys) (attrs : Attributes) :
    (withFamily map name attrs).keys = map.keys ++ if attrs = ∅ then [] else [name] := by
  unfold withFamily
  by_cases h : attrs = ∅
  · rw [if_pos (OrderedMap.isEmpty_iff.2 h), if_pos h, List.append_nil]
  · rw [if_neg (mt OrderedMap.isEmpty_iff.1 h), if_neg h, OrderedMap.keys_set, if_neg hname]

theorem get?_withFamily_of_ne {other : Text} (h : name ≠ other) (attrs : Attributes) :
    (withFamily map name attrs).get? other = map.get? other := by
  unfold withFamily
  split
  · rfl
  · rw [OrderedMap.get?_set, if_neg h]

theorem get?_withFamily_self (hname : name ∉ map.keys) {attrs found : Attributes} :
    (withFamily map name attrs).get? name = some found ↔ found = attrs ∧ attrs ≠ ∅ := by
  unfold withFamily
  split
  · next h =>
    rw [OrderedMap.get?_eq_none.2 hname]
    refine iff_of_false (fun hnone => ?_) fun hfound => hfound.2 (OrderedMap.isEmpty_iff.1 h)
    cases hnone
  · next h =>
    rw [OrderedMap.get?_set, if_pos rfl, Option.some_inj, eq_comm, and_iff_left (mt OrderedMap.isEmpty_iff.2 h)]

end

end Collector

/-- The style map of messages, in the order in which they come. -/
def collected (messages : List Route) : StyleMap := (messages.foldl Collector.tell {}).finish

end Markup

end StyleScript
