import Mathlib.Data.List.DropRight
import Mathlib.Data.List.Nodup
import StyleScript.Proofs.Coordinates.Layouts
import StyleScript.Proofs.Text.Division
/-!
# Coordinates survive

Every group says four numbers, and of these the last are left out that say what stands for a missing one anyway
(`Group.written`).  What is left fills up to the same numbers, and nothing more can be left out of it.  A token is not
unquoted, so the numbers have no blanks around them and are written as they were.  So what is written is a layout again,
of the same groups, now in one order (`rewritten`), and it is read as what says the same (`same_rewritten`).
-/
namespace StyleScript.Coordinates

open Text (Part Spelled IsNumber Same same_refl)

variable {groups : List (Group × List Text)}

/-! ## What the attributes say -/

theorem Group.keys_nodup (group : Group) : group.keys.Nodup := by cases group <;> decide

theorem Group.eq_of_mem_keys {g other : Group} : ∀ key ∈ g.keys, key ∈ other.keys → g = other := by
  cases g <;> cases other <;> decide

theorem Group.length_keys (group : Group) : group.keys.length = 4 := by cases group <;> rfl

theorem Group.keys_settings (group : Group) (values : List Text) :
    (group.settings values).map Prod.fst = group.keys := by
  refine List.map_fst_zip ?_
  rw [group.length_keys, group.length_filled]
  exact Nat.le_max_right _ _

theorem Layout.keys_nodup (h : Layout groups) :
    ((groups.flatMap fun d => d.1.settings d.2).map Prod.fst).Nodup := by
  rw [List.map_flatMap, List.nodup_flatMap]
  refine ⟨fun d _ => by rw [Group.keys_settings]; exact d.1.keys_nodup, ?_⟩
  refine (List.pairwise_map.1 h.distinct).imp fun {d e} hne => ?_
  show List.Disjoint ((d.1.settings d.2).map Prod.fst) ((e.1.settings e.2).map Prod.fst)
  rw [Group.keys_settings, Group.keys_settings]
  intro key hd he
  exact hne (Group.eq_of_mem_keys key hd he)

theorem find?_settings {group : Group} {i : Nat} {key : Text} (hkey : group.keys[i]? = some key) :
    ∀ groups : List (Group × List Text),
      OrderedMap.find? key (groups.flatMap fun d => d.1.settings d.2) =
        (OrderedMap.find? group groups).bind fun values => (group.filled values)[i]?
  | [] => rfl
  | d :: groups => by
    rw [List.flatMap_cons, OrderedMap.find?_append, find?_settings hkey groups, OrderedMap.find?]
    split
    · next heq =>
      have hlength : group.keys.length ≤ (group.filled d.2).length := by
        rw [group.length_keys, group.length_filled]
        exact Nat.le_max_right _ _
      have hfound := OrderedMap.find?_zip group.keys_nodup hlength hkey
      rw [heq, Option.bind_some, Group.settings, hfound]
      obtain ⟨v, hv⟩ : ∃ v, (group.filled d.2)[i]? = some v := by
        have hi : i < group.keys.length := (List.getElem?_eq_some_iff.1 hkey).1
        exact ⟨_, List.getElem?_eq_getElem (Nat.lt_of_lt_of_le hi hlength)⟩
      rw [hv]
      rfl
    · next hne =>
      have hnone : OrderedMap.find? key (d.1.settings d.2) = none := by
        rw [OrderedMap.find?_eq_none, Group.keys_settings]
        exact fun hmem => hne (Group.eq_of_mem_keys key hmem (List.mem_of_getElem? hkey))
      rw [hnone]
      rfl

theorem get?_said (h : Layout groups) {group : Group} {i : Nat} {key : Text} (hkey : group.keys[i]? = some key) :
    (said groups).get? key = (OrderedMap.find? group groups).bind fun values => (group.filled values)[i]? := by
  rw [said, OrderedMap.get?_ofList h.keys_nodup, find?_settings hkey]

theorem get?_said_of_not_mem (h : Layout groups) {key : Text} (hkey : ∀ group : Group, key ∉ group.keys) :
    (said groups).get? key = none := by
  rw [said, OrderedMap.get?_ofList h.keys_nodup, OrderedMap.find?_eq_none, List.map_flatMap, List.mem_flatMap]
  rintro ⟨d, -, hmem⟩
  rw [Group.keys_settings] at hmem
  exact hkey d.1 hmem

/-! ## The numbers that are written -/

namespace Group

variable {group : Group} {values : List Text}

/-- Says what stands for a number that is not given. -/
def fills (group : Group) (v : Text) : Bool := Text.sameValue v group.filler

/-- The numbers, but not those at the end that say what stands for them anyway. -/
def written (group : Group) (values : List Text) : List Text :=
  (group.filled values).take group.least ++ ((group.filled values).drop group.least).rdropWhile group.fills

theorem least_le (group : Group) : group.least ≤ 4 := by cases group <;> decide

theorem fills_filler (group : Group) : group.fills group.filler := Text.sameValue_refl _

theorem length_take_filled (group : Group) (values : List Text) :
    ((group.filled values).take group.least).length = group.least := by
  rw [List.length_take, length_filled]
  have := group.least_le
  omega

theorem rdropWhile_append_replicate (group : Group) (values : List Text) : ∀ n : Nat,
    (values ++ List.replicate n group.filler).rdropWhile group.fills = values.rdropWhile group.fills
  | 0 => by rw [List.replicate_zero, List.append_nil]
  | n + 1 => by
    rw [List.replicate_succ', ← List.append_assoc, List.rdropWhile_concat_pos _ _ _ group.fills_filler,
      rdropWhile_append_replicate group values n]

/-- **What is written of what is written is the same again.** -/
theorem written_written (group : Group) (values : List Text) :
    group.written (group.written values) = group.written values := by
  have hlength := group.length_take_filled values
  -- what is filled in again is left out again, and what is left ends with a number that says something
  rw [written.eq_def group (group.written values), filled]
  generalize 4 - (group.written values).length = n
  rw [written, List.append_assoc, List.take_left' hlength, List.drop_left' hlength, rdropWhile_append_replicate,
    List.rdropWhile_idempotent]

/-- The numbers that are not written say what stands for them. -/
theorem exists_filled (group : Group) (h : values.length ≤ 4) : ∃ dropped,
    group.filled values = group.written values ++ dropped ∧ (∀ v ∈ dropped, group.fills v) ∧
      dropped.length = 4 - (group.written values).length := by
  have hfilled : group.filled values =
      group.written values ++ ((group.filled values).drop group.least).rtakeWhile group.fills := by
    rw [written, List.append_assoc, List.rdropWhile_append_rtakeWhile, List.take_append_drop]
  refine ⟨_, hfilled, fun v hv => List.mem_rtakeWhile_imp hv, ?_⟩
  have hlength := congrArg List.length hfilled
  rw [length_filled, List.length_append] at hlength
  omega

theorem forall₂_filled_written (h : values.length ≤ 4) :
    List.Forall₂ (fun v w => Text.sameValue v w) (group.filled values) (group.filled (group.written values)) := by
  obtain ⟨dropped, hfilled, hdropped, hlength⟩ := group.exists_filled h
  -- as many fillers are put in as numbers were dropped, and each of these says what the filler says
  rw [filled.eq_def group (group.written values), hfilled, ← hlength]
  refine List.rel_append (List.forall₂_same.2 fun v _ => Text.sameValue_refl v) ?_
  clear hfilled hlength
  induction dropped with
  | nil => exact .nil
  | cons v dropped ih =>
    obtain ⟨hv, hdropped⟩ := List.forall_mem_cons.1 hdropped
    exact .cons hv (ih hdropped)

theorem forall_mem_written {P : Text → Prop} (hfiller : P group.filler) (h : ∀ v ∈ values, P v) :
    ∀ v ∈ group.written values, P v := by
  intro v hv
  have hmem : v ∈ group.filled values := by
    rw [written, List.mem_append] at hv
    exact hv.elim List.mem_of_mem_take fun hdrop => List.mem_of_mem_drop ((List.rdropWhile_prefix _ _).subset hdrop)
  rw [filled, List.mem_append, List.mem_replicate] at hmem
  rcases hmem with hv | ⟨-, rfl⟩
  · exact h v hv
  · exact hfiller

theorem isNumber_filler (group : Group) : IsNumber group.filler := by
  rw [IsNumber, ← Option.isSome_iff_exists]
  cases group <;> decide +kernel

theorem IsRow.written (h : group.IsRow values) : group.IsRow (group.written values) where
  least := by
    rw [Group.written, List.length_append, group.length_take_filled]
    exact Nat.le_add_right _ _
  most := by
    obtain ⟨dropped, hfilled, -, -⟩ := group.exists_filled h.most
    have hlength := congrArg List.length hfilled
    rw [length_filled, List.length_append, max_eq_right h.most] at hlength
    omega
  numbers := forall_mem_written group.isNumber_filler h.numbers

end Group

theorem rel_getElem? {α β : Type} {R : α → β → Prop} {l : List α} {m : List β} (h : List.Forall₂ R l m) (i : Nat) :
    Option.Rel R l[i]? m[i]? := by
  induction h generalizing i with
  | nil => exact .none
  | cons hab _ ih =>
    cases i with
    | zero => exact .some hab
    | succ i => exact ih i

/-- The groups as they are written: the numbers that say something, first the point's. -/
def rewritten (groups : List (Group × List Text)) : List (Group × List Text) :=
  [(.point, Group.point), (.v, .v), (.w, .w)].filterMap fun row =>
    ((OrderedMap.find? row.2 groups).map row.2.written).map (row.1, ·)

theorem find?_rewritten (group : Group) (groups : List (Group × List Text)) :
    OrderedMap.find? group (rewritten groups) = (OrderedMap.find? group groups).map group.written := by
  have hrows : ([(.point, .point), (.v, .v), (.w, .w)].map (Prod.fst : Group × Group → Group)).Nodup := by decide
  have hfound := OrderedMap.find?_filterMap (fun g : Group => (OrderedMap.find? g groups).map g.written) group hrows
  refine hfound.trans ?_
  cases group <;> rfl

theorem rewritten_rewritten (groups : List (Group × List Text)) : rewritten (rewritten groups) = rewritten groups := by
  rw [rewritten]
  refine List.filterMap_congr fun row _ => ?_
  have hwritten : row.2.written ∘ row.2.written = row.2.written := funext row.2.written_written
  have hfixed : ((OrderedMap.find? row.2 groups).map row.2.written).map row.2.written =
      (OrderedMap.find? row.2 groups).map row.2.written := by rw [Option.map_map, hwritten]
  rw [find?_rewritten, hfixed]

theorem nodup_rewritten (groups : List (Group × List Text)) : ((rewritten groups).map Prod.fst).Nodup :=
  List.Nodup.sublist
    (OrderedMap.keys_filterMap_sublist (fun g : Group => (OrderedMap.find? g groups).map g.written) _) (by decide)

theorem exists_of_mem_rewritten (h : (groups.map Prod.fst).Nodup) {d : Group × List Text} (hd : d ∈ rewritten groups) :
    ∃ values, (d.1, values) ∈ groups ∧ d.1.written values = d.2 := by
  have hfound := (OrderedMap.find?_eq_some (nodup_rewritten groups)).2 hd
  rw [find?_rewritten, Option.map_eq_some_iff] at hfound
  obtain ⟨values, hvalues, hwritten⟩ := hfound
  exact ⟨values, (OrderedMap.find?_eq_some h).1 hvalues, hwritten⟩

theorem Layout.rewritten (h : Layout groups) : Layout (rewritten groups) where
  point := by
    obtain ⟨more, directions, rfl⟩ := h.exists_point
    rfl
  distinct := nodup_rewritten groups
  rows d hd := by
    obtain ⟨values, hmem, hwritten⟩ := exists_of_mem_rewritten h.distinct hd
    exact hwritten ▸ (h.rows _ hmem).written

/-- **The groups as they are written say the same.** -/
theorem same_rewritten (h : Layout groups) (key : Text) :
    Same ((said groups).get? key) ((said (rewritten groups)).get? key) := by
  by_cases hkey : ∀ group : Group, key ∉ group.keys
  · rw [get?_said_of_not_mem h hkey, get?_said_of_not_mem h.rewritten hkey]
    exact .none
  · rw [not_forall] at hkey
    obtain ⟨group, hgroup⟩ := hkey
    obtain ⟨i, hi⟩ := List.mem_iff_getElem?.1 (not_not.1 hgroup)
    rw [get?_said h hi, get?_said h.rewritten hi, find?_rewritten]
    cases hfound : OrderedMap.find? group groups with
    | none => exact .none
    | some values =>
      have hrow := h.rows _ ((OrderedMap.find?_eq_some h.distinct).1 hfound)
      exact rel_getElem? (Group.forall₂_filled_written hrow.most) i

/-! ## The text that is written -/

theorem Group.exists_filled_eq (group : Group) {values : List Text} (h : values.length ≤ 4) :
    ∃ a b c d, group.filled values = [a, b, c, d] :=
  List.length_eq_four.1 (by rw [group.length_filled, max_eq_right h])

theorem get?_said_of_find? (h : Layout groups) {group : Group} {values : List Text}
    (hfound : OrderedMap.find? group groups = some values) {i : Nat} {key : Text} (hkey : group.keys[i]? = some key) :
    (said groups).get? key = (group.filled values)[i]? := by
  rw [get?_said h hkey, hfound, Option.bind_some]

theorem writePoint_said (h : Layout groups) {values : List Text}
    (hfound : OrderedMap.find? .point groups = some values) :
    ∃ x y, (said groups).get? "x" = some x ∧ (said groups).get? "y" = some y ∧
      writePoint (said groups) x y = Group.point.written values := by
  have hrow := h.rows _ ((OrderedMap.find?_eq_some h.distinct).1 hfound)
  obtain ⟨x, y, z, w, hfilled⟩ := Group.point.exists_filled_eq hrow.most
  have hget : ∀ {i : Nat} {key : Text}, Group.point.keys[i]? = some key →
      (said groups).get? key = [x, y, z, w][i]? := fun hkey => hfilled ▸ get?_said_of_find? h hfound hkey
  refine ⟨x, y, hget (i := 0) rfl, hget (i := 1) rfl, ?_⟩
  have hz : (said groups).get? "z" = some z := hget (i := 2) rfl
  have hw : (said groups).get? "w" = some w := hget (i := 3) rfl
  rw [writePoint, Attributes.unlessDefault?, Attributes.unlessDefault?, hz, hw, Group.written, hfilled]
  show _ = [x, y] ++ ([z] ++ [w]).rdropWhile (Text.sameValue · "1.0")
  rw [List.rdropWhile_concat, List.rdropWhile_singleton]
  -- the fourth number decides whether the third one has to stand in front of it
  cases hsw : Text.sameValue w "1.0" with
  | false => rw [Option.filter_some, hsw]; rfl
  | true =>
    rw [Option.filter_some, hsw]
    show [x, y] ++ (Option.filter _ (some z)).toList = [x, y] ++ if Text.sameValue z "1.0" then [] else [z]
    rw [Option.filter_some]
    cases hsz : Text.sameValue z "1.0" <;> rfl

/-- The tokens of one group, if it is there. -/
def groupTokens (groups : List (Group × List Text)) (group : Group) : List Text :=
  ((OrderedMap.find? group groups).map group.written).elim [] group.tokens

theorem writeDirection_said (h : Layout groups) {group : Group} (hgroup : group ≠ .point) :
    writeDirection (said groups) group = groupTokens groups group := by
  obtain ⟨k₀, k₁, k₂, k₃, hkeys⟩ := List.length_eq_four.1 group.length_keys
  have hleast : group.least = 3 := by cases group <;> first | rfl | exact absurd rfl hgroup
  have hthree : ([k₀, k₁, k₂, k₃].take 3).map (said groups).get? =
      [(said groups).get? k₀, (said groups).get? k₁, (said groups).get? k₂] := rfl
  have hlast : ([k₀, k₁, k₂, k₃][3]?.bind fun key => (said groups).unlessDefault? key "0.0") =
      (said groups).unlessDefault? k₃ "0.0" := rfl
  rw [writeDirection, groupTokens, hkeys, hthree, hlast]
  cases hfound : OrderedMap.find? group groups with
  | none =>
    have hfirst : group.keys[0]? = some k₀ := by rw [hkeys]; rfl
    have hnone : (said groups).get? k₀ = none := by
      rw [get?_said h hfirst, hfound]
      rfl
    rw [hnone]
    rfl
  | some values =>
    have hrow := h.rows _ ((OrderedMap.find?_eq_some h.distinct).1 hfound)
    obtain ⟨a, b, c, d, hfilled⟩ := group.exists_filled_eq hrow.most
    have hget : ∀ {i : Nat} {key : Text}, [k₀, k₁, k₂, k₃][i]? = some key →
        (said groups).get? key = [a, b, c, d][i]? := fun hkey => hfilled ▸ get?_said_of_find? h hfound (hkeys ▸ hkey)
    have hfourth : (said groups).get? k₃ = some d := hget (i := 3) rfl
    rw [hget (i := 0) rfl, hget (i := 1) rfl, hget (i := 2) rfl, Attributes.unlessDefault?, hfourth, Option.map_some,
      Option.elim_some, Group.written, hfilled, hleast]
    show _ = group.tokens ([a, b, c] ++ [d].rdropWhile group.fills)
    rw [List.rdropWhile_singleton, Option.filter_some]
    have hfills : group.fills d = Text.sameValue d "0.0" := by cases group <;> first | rfl | exact absurd rfl hgroup
    rw [hfills]
    cases Text.sameValue d "0.0" <;> rfl

theorem tokens_rewritten (groups : List (Group × List Text)) :
    ((rewritten groups).flatMap fun d => d.1.tokens d.2) =
      groupTokens groups .point ++ groupTokens groups .v ++ groupTokens groups .w := by
  simp only [rewritten, List.filterMap_cons, List.filterMap_nil, groupTokens]
  generalize OrderedMap.find? Group.point groups = point
  generalize OrderedMap.find? Group.v groups = v
  generalize OrderedMap.find? Group.w groups = w
  cases point <;> cases v <;> cases w <;> simp

theorem encode_said (h : Layout groups) :
    encode (said groups) = some (Text.join " " ((rewritten groups).flatMap fun d => d.1.tokens d.2)) := by
  obtain ⟨point, directions, rfl⟩ := h.exists_point
  obtain ⟨x, y, hx, hy, hpoint⟩ := writePoint_said h rfl
  rw [encode, hx, hy, tokens_rewritten]
  show some (Text.join " " (writePoint _ x y ++ writeDirection _ .v ++ writeDirection _ .w)) = _
  have htokens : groupTokens ((.point, point) :: directions) .point = Group.point.written point :=
    Group.tokens_point _
  rw [hpoint, writeDirection_said h (by decide), writeDirection_said h (by decide), htokens]

/-! ## Coordinates survive -/

namespace Group

variable {group : Group} {values : List Text}

theorem plain_lead (group : Group) : group.lead.all Text.isPlain := by cases group <;> decide

theorem mem_tokens (group : Group) {v : Text} (h : v ∈ values) :
    ∃ lead, Text.Balanced lead ∧ lead ++ v ∈ group.tokens values := by
  cases values with
  | nil => cases h
  | cons first rest =>
    rcases List.mem_cons.1 h with rfl | hrest
    · exact ⟨group.lead, Text.foldl_next_of_plain 0 group.plain_lead, List.mem_cons_self⟩
    · exact ⟨[], rfl, List.mem_cons_of_mem _ hrest⟩

theorem part_tokens (h : ∀ v ∈ values, Spelled v) : ∀ t ∈ group.tokens values, Part Text.isBlank t := by
  cases values with
  | nil => exact List.forall_mem_nil _
  | cons first rest =>
    obtain ⟨hfirst, hrest⟩ := List.forall_mem_cons.1 h
    refine List.forall_mem_cons.2 ⟨?_, fun v hv => (hrest v hv).part⟩
    have hplain : first.all Text.isPlain :=
      List.all_eq_true.2 fun c hc => Text.isPlain_of_isSpelling (hfirst.all c hc)
    refine Text.part_of_plain (fun hnil => hfirst.ne_nil (List.append_eq_nil_iff.1 hnil).2) ?_
    rw [List.all_append, group.plain_lead, hplain]
    rfl

theorem spelled_filler (group : Group) : Spelled group.filler := by
  have hall : group.filler ≠ [] ∧ group.filler.all Text.isSpelling := by cases group <;> decide
  exact ⟨hall.1, List.all_eq_true.1 hall.2⟩

end Group

/-- A token is kept as it is, and so the numbers in it have no blanks around them. -/
theorem spelled_of_tokens {value : Text} (h : Text.tokens value = .ok (groups.flatMap fun d => d.1.tokens d.2))
    (hlayout : Layout groups) : ∀ d ∈ groups, ∀ v ∈ d.2, Spelled v := by
  intro d hd v hv
  obtain ⟨lead, hlead, hmem⟩ := d.1.mem_tokens hv
  have htrimmed := Text.trimmed_of_append_mem_tokens h (List.mem_flatMap.2 ⟨d, hd, hmem⟩) hlead
  exact ((hlayout.rows d hd).numbers v hv).spelled_of_trimmed htrimmed

theorem tokens_join_rewritten (h : Layout groups) (hspelled : ∀ d ∈ groups, ∀ v ∈ d.2, Spelled v) :
    Text.tokens (Text.join " " ((rewritten groups).flatMap fun d => d.1.tokens d.2)) =
      .ok ((rewritten groups).flatMap fun d => d.1.tokens d.2) := by
  refine Text.divide_join Text.divides_blank fun t ht => ?_
  obtain ⟨d, hd, hmem⟩ := List.mem_flatMap.1 ht
  obtain ⟨values, hvalues, hwritten⟩ := exists_of_mem_rewritten h.distinct hd
  refine Group.part_tokens (fun v hv => ?_) t hmem
  rw [← hwritten] at hv
  exact Group.forall_mem_written d.1.spelled_filler (hspelled _ hvalues) v hv

theorem equivalent_of_same {a b : Attributes} (h : ∀ key, Same (a.get? key) (b.get? key)) : format.equivalent a b := by
  refine PropertyFormat.equivalent_iff.2 fun key => ?_
  rw [show format.complete = defaults.overlaid from rfl, Attributes.get?_overlaid, Attributes.get?_overlaid]
  have hkey := h key
  generalize a.get? key = v at hkey
  generalize b.get? key = w at hkey
  cases hkey with
  | none => exact same_refl _
  | some hvw => exact .some hvw

/-- **The layouts are what is read, and every one survives writing and reading.** -/
theorem layouts_survive (value : Text) :
    ((∃ r, format.decode value = .ok r) ↔
      ∃ groups, Text.tokens value = .ok (groups.flatMap fun d => d.1.tokens d.2) ∧ Layout groups) ∧
    ∀ r, format.decode value = .ok r → ∃ a text b, r = some a ∧ format.encode a = some text ∧
      format.decode text = .ok (some b) ∧ format.equivalent a b ∧ format.encode b = some text := by
  constructor
  · constructor
    · rintro ⟨r, hr⟩
      obtain ⟨groups, htokens, hlayout, -⟩ := decode_eq_ok.1 hr
      exact ⟨groups, htokens, hlayout⟩
    · rintro ⟨groups, htokens, hlayout⟩
      exact ⟨_, decode_eq_ok.2 ⟨groups, htokens, hlayout, rfl⟩⟩
  · intro r hr
    obtain ⟨groups, htokens, hlayout, rfl⟩ := decode_eq_ok.1 hr
    have hagain := tokens_join_rewritten hlayout (spelled_of_tokens htokens hlayout)
    have hwritten := encode_said hlayout.rewritten
    rw [rewritten_rewritten] at hwritten
    exact ⟨said groups, _, said (rewritten groups), rfl, encode_said hlayout,
      decode_eq_ok.2 ⟨_, hagain, hlayout.rewritten, rfl⟩, equivalent_of_same (same_rewritten hlayout), hwritten⟩

/-- Directions out of order, a third number that has to be written before the fourth, and numbers that are left out. -/
theorem layouts_survive_of_reordered : ∃ r, format.decode "2.3 4.1 1 2 w=1 2 3 -0 v=1e1 nan +.5" = .ok r ∧
    ∃ a text b, r = some a ∧ format.encode a = some text ∧ format.decode text = .ok (some b) ∧
      format.equivalent a b ∧ format.encode b = some text := by
  have hdecode : format.decode "2.3 4.1 1 2 w=1 2 3 -0 v=1e1 nan +.5" = .ok (some (.table
      [("x", "2.3"), ("y", "4.1"), ("z", "1"), ("w", "2"), ("wx", "1"), ("wy", "2"), ("wz", "3"), ("ww", "-0"),
        ("vx", "1e1"), ("vy", "nan"), ("vz", "+.5"), ("vw", "0.0")])) := by decide +kernel
  exact ⟨_, hdecode, (layouts_survive _).2 _ hdecode⟩

end StyleScript.Coordinates
