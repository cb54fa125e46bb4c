import StyleScript.Proofs.Property.Families
import StyleScript.Proofs.StartPoint.Corners
/-!
# Start points survive

What is read of a value is a table of corners, numbered from 0 on (`corners_of_decode`), and it is grouped into these
corners again (`grouped_table`).  So what is written is one text per corner, in order; none is empty, so no number
changes when the texts are read (`decode_join`).  What a corner may lose is put back where the table is completed
(`get?_complete`).
-/
namespace StyleScript.StartPoint

open Attributes (flatKey greatestNumber assembled Numbered)
open Text (Same same_refl)

/-! ## Tables of corners -/

section

variable {corners : List Corner} {n : Nat}

/-- The corners with their numbers, from 0 on. -/
def numbered (corners : List Corner) : List (Nat × Attributes) :=
  corners.zipIdx.map fun (c, n) => (n, c.attributes)

def table (corners : List Corner) : Attributes := assembled (numbered corners)

theorem mem_numbered {m : Attributes} :
    (n, m) ∈ numbered corners ↔ ∃ c, corners[n]? = some c ∧ c.attributes = m := by
  rw [numbered, List.mem_map]
  constructor
  · rintro ⟨⟨c, k⟩, hmem, heq⟩
    cases heq
    exact ⟨c, List.mem_zipIdx_iff_getElem?.1 hmem, rfl⟩
  · rintro ⟨c, hc, rfl⟩
    exact ⟨(c, n), List.mem_zipIdx_iff_getElem?.2 hc, rfl⟩

theorem numbers_numbered (corners : List Corner) : (numbered corners).map Prod.fst = List.range' 0 corners.length := by
  rw [numbered, List.map_map, ← List.zipIdx_map_snd]
  rfl

theorem le_of_mem_numbered (h : corners.length ≤ mostCorners) {member : Nat × Attributes}
    (hmem : member ∈ numbered corners) : member.1 ≤ greatestNumber := by
  obtain ⟨c, hc, -⟩ := mem_numbered.1 hmem
  have hlt : member.1 < corners.length := (List.getElem?_eq_some_iff.1 hc).1
  have hmost : mostCorners ≤ greatestNumber := by decide
  omega

theorem ne_empty_of_mem_numbered {member : Nat × Attributes} (hmem : member ∈ numbered corners) : member.2 ≠ ∅ := by
  obtain ⟨c, -, hc⟩ := mem_numbered.1 hmem
  exact hc ▸ c.attributes_ne_empty

/-- **The table of corners is grouped into them again.** -/
theorem grouped_table (h : corners.length ≤ mostCorners) : (table corners).grouped = numbered corners := by
  refine Attributes.grouped_assembled ?_ fun member hmem => ⟨le_of_mem_numbered h hmem, ne_empty_of_mem_numbered hmem⟩
  rw [numbers_numbered]
  exact List.pairwise_lt_range'

theorem table_ne_empty (h : corners.length ≤ mostCorners) (hne : corners ≠ []) : table corners ≠ ∅ := by
  intro hempty
  obtain ⟨c, others, rfl⟩ := List.exists_cons_of_ne_nil hne
  have hmem : (0, c.attributes) ∈ (table (c :: others)).grouped := by
    rw [grouped_table h]
    exact mem_numbered.2 ⟨c, rfl, rfl⟩
  rw [hempty] at hmem
  cases Attributes.mem_grouped.1 hmem

theorem filterMap_writeCorner (corners : List Corner) :
    ((numbered corners).filterMap fun (_, c) => writeCorner c) = corners.map Corner.text := by
  have hsome : ((fun d : Nat × Attributes => writeCorner d.2) ∘ fun d : Corner × Nat => (d.2, d.1.attributes)) =
      some ∘ Corner.text ∘ Prod.fst := funext fun d => d.1.writeCorner_attributes
  rw [numbered, List.filterMap_map]
  refine (congrArg (fun f => List.filterMap f corners.zipIdx) hsome).trans ?_
  rw [List.filterMap_eq_map, ← List.map_map, List.zipIdx_map_fst]

theorem encode_table (h : corners.length ≤ mostCorners) (hne : corners ≠ []) :
    encode (table corners) = some (Text.join " | " (corners.map Corner.text)) := by
  rw [encode, grouped_table h, filterMap_writeCorner]
  cases corners with
  | nil => exact absurd rfl hne
  | cons c corners => rfl

end

/-! ## Values of corners -/

/-- Flattening puts the corners into the table one by one. -/
theorem flattened_eq_ok : ∀ {texts : List Text} {number : Nat} {attrs m : Attributes},
    flattened number texts attrs = .ok m ↔ ∃ read : List Attributes,
      List.Forall₂ (fun t c => corner t = .ok c) texts read ∧
        (read.zipIdx number).foldl (fun table d => table.flattenInto d.2 d.1) attrs = m
  | [], number, attrs, m => by
    constructor
    · rintro ⟨⟩
      exact ⟨[], .nil, rfl⟩
    · rintro ⟨read, hread, rfl⟩
      cases hread
      rfl
  | text :: texts, number, attrs, m => by
    rw [flattened, bind_eq_ok]
    constructor
    · rintro ⟨c, hc, h⟩
      obtain ⟨read, hread, rfl⟩ := flattened_eq_ok.1 h
      exact ⟨c :: read, .cons hc hread, rfl⟩
    · rintro ⟨read, hread, rfl⟩
      obtain ⟨c, others, hc, hothers, rfl⟩ := List.forall₂_cons_left_iff.1 hread
      exact ⟨c, hc, flattened_eq_ok.2 ⟨others, hothers, rfl⟩⟩

theorem table_eq_foldl (corners : List Corner) : table corners =
    ((corners.map Corner.attributes).zipIdx).foldl (fun table d => table.flattenInto d.2 d.1) ∅ := by
  rw [table, assembled, numbered, List.foldl_map, List.zipIdx_map, List.foldl_map]
  rfl

theorem exists_corners {texts : List Text} {read : List Attributes}
    (h : List.Forall₂ (fun t c => corner t = .ok c) texts read) :
    ∃ corners : List Corner, (∀ c ∈ corners, c.Sound) ∧ corners.map Corner.attributes = read := by
  induction h with
  | nil => exact ⟨[], List.forall_mem_nil _, rfl⟩
  | cons hc _ ih =>
    obtain ⟨corners, hsound, rfl⟩ := ih
    obtain ⟨c, hcsound, rfl⟩ := exists_corner hc
    exact ⟨c :: corners, List.forall_mem_cons.2 ⟨hcsound, hsound⟩, rfl⟩

theorem decode_eq_ok {value : Text} {a : Attributes} : decode value = .ok (some a) ↔
    ∃ texts, Text.parts '|' value = .ok texts ∧ texts.length ≤ mostCorners ∧ flattened 0 texts ∅ = .ok a ∧ a ≠ ∅ := by
  rw [decode, bind_eq_ok]
  refine exists_congr fun texts => and_congr_right fun _ => ?_
  split
  · next h => exact iff_of_false (fun h => nomatch h) fun hall => absurd hall.1 (Nat.not_le.2 h)
  · next h =>
    rw [and_iff_right (Nat.not_lt.1 h), bind_eq_ok]
    simp only [pure_eq_ok, PropertyFormat.something_eq_some]
    constructor
    · rintro ⟨m, hm, rfl, hne⟩
      exact ⟨hm, hne⟩
    · rintro ⟨hm, hne⟩
      exact ⟨a, hm, rfl, hne⟩

theorem corners_of_decode {value : Text} {a : Attributes} (h : decode value = .ok (some a)) :
    ∃ corners : List Corner, corners ≠ [] ∧ corners.length ≤ mostCorners ∧ (∀ c ∈ corners, c.Sound) ∧
      table corners = a := by
  obtain ⟨texts, -, hlength, hflattened, hne⟩ := decode_eq_ok.1 h
  obtain ⟨read, hread, rfl⟩ := flattened_eq_ok.1 hflattened
  obtain ⟨corners, hsound, rfl⟩ := exists_corners hread
  rw [hread.length_eq, List.length_map] at hlength
  refine ⟨corners, ?_, hlength, hsound, table_eq_foldl corners⟩
  rintro rfl
  exact hne rfl

/-- The texts of corners are read as these corners. -/
theorem decode_join {corners : List Corner} (hne : corners ≠ []) (hlength : corners.length ≤ mostCorners)
    (hsound : ∀ c ∈ corners, c.Sound) :
    decode (Text.join " | " (corners.map Corner.text)) = .ok (some (table (corners.map Corner.plain))) := by
  have hparts : Text.parts '|' (Text.join " | " (corners.map Corner.text)) = .ok (corners.map Corner.text) := by
    refine (Text.dividesInto_join_spaced Text.divides_pipe fun t ht => ?_).atEnd
    obtain ⟨c, hc, rfl⟩ := List.mem_map.1 ht
    exact Corner.part_text (hsound c hc)
  have hread : List.Forall₂ (fun t c => corner t = .ok c) (corners.map Corner.text)
      ((corners.map Corner.plain).map Corner.attributes) := by
    rw [List.map_map, List.forall₂_map_left_iff, List.forall₂_map_right_iff, List.forall₂_same]
    exact fun c hc => corner_text (hsound c hc)
  refine decode_eq_ok.2 ⟨_, hparts, by rwa [List.length_map], ?_, table_ne_empty ?_ ?_⟩
  · rw [table_eq_foldl]
    exact flattened_eq_ok.2 ⟨_, hread, rfl⟩
  · rwa [List.length_map]
  · exact mt List.map_eq_nil_iff.1 hne

/-! ## Completed corners -/

section

variable {corners : List Corner} {n : Nat}

theorem numbered_table (h : corners.length ≤ mostCorners) : Numbered (table corners) :=
  Attributes.numbered_foldl_flattenInto (fun _ hmem => le_of_mem_numbered h hmem) Attributes.numbered_empty

theorem get?_table (h : corners.length ≤ mostCorners) (n : Nat) (name : Text) :
    (table corners).get? (flatKey n name) = corners[n]?.bind fun c => c.attributes.get? name := by
  cases hc : corners[n]? with
  | some c =>
    have hmem : (n, c.attributes) ∈ (table corners).grouped := by
      rw [grouped_table h]
      exact mem_numbered.2 ⟨c, hc, rfl⟩
    exact (Attributes.get?_of_mem_grouped (numbered_table h) hmem name).symm
  | none =>
    refine Option.eq_none_iff_forall_ne_some.2 fun v hv => ?_
    obtain ⟨group, hmem⟩ := Attributes.exists_mem_grouped (numbered_table h) hv
    rw [grouped_table h] at hmem
    obtain ⟨c, hfound, -⟩ := mem_numbered.1 hmem
    cases hc.symm.trans hfound

/-- The corner with the remark that it is not absolute, if nothing else is said. -/
def Corner.settled : Corner → Corner
  | .place none x y z => .place (some false) x y z
  | corner => corner

theorem Corner.settled_plain (c : Corner) : c.plain.settled = c.settled := by
  match c with
  | label _ | place none _ _ _ | place (some true) _ _ _ | place (some false) _ _ _ => rfl

/-- What is added to a place of which it is not said whether it is absolute. -/
def notAbsolute : Attributes := OrderedMap.ofList [("absolute", "false")]

def isUnsaid (corner : Attributes) : Bool := !corner.contains "exp" && !corner.contains "absolute"

theorem Corner.get?_settled (c : Corner) (name : Text) : c.settled.attributes.get? name =
    (c.attributes.get? name).or (if isUnsaid c.attributes then notAbsolute.get? name else none) := by
  match c with
  | label _ => exact (Option.or_none).symm
  | place (some true) _ _ z | place (some false) _ _ z => cases z <;> exact (Option.or_none).symm
  | place none x y z =>
    have hunsaid : isUnsaid (place none x y z).attributes = true := by cases z <;> rfl
    have hkeys : ((place (some false) x y z).pairs.map Prod.fst).Nodup := by
      cases z with
      | none => exact (by decide : (["absolute", "x", "y"] : List Text).Nodup)
      | some z => exact (by decide : (["absolute", "x", "y", "z"] : List Text).Nodup)
    have hpairs : (place (some false) x y z).pairs = notAbsolute.pairs ++ (place none x y z).pairs := rfl
    have hothers : ((place none x y z).pairs.map Prod.fst).Nodup := (List.nodup_cons.1 hkeys).2
    have hget : notAbsolute.get? name = OrderedMap.find? name notAbsolute.pairs := rfl
    rw [hunsaid, if_pos rfl, settled, attributes, attributes, OrderedMap.get?_ofList hkeys,
      OrderedMap.get?_ofList hothers, hget, hpairs, OrderedMap.find?_append]
    -- no key stands on both sides, so it does not matter which is asked first
    cases hname : OrderedMap.find? name notAbsolute.pairs with
    | none => rw [Option.none_or, Option.or_none]
    | some v =>
      have hmem : name ∈ notAbsolute.pairs.map Prod.fst := OrderedMap.find?_isSome.1 (by rw [hname]; rfl)
      rw [hpairs, List.map_append, List.nodup_append] at hkeys
      have hnot : name ∉ (place none x y z).pairs.map Prod.fst := fun h => hkeys.2.2 name hmem name h rfl
      rw [OrderedMap.find?_eq_none.2 hnot]
      rfl

/-- The places of which it is not said whether they are absolute, with their numbers. -/
def unsaid (corners : List Corner) : List (Nat × Attributes) := (numbered corners).filter fun (_, c) => isUnsaid c

theorem mem_numbers_unsaid : n ∈ (unsaid corners).map Prod.fst ↔ ∃ c, corners[n]? = some c ∧ isUnsaid c.attributes := by
  rw [unsaid, List.mem_map]
  constructor
  · rintro ⟨⟨n, m⟩, hmem, rfl⟩
    obtain ⟨hmem, hunsaid⟩ := List.mem_filter.1 hmem
    obtain ⟨c, hc, rfl⟩ := mem_numbered.1 hmem
    exact ⟨c, hc, hunsaid⟩
  · rintro ⟨c, hc, hunsaid⟩
    exact ⟨(n, c.attributes), List.mem_filter.2 ⟨mem_numbered.2 ⟨c, hc, rfl⟩, hunsaid⟩, rfl⟩

theorem complete_table (h : corners.length ≤ mostCorners) : complete (table corners) =
    ((unsaid corners).foldl (fun table other => Attributes.flattenInto table other.1 notAbsolute) ∅).union
      (table corners).pairs := by
  have hfold : OrderedMap.ofList ((unsaid corners).map fun (number, _) =>
      (flatKey number "absolute", "false".toList)) =
        (unsaid corners).foldl (fun table other => Attributes.flattenInto table other.1 notAbsolute) ∅ := by
    rw [OrderedMap.ofList, OrderedMap.union, List.foldl_map]
    rfl
  rw [complete, grouped_table h, ← hfold]
  rfl

/-- **A completed table of corners says of each whether it is absolute.** -/
theorem get?_complete (h : corners.length ≤ mostCorners) (n : Nat) (name : Text) :
    (complete (table corners)).get? (flatKey n name) = corners[n]?.bind fun c => c.settled.attributes.get? name := by
  rw [complete_table h, OrderedMap.get?_union _ _ (table corners).distinct, Attributes.get?_foldl_flattenInto]
  show ((table corners).get? (flatKey n name)).or _ = _
  rw [get?_table h]
  cases hc : corners[n]? with
  | none =>
    have hnot : n ∉ (unsaid corners).map Prod.fst := by
      rw [mem_numbers_unsaid, hc]
      exact fun ⟨_, h, _⟩ => nomatch h
    rw [if_neg hnot]
    rfl
  | some c =>
    have hiff : n ∈ (unsaid corners).map Prod.fst ↔ isUnsaid c.attributes := by
      rw [mem_numbers_unsaid, hc]
      simp
    rw [Option.bind_some, Option.bind_some, c.get?_settled]
    congr 1
    refine if_congr hiff ?_ rfl
    exact Option.or_none

theorem numbered_complete (h : corners.length ≤ mostCorners) : Numbered (complete (table corners)) := by
  intro key v hv
  rw [complete_table h] at hv
  rcases OrderedMap.mem_or_get?_of_union hv with hmem | hold
  · exact numbered_table h key v (OrderedMap.get?_eq_some.2 hmem)
  · refine Attributes.numbered_foldl_flattenInto (fun member hmem => ?_) Attributes.numbered_empty key v hold
    exact le_of_mem_numbered h (List.mem_of_mem_filter hmem)

theorem equivalent_plain (h : corners.length ≤ mostCorners) :
    format.equivalent (table corners) (table (corners.map Corner.plain)) := by
  have hplain : (corners.map Corner.plain).length ≤ mostCorners := by rwa [List.length_map]
  refine PropertyFormat.equivalent_iff.2 ?_
  refine Attributes.same_of_numbered (numbered_complete h) (numbered_complete hplain) fun n name => ?_
  show Same ((complete (table corners)).get? _) ((complete (table (corners.map Corner.plain))).get? _)
  rw [get?_complete h, get?_complete hplain, List.getElem?_map]
  cases corners[n]? with
  | none => exact .none
  | some c =>
    rw [Option.map_some, Option.bind_some, Option.bind_some, c.settled_plain]
    exact same_refl _

end

/-- **Start points survive writing and reading**, with every corner at its number and every label as it was. -/
theorem corners_survive {value : Text} {a : Attributes} (h : format.decode value = .ok (some a)) :
    ∃ text b, format.encode a = some text ∧ format.decode text = .ok (some b) ∧ format.equivalent a b ∧
      format.encode b = some text ∧ b.grouped = a.grouped.map (fun (n, corner) => (n, unmarked corner)) ∧
      ∀ n, b.get? (flatKey n "exp") = a.get? (flatKey n "exp") := by
  obtain ⟨corners, hne, hlength, hsound, rfl⟩ := corners_of_decode h
  have hplain : (corners.map Corner.plain).length ≤ mostCorners := by rwa [List.length_map]
  have hagain : encode (table (corners.map Corner.plain)) = some (Text.join " | " (corners.map Corner.text)) := by
    rw [encode_table hplain (mt List.map_eq_nil_iff.1 hne), List.map_map]
    have htext : Corner.text ∘ Corner.plain = Corner.text := funext fun c => by
      show Text.join " " c.plain.tokens = _
      rw [c.tokens_plain]
      rfl
    rw [htext]
  refine ⟨_, _, encode_table hlength hne, decode_join hne hlength hsound, equivalent_plain hlength, hagain, ?_, ?_⟩
  · rw [grouped_table hplain, grouped_table hlength, numbered, numbered, List.zipIdx_map, List.map_map, List.map_map]
    refine List.map_congr_left fun d _ => ?_
    exact congrArg (fun m => (d.2, m)) (unmarked_attributes d.1).symm
  · intro n
    rw [get?_table hplain, get?_table hlength, List.getElem?_map]
    cases corners[n]? with
    | none => rfl
    | some c => exact c.get?_exp_plain

/-- A label with all that could end it, and places of all kinds. -/
theorem corners_survive_of_labelled : ∃ a,
    format.decode "\"a \\\"| \\\\ \\n\" | ~absolute 10 -2.50 | absolute 1 2 inf | 3 4" = .ok (some a) ∧
    ∃ text b, format.encode a = some text ∧ format.decode text = .ok (some b) ∧ format.equivalent a b ∧
      format.encode b = some text ∧ b.grouped = a.grouped.map (fun (n, corner) => (n, unmarked corner)) ∧
      ∀ n, b.get? (flatKey n "exp") = a.get? (flatKey n "exp") := by
  have hdecode : format.decode "\"a \\\"| \\\\ \\n\" | ~absolute 10 -2.50 | absolute 1 2 inf | 3 4" =
      .ok (some (.table [("0.exp", "a \"| \\ \n"), ("1.absolute", "false"), ("1.x", "10"), ("1.y", "-2.50"),
        ("2.absolute", "true"), ("2.x", "1"), ("2.y", "2"), ("2.z", "inf"), ("3.x", "3"), ("3.y", "4")])) := by
    decide +kernel
  exact ⟨_, hdecode, corners_survive hdecode⟩

end StyleScript.StartPoint
