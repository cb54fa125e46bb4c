import StyleScript.Proofs.Markup.Collected
import StyleScript.Proofs.StartPoint.Survival
import StyleScript.Required
/-!
# Start points on the way to the host and back

The corners of a table are told one by one, each under its number (`routes_eq`).  Whoever collects the messages puts
every corner at its number (`foldl_tell_messages`), so it does not matter in which order they come; and since the
numbers have no gap, no corner is dropped.
-/
namespace StyleScript.StartPoint

open Attributes (greatestNumber)
open Markup (Collector collected)

/-- The attributes of a corner with its number in front. -/
def withNumber (corner : Nat × Attributes) : Attributes :=
  OrderedMap.ofList (("number", Text.ofNat corner.1) :: corner.2.pairs)

/-- The message that tells a corner. -/
def message (corner : Nat × Attributes) : Route := .element "startPoint" (withNumber corner)

theorem routes_eq (attrs : Attributes) : format.routes attrs = attrs.grouped.map message := rfl

/-! ## One message -/

/-- A corner that can be told: its number is one, and no attribute of it is called so. -/
structure Tellable (corner : Nat × Attributes) : Prop where
  number : corner.1 ≤ greatestNumber
  free : ("number" : Text) ∉ corner.2.keys

section

variable {corner : Nat × Attributes}

theorem Tellable.pairs_withNumber (h : Tellable corner) :
    (withNumber corner).pairs = ("number".toList, Text.ofNat corner.1) :: corner.2.pairs :=
  OrderedMap.pairs_ofList (List.nodup_cons.2 ⟨h.free, corner.2.distinct⟩)

/-- A corner that is told is collected at its number, as it was. -/
theorem Tellable.tell_message (h : Tellable corner) (c : Collector) :
    c.tell (message corner) = { c with corners := c.corners.set corner.1 corner.2 } := by
  have hnumber : (withNumber corner).get? "number" = some (Text.ofNat corner.1) := by
    rw [OrderedMap.get?, h.pairs_withNumber]
    exact if_pos rfl
  have hcorner : (withNumber corner).erase "number" = corner.2 := by
    apply OrderedMap.ext
    show (withNumber corner).pairs.filter (fun p => decide (p.1 ≠ "number".toList)) = _
    rw [h.pairs_withNumber, List.filter_cons_of_neg (by simp), List.filter_eq_self]
    intro p hp
    apply decide_eq_true
    intro hkey
    exact h.free (hkey ▸ List.mem_map_of_mem hp)
  show c.addCorner (withNumber corner) = _
  unfold Collector.addCorner
  rw [hnumber, hcorner]
  simp only [Collector.natural32?_trim_ofNat h.number]

end

/-- Corners that are told are put at their numbers, one after the other. -/
theorem foldl_tell_messages : ∀ {corners : List (Nat × Attributes)} (c : Collector),
    (∀ corner ∈ corners, Tellable corner) →
    (corners.map message).foldl Collector.tell c = { c with corners := c.corners.union corners }
  | [], _, _ => rfl
  | corner :: corners, c, h => by
    rw [List.forall_mem_cons] at h
    rw [List.map_cons, List.foldl_cons, h.1.tell_message, foldl_tell_messages _ h.2]
    rfl

/-! ## All messages -/

theorem tellable_of_mem_numbered {corners : List Corner} (h : corners.length ≤ mostCorners) {corner : Nat × Attributes}
    (hmem : corner ∈ numbered corners) : Tellable corner where
  number := le_of_mem_numbered h hmem
  free := by
    obtain ⟨c, -, hc⟩ := mem_numbered.1 hmem
    rw [← hc, ← OrderedMap.get?_eq_none]
    match c with
    | .label _ => rfl
    | .place none _ _ z | .place (some true) _ _ z | .place (some false) _ _ z => cases z <;> rfl

/-- Corners that are numbered without a gap are all kept. -/
theorem upToGap_zipIdx : ∀ (members : List Attributes) (n : Nat),
    Collector.upToGap n ((members.zipIdx n).map fun d => (d.2, d.1)) = (members.zipIdx n).map fun d => (d.2, d.1)
  | [], _ => rfl
  | member :: members, n => by
    rw [List.zipIdx_cons, List.map_cons, Collector.upToGap, if_pos rfl, upToGap_zipIdx members (n + 1)]

theorem upToGap_numbered (corners : List Corner) : Collector.upToGap 0 (numbered corners) = numbered corners := by
  have hmembers : numbered corners = ((corners.map Corner.attributes).zipIdx 0).map fun d => (d.2, d.1) := by
    rw [numbered, List.zipIdx_map, List.map_map]
    rfl
  rw [hmembers, upToGap_zipIdx]

/-- **The messages of a table of corners are collected to the table**, in whatever order they come. -/
theorem collected_of_perm {corners : List Corner} (h : corners.length ≤ mostCorners) (hne : corners ≠ [])
    {messages : List Route} (hperm : messages.Perm (format.routes (table corners))) :
    collected messages = (OrderedMap.ofList [("startPoint", table corners)] : StyleMap) := by
  rw [routes_eq, grouped_table h] at hperm
  obtain ⟨told, rfl, htold⟩ :
      ∃ told : List (Nat × Attributes), messages = told.map message ∧ told.Perm (numbered corners) := by
    have hcomp := congrFun (congrFun (List.eq_map_comp_perm message) messages) (numbered corners)
    exact hcomp.mpr hperm
  have hascending : ((numbered corners).map Prod.fst).Pairwise (· < ·) := by
    rw [numbers_numbered]
    exact List.pairwise_lt_range'
  have hnodup : (told.map Prod.fst).Nodup := (htold.map Prod.fst).nodup_iff.2 (hascending.imp Nat.ne_of_lt)
  have hsorted : Collector.sorted (OrderedMap.ofList told) = numbered corners := by
    apply Collector.sorted_of_perm hascending
    rwa [OrderedMap.pairs_ofList hnodup]
  unfold collected
  rw [foldl_tell_messages {} fun corner hcorner => tellable_of_mem_numbered h (htold.subset hcorner)]
  show Collector.finish { corners := OrderedMap.ofList told } = _
  rw [Collector.finish_corners, hsorted, upToGap_numbered]
  exact if_neg fun hempty => table_ne_empty h hne (OrderedMap.isEmpty_iff.1 hempty)

/-- **Start points survive delivery.**  Whatever is read is collected as it was of its messages, in whatever order they
come, and the host requires nothing that a message lacks. -/
theorem start_points_delivered {value : Text} {a : Attributes} (h : format.decode value = .ok (some a)) :
    (∀ messages : List Route, messages.Perm (format.routes a) →
      collected messages = (OrderedMap.ofList [("startPoint", a)] : StyleMap)) ∧
    ∀ told ∈ format.routes a, ∃ attrs, told = .element "startPoint" attrs ∧
      ∀ info, Required.fill "startPoint" attrs info = attrs := by
  obtain ⟨corners, hne, hlength, -, rfl⟩ := corners_of_decode h
  refine ⟨fun messages hperm => collected_of_perm hlength hne hperm, fun told htold => ?_⟩
  rw [routes_eq] at htold
  obtain ⟨corner, -, rfl⟩ := List.mem_map.1 htold
  exact ⟨_, rfl, fun info => rfl⟩

/-- A label and two places, told from the last to the first. -/
theorem start_points_delivered_of_labelled : ∃ a,
    format.decode "\"a | b\" | ~absolute 10 -2.50 | 3 4 5" = .ok (some a) ∧
    collected (format.routes a).reverse = (OrderedMap.ofList [("startPoint", a)] : StyleMap) ∧
    ∀ told ∈ format.routes a, ∃ attrs, told = .element "startPoint" attrs ∧
      ∀ info, Required.fill "startPoint" attrs info = attrs := by
  have hdecode : format.decode "\"a | b\" | ~absolute 10 -2.50 | 3 4 5" =
      .ok (some (.table [("0.exp", "a | b"), ("1.absolute", "false"), ("1.x", "10"), ("1.y", "-2.50"), ("2.x", "3"),
        ("2.y", "4"), ("2.z", "5")])) := by
    decide +kernel
  have hdelivered := start_points_delivered hdecode
  exact ⟨_, hdecode, hdelivered.1 _ (List.reverse_perm _), hdelivered.2⟩

end StyleScript.StartPoint
