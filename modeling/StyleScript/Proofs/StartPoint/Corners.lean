import StyleScript.Property.StartPoint
import StyleScript.Proofs.Number.Spelling
import StyleScript.Proofs.Property.Aspects
import StyleScript.Proofs.Text.Division
/-!
# The corners of start points

What is read of one corner is a label or a place (`Corner`, `exists_corner`).  Both are written as one part of the
value, a label because it is quoted and a place because it is spelled without `|`.  Read again, a corner is what it was
(`corner_text`), up to the remark that it is not absolute, which is not written because it holds anyway.
-/
namespace StyleScript.StartPoint

open Text (Part Spelled IsNumber)

/-! ## Corners -/

/-- A label, or two to three coordinates and whether they are said to be absolute. -/
inductive Corner where
  | label (text : Text)
  | place (absolute : Option Bool) (x y : Text) (z : Option Text)

namespace Corner

/-- The attributes of the remark that a place is absolute, or is not. -/
def flag : Option Bool → List (Text × Text)
  | none => []
  | some on => [("absolute", Text.ofBool on)]

def pairs : Corner → List (Text × Text)
  | label text => [("exp", text)]
  | place absolute x y z => flag absolute ++ (["x", "y", "z"].map String.toList).zip (x :: y :: z.toList)

def attributes (corner : Corner) : Attributes := OrderedMap.ofList corner.pairs

/-- The coordinates are numbers, and without blanks around them. -/
def Sound : Corner → Prop
  | label _ => True
  | place _ x y z => ∀ v ∈ x :: y :: z.toList, IsNumber v ∧ Spelled v

/-- Only that a place is absolute is written. -/
def word : Option Bool → List Text
  | some true => ["absolute"]
  | _ => []

/-- The tokens of a corner. -/
def tokens : Corner → List Text
  | label text => [Text.quote text]
  | place absolute x y z => word absolute ++ x :: y :: z.toList

def text (corner : Corner) : Text := Text.join " " corner.tokens

/-- The corner without the remark that it is not absolute. -/
def plain : Corner → Corner
  | place (some false) x y z => place none x y z
  | corner => corner

variable {corner : Corner}

theorem writeCorner_attributes (corner : Corner) : writeCorner corner.attributes = some corner.text := by
  cases corner with
  | label text => rfl
  | place absolute x y z =>
    cases absolute with
    | none => cases z <;> rfl
    | some on => cases on <;> cases z <;> rfl

theorem attributes_ne_empty (corner : Corner) : corner.attributes ≠ ∅ := by
  intro h
  have hwritten := writeCorner_attributes corner
  rw [h] at hwritten
  cases hwritten

theorem tokens_plain (corner : Corner) : corner.plain.tokens = corner.tokens := by
  match corner with
  | label _ | place none _ _ _ | place (some true) _ _ _ | place (some false) _ _ _ => rfl

theorem get?_exp_plain (corner : Corner) : corner.plain.attributes.get? "exp" = corner.attributes.get? "exp" := by
  match corner with
  | label _ | place none _ _ _ | place (some true) _ _ _ => rfl
  | place (some false) _ _ z => cases z <;> rfl

end Corner

/-- The corner without the remark that it is not absolute. -/
def unmarked (corner : Attributes) : Attributes :=
  corner.filter fun key value => !(decide (key = "absolute") && decide (value = "false"))

theorem unmarked_attributes (corner : Corner) : unmarked corner.attributes = corner.plain.attributes := by
  match corner with
  | .label _ => rfl
  | .place none _ _ z | .place (some true) _ _ z | .place (some false) _ _ z => cases z <;> rfl

/-! ## Corners that are read -/

theorem forM_number_eq_ok : ∀ {values : List Text},
    (values.forM fun v => (Text.number "startPoint" v).map fun _ => ()) = .ok () ↔ ∀ v ∈ values, IsNumber v
  | [] => iff_of_true rfl (List.forall_mem_nil _)
  | v :: values => by
    rw [List.forall_mem_cons, ← forM_number_eq_ok]
    refine bind_eq_ok.trans ?_
    constructor
    · rintro ⟨u, hv, hvalues⟩
      obtain ⟨x, hx, -⟩ := map_eq_ok.1 hv
      exact ⟨Text.isNumber_of_number hx, hvalues⟩
    · rintro ⟨hv, hvalues⟩
      obtain ⟨x, hx⟩ := hv.number "startPoint"
      exact ⟨(), map_eq_ok.2 ⟨x, hx, rfl⟩, hvalues⟩

theorem coordinates_eq_ok {text : Text} {values : List Text} {settings : List (Text × Text)} :
    coordinates text values = .ok settings ↔
      (2 ≤ values.length ∧ values.length ≤ 3) ∧ (∀ v ∈ values, IsNumber v) ∧
        (["x", "y", "z"].map String.toList).zip values = settings := by
  rw [coordinates]
  split
  · next h =>
    rw [Bool.or_eq_true, decide_eq_true_eq, decide_eq_true_eq] at h
    exact iff_of_false (fun h => nomatch h) fun hcount => by omega
  · next h =>
    rw [Bool.or_eq_true, decide_eq_true_eq, decide_eq_true_eq, not_or, Nat.not_lt, Nat.not_lt] at h
    rw [bind_eq_ok, and_iff_right h, ← forM_number_eq_ok]
    constructor
    · rintro ⟨⟨⟩, hnumbers, hsettings⟩
      exact ⟨hnumbers, pure_eq_ok.1 hsettings⟩
    · rintro ⟨hnumbers, hsettings⟩
      exact ⟨(), hnumbers, pure_eq_ok.2 hsettings⟩

/-- Two or three values. -/
theorem exists_coordinates : ∀ {values : List Text}, 2 ≤ values.length → values.length ≤ 3 →
    ∃ x y z, values = x :: y :: Option.toList z
  | [x, y], _, _ => ⟨x, y, none, rfl⟩
  | [x, y, z], _, _ => ⟨x, y, some z, rfl⟩

theorem exists_place_of_coordinates {text : Text} {values : List Text} {settings : List (Text × Text)}
    (htrimmed : ∀ v ∈ values, Text.Trimmed v) (h : coordinates text values = .ok settings) (absolute : Option Bool) :
    ∃ c : Corner, c.Sound ∧ c.pairs = Corner.flag absolute ++ settings := by
  obtain ⟨⟨hleast, hmost⟩, hnumbers, rfl⟩ := coordinates_eq_ok.1 h
  obtain ⟨x, y, z, rfl⟩ := exists_coordinates hleast hmost
  exact ⟨.place absolute x y z, fun v hv => ⟨hnumbers v hv, (hnumbers v hv).spelled_of_trimmed (htrimmed v hv)⟩, rfl⟩

theorem exists_place {text : Text} {ts : List Text} {settings : List (Text × Text)}
    (htrimmed : ∀ t ∈ ts, Text.Trimmed t) (h : placed text ts = .ok settings) :
    ∃ c : Corner, c.Sound ∧ c.pairs = settings := by
  cases ts with
  | nil => exact exists_place_of_coordinates htrimmed h none
  | cons first rest =>
    rw [placed] at h
    split at h
    next on name hnegation =>
    split at h
    · obtain ⟨coordinates, hcoordinates, h⟩ := bind_eq_ok.1 h
      cases pure_eq_ok.1 h
      exact exists_place_of_coordinates (List.forall_mem_cons.1 htrimmed).2 hcoordinates (some on)
    · exact exists_place_of_coordinates htrimmed h none

/-- **Every corner that is read is a label or a place.** -/
theorem exists_corner {text : Text} {m : Attributes} (h : corner text = .ok m) :
    ∃ c : Corner, c.Sound ∧ c.attributes = m := by
  obtain ⟨ts, hts, h⟩ := bind_eq_ok.1 h
  split at h
  · obtain ⟨label, -, h⟩ := bind_eq_ok.1 h
    exact ⟨.label label, trivial, pure_eq_ok.1 h⟩
  · obtain ⟨settings, hsettings, h⟩ := bind_eq_ok.1 h
    obtain ⟨c, hsound, rfl⟩ := exists_place (fun t ht => Text.trimmed_of_mem_divide hts ht) hsettings
    exact ⟨c, hsound, pure_eq_ok.1 h⟩

/-! ## Corners that are written -/

namespace Corner

variable {corner : Corner}

theorem part_tokens (h : corner.Sound) : ∀ t ∈ corner.tokens, Part Text.isBlank t ∧ Part (· = '|') t := by
  cases corner with
  | label text => exact List.forall_mem_singleton.2 ⟨Text.part_quote _ text, Text.part_quote _ text⟩
  | place absolute x y z =>
    rw [tokens, List.forall_mem_append]
    constructor
    · have hword : Part Text.isBlank "absolute" := Text.part_of_plain (by decide) (by decide)
      intro t ht
      match absolute, ht with
      | some true, ht =>
        cases List.mem_singleton.1 ht
        exact ⟨hword, Text.part_pipe_of_not_mem hword (by decide)⟩
    · intro v hv
      have hspelled := (h v hv).2
      refine ⟨hspelled.part, Text.part_pipe_of_not_mem hspelled.part fun hmem => ?_⟩
      exact absurd (hspelled.all _ hmem) (by decide)

theorem tokens_ne_nil (corner : Corner) : corner.tokens ≠ [] := by
  cases corner with
  | label text => exact List.cons_ne_nil _ _
  | place absolute x y z => exact List.append_ne_nil_of_right_ne_nil _ (List.cons_ne_nil _ _)

theorem part_text (h : corner.Sound) : Part (· = '|') corner.text :=
  Text.part_join_space rfl corner.tokens_ne_nil fun t ht => (part_tokens h t ht).2

theorem tokens_text (h : corner.Sound) : Text.tokens corner.text = .ok corner.tokens :=
  Text.divide_join Text.divides_blank fun t ht => (part_tokens h t ht).1

end Corner

/-- A number is not taken for the word. -/
theorem negation_of_isNumber {v : Text} (h : IsNumber v) (hspelled : Spelled v) :
    Text.negation v = (true, v) ∧ v ≠ "absolute" := by
  constructor
  · obtain ⟨c, rest, rfl⟩ := List.exists_cons_of_ne_nil hspelled.ne_nil
    refine Text.negation_of_ne (fun hc => ?_) rest
    exact absurd (hspelled.all c List.mem_cons_self) (by rw [hc]; decide)
  · rintro rfl
    have hnot : Text.float? (Text.trim "absolute") = none := by decide +kernel
    obtain ⟨x, hx⟩ := h
    rw [hnot] at hx
    cases hx

theorem placed_tokens {absolute : Option Bool} {x y : Text} {z : Option Text} (h : (Corner.place absolute x y z).Sound)
    (text : Text) :
    placed text (Corner.place absolute x y z).tokens = .ok (Corner.place absolute x y z).plain.pairs := by
  have hcoordinates : coordinates text (x :: y :: z.toList) =
      .ok ((["x", "y", "z"].map String.toList).zip (x :: y :: z.toList)) := by
    refine coordinates_eq_ok.2 ⟨?_, fun v hv => (h v hv).1, rfl⟩
    cases z with
    | none => exact ⟨Nat.le_refl 2, Nat.le_succ 2⟩
    | some z => exact ⟨Nat.le_succ 2, Nat.le_refl 3⟩
  have hx := h x List.mem_cons_self
  obtain ⟨hnegation, hword⟩ := negation_of_isNumber hx.1 hx.2
  have hfirst : placed text (x :: y :: z.toList) = coordinates text (x :: y :: z.toList) := by
    rw [placed, hnegation]
    exact if_neg hword
  match absolute with
  | none | some false => exact hfirst.trans hcoordinates
  | some true =>
    have hnegation : Text.negation "absolute" = (true, ("absolute" : Text)) := rfl
    show placed text ("absolute" :: x :: y :: z.toList) = _
    rw [placed, hnegation]
    dsimp only
    rw [if_pos rfl, hcoordinates]
    rfl

/-- **A corner that is written is read as it was**, the remark aside. -/
theorem corner_text {c : Corner} (h : c.Sound) : corner c.text = .ok c.plain.attributes := by
  rw [corner, Corner.tokens_text h]
  cases c with
  | label label =>
    show (Text.scalar (Text.quote label) >>= fun v => pure (OrderedMap.ofList [(("exp" : Text), v)])) = _
    rw [Text.scalar_quote]
    rfl
  | place absolute x y z =>
    rw [ok_bind]
    split
    · -- a place has two tokens at least, so it is not taken for a label
      next hsingle =>
      have hlength := congrArg List.length hsingle
      rw [Corner.tokens, List.length_append] at hlength
      simp only [List.length_cons, List.length_nil] at hlength
      omega
    · rw [placed_tokens h]
      rfl

end StyleScript.StartPoint
