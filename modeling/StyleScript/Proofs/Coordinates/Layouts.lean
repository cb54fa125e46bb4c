import StyleScript.Property.Coordinates
import StyleScript.Proofs.Number.Spelling
import StyleScript.Proofs.Property.Aspects
/-!
# Which coordinates are read

A value is a row of groups, the point first and no group twice, each with as many numbers as it takes (`Layout`).  The
reader keeps the groups that are complete and the one it is in.  From any of its states it comes to the end exactly
along more numbers of its group and then groups that were not there yet (`read_of_goes`, `goes_of_read`); from its
start that is a layout (`decode_eq_ok`).
-/
namespace StyleScript.Coordinates

open Text (IsNumber)

/-! ## Groups of numbers -/

namespace Group

variable {group : Group}

/-- The tokens of the numbers of a group: the first one stands behind the lead. -/
def tokens (group : Group) : List Text → List Text
  | [] => []
  | first :: rest => (group.lead ++ first) :: rest

/-- As many numbers as a group takes. -/
structure IsRow (group : Group) (values : List Text) : Prop where
  least : group.least ≤ values.length
  most : values.length ≤ 4
  numbers : ∀ v ∈ values, IsNumber v

/-- The four numbers of a group: those that are given, and what stands for the others. -/
def filled (group : Group) (values : List Text) : List Text :=
  values ++ List.replicate (4 - values.length) group.filler

def settings (group : Group) (values : List Text) : List (Text × Text) := group.keys.zip (group.filled values)

theorem length_filled (group : Group) (values : List Text) : (group.filled values).length = max values.length 4 := by
  rw [filled, List.length_append, List.length_replicate]
  omega

theorem keyValue?_lead (h : group ≠ .point) (first : Text) :
    ∃ key, Text.keyValue? (group.lead ++ first) = some (key, first) ∧ opened? key = some group := by
  have hletter : ∀ key : Text, Text.isKey key → Text.keyValue? (key ++ ['='] ++ first) = some (key, first) := by
    intro key hkey
    rw [List.append_assoc]
    exact Text.keyValue?_of_isKey hkey first
  cases group with
  | point => exact absurd rfl h
  | v => exact ⟨"v", hletter "v" (by decide), rfl⟩
  | w => exact ⟨"w", hletter "w" (by decide), rfl⟩

theorem of_opened? {t key first : Text} (hkey : Text.keyValue? t = some (key, first)) (h : opened? key = some group) :
    t = group.lead ++ first ∧ group ≠ .point := by
  obtain ⟨rfl, -⟩ := Text.keyValue?_eq_some hkey
  rw [opened?] at h
  split at h
  · next hv =>
    cases h
    exact ⟨by rw [hv]; rfl, by decide⟩
  · split at h
    · next hw =>
      cases h
      exact ⟨by rw [hw]; rfl, by decide⟩
    · cases h

end Group

theorem groupAttributes_eq_ok {group : Group} {values : List Text} {settings : List (Text × Text)} :
    groupAttributes group values = .ok settings ↔
      (group.least ≤ values.length ∧ values.length ≤ 4) ∧ group.settings values = settings := by
  rw [groupAttributes]
  split
  · next h =>
    rw [Bool.and_eq_true, List.isEmpty_iff, decide_eq_true_eq] at h
    obtain ⟨rfl, rfl⟩ := h
    exact iff_of_false (fun h => nomatch h) fun h => absurd h.1.1 (by decide)
  · split
    · next h =>
      rw [Bool.or_eq_true, decide_eq_true_eq, decide_eq_true_eq] at h
      exact iff_of_false (fun h => nomatch h) fun hcount => by omega
    · next h =>
      rw [Bool.or_eq_true, decide_eq_true_eq, decide_eq_true_eq, not_or, Nat.not_lt, Nat.not_lt] at h
      exact ⟨fun hsettings => ⟨h, Except.ok.inj hsettings⟩, fun hsettings => congrArg Except.ok hsettings.2⟩

/-- Numbers have no key. -/
theorem keyValue?_of_isNumber {t : Text} (h : IsNumber t) : Text.keyValue? t = none := by
  refine Option.eq_none_iff_forall_ne_some.2 fun p hp => ?_
  have hmem : '=' ∈ t := by
    rw [(Text.keyValue?_eq_some hp).1]
    exact List.mem_append_right _ List.mem_cons_self
  obtain ⟨lead, tail, ht, hlead, htail⟩ := Text.exists_gaps t
  rw [ht, List.mem_append, List.mem_append] at hmem
  rcases hmem with (hmem | hmem) | hmem
  · exact absurd (hlead _ hmem) (by decide)
  · exact absurd (h.spelled.all _ hmem) (by decide)
  · exact absurd (htail _ hmem) (by decide)

/-! ## How a reading goes on -/

namespace Reading

variable {r : Reading}

/-- More numbers of the group that is read, and groups that were not there yet. -/
structure Goes (r : Reading) (more : List Text) (directions : List (Group × List Text)) : Prop where
  counted : r.group.least ≤ (r.values ++ more).length ∧ (r.values ++ more).length ≤ 4
  numbers : ∀ v ∈ more, IsNumber v
  rows : ∀ d ∈ directions, d.1.IsRow d.2
  named : ∀ d ∈ directions, d.1 ≠ .point
  fresh : ∀ d ∈ directions, d.1 ∉ r.group :: r.closed
  distinct : (directions.map Prod.fst).Nodup

/-- What is set when a reading has gone on to the end. -/
def result (r : Reading) (more : List Text) (directions : List (Group × List Text)) : List (Text × Text) :=
  r.settings ++ r.group.settings (r.values ++ more) ++ directions.flatMap fun d => d.1.settings d.2

theorem add_eq_ok {v : Text} {next : Reading} :
    r.add v = .ok next ↔ IsNumber v ∧ { r with values := r.values ++ [v] } = next := by
  rw [add, bind_eq_ok]
  constructor
  · rintro ⟨x, hx, h⟩
    exact ⟨Text.isNumber_of_number hx, pure_eq_ok.1 h⟩
  · rintro ⟨hv, rfl⟩
    obtain ⟨x, hx⟩ := hv.number "coords"
    exact ⟨x, hx, rfl⟩

theorem close_eq_ok {settings : List (Text × Text)} : r.close = .ok settings ↔
    (r.group.least ≤ r.values.length ∧ r.values.length ≤ 4) ∧ r.settings ++ r.group.settings r.values = settings := by
  rw [close, bind_eq_ok]
  constructor
  · rintro ⟨group, hgroup, h⟩
    obtain ⟨hcount, rfl⟩ := groupAttributes_eq_ok.1 hgroup
    exact ⟨hcount, pure_eq_ok.1 h⟩
  · rintro ⟨hcount, rfl⟩
    exact ⟨_, groupAttributes_eq_ok.2 ⟨hcount, rfl⟩, rfl⟩

/-- **A token adds a number to its group, or it opens a group that was not there yet.** -/
theorem token_eq_ok {t : Text} {next : Reading} : r.token t = .ok next ↔
    IsNumber t ∧ { r with values := r.values ++ [t] } = next ∨
      ∃ group first, t = group.lead ++ first ∧ group ≠ .point ∧ group ∉ r.group :: r.closed ∧ IsNumber first ∧
        (r.group.least ≤ r.values.length ∧ r.values.length ≤ 4) ∧
        ⟨r.settings ++ r.group.settings r.values, r.closed ++ [r.group], group, [first]⟩ = next := by
  have hfresh : ∀ group, (group = r.group || r.closed.contains group) = true ↔ group ∈ r.group :: r.closed := by
    intro group
    rw [Bool.or_eq_true, decide_eq_true_eq, List.contains_iff_mem, List.mem_cons]
  rw [token]
  constructor
  · intro h
    cases hkey : Text.keyValue? t with
    | none =>
      rw [hkey] at h
      exact .inl (add_eq_ok.1 h)
    | some p =>
      obtain ⟨key, first⟩ := p
      rw [hkey] at h
      cases hopened : Group.opened? key with
      | none => simp only [hopened] at h; cases h
      | some group =>
        simp only [hopened] at h
        split at h
        · cases h
        · next hnew =>
          rw [hfresh] at hnew
          obtain ⟨settings, hclose, hadd⟩ := bind_eq_ok.1 h
          obtain ⟨hcount, rfl⟩ := close_eq_ok.1 hclose
          obtain ⟨hfirst, rfl⟩ := add_eq_ok.1 hadd
          obtain ⟨ht, hpoint⟩ := Group.of_opened? hkey hopened
          exact .inr ⟨group, first, ht, hpoint, hnew, hfirst, hcount, rfl⟩
  · rintro (⟨ht, hnext⟩ | ⟨group, first, rfl, hpoint, hnew, hfirst, hcount, rfl⟩)
    · rw [keyValue?_of_isNumber ht]
      exact add_eq_ok.2 ⟨ht, hnext⟩
    · obtain ⟨key, hkey, hopened⟩ := Group.keyValue?_lead hpoint first
      simp only [hkey, hopened]
      rw [if_neg (mt (hfresh group).1 hnew)]
      exact bind_eq_ok.2 ⟨_, close_eq_ok.2 ⟨hcount, rfl⟩, add_eq_ok.2 ⟨hfirst, rfl⟩⟩

theorem foldlM_cons_eq_ok {t : Text} {ts : List Text} {settings : List (Text × Text)} :
    ((t :: ts).foldlM token r >>= close) = .ok settings ↔
      ∃ next, r.token t = .ok next ∧ (ts.foldlM token next >>= close) = .ok settings := by
  rw [List.foldlM_cons, bind_assoc, bind_eq_ok]

theorem goes_number {t : Text} {more : List Text} {directions : List (Group × List Text)} :
    r.Goes (t :: more) directions ↔ IsNumber t ∧ Goes { r with values := r.values ++ [t] } more directions := by
  have hvalues : r.values ++ [t] ++ more = r.values ++ t :: more := (List.append_cons ..).symm
  constructor
  · intro h
    obtain ⟨ht, hmore⟩ := List.forall_mem_cons.1 h.numbers
    exact ⟨ht, hvalues ▸ h.counted, hmore, h.rows, h.named, h.fresh, h.distinct⟩
  · rintro ⟨ht, h⟩
    exact ⟨hvalues ▸ h.counted, List.forall_mem_cons.2 ⟨ht, h.numbers⟩, h.rows, h.named, h.fresh, h.distinct⟩

/-- The reading once a group is opened. -/
def opened (r : Reading) (group : Group) (first : Text) : Reading :=
  ⟨r.settings ++ r.group.settings r.values, r.closed ++ [r.group], group, [first]⟩

theorem goes_opened {group : Group} {first : Text} {more : List Text} {directions : List (Group × List Text)} :
    r.Goes [] ((group, first :: more) :: directions) ↔
      (group ≠ .point ∧ group ∉ r.group :: r.closed ∧ IsNumber first ∧
        (r.group.least ≤ r.values.length ∧ r.values.length ≤ 4)) ∧ (r.opened group first).Goes more directions := by
  have hclosed : ∀ g, g ∉ group :: (r.closed ++ [r.group]) ↔ g ≠ group ∧ g ∉ r.group :: r.closed := by
    intro g
    rw [List.mem_cons, not_or, List.mem_append, List.mem_singleton, List.mem_cons, or_comm (a := g ∈ r.closed)]
  constructor
  · intro h
    obtain ⟨hrow, hrows⟩ := List.forall_mem_cons.1 h.rows
    obtain ⟨hpoint, hnamed⟩ := List.forall_mem_cons.1 h.named
    obtain ⟨hnew, hfresh⟩ := List.forall_mem_cons.1 h.fresh
    obtain ⟨hgroup, hdistinct⟩ := List.nodup_cons.1 h.distinct
    obtain ⟨hfirst, hmore⟩ := List.forall_mem_cons.1 hrow.numbers
    refine ⟨⟨hpoint, hnew, hfirst, by simpa using h.counted⟩, ⟨hrow.least, hrow.most⟩, hmore, hrows, hnamed, ?_,
      hdistinct⟩
    intro d hd
    have hne : d.1 ≠ group := fun h => hgroup (List.mem_map.2 ⟨d, hd, h⟩)
    exact (hclosed d.1).2 ⟨hne, hfresh d hd⟩
  · rintro ⟨⟨hpoint, hnew, hfirst, hcount⟩, h⟩
    have hapart : ∀ d ∈ directions, d.1 ≠ group ∧ d.1 ∉ r.group :: r.closed :=
      fun d hd => (hclosed d.1).1 (h.fresh d hd)
    have hrow : group.IsRow (first :: more) :=
      ⟨h.counted.1, h.counted.2, List.forall_mem_cons.2 ⟨hfirst, h.numbers⟩⟩
    have hgroup : group ∉ directions.map Prod.fst := by
      intro hmem
      obtain ⟨d, hd, heq⟩ := List.mem_map.1 hmem
      exact (hapart d hd).1 heq
    exact ⟨by simpa using hcount, List.forall_mem_nil _, List.forall_mem_cons.2 ⟨hrow, h.rows⟩,
      List.forall_mem_cons.2 ⟨hpoint, h.named⟩, List.forall_mem_cons.2 ⟨hnew, fun d hd => (hapart d hd).2⟩,
      List.nodup_cons.2 ⟨hgroup, h.distinct⟩⟩

theorem goes_end : r.Goes [] [] ↔ r.group.least ≤ r.values.length ∧ r.values.length ≤ 4 := by
  constructor
  · intro h
    simpa using h.counted
  · intro h
    exact ⟨by simpa using h, List.forall_mem_nil _, List.forall_mem_nil _, List.forall_mem_nil _,
      List.forall_mem_nil _, List.nodup_nil⟩

/-- A direction that is read has its first number. -/
theorem Goes.exists_cons {d : Group × List Text} {directions : List (Group × List Text)} {more : List Text}
    (h : r.Goes more (d :: directions)) : ∃ first rest, d = (d.1, first :: rest) := by
  have hleast := (h.rows d List.mem_cons_self).least
  have hpositive : 0 < d.1.least := by cases d.1 <;> decide
  obtain ⟨first, rest, hvalues⟩ := List.exists_cons_of_length_pos (Nat.lt_of_lt_of_le hpositive hleast)
  exact ⟨first, rest, by rw [← hvalues]⟩

theorem result_number {t : Text} {more : List Text} {directions : List (Group × List Text)} :
    result { r with values := r.values ++ [t] } more directions = r.result (t :: more) directions := by
  rw [result, result, ← List.append_cons]

theorem result_opened {group : Group} {first : Text} {more : List Text} {directions : List (Group × List Text)} :
    (r.opened group first).result more directions = r.result [] ((group, first :: more) :: directions) := by
  rw [result, result, opened, List.append_nil, List.flatMap_cons, ← List.append_assoc]
  rfl

/-- A reading that comes to its end went on along a row of groups. -/
theorem goes_of_read : ∀ {ts : List Text} {r : Reading} {settings : List (Text × Text)},
    (ts.foldlM token r >>= close) = .ok settings → ∃ more directions,
      ts = more ++ (directions.flatMap fun d => d.1.tokens d.2) ∧ r.Goes more directions ∧
        r.result more directions = settings
  | [], r, settings, h => by
    obtain ⟨hcount, rfl⟩ := close_eq_ok.1 h
    refine ⟨[], [], rfl, goes_end.2 hcount, ?_⟩
    rw [result, List.append_nil, List.flatMap_nil, List.append_nil]
  | t :: ts, r, settings, h => by
    obtain ⟨next, hnext, hrest⟩ := foldlM_cons_eq_ok.1 h
    obtain ⟨more, directions, rfl, hgoes, rfl⟩ := goes_of_read hrest
    rcases token_eq_ok.1 hnext with ⟨ht, rfl⟩ | ⟨group, first, rfl, hpoint, hnew, hfirst, hcount, rfl⟩
    · exact ⟨t :: more, directions, rfl, goes_number.2 ⟨ht, hgoes⟩, result_number.symm⟩
    · exact ⟨[], (group, first :: more) :: directions, rfl,
        goes_opened.2 ⟨⟨hpoint, hnew, hfirst, hcount⟩, hgoes⟩, result_opened.symm⟩

/-- The numbers of the group are added one by one. -/
theorem read_numbers {directions : List (Group × List Text)} (hdirections : ∀ {r : Reading}, r.Goes [] directions →
      ((directions.flatMap fun d => d.1.tokens d.2).foldlM token r >>= close) = .ok (r.result [] directions)) :
    ∀ {more : List Text} {r : Reading}, r.Goes more directions →
      ((more ++ directions.flatMap fun d => d.1.tokens d.2).foldlM token r >>= close) = .ok (r.result more directions)
  | [], _, h => hdirections h
  | t :: more, _, h => by
    obtain ⟨ht, hgoes⟩ := goes_number.1 h
    rw [← result_number]
    exact foldlM_cons_eq_ok.2 ⟨_, token_eq_ok.2 (.inl ⟨ht, rfl⟩), read_numbers hdirections hgoes⟩

theorem read_of_goes {more : List Text} {directions : List (Group × List Text)} {r : Reading}
    (h : r.Goes more directions) :
    ((more ++ directions.flatMap fun d => d.1.tokens d.2).foldlM token r >>= close) =
      .ok (r.result more directions) := by
  -- a direction is read to its end before the next one is opened, so the directions come first
  induction directions generalizing more r with
  | nil =>
    refine read_numbers (fun {r} hend => ?_) h
    refine close_eq_ok.2 ⟨goes_end.1 hend, ?_⟩
    rw [result, List.append_nil, List.flatMap_nil, List.append_nil]
  | cons d directions ih =>
    refine read_numbers (fun {r} hopens => ?_) h
    obtain ⟨first, rest, hd⟩ := hopens.exists_cons
    generalize d.1 = group at hd
    subst hd
    obtain ⟨⟨hpoint, hnew, hfirst, hcount⟩, hgoes⟩ := goes_opened.1 hopens
    rw [← result_opened]
    exact foldlM_cons_eq_ok.2
      ⟨_, token_eq_ok.2 (.inr ⟨group, first, rfl, hpoint, hnew, hfirst, hcount, rfl⟩), ih hgoes⟩

end Reading

/-! ## Layouts -/

/-- The numbers of a point, then those of directions, and no direction twice. -/
structure Layout (groups : List (Group × List Text)) : Prop where
  point : (groups.map Prod.fst).head? = some .point
  distinct : (groups.map Prod.fst).Nodup
  rows : ∀ d ∈ groups, d.1.IsRow d.2

/-- What the numbers of groups say. -/
def said (groups : List (Group × List Text)) : Attributes :=
  OrderedMap.ofList (groups.flatMap fun d => d.1.settings d.2)

variable {groups : List (Group × List Text)}

theorem goes_start {more : List Text} {directions : List (Group × List Text)} :
    Reading.start.Goes more directions ↔ Layout ((.point, more) :: directions) := by
  constructor
  · intro h
    have hfresh : Group.point ∉ directions.map Prod.fst := by
      intro hmem
      obtain ⟨d, hd, hpoint⟩ := List.mem_map.1 hmem
      exact h.named d hd hpoint
    exact ⟨rfl, List.nodup_cons.2 ⟨hfresh, h.distinct⟩,
      List.forall_mem_cons.2 ⟨⟨h.counted.1, h.counted.2, h.numbers⟩, h.rows⟩⟩
  · intro h
    obtain ⟨hpoint, hdistinct⟩ := List.nodup_cons.1 h.distinct
    obtain ⟨hrow, hrows⟩ := List.forall_mem_cons.1 h.rows
    have hnamed : ∀ d ∈ directions, d.1 ≠ .point := fun d hd heq => hpoint (List.mem_map.2 ⟨d, hd, heq⟩)
    exact ⟨⟨hrow.least, hrow.most⟩, hrow.numbers, hrows, hnamed,
      fun d hd hmem => hnamed d hd (List.mem_singleton.1 hmem), hdistinct⟩

theorem Layout.exists_point (h : Layout groups) : ∃ more directions, groups = (.point, more) :: directions := by
  obtain ⟨d, directions, rfl⟩ := List.exists_cons_of_ne_nil fun hnil : groups = [] => by
    have := h.point
    rw [hnil] at this
    cases this
  have hd : d.1 = .point := Option.some.inj h.point
  exact ⟨d.2, directions, by rw [← hd]⟩

theorem Group.tokens_point : ∀ values : List Text, Group.point.tokens values = values
  | [] => rfl
  | _ :: _ => rfl

/-- **Exactly the layouts are read.** -/
theorem decode_eq_ok {value : Text} {r : Option Attributes} : decode value = .ok r ↔
    ∃ groups, Text.tokens value = .ok (groups.flatMap fun d => d.1.tokens d.2) ∧ Layout groups ∧
      some (said groups) = r := by
  have hresult : ∀ more directions, OrderedMap.ofList (Reading.start.result more directions) =
      said ((.point, more) :: directions) := fun _ _ => rfl
  have hread : decode value = .ok r ↔ ∃ ts, Text.tokens value = .ok ts ∧
      ∃ settings, (ts.foldlM Reading.token .start >>= Reading.close) = .ok settings ∧
        some (OrderedMap.ofList settings) = r := by
    rw [decode]
    simp only [bind_eq_ok, pure_eq_ok]
    constructor
    · rintro ⟨ts, hts, reading, hreading, settings, hsettings, h⟩
      exact ⟨ts, hts, settings, ⟨reading, hreading, hsettings⟩, h⟩
    · rintro ⟨ts, hts, settings, ⟨reading, hreading, hsettings⟩, h⟩
      exact ⟨ts, hts, reading, hreading, settings, hsettings, h⟩
  rw [hread]
  constructor
  · rintro ⟨ts, hts, settings, hsettings, rfl⟩
    obtain ⟨more, directions, rfl, hgoes, rfl⟩ := Reading.goes_of_read hsettings
    refine ⟨(.point, more) :: directions, ?_, goes_start.1 hgoes, by rw [hresult]⟩
    rwa [List.flatMap_cons, Group.tokens_point]
  · rintro ⟨groups, hts, hlayout, rfl⟩
    obtain ⟨more, directions, rfl⟩ := hlayout.exists_point
    rw [List.flatMap_cons, Group.tokens_point] at hts
    exact ⟨_, hts, _, Reading.read_of_goes (goes_start.2 hlayout), by rw [hresult]⟩

end StyleScript.Coordinates
