import Mathlib.Data.List.Nodup
import StyleScript.Proofs.Number.Decimals
import StyleScript.Proofs.Property.Tables
/-!
# Numbered families in one table

The attributes of numbered members stand in one table, under keys that begin with the number of the member.  Such a key
is divided again into the number and the name (`splitKey?_flatKey`).  So a table of them is grouped into members that
hold what the table holds under their keys (`get?_of_mem_grouped`), every number that occurs once, in ascending order.
Grouping undoes flattening (`grouped_interleaved`): a table put together of members, in whatever order and with other
keys in between, is grouped into these members.
-/
namespace StyleScript.Attributes

/-- The greatest number of a member. -/
abbrev greatestNumber : Nat := 0xffffffff

/-! ## Keys of members -/

theorem point_not_mem_ofNat (n : Nat) : '.' ∉ Text.ofNat n := fun h =>
  absurd (Text.isDigit_of_mem_ofNat h) (by decide)

theorem cut?_flatKey (n : Nat) (name : Text) : Text.cut? '.' (flatKey n name) = some (Text.ofNat n, name) :=
  Text.cut?_append name (point_not_mem_ofNat n)

/-- The key of a member is divided into its number and its name, which may hold points. -/
theorem splitKey?_flatKey {n : Nat} (h : n ≤ greatestNumber) (name : Text) :
    splitKey? (flatKey n name) = some (n, name) := by
  rw [splitKey?, cut?_flatKey]
  dsimp only
  rw [Text.natural32?, Text.natural?_ofNat h, Option.map_some]

theorem flatKey_inj {m n : Nat} {x y : Text} : flatKey m x = flatKey n y ↔ m = n ∧ x = y := by
  constructor
  · intro h
    have hcut := congrArg (Text.cut? '.') h
    rw [cut?_flatKey, cut?_flatKey, Option.some_inj, Prod.mk.injEq] at hcut
    exact ⟨Text.ofNat_injective hcut.1, hcut.2⟩
  · rintro ⟨rfl, rfl⟩
    rfl

/-- No number stands before the first point of the key, if it has a point at all. -/
def Numberless (key : Text) : Prop :=
  ∀ number name, key = number ++ '.' :: name → '.' ∉ number → Text.natural32? number = none

theorem splitKey?_eq_none {key : Text} : splitKey? key = none ↔ Numberless key := by
  constructor
  · rintro h number name rfl hpoint
    rw [splitKey?, Text.cut?_append name hpoint] at h
    exact Option.map_eq_none_iff.1 h
  · intro h
    rw [splitKey?]
    cases hcut : Text.cut? '.' key with
    | none => rfl
    | some p =>
      obtain ⟨hkey, hpoint⟩ := Text.cut?_eq_some hcut
      exact Option.map_eq_none_iff.2 (h p.1 p.2 hkey hpoint)

/-- Every key is the key of a member. -/
def Numbered (attrs : Attributes) : Prop :=
  ∀ key v, attrs.get? key = some v → ∃ n name, n ≤ greatestNumber ∧ key = flatKey n name

theorem numbered_empty : Numbered ∅ := fun _ _ h => nomatch h

/-- Tables of members are compared under the keys of members. -/
theorem same_of_numbered {a b : Attributes} (ha : Numbered a) (hb : Numbered b)
    (h : ∀ n name, Text.Same (a.get? (flatKey n name)) (b.get? (flatKey n name))) (key : Text) :
    Text.Same (a.get? key) (b.get? key) := by
  by_cases hkey : ∃ n name, key = flatKey n name
  · obtain ⟨n, name, rfl⟩ := hkey
    exact h n name
  · have hnone : ∀ {attrs : Attributes}, Numbered attrs → attrs.get? key = none := fun hnumbered =>
      Option.eq_none_iff_forall_ne_some.2 fun v hv =>
        have ⟨n, name, _, hn⟩ := hnumbered key v hv
        hkey ⟨n, name, hn⟩
    rw [hnone ha, hnone hb]
    exact .none

/-! ## Members in the table -/

/-- The pairs of a member under its keys. -/
def flatPairs (n : Nat) (pairs : List (Text × Text)) : List (Text × Text) :=
  pairs.map fun (name, value) => (flatKey n name, value)

theorem keys_flatPairs_nodup (n : Nat) {pairs : List (Text × Text)} (h : (pairs.map Prod.fst).Nodup) :
    ((flatPairs n pairs).map Prod.fst).Nodup := by
  have hkeys : (flatPairs n pairs).map Prod.fst = (pairs.map Prod.fst).map (flatKey n) := by
    rw [flatPairs, List.map_map, List.map_map]
    rfl
  rw [hkeys]
  exact List.Nodup.map (fun x y hxy => (flatKey_inj.1 hxy).2) h

theorem find?_flatPairs (n m : Nat) (name : Text) : ∀ pairs : List (Text × Text),
    OrderedMap.find? (flatKey m name) (flatPairs n pairs) = if m = n then OrderedMap.find? name pairs else none
  | [] => (ite_self none).symm
  | p :: pairs => by
    have hrest := find?_flatPairs n m name pairs
    rw [flatPairs] at hrest
    rw [flatPairs, List.map_cons, OrderedMap.find?, hrest, OrderedMap.find?]
    by_cases hn : m = n
    · subst hn
      by_cases hname : p.1 = name
      · rw [if_pos (congrArg (flatKey m) hname), if_pos rfl, if_pos hname]
      · rw [if_neg fun h => hname (flatKey_inj.1 h).2, if_pos rfl, if_pos rfl, if_neg hname]
    · rw [if_neg fun h => hn (flatKey_inj.1 h).1.symm, if_neg hn, if_neg hn]

/-- A member is laid over what the table holds of it, and the other members stay. -/
theorem get?_flattenInto (target member : Attributes) (n m : Nat) (name : Text) :
    (target.flattenInto n member).get? (flatKey m name) =
      if m = n then (member.get? name).or (target.get? (flatKey m name)) else target.get? (flatKey m name) := by
  have hunion := OrderedMap.get?_union (flatKey m name) target (keys_flatPairs_nodup n member.distinct)
  rw [find?_flatPairs] at hunion
  refine hunion.trans ?_
  split
  · rfl
  · rfl

theorem numbered_flattenInto {target : Attributes} (h : Numbered target) {n : Nat} (hn : n ≤ greatestNumber)
    (member : Attributes) : Numbered (target.flattenInto n member) := by
  intro key v hv
  rcases OrderedMap.mem_or_get?_of_union hv with hmem | hold
  · obtain ⟨p, -, hp⟩ := List.mem_map.1 hmem
    exact ⟨n, p.1, hn, (congrArg Prod.fst hp).symm⟩
  · exact h key v hold

/-- Members that are all alike. -/
theorem get?_foldl_flattenInto {n : Nat} (member : Attributes) (name : Text) : ∀ (members : List (Nat × Attributes))
    (table : Attributes),
    (members.foldl (fun table other => table.flattenInto other.1 member) table).get? (flatKey n name) =
      if n ∈ members.map Prod.fst then (member.get? name).or (table.get? (flatKey n name))
      else table.get? (flatKey n name)
  | [], _ => rfl
  | other :: members, table => by
    rw [List.foldl_cons, get?_foldl_flattenInto member name members, get?_flattenInto, List.map_cons]
    by_cases hother : n = other.1
    · rw [if_pos hother, if_pos (List.mem_cons.2 (.inl hother)), ← Option.or_assoc, Option.or_self, ite_self]
    · by_cases hmem : n ∈ members.map Prod.fst
      · rw [if_neg hother, if_pos hmem, if_pos (List.mem_cons_of_mem _ hmem)]
      · rw [if_neg hother, if_neg hmem, if_neg (mt List.mem_cons.1 (not_or.2 ⟨hother, hmem⟩))]

theorem numbered_foldl_flattenInto {f : Nat × Attributes → Attributes} : ∀ {members : List (Nat × Attributes)}
    {table : Attributes}, (∀ member ∈ members, member.1 ≤ greatestNumber) → Numbered table →
    Numbered (members.foldl (fun table member => table.flattenInto member.1 (f member)) table)
  | [], _, _, h => h
  | member :: members, _, hmembers, h => by
    rw [List.forall_mem_cons] at hmembers
    rw [List.foldl_cons]
    exact numbered_foldl_flattenInto hmembers.2 (numbered_flattenInto h hmembers.1 (f member))

/-! ## Grouping -/

section

variable {groups : OrderedMap Nat Attributes} {n : Nat} {name : Text}

theorem addToGroup_flatKey (hn : n ≤ greatestNumber) (groups : OrderedMap Nat Attributes) (name v : Text) :
    addToGroup groups (flatKey n name, v) = groups.set n (((groups.get? n).getD ∅).set name v) := by
  rw [addToGroup, splitKey?_flatKey hn]
  rfl

/-- What the groups hold of a member under a name. -/
def held? (groups : OrderedMap Nat Attributes) (n : Nat) (name : Text) : Option Text :=
  (groups.get? n).bind fun group => group.get? name

theorem held?_addToGroup {m : Nat} (hm : m ≤ greatestNumber) (x v : Text) :
    held? (addToGroup groups (flatKey m x, v)) n name =
      if flatKey m x = flatKey n name then some v else held? groups n name := by
  rw [addToGroup_flatKey hm, held?, OrderedMap.get?_set, held?]
  by_cases hn : m = n
  · subst hn
    rw [if_pos rfl, Option.bind_some, OrderedMap.get?_set]
    by_cases hname : x = name
    · rw [if_pos hname, if_pos (congrArg (flatKey m) hname)]
    · rw [if_neg hname, if_neg fun h => hname (flatKey_inj.1 h).2]
      cases groups.get? m <;> rfl
  · rw [if_neg hn, if_neg fun h => hn (flatKey_inj.1 h).1]

/-- Pairs under the keys of members are added to the groups as they are laid over a table. -/
theorem held?_foldl_addToGroup : ∀ {pairs : List (Text × Text)} {groups : OrderedMap Nat Attributes},
    (∀ p ∈ pairs, ∃ n name, n ≤ greatestNumber ∧ p.1 = flatKey n name) → (pairs.map Prod.fst).Nodup →
    held? (pairs.foldl addToGroup groups) n name =
      (OrderedMap.find? (flatKey n name) pairs).or (held? groups n name)
  | [], _, _, _ => rfl
  | p :: pairs, groups, hkeys, hnodup => by
    rw [List.map_cons, List.nodup_cons] at hnodup
    rw [List.forall_mem_cons] at hkeys
    obtain ⟨⟨m, x, hm, hp⟩, hrest⟩ := hkeys
    rw [List.foldl_cons, held?_foldl_addToGroup hrest hnodup.2, OrderedMap.find?]
    have hadd : held? (addToGroup groups p) n name =
        if p.1 = flatKey n name then some p.2 else held? groups n name := by
      have := @held?_addToGroup groups n name m hm x p.2
      rwa [← hp] at this
    rw [hadd]
    by_cases hkey : p.1 = flatKey n name
    · rw [if_pos hkey, if_pos hkey, OrderedMap.find?_eq_none.2 (hkey ▸ hnodup.1), Option.none_or, Option.some_or]
    · rw [if_neg hkey, if_neg hkey]

theorem ne_empty_of_foldl_addToGroup : ∀ {pairs : List (Text × Text)} {groups : OrderedMap Nat Attributes},
    (∀ n group, groups.get? n = some group → group ≠ ∅) →
    ∀ n group, (pairs.foldl addToGroup groups).get? n = some group → group ≠ ∅
  | [], _, h => h
  | p :: pairs, groups, h => by
    refine @ne_empty_of_foldl_addToGroup pairs _ fun n group hgroup => ?_
    rw [addToGroup] at hgroup
    split at hgroup
    · next m x _ =>
      rw [OrderedMap.alter, OrderedMap.get?_set] at hgroup
      split at hgroup
      · cases hgroup
        intro hempty
        have hset := OrderedMap.get?_set ((groups.get? m).getD ∅) x x p.2
        rw [hempty, if_pos rfl] at hset
        cases hset
      · exact h n group hgroup
    · exact h n group hgroup

end

/-! ## The members of a table -/

section

variable {attrs group : Attributes} {n : Nat}

theorem mem_grouped : (n, group) ∈ attrs.grouped ↔ (attrs.pairs.foldl addToGroup ∅).get? n = some group := by
  rw [grouped, List.mem_mergeSort, OrderedMap.get?_eq_some]

theorem held?_groups (h : Numbered attrs) (n : Nat) (name : Text) :
    held? (attrs.pairs.foldl addToGroup ∅) n name = attrs.get? (flatKey n name) := by
  have hkeys : ∀ p ∈ attrs.pairs, ∃ n name, n ≤ greatestNumber ∧ p.1 = flatKey n name := fun p hp =>
    h p.1 p.2 (OrderedMap.get?_eq_some.2 hp)
  rw [held?_foldl_addToGroup hkeys attrs.distinct]
  exact Option.or_none

/-- **A member holds what the table holds under its keys.** -/
theorem get?_of_mem_grouped (h : Numbered attrs) (hmem : (n, group) ∈ attrs.grouped) (name : Text) :
    group.get? name = attrs.get? (flatKey n name) := by
  rw [← held?_groups h, held?, mem_grouped.1 hmem, Option.bind_some]

theorem exists_mem_grouped (h : Numbered attrs) {name v : Text} (hv : attrs.get? (flatKey n name) = some v) :
    ∃ group, (n, group) ∈ attrs.grouped := by
  rw [← held?_groups h] at hv
  obtain ⟨group, hgroup, -⟩ := Option.bind_eq_some_iff.1 hv
  exact ⟨group, mem_grouped.2 hgroup⟩

theorem ne_empty_of_mem_grouped (hmem : (n, group) ∈ attrs.grouped) : group ≠ ∅ :=
  @ne_empty_of_foldl_addToGroup attrs.pairs ∅ (fun _ _ h => nomatch h) n group (mem_grouped.1 hmem)

theorem le_of_mem_grouped (h : Numbered attrs) (hmem : (n, group) ∈ attrs.grouped) : n ≤ greatestNumber := by
  obtain ⟨name, v, hv⟩ := OrderedMap.exists_get?_of_ne_empty (ne_empty_of_mem_grouped hmem)
  rw [get?_of_mem_grouped h hmem] at hv
  obtain ⟨m, x, hm, hkey⟩ := h _ v hv
  rw [(flatKey_inj.1 hkey).1]
  exact hm

/-- Sorted members stand by their numbers. -/
theorem pairwise_mergeSort_numbers (members : List (Nat × Attributes)) :
    (members.mergeSort fun a b => a.1 ≤ b.1).Pairwise fun a b => decide (a.1 ≤ b.1) := by
  refine @List.pairwise_mergeSort _ (fun a b : Nat × Attributes => decide (a.1 ≤ b.1)) ?_ ?_ members
  · exact fun a b c hab hbc => decide_eq_true (Nat.le_trans (of_decide_eq_true hab) (of_decide_eq_true hbc))
  · exact fun a b => by simpa using Nat.le_total a.1 b.1

/-- Sorted members with numbers of their own ascend. -/
theorem pairwise_mergeSort_of_nodup {members : List (Nat × Attributes)} (h : (members.map Prod.fst).Nodup) :
    ((members.mergeSort fun a b => a.1 ≤ b.1).map Prod.fst).Pairwise (· < ·) := by
  have hperm := List.mergeSort_perm members fun a b => a.1 ≤ b.1
  have hdistinct := (hperm.map Prod.fst).nodup_iff.2 h
  rw [List.pairwise_map]
  refine (pairwise_mergeSort_numbers members).imp₂ (fun a b hle hne => ?_) (List.pairwise_map.1 hdistinct)
  exact Nat.lt_of_le_of_ne (of_decide_eq_true hle) hne

/-- There is one ascending order of members. -/
theorem eq_of_perm_of_ascending {members ascending : List (Nat × Attributes)}
    (hmembers : (members.map Prod.fst).Pairwise (· < ·)) (hascending : (ascending.map Prod.fst).Pairwise (· < ·))
    (hperm : members.Perm ascending) : members = ascending := by
  rw [List.pairwise_map] at hmembers hascending
  exact hperm.eq_of_pairwise (fun _ _ _ _ hlt hgt => absurd hgt (Nat.lt_asymm hlt)) hmembers hascending

/-- Every number occurs once, and the numbers ascend. -/
theorem pairwise_grouped (attrs : Attributes) : (attrs.grouped.map Prod.fst).Pairwise (· < ·) :=
  pairwise_mergeSort_of_nodup (attrs.pairs.foldl addToGroup ∅).distinct

end

/-! ## Tables put together of members -/

section

variable {members : List (Nat × Attributes)}

/-- The table of members. -/
def assembled (members : List (Nat × Attributes)) : Attributes :=
  members.foldl (fun table member => table.flattenInto member.1 member.2) ∅

/-- The pairs of members under their keys. -/
def assembledPairs (members : List (Nat × Attributes)) : List (Text × Text) :=
  members.flatMap fun member => flatPairs member.1 member.2.pairs

theorem keys_assembledPairs_nodup (h : (members.map Prod.fst).Nodup) :
    ((assembledPairs members).map Prod.fst).Nodup := by
  rw [assembledPairs, List.map_flatMap, List.nodup_flatMap]
  refine ⟨fun member _ => keys_flatPairs_nodup member.1 member.2.distinct, ?_⟩
  refine (List.pairwise_map.1 h).imp fun {m n} hne => ?_
  intro key hm hn
  obtain ⟨p, hp, rfl⟩ := List.mem_map.1 hm
  obtain ⟨q, hq, heq⟩ := List.mem_map.1 hn
  obtain ⟨x, -, rfl⟩ := List.mem_map.1 hp
  obtain ⟨y, -, rfl⟩ := List.mem_map.1 hq
  exact hne (flatKey_inj.1 heq).1.symm

theorem assembled_eq_ofList (members : List (Nat × Attributes)) :
    assembled members = OrderedMap.ofList (assembledPairs members) := by
  have hfold : ∀ (members : List (Nat × Attributes)) (table : Attributes),
      members.foldl (fun table member => table.flattenInto member.1 member.2) table =
        table.union (assembledPairs members) := by
    intro members
    induction members with
    | nil => exact fun _ => rfl
    | cons member members ih =>
      intro table
      rw [List.foldl_cons, ih, assembledPairs, assembledPairs, List.flatMap_cons, OrderedMap.union_append]
      rfl
  exact hfold members ∅

/-- The members stand behind one another in their table. -/
theorem pairs_assembled (h : (members.map Prod.fst).Nodup) : (assembled members).pairs = assembledPairs members := by
  rw [assembled_eq_ofList, OrderedMap.pairs_ofList (keys_assembledPairs_nodup h)]

theorem find?_assembledPairs {n : Nat} (name : Text) : ∀ {members : List (Nat × Attributes)},
    (members.map Prod.fst).Nodup → OrderedMap.find? (flatKey n name) (assembledPairs members) =
      (OrderedMap.find? n members).bind fun member => member.get? name
  | [], _ => rfl
  | (m, member) :: members, h => by
    rw [List.map_cons, List.nodup_cons] at h
    rw [assembledPairs, List.flatMap_cons, OrderedMap.find?_append, find?_flatPairs, OrderedMap.find?]
    refine (congrArg _ (find?_assembledPairs name h.2)).trans ?_
    by_cases hm : m = n
    · subst hm
      rw [if_pos rfl, if_pos rfl, OrderedMap.find?_eq_none.2 h.1]
      exact Option.or_none
    · rw [if_neg (Ne.symm hm), if_neg hm, Option.none_or]

/-- What a table of members holds under the key of one is what this member holds. -/
theorem get?_assembled (h : (members.map Prod.fst).Nodup) (n : Nat) (name : Text) :
    (assembled members).get? (flatKey n name) =
      (OrderedMap.find? n members).bind fun member => member.get? name := by
  rw [OrderedMap.get?, pairs_assembled h, find?_assembledPairs name h]

/-- The pairs of the last member are grouped into it. -/
theorem pairs_foldl_flatPairs {n : Nat} (hn : n ≤ greatestNumber) {others : List (Nat × Attributes)}
    (hnew : n ∉ others.map Prod.fst) : ∀ {pairs : List (Text × Text)} {groups : OrderedMap Nat Attributes}
    {member : Attributes}, groups.pairs = others ++ [(n, member)] →
    ((flatPairs n pairs).foldl addToGroup groups).pairs = others ++ [(n, member.union pairs)]
  | [], _, _, h => h
  | p :: pairs, groups, member, h => by
    have hget : groups.get? n = some member := by
      rw [OrderedMap.get?, h, OrderedMap.find?_append, OrderedMap.find?_eq_none.2 hnew]
      exact if_pos rfl
    have hadd : (addToGroup groups (flatKey n p.1, p.2)).pairs = others ++ [(n, member.set p.1 p.2)] := by
      rw [addToGroup_flatKey hn, hget]
      show OrderedMap.setIn n _ groups.pairs = _
      rw [h, OrderedMap.setIn_concat _ _ hnew]
      rfl
    rw [flatPairs, List.map_cons, List.foldl_cons, OrderedMap.union_cons]
    exact pairs_foldl_flatPairs hn hnew hadd

/-- Members with numbers of their own are grouped behind the others, each into itself. -/
theorem pairs_foldl_assembledPairs : ∀ {members : List (Nat × Attributes)} {groups : OrderedMap Nat Attributes},
    (∀ member ∈ members, member.1 ≤ greatestNumber ∧ member.2 ≠ ∅) →
    ((groups.pairs ++ members).map Prod.fst).Nodup →
    ((assembledPairs members).foldl addToGroup groups).pairs = groups.pairs ++ members
  | [], _, _, _ => (List.append_nil _).symm
  | (n, member) :: members, groups, h, hnodup => by
    obtain ⟨⟨hn, hne⟩, hmembers⟩ := List.forall_mem_cons.1 h
    have hnew : n ∉ groups.keys := by
      rw [List.map_append, List.nodup_append] at hnodup
      exact fun hmem => hnodup.2.2 n hmem n List.mem_cons_self rfl
    obtain ⟨p, pairs, hpairs⟩ := List.exists_cons_of_ne_nil fun hnil : member.pairs = [] => hne (OrderedMap.ext hnil)
    -- the first pair opens the group, and the others go on in it
    have hfirst : (addToGroup groups (flatKey n p.1, p.2)).pairs = groups.pairs ++ [(n, OrderedMap.set ∅ p.1 p.2)] := by
      rw [addToGroup_flatKey hn, OrderedMap.get?_eq_none.2 hnew, OrderedMap.pairs_set_of_not_mem _ _ hnew]
      rfl
    have hmember : ((flatPairs n member.pairs).foldl addToGroup groups).pairs = groups.pairs ++ [(n, member)] := by
      rw [hpairs]
      refine (pairs_foldl_flatPairs hn hnew hfirst).trans ?_
      rw [← OrderedMap.union_cons, ← hpairs]
      exact congrArg (fun m => groups.pairs ++ [(n, m)]) (OrderedMap.ofList_pairs member)
    rw [assembledPairs, List.flatMap_cons, List.foldl_append]
    refine (pairs_foldl_assembledPairs hmembers ?_).trans ?_
    · rwa [hmember, List.append_assoc]
    · rw [hmember, List.append_assoc]
      rfl

/-- A table put together of members with numbers of their own is grouped into these members. -/
theorem perm_grouped_assembled (hdistinct : (members.map Prod.fst).Nodup)
    (h : ∀ member ∈ members, member.1 ≤ greatestNumber ∧ member.2 ≠ ∅) :
    (assembled members).grouped.Perm members := by
  have hgroups : ((assembled members).pairs.foldl addToGroup ∅).pairs = members := by
    rw [pairs_assembled hdistinct]
    exact pairs_foldl_assembledPairs h hdistinct
  rw [grouped, hgroups]
  exact List.mergeSort_perm members _

/-- **A table put together of members in ascending order is grouped into these members, in this order.** -/
theorem grouped_assembled (hsorted : (members.map Prod.fst).Pairwise (· < ·))
    (h : ∀ member ∈ members, member.1 ≤ greatestNumber ∧ member.2 ≠ ∅) : (assembled members).grouped = members :=
  eq_of_perm_of_ascending (pairwise_grouped _) hsorted (perm_grouped_assembled (hsorted.imp Nat.ne_of_lt) h)

end

/-! ## Other keys in between -/

/-- Whether a key is divided into a number and a name. -/
def hasNumber (key : Text) : Bool := (splitKey? key).isSome

/-- The pairs of a row in their order, and anywhere between them pairs whose keys have no number. -/
inductive Interleaved : List (Text × Text) → List (Text × Text) → Prop
  | nil : Interleaved [] []
  | row {row entries : List (Text × Text)} (p : Text × Text) : Interleaved row entries →
      Interleaved (p :: row) (p :: entries)
  | other {row entries : List (Text × Text)} {key : Text} (v : Text) : Numberless key → Interleaved row entries →
      Interleaved row ((key, v) :: entries)

theorem Interleaved.filter_eq {row entries : List (Text × Text)} (h : Interleaved row entries)
    (hrow : ∀ p ∈ row, hasNumber p.1) : entries.filter (fun p => hasNumber p.1) = row := by
  induction h with
  | nil => rfl
  | row p _ ih =>
    rw [List.forall_mem_cons] at hrow
    rw [List.filter_cons, if_pos hrow.1, ih hrow.2]
  | @other _ _ key v hkey _ ih =>
    have hother : hasNumber key = false := congrArg Option.isSome (splitKey?_eq_none.2 hkey)
    rw [List.filter_cons, hother, if_neg Bool.false_ne_true, ih hrow]

theorem foldl_addToGroup_filter : ∀ (pairs : List (Text × Text)) (groups : OrderedMap Nat Attributes),
    (pairs.filter fun p => hasNumber p.1).foldl addToGroup groups = pairs.foldl addToGroup groups
  | [], _ => rfl
  | p :: pairs, groups => by
    rw [List.filter_cons, List.foldl_cons]
    split
    · rw [List.foldl_cons, foldl_addToGroup_filter pairs]
    · next hkey =>
      have hnone : splitKey? p.1 = none := by simpa [hasNumber] using hkey
      have hsame : addToGroup groups p = groups := by rw [addToGroup, hnone]
      rw [foldl_addToGroup_filter pairs, hsame]

/-- Keys without a number take no part in the members of a table. -/
theorem grouped_filter (attrs : Attributes) : grouped (attrs.filter fun key _ => hasNumber key) = attrs.grouped :=
  congrArg (fun groups : OrderedMap Nat Attributes => groups.pairs.mergeSort fun a b => a.1 ≤ b.1)
    (foldl_addToGroup_filter attrs.pairs ∅)

theorem hasNumber_of_mem_assembledPairs {members : List (Nat × Attributes)}
    (h : ∀ member ∈ members, member.1 ≤ greatestNumber) : ∀ p ∈ assembledPairs members, hasNumber p.1 := by
  intro p hp
  obtain ⟨member, hmember, hp⟩ := List.mem_flatMap.1 hp
  obtain ⟨q, -, rfl⟩ := List.mem_map.1 hp
  exact congrArg Option.isSome (splitKey?_flatKey (h member hmember) q.1)

/-- A row of pairs is grouped as it is with other keys anywhere between them. -/
theorem grouped_ofList_of_interleaved {row entries : List (Text × Text)} (h : Interleaved row entries)
    (hrow : ∀ p ∈ row, hasNumber p.1) : grouped (OrderedMap.ofList entries) = grouped (OrderedMap.ofList row) := by
  have hfilter : (OrderedMap.ofList entries).filter (fun key _ => hasNumber key) = OrderedMap.ofList row := by
    have hunion := OrderedMap.filter_union hasNumber entries ∅
    rw [h.filter_eq hrow] at hunion
    exact hunion
  rw [← grouped_filter, hfilter]

/-- **Flattening and grouping are inverse.**  Members with numbers of their own are put into a table in any order and
come back as they were, their attributes in their order, sorted by their numbers; and so they do with other keys
set anywhere between their attributes. -/
theorem grouped_interleaved {members arrived : List (Nat × Attributes)} {entries : List (Text × Text)}
    (hdistinct : (members.map Prod.fst).Nodup)
    (hmembers : ∀ member ∈ members, member.1 ≤ greatestNumber ∧ member.2 ≠ ∅) (harrived : arrived.Perm members)
    (hentries : Interleaved (assembledPairs arrived) entries) :
    (assembled arrived).grouped.Perm members ∧ ((assembled arrived).grouped.map Prod.fst).Pairwise (· < ·) ∧
      grouped (OrderedMap.ofList entries) = (assembled arrived).grouped := by
  have hnodup : (arrived.map Prod.fst).Nodup := (harrived.map Prod.fst).nodup_iff.2 hdistinct
  have hall : ∀ member ∈ arrived, member.1 ≤ greatestNumber ∧ member.2 ≠ ∅ := fun member hmember =>
    hmembers member (harrived.subset hmember)
  refine ⟨?_, pairwise_grouped _, ?_⟩
  · exact (perm_grouped_assembled hnodup hall).trans harrived
  · rw [assembled_eq_ofList]
    exact grouped_ofList_of_interleaved hentries
      (hasNumber_of_mem_assembledPairs fun member hmember => (hall member hmember).1)

/-- The tenth member comes first, its names hold a point or nothing at all, and the other keys have no number of 32
bits. -/
theorem grouped_of_dottedNames :
    grouped (.table [("~", ""), ("10.a.b", "1"), ("4294967296.r", "0"), ("10.", "2"), ("junk", "x"), ("9.x", "3"),
      ("-1.r", "5")]) = [(9, .table [("x", "3")]), (10, .table [("a.b", "1"), ("", "2")])] := by
  have hnone : ∀ key ∈ (["~", "4294967296.r", "junk", "-1.r"] : List Text), splitKey? key = none := by decide
  have hother := fun key hkey => splitKey?_eq_none.1 (hnone key hkey)
  have hentries := Interleaved.other [] (hother "~" (by decide)) (.row ("10.a.b", "1")
    (.other "0" (hother "4294967296.r" (by decide)) (.row ("10.", "2") (.other "x" (hother "junk" (by decide))
      (.row ("9.x", "3") (.other "5" (hother "-1.r" (by decide)) .nil))))))
  obtain ⟨hperm, hsorted, hsame⟩ := @grouped_interleaved
    [(9, .table [("x", "3")]), (10, .table [("a.b", "1"), ("", "2")])]
    [(10, .table [("a.b", "1"), ("", "2")]), (9, .table [("x", "3")])] _
    (by decide) (by decide) (.swap ..) hentries
  exact hsame.trans (eq_of_perm_of_ascending hsorted (by decide) hperm)

end StyleScript.Attributes
