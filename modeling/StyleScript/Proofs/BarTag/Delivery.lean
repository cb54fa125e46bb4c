import StyleScript.Proofs.BarTag.Contents
import StyleScript.Proofs.Markup.Collected
/-!
# Bars on the way to the host and back

The host is told of a bar by tags, one for the color and one for each of six other attributes (`tagPairs`).  Of the tags
is collected what the bar holds under these keys and nothing else (`get?_arrived`): there is no tag for an inverse
filling, nor for a color of expressions.  So the bars arrive exactly if each holds something for which there is a tag,
and beside that only defaults (`bars_delivered`).
-/
namespace StyleScript.BarTag

open Attributes (flatKey flatPairs greatestNumber held? assembledPairs Numbered)
open Color (Content Says)
open Markup (Collector collected)
open Text (Same same_refl)

/-! ## The tags of a bar -/

/-- The channels of a color of bytes. -/
def channels : List Text := ["r", "g", "b"].map String.toList

/-- The attributes for which there is a tag, the three channels together. -/
def carriedKeys : List Text := channels ++ hostKeys.map Prod.fst

/-- The text that tells a color. -/
def colorText (r g b : Text) : Text := "rgb(" ++ Text.join "," [r, g, b] ++ ")"

def colorPair (group : Attributes) : List (Text × Text) :=
  match group.get? "r", group.get? "g", group.get? "b" with
  | some r, some g, some b => [("barColor", colorText r g b)]
  | _, _, _ => []

/-- What the host is told of a bar, under the keys of the host. -/
def tagPairs (group : Attributes) : List (Text × Text) :=
  colorPair group ++ (hostKeys.map Prod.swap).filterMap fun row => (group.get? row.2).map (row.1, ·)

def tagsOf (group : Attributes) : Attributes := OrderedMap.ofList (tagPairs group)

/-- The tags are those by which the host is told of the bar. -/
def Tells (tags group : Attributes) : Prop := ∀ key, tags.get? key = OrderedMap.find? key (tagPairs group)

theorem barRoutes_eq (n : Nat) (group : Attributes) :
    barRoutes n group = (tagPairs group).map fun tag => route n tag.1 tag.2 := by
  have hcolor : barRoutes n group = (colorPair group).map (fun tag => route n tag.1 tag.2) ++
      hostKeys.filterMap fun row => (group.get? row.1).map (route n row.2) := by
    unfold barRoutes colorPair
    cases group.get? "r" with
    | none => rfl
    | some r =>
      cases group.get? "g" with
      | none => rfl
      | some g => cases group.get? "b" <;> rfl
  unfold tagPairs
  rw [hcolor, List.map_append, List.filterMap_map, List.map_filterMap]
  congr 1
  apply congrArg fun f => hostKeys.filterMap f
  funext row
  simp [Function.comp_def]

theorem keys_tagPairs_nodup (group : Attributes) : ((tagPairs group).map Prod.fst).Nodup := by
  have hall : (("barColor" : Text) :: (hostKeys.map Prod.swap).map Prod.fst).Nodup := by decide
  refine List.Nodup.sublist ?_ hall
  unfold tagPairs
  rw [List.map_append, ← List.singleton_append]
  apply List.Sublist.append
  · unfold colorPair
    split
    · exact List.Sublist.refl _
    · exact List.nil_sublist _
  · exact OrderedMap.keys_filterMap_sublist group.get? (hostKeys.map Prod.swap)

theorem find?_barColor (group : Attributes) :
    OrderedMap.find? ("barColor" : Text) (tagPairs group) = OrderedMap.find? ("barColor" : Text) (colorPair group) := by
  have hnone : OrderedMap.find? ("barColor" : Text) (hostKeys.map Prod.swap) = none := by decide
  unfold tagPairs
  rw [OrderedMap.find?_append, OrderedMap.find?_filterMap group.get? _ (by decide), hnone]
  exact Option.or_none

theorem find?_hostKey {name key : Text} (h : (name, key) ∈ hostKeys) (group : Attributes) :
    OrderedMap.find? key (tagPairs group) = group.get? name := by
  have hkeys : ∀ row ∈ hostKeys, row.2 ≠ "barColor" ∧
      OrderedMap.find? row.2 (hostKeys.map Prod.swap) = some row.1 := by decide
  have hcolor : OrderedMap.find? key (colorPair group) = none := by
    unfold colorPair
    split
    · exact if_neg (Ne.symm (hkeys _ h).1)
    · rfl
  unfold tagPairs
  rw [OrderedMap.find?_append, hcolor, Option.none_or, OrderedMap.find?_filterMap group.get? _ (by decide),
    (hkeys _ h).2, Option.bind_some]

/-! ## One bar, told and collected -/

section

variable {group tags : Attributes} {c : Content} {name : Text}

/-- The channels come together. -/
theorem get?_channels (h : Says group c) : group.get? "r" = (c.hex.map fun hex => Text.ofNat hex.red) ∧
    group.get? "g" = (c.hex.map fun hex => Text.ofNat hex.green) ∧
    group.get? "b" = c.hex.map fun hex => Text.ofNat hex.blue :=
  ⟨h.get? "r", h.get? "g", h.get? "b"⟩

theorem find?_barColor_of_says (h : Says group c) : OrderedMap.find? ("barColor" : Text) (tagPairs group) =
    c.hex.map fun hex => colorText (Text.ofNat hex.red) (Text.ofNat hex.green) (Text.ofNat hex.blue) := by
  obtain ⟨hred, hgreen, hblue⟩ := get?_channels h
  rw [find?_barColor]
  unfold colorPair
  rw [hred, hgreen, hblue]
  cases c.hex <;> rfl

/-- The color is collected channel by channel. -/
theorem barColor_eq (h : Says group c) (htags : Tells tags group) :
    Collector.barColor tags =
      (c.hex.map fun hex => channels.zip [Text.ofNat hex.red, Text.ofNat hex.green, Text.ofNat hex.blue]).getD [] := by
  unfold Collector.barColor
  rw [htags, find?_barColor_of_says h]
  cases c.hex with
  | none => rfl
  | some hex =>
    simp only [Option.map_some, Option.bind_some, colorText, Collector.components?_bytes]
    rfl

theorem find?_barColor_tags (h : Says group c) (htags : Tells tags group) :
    OrderedMap.find? name (Collector.barColor tags) = if name ∈ channels then group.get? name else none := by
  rw [barColor_eq h htags]
  by_cases hname : name ∈ channels
  · rw [if_pos hname]
    obtain ⟨hred, hgreen, hblue⟩ := get?_channels h
    simp only [channels, List.map_cons, List.map_nil, List.mem_cons, List.not_mem_nil, or_false] at hname
    rcases hname with rfl | rfl | rfl
    · rw [hred]
      cases c.hex <;> rfl
    · rw [hgreen]
      cases c.hex <;> rfl
    · rw [hblue]
      cases c.hex <;> rfl
  · rw [if_neg hname, OrderedMap.find?_eq_none]
    intro hmem
    cases hhex : c.hex with
    | none => simp [hhex] at hmem
    | some hex =>
      rw [hhex] at hmem
      exact hname hmem

theorem find?_hostPairs (htags : Tells tags group) (name : Text) :
    OrderedMap.find? name (hostKeys.filterMap fun (attr, key) => (tags.get? key).map fun value => (attr, value)) =
      if name ∈ hostKeys.map Prod.fst then group.get? name else none := by
  have hnodup : (hostKeys.map Prod.fst).Nodup := by decide
  refine (OrderedMap.find?_filterMap tags.get? name hnodup).trans ?_
  cases hkey : OrderedMap.find? name hostKeys with
  | none => rw [if_neg (OrderedMap.find?_eq_none.1 hkey), Option.bind_none]
  | some key =>
    have hmem := (OrderedMap.find?_eq_some hnodup).1 hkey
    rw [if_pos (List.mem_map_of_mem hmem), Option.bind_some, htags, find?_hostKey hmem]

/-- **Of the tags of a bar is collected what the bar holds under the keys that are carried.** -/
theorem get?_barAttributes (h : Says group c) (htags : Tells tags group) (name : Text) :
    (Collector.barAttributes tags).get? name = if name ∈ carriedKeys then group.get? name else none := by
  have hnodup : ((Collector.barColor tags ++ hostKeys.filterMap fun (attr, key) =>
      (tags.get? key).map fun value => (attr, value)).map Prod.fst).Nodup := by
    refine List.Nodup.sublist ?_ (by decide : carriedKeys.Nodup)
    rw [List.map_append]
    apply List.Sublist.append
    · rw [barColor_eq h htags]
      cases c.hex with
      | none => exact List.nil_sublist _
      | some hex => exact List.Sublist.refl _
    · exact OrderedMap.keys_filterMap_sublist tags.get? hostKeys
  unfold Collector.barAttributes
  rw [OrderedMap.get?_ofList hnodup, OrderedMap.find?_append, find?_barColor_tags h htags, find?_hostPairs htags]
  unfold carriedKeys
  simp only [List.mem_append]
  by_cases hchannel : name ∈ channels
  · by_cases hhost : name ∈ hostKeys.map Prod.fst
    · rw [if_pos hchannel, if_pos hhost, if_pos (.inl hchannel), Option.or_self]
    · rw [if_pos hchannel, if_neg hhost, if_pos (.inl hchannel), Option.or_none]
  · simp only [hchannel, if_false, Option.none_or, false_or]

end

/-! ## All bars, told and collected -/

theorem tell_route {n : Nat} (hn : n ≤ greatestNumber) (c : Collector) (key value : Text) :
    c.tell (route n key value) = { c with bars := Attributes.addToGroup c.bars (flatKey n key, value) } := by
  have hnumber : OrderedMap.get? (OrderedMap.ofList [(("barNumber" : Text), Text.ofNat n), ("key", key),
      ("value", value)]) "barNumber" = some (Text.ofNat n) := rfl
  rw [Attributes.addToGroup_flatKey hn]
  show c.addTag _ = _
  unfold Collector.addTag
  rw [hnumber, Option.bind_some, Collector.natural32?_trim_ofNat hn]
  rfl

theorem foldl_tell_tags {n : Nat} (hn : n ≤ greatestNumber) : ∀ (tags : List (Text × Text)) (c : Collector),
    (tags.map fun tag => route n tag.1 tag.2).foldl Collector.tell c =
      { c with bars := (flatPairs n tags).foldl Attributes.addToGroup c.bars }
  | [], _ => rfl
  | tag :: tags, c => by
    rw [List.map_cons, List.foldl_cons, tell_route hn, foldl_tell_tags hn tags]
    rfl

/-- A bar with its tags. -/
def tagged (bar : Nat × Attributes) : Nat × Attributes := (bar.1, tagsOf bar.2)

theorem foldl_tell_bars : ∀ {bars : List (Nat × Attributes)} (c : Collector), (∀ bar ∈ bars, bar.1 ≤ greatestNumber) →
    (bars.flatMap fun (n, group) => barRoutes n group).foldl Collector.tell c =
      { c with bars := (assembledPairs (bars.map tagged)).foldl Attributes.addToGroup c.bars }
  | [], _, _ => rfl
  | (n, group) :: bars, c, h => by
    rw [List.forall_mem_cons] at h
    have htags : (tagsOf group).pairs = tagPairs group := OrderedMap.pairs_ofList (keys_tagPairs_nodup group)
    rw [List.flatMap_cons, List.foldl_append, foldl_tell_bars _ h.2]
    dsimp only
    rw [barRoutes_eq, foldl_tell_tags h.1, ← htags, List.map_cons]
    unfold assembledPairs
    rw [List.flatMap_cons, List.foldl_append]
    rfl

/-- The tags that are collected of all bars. -/
def collectedTags (attrs : Attributes) : OrderedMap Nat Attributes :=
  (assembledPairs (attrs.grouped.map tagged)).foldl Attributes.addToGroup ∅

/-- The bars that arrive, each with what was collected of its tags. -/
def arrivals (attrs : Attributes) : List (Nat × Attributes) :=
  (Collector.sorted (collectedTags attrs)).map fun bar => (bar.1, Collector.barAttributes bar.2)

/-- What arrives of the bars. -/
def arrived (attrs : Attributes) : Attributes := Attributes.assembled (arrivals attrs)

theorem collected_routes {attrs : Attributes} (h : Numbered attrs) :
    collected (format.routes attrs) = Collector.withFamily ∅ "tag" (arrived attrs) := by
  unfold collected
  show Collector.finish ((attrs.grouped.flatMap fun (n, group) => barRoutes n group).foldl Collector.tell {}) = _
  rw [foldl_tell_bars {} fun bar hbar => Attributes.le_of_mem_grouped h hbar]
  exact Collector.finish_bars (collectedTags attrs)

section

variable {attrs : Attributes} {contents : Nat → Content} {n : Nat}

/-- What the attributes say of a bar, of most bars nothing. -/
def barOf (attrs : Attributes) (n : Nat) : Attributes := (OrderedMap.find? n attrs.grouped).getD ∅

theorem numbers_nodup (attrs : Attributes) : (attrs.grouped.map Prod.fst).Nodup :=
  (Attributes.pairwise_grouped attrs).imp Nat.ne_of_lt

theorem Told.says_barOf (h : Told attrs contents) (n : Nat) : Says (barOf attrs n) (contents n) := by
  unfold barOf
  cases hbar : OrderedMap.find? n attrs.grouped with
  | some group => exact h.says_of_mem ((OrderedMap.find?_eq_some (numbers_nodup attrs)).1 hbar)
  | none =>
    rw [not_not.1 (mt h.mem_numbers.2 (OrderedMap.find?_eq_none.1 hbar))]
    exact Color.says_empty

theorem Told.get?_barOf (h : Told attrs contents) (n : Nat) (name : Text) :
    (barOf attrs n).get? name = attrs.get? (flatKey n name) := by
  rw [h.says_barOf n name, h.get?]

/-- The tags of a bar are collected as they were told. -/
theorem held?_collectedTags (h : Numbered attrs) (n : Nat) (key : Text) :
    held? (collectedTags attrs) n key = OrderedMap.find? key (tagPairs (barOf attrs n)) := by
  have hnodup : ((attrs.grouped.map tagged).map Prod.fst).Nodup := by
    rw [List.map_map]
    exact numbers_nodup attrs
  have hkeys : ∀ p ∈ assembledPairs (attrs.grouped.map tagged),
      ∃ n name, n ≤ greatestNumber ∧ p.1 = flatKey n name := by
    intro p hp
    obtain ⟨_, htagged, hp⟩ := List.mem_flatMap.1 hp
    obtain ⟨bar, hbar, rfl⟩ := List.mem_map.1 htagged
    obtain ⟨tag, -, rfl⟩ := List.mem_map.1 hp
    exact ⟨bar.1, tag.1, Attributes.le_of_mem_grouped h hbar, rfl⟩
  unfold collectedTags barOf
  rw [Attributes.held?_foldl_addToGroup hkeys (Attributes.keys_assembledPairs_nodup hnodup),
    Attributes.find?_assembledPairs key hnodup]
  refine Option.or_none.trans ?_
  unfold tagged
  rw [OrderedMap.find?_map_snd tagsOf n attrs.grouped]
  cases OrderedMap.find? n attrs.grouped with
  | none => rfl
  | some group => exact OrderedMap.get?_ofList (keys_tagPairs_nodup group)

/-- **What arrives of a bar is what it holds under the keys that are carried.** -/
theorem get?_arrived (h : Told attrs contents) (n : Nat) (name : Text) :
    (arrived attrs).get? (flatKey n name) = if name ∈ carriedKeys then attrs.get? (flatKey n name) else none := by
  have hperm := List.mergeSort_perm (collectedTags attrs).pairs fun a b => a.1 ≤ b.1
  have hnodup : ((Collector.sorted (collectedTags attrs)).map Prod.fst).Nodup :=
    (hperm.map Prod.fst).nodup_iff.2 (collectedTags attrs).distinct
  have harrivals : ((arrivals attrs).map Prod.fst).Nodup := by
    unfold arrivals
    rwa [List.map_map]
  -- a bar none of whose tags was collected has no attributes either
  have hbar : ((collectedTags attrs).get? n).bind (fun tags => (Collector.barAttributes tags).get? name) =
      (Collector.barAttributes (((collectedTags attrs).get? n).getD ∅)).get? name := by
    cases (collectedTags attrs).get? n <;> rfl
  have htags : Tells (((collectedTags attrs).get? n).getD ∅) (barOf attrs n) := by
    intro key
    rw [← held?_collectedTags h.numbered]
    unfold held?
    cases (collectedTags attrs).get? n <;> rfl
  unfold arrived
  rw [Attributes.get?_assembled harrivals]
  unfold arrivals
  rw [OrderedMap.find?_map_snd Collector.barAttributes, OrderedMap.find?_of_perm hnodup hperm, Option.bind_map]
  refine hbar.trans ?_
  rw [get?_barAttributes (h.says_barOf n) htags, h.get?_barOf]

theorem numbered_arrived (h : Numbered attrs) : Numbered (arrived attrs) := by
  refine Attributes.numbered_foldl_flattenInto (fun bar hbar => ?_) Attributes.numbered_empty
  obtain ⟨⟨n, tags⟩, htags, rfl⟩ := List.mem_map.1 hbar
  have hget : (collectedTags attrs).get? n = some tags := OrderedMap.get?_eq_some.2 (List.mem_mergeSort.1 htags)
  have hne : tags ≠ ∅ := @Attributes.ne_empty_of_foldl_addToGroup _ ∅ (fun _ _ hnone => nomatch hnone) n tags hget
  obtain ⟨key, v, hv⟩ := OrderedMap.exists_get?_of_ne_empty hne
  have hheld : held? (collectedTags attrs) n key = some v := by
    unfold held?
    rw [hget, Option.bind_some, hv]
  rw [held?_collectedTags h] at hheld
  unfold barOf at hheld
  cases hfound : OrderedMap.find? n attrs.grouped with
  | none =>
    rw [hfound] at hheld
    cases hheld
  | some group => exact Attributes.le_of_mem_grouped h ((OrderedMap.find?_eq_some (numbers_nodup attrs)).1 hfound)

/-! ## Bars that arrive -/

/-- A bar that arrives: there is a tag for something that it holds, and what has no tag says the same as its default. -/
structure Carried (group : Attributes) : Prop where
  told : ∃ name ∈ carriedKeys, group.contains name
  others : ∀ name v, group.get? name = some v → name ∉ carriedKeys →
    ∃ default, Color.defaults.get? name = some default ∧ Text.sameValue v default

theorem mem_numbers_iff_of_numbered (h : Numbered attrs) :
    n ∈ numbers attrs ↔ ∃ name v, attrs.get? (flatKey n name) = some v := by
  rw [mem_numbers]
  constructor
  · rintro ⟨group, hmem⟩
    obtain ⟨name, v, hv⟩ := OrderedMap.exists_get?_of_ne_empty (Attributes.ne_empty_of_mem_grouped hmem)
    exact ⟨name, v, (Attributes.get?_of_mem_grouped h hmem name).symm.trans hv⟩
  · rintro ⟨name, v, hv⟩
    exact Attributes.exists_mem_grouped h hv

/-- A bar arrives if there is a tag for something that it holds. -/
theorem mem_numbers_arrived {group : Attributes} (h : Told attrs contents) (hmem : (n, group) ∈ attrs.grouped) :
    n ∈ numbers (arrived attrs) ↔ ∃ name ∈ carriedKeys, group.contains name := by
  rw [mem_numbers_iff_of_numbered (numbered_arrived h.numbered)]
  simp only [get?_arrived h, ← Attributes.get?_of_mem_grouped h.numbered hmem]
  constructor
  · rintro ⟨name, v, hv⟩
    split at hv
    · next hname =>
      refine ⟨name, hname, ?_⟩
      rw [OrderedMap.contains, hv]
      rfl
    · cases hv
  · rintro ⟨name, hname, hcontains⟩
    obtain ⟨v, hv⟩ := Option.isSome_iff_exists.1 hcontains
    exact ⟨name, v, by rw [if_pos hname, hv]⟩

/-- A bar says the same as what arrives of it exactly if it is carried. -/
theorem same_arrived_iff {group : Attributes} (h : Told attrs contents) (hmem : (n, group) ∈ attrs.grouped) :
    (∀ name, Same ((complete attrs).get? (flatKey n name)) ((complete (arrived attrs)).get? (flatKey n name))) ↔
      Carried group := by
  have hthere : n ∈ numbers attrs := mem_numbers.2 ⟨group, hmem⟩
  simp only [get?_complete, if_pos hthere, get?_arrived h, ← Attributes.get?_of_mem_grouped h.numbered hmem]
  constructor
  · intro hsame
    have harrived : n ∈ numbers (arrived attrs) := by
      by_contra hlost
      -- a bar that is lost has no defaults, and those of a bar that is there are not lost
      have halpha := hsame "alpha"
      have hnone : ¬∃ name ∈ carriedKeys, group.contains name := mt (mem_numbers_arrived h hmem).2 hlost
      rw [if_neg hlost, if_pos (by decide)] at halpha
      cases hvalue : group.get? "alpha" with
      | none =>
        rw [hvalue] at halpha
        cases halpha
      | some v =>
        apply hnone
        refine ⟨"alpha", by decide, ?_⟩
        rw [OrderedMap.contains, hvalue]
        rfl
    refine ⟨(mem_numbers_arrived h hmem).1 harrived, fun name v hv hname => ?_⟩
    have hsame := hsame name
    rw [hv, if_pos harrived, if_neg hname, Option.some_or, Option.none_or] at hsame
    cases hdefault : Color.defaults.get? name with
    | none =>
      rw [hdefault] at hsame
      cases hsame
    | some default =>
      rw [hdefault] at hsame
      cases hsame with
      | some hsame => exact ⟨default, rfl, hsame⟩
  · rintro hcarried name
    rw [if_pos ((mem_numbers_arrived h hmem).2 hcarried.told)]
    by_cases hname : name ∈ carriedKeys
    · rw [if_pos hname]
      exact same_refl _
    · rw [if_neg hname, Option.none_or]
      cases hv : group.get? name with
      | none => exact same_refl _
      | some v =>
        obtain ⟨default, hdefault, hsame⟩ := hcarried.others name v hv hname
        rw [hdefault]
        exact .some hsame

theorem equivalent_arrived_iff (h : Told attrs contents) :
    format.equivalent attrs (arrived attrs) ↔ ∀ bar ∈ attrs.grouped, Carried bar.2 := by
  rw [equivalent_iff_bars h.numbered (numbered_arrived h.numbered)]
  constructor
  · exact fun hall bar hbar => (same_arrived_iff h hbar).1 (hall bar.1)
  · intro hall n
    by_cases hn : n ∈ numbers attrs
    · obtain ⟨group, hmem⟩ := mem_numbers.1 hn
      exact (same_arrived_iff h hmem).2 (hall _ hmem)
    · have hlost : n ∉ numbers (arrived attrs) := by
        rw [mem_numbers_iff_of_numbered (numbered_arrived h.numbered)]
        rintro ⟨name, v, hv⟩
        rw [get?_arrived h] at hv
        split at hv
        · exact hn ((mem_numbers_iff_of_numbered h.numbered).2 ⟨name, v, hv⟩)
        · cases hv
      intro name
      rw [get?_complete, get?_complete, if_neg hn, if_neg hlost, Option.or_none, Option.or_none, get?_arrived h]
      have hnone : attrs.get? (flatKey n name) = none := Option.eq_none_iff_forall_ne_some.2 fun v hv =>
        hn ((mem_numbers_iff_of_numbered h.numbered).2 ⟨name, v, hv⟩)
      rw [hnone, ite_self]
      exact .none

theorem get?_withFamily {name : Text} {family tag : Attributes} :
    (Collector.withFamily ∅ name family).get? name = some tag ↔ family ≠ ∅ ∧ family = tag := by
  rw [Collector.get?_withFamily_self List.not_mem_nil, and_comm, eq_comm]

end

/-- **Bars arrive exactly if they are carried.**  Of every bar arrives what it holds under the keys that are carried;
this says the same as the bar if it is not nothing, and if what is left behind are defaults. -/
theorem bars_delivered {value : Text} {a : Attributes} (h : format.decode value = .ok (some a)) :
    (∀ tag, (collected (format.routes a)).get? "tag" = some tag → ∀ n name,
      tag.get? (flatKey n name) = if name ∈ carriedKeys then a.get? (flatKey n name) else none) ∧
    ((∃ tag, (collected (format.routes a)).get? "tag" = some tag ∧ format.equivalent a tag) ↔
      ∀ bar ∈ a.grouped, Carried bar.2) := by
  obtain ⟨contents, ha⟩ := exists_told_of_decode h
  rw [collected_routes ha.numbered, ← equivalent_arrived_iff ha]
  simp only [get?_withFamily]
  constructor
  · rintro tag ⟨-, rfl⟩ n name
    exact get?_arrived ha n name
  · constructor
    · rintro ⟨tag, ⟨-, rfl⟩, hsame⟩
      exact hsame
    · intro hsame
      refine ⟨arrived a, ⟨fun hempty => ?_, rfl⟩, hsame⟩
      -- some bar was read, and what is carried of it arrives
      obtain ⟨-, -, -, hne⟩ := decode_eq_ok.1 h
      obtain ⟨key, v, hv⟩ := OrderedMap.exists_get?_of_ne_empty hne
      obtain ⟨n, name, -, rfl⟩ := ha.numbered key v hv
      obtain ⟨group, hmem⟩ := Attributes.exists_mem_grouped ha.numbered hv
      have hcarried := (equivalent_arrived_iff ha).1 hsame _ hmem
      have hthere := (mem_numbers_arrived ha hmem).2 hcarried.told
      rw [hempty, mem_numbers_iff_of_numbered Attributes.numbered_empty] at hthere
      obtain ⟨_, _, hnothing⟩ := hthere
      cases hnothing

/-- There is no tag for an inverse filling. -/
theorem bars_not_delivered_of_inverse : ∃ a, format.decode "bar=1 #FF0000 inverse" = .ok (some a) ∧
    ¬∃ tag, (collected (format.routes a)).get? "tag" = some tag ∧ format.equivalent a tag := by
  have hdecode : format.decode "bar=1 #FF0000 inverse" =
      .ok (some (.table [("1.r", "255"), ("1.g", "0"), ("1.b", "0"), ("1.inverseFill", "true")])) := by
    decide +kernel
  have hbar : (1, Attributes.table [("r", "255"), ("g", "0"), ("b", "0"), ("inverseFill", "true")]) ∈
      (Attributes.table [("1.r", "255"), ("1.g", "0"), ("1.b", "0"), ("1.inverseFill", "true")]).grouped :=
    Attributes.mem_grouped.2 (by decide +kernel)
  refine ⟨_, hdecode, fun hdelivered => ?_⟩
  have hcarried := (bars_delivered hdecode).2.1 hdelivered _ hbar
  obtain ⟨default, hdefault, hsame⟩ := hcarried.others "inverseFill" "true" (by decide) (by decide)
  cases hdefault
  exact absurd hsame (by decide +kernel)

end StyleScript.BarTag
