import StyleScript.Proofs.BarTag.Rereading
import StyleScript.Proofs.Property.Reordered
/-!
# Bars in another order

The value of the bars is rows of tokens, one of each block (`rows`).  The blocks may stand in any order, and in each of
them the tokens.  If every block names one bar and no two tokens set the same attribute of the same bar, then the
attributes that are read are what the tokens set, one behind the other (`foldlM_lay`).  In another order they are the
same attributes, which are written alike, since the bars are written in the order of their numbers.

The tokens in another order are those of the value that they make (`rows_joined`), unless the value leaves a bracket
open: in front of other tokens such a token takes them in.
-/
namespace StyleScript.BarTag

open Attributes (flatKey flatPairs)
open Text (Part Balanced)

/-! ## Rows of tokens -/

/-- The tokens of the blocks of a value. -/
def rows (value : Text) : Except Cause (List (List Text)) := do
  (← Text.parts '|' value).mapM Text.tokens

/-- The value of rows of tokens. -/
def joined (rows : List (List Text)) : Text := Text.join " | " (rows.map Text.words)

/-- The blocks in another order, and the tokens of each of them in another order. -/
def Rearranged (rows more : List (List Text)) : Prop :=
  ∃ between, List.Forall₂ List.Perm rows between ∧ between.Perm more

theorem Rearranged.exists_perm {rows more : List (List Text)} (h : Rearranged rows more) {row : List Text}
    (hrow : row ∈ more) : ∃ first ∈ rows, first.Perm row := by
  obtain ⟨between, hrows, hmore⟩ := h
  obtain ⟨i, hi, rfl⟩ := List.getElem_of_mem (hmore.mem_iff.2 hrow)
  have hlength : i < rows.length := by rwa [hrows.length_eq]
  exact ⟨rows[i], List.getElem_mem hlength, hrows.get hlength hi⟩

/-- The tokens of a balanced value are parts at blanks and at the separator of the blocks. -/
theorem part_of_mem_rows {value : Text} {rs : List (List Text)} (hvalue : Balanced value) (h : rows value = .ok rs)
    {row : List Text} (hrow : row ∈ rs) {t : Text} (ht : t ∈ row) : Part Text.isBlank t ∧ Part (· = '|') t := by
  obtain ⟨texts, htexts, hrows⟩ := bind_eq_ok.1 h
  obtain ⟨text, htext, htokens⟩ := exists_of_mem_mapM hrows hrow
  obtain ⟨us, hus⟩ := Text.exists_divide_of_balanced (Text.either (· = '|') Text.isBlank) hvalue
  have hdivides : Text.Divides (Text.either (· = '|') Text.isBlank) '|' := ⟨rfl, by decide⟩
  have hpart := Text.part_of_mem_divide hdivides hvalue hus t (Text.subset_of_divide hvalue htexts htext htokens hus ht)
  exact ((Text.part_either_iff Text.divides_pipe Text.divides_blank).1 hpart).symm

/-- **Rows of parts are the rows of the value that they make.** -/
theorem rows_joined {rs : List (List Text)} (hne : ∀ row ∈ rs, row ≠ [])
    (h : ∀ row ∈ rs, ∀ t ∈ row, Part Text.isBlank t ∧ Part (· = '|') t) : rows (joined rs) = .ok rs := by
  have hparts : Text.parts '|' (joined rs) = .ok (rs.map Text.words) := by
    refine (Text.dividesInto_join_spaced Text.divides_pipe fun text htext => ?_).atEnd
    obtain ⟨row, hrow, rfl⟩ := List.mem_map.1 htext
    exact Text.part_words rfl (hne row hrow) fun t ht => (h row hrow t ht).2
  rw [rows, hparts, ok_bind, mapM_eq_ok_iff, List.forall₂_map_left_iff, List.forall₂_same]
  exact fun row hrow => Text.tokens_words fun t ht => (h row hrow t ht).1

/-! ## What a row says -/

/-- What a row of tokens says, and of which bar; absent if it names no bar or its color says nothing. -/
def readRow (row : List Text) : Except Cause (Option (Nat × Attributes)) := do
  match ← takeBar row with
  | (some bar, colors) => return (← Color.readTokens "barTag" colors).map fun group => (bar, group)
  | (none, _) => return none

/-- Lays what a row says over what was said. -/
def lay (attrs : Attributes) (row : List Text) : Except Cause Attributes := do
  match ← readRow row with
  | some (bar, group) => return attrs.flattenInto bar group
  | none => return attrs

theorem block_eq_lay {text : Text} {row : List Text} (h : Text.tokens text = .ok row) (attrs : Attributes) :
    block attrs text = lay attrs row := by
  rw [block, h, ok_bind, lay, readRow]
  cases takeBar row with
  | error cause => rfl
  | ok found =>
    obtain ⟨bar, colors⟩ := found
    cases bar with
    | none => rfl
    | some bar =>
      show (Color.readTokens "barTag" colors >>= _) = (Color.readTokens "barTag" colors >>= _) >>= _
      cases Color.readTokens "barTag" colors with
      | error cause => rfl
      | ok group => cases group <;> rfl

theorem foldlM_block_eq_lay {texts : List Text} {rs : List (List Text)}
    (h : List.Forall₂ (fun text row => Text.tokens text = .ok row) texts rs) (attrs : Attributes) :
    texts.foldlM block attrs = rs.foldlM lay attrs := by
  induction h generalizing attrs with
  | nil => rfl
  | cons htext _ ih =>
    rw [List.foldlM_cons, List.foldlM_cons, block_eq_lay htext]
    exact congrArg _ (funext ih)

/-- The blocks of a value lay what its rows lay. -/
theorem exists_blocks_of_rows {value : Text} {rs : List (List Text)} (h : rows value = .ok rs) :
    ∃ texts, Text.parts '|' value = .ok texts ∧ texts.foldlM block ∅ = rs.foldlM lay ∅ := by
  obtain ⟨texts, htexts, hrows⟩ := bind_eq_ok.1 h
  exact ⟨texts, htexts, foldlM_block_eq_lay (mapM_eq_ok_iff.1 hrows) ∅⟩

/-- The value says what its rows say, laid one over the other. -/
theorem decode_of_rows {value : Text} {rs : List (List Text)} {a : Attributes} (h : rows value = .ok rs)
    (hlay : rs.foldlM lay ∅ = .ok a) : format.decode value = .ok (PropertyFormat.something a) := by
  obtain ⟨texts, htexts, hblocks⟩ := exists_blocks_of_rows h
  show decode value = _
  rw [decode, htexts, ok_bind, hblocks, hlay]
  rfl

/-! ## Rows that name one bar -/

/-- The number of the bar that a token names. -/
def bar? (token : Text) : Option Text :=
  ((Text.keyValue? token).filter fun (key, _) => key = "bar".toList).map Prod.snd

/-- What a token of a color sets. -/
abbrev settings (token : Text) : List (Text × Text) := Color.settings "barTag" token

/-- The tokens of a row that name no bar. -/
def colors (row : List Text) : List Text := row.filter fun t => (bar? t).isNone

section

variable {row other : List Text} {number : Text} {n : Nat} {group attrs : Attributes} {t : Text}

theorem mem_colors : t ∈ colors row ↔ t ∈ row ∧ bar? t = none := by
  rw [colors, List.mem_filter, Option.isNone_iff_eq_none]

theorem colors_cons_of_none (h : bar? t = none) (row : List Text) : colors (t :: row) = t :: colors row :=
  List.filter_cons_of_pos (by rw [h]; rfl)

theorem colors_cons_of_ne (h : bar? t ≠ none) (row : List Text) : colors (t :: row) = colors row :=
  List.filter_cons_of_neg (mt Option.isNone_iff_eq_none.1 h)

/-- A token that names a bar sets nothing of a color. -/
theorem settings_of_bar {t : Text} (h : bar? t ≠ none) : settings t = [] := by
  rw [settings, Color.settings]
  split
  · next htoken => exact absurd (Option.map_eq_none_iff.2 (not_bar_of_token htoken)) h
  · rfl

theorem flatMap_settings_colors : ∀ row : List Text, (colors row).flatMap settings = row.flatMap settings
  | [] => rfl
  | t :: row => by
    by_cases ht : bar? t = none
    · rw [colors_cons_of_none ht, List.flatMap_cons, List.flatMap_cons, flatMap_settings_colors row]
    · rw [colors_cons_of_ne ht, List.flatMap_cons, settings_of_bar ht, flatMap_settings_colors row, List.nil_append]

/-- The bar is taken out of a row that names one. -/
theorem takeBar_alone : ∀ {row : List Text}, row.filterMap bar? = [number] → takeBar row =
    (Text.natural32? number).elim (.error (.notBarNumber number)) fun n => .ok (some n, colors row)
  | [], h => by cases h
  | t :: row, h => by
    cases ht : bar? t with
    | none =>
      rw [List.filterMap_cons_none ht] at h
      rw [takeBar, Option.map_eq_none_iff.1 ht, takeBar_alone h, colors_cons_of_none ht]
      cases Text.natural32? number <;> rfl
    | some named =>
      have hbar : bar? t ≠ none := by rw [ht]; exact Option.some_ne_none named
      rw [List.filterMap_cons_some ht] at h
      obtain ⟨rfl, hrest⟩ := List.cons.inj h
      obtain ⟨⟨key, value⟩, hkey, rfl⟩ := Option.map_eq_some_iff.1 ht
      have hnone : ∀ t ∈ row, bar? t = none := List.filterMap_eq_nil_iff.1 hrest
      have hcolors : colors row = row := List.filter_eq_self.2 fun t ht => Option.isNone_iff_eq_none.2 (hnone t ht)
      rw [takeBar, hkey, colors_cons_of_ne hbar, hcolors,
        takeBar_of_colors fun t ht => Option.map_eq_none_iff.1 (hnone t ht)]
      dsimp only
      cases Text.natural32? value <;> rfl

/-- The row names one bar, its other tokens are tokens of a color, and they set something. -/
structure Names (row : List Text) (n : Nat) : Prop where
  alone : ∃ number, row.filterMap bar? = [number] ∧ Text.natural32? number = some n
  known : ∀ t ∈ row, bar? t = none → Color.token "barTag" t = .ok (some (settings t))
  sets : row.flatMap settings ≠ []

theorem names_of_readRow (hone : (row.filterMap bar?).length = 1) (h : readRow row = .ok (some (n, group))) :
    Names row n := by
  obtain ⟨number, hnumber⟩ := List.length_eq_one_iff.1 hone
  obtain ⟨⟨bar, colors⟩, hbar, h⟩ := bind_eq_ok.1 h
  rw [takeBar_alone hnumber] at hbar
  cases hn : Text.natural32? number with
  | none =>
    rw [hn] at hbar
    cases hbar
  | some m =>
    rw [hn] at hbar
    cases hbar
    obtain ⟨found, hfound, h⟩ := bind_eq_ok.1 h
    obtain ⟨group, rfl, hgroup⟩ := Option.map_eq_some_iff.1 (pure_eq_ok.1 h)
    cases hgroup
    obtain ⟨hknown, rfl, hne⟩ := Color.readTokensOver_eq_ok.1 hfound
    refine ⟨⟨number, hnumber, hn⟩, fun t ht hnone => ?_, fun hnil => hne ?_⟩
    · exact hknown t (mem_colors.2 ⟨ht, hnone⟩)
    · show OrderedMap.union ∅ ((colors row).flatMap settings) = ∅
      rw [flatMap_settings_colors, hnil]
      rfl

namespace Names

theorem takeBar (h : Names row n) : BarTag.takeBar row = .ok (some n, colors row) := by
  obtain ⟨number, hnumber, hn⟩ := h.alone
  rw [takeBar_alone hnumber, hn]
  rfl

theorem readRow (h : Names row n) :
    BarTag.readRow row = .ok (some (n, OrderedMap.ofList (row.flatMap settings))) := by
  have hgroup : Color.readTokens "barTag" (colors row) =
      .ok (some (OrderedMap.ofList (row.flatMap settings))) := by
    refine Color.readTokensOver_eq_ok.2 ⟨fun t ht => ?_, ?_, ?_⟩
    · exact h.known t (mem_colors.1 ht).1 (mem_colors.1 ht).2
    · exact congrArg (OrderedMap.union ∅) (flatMap_settings_colors row)
    · exact OrderedMap.ofList_ne_empty h.sets
  rw [BarTag.readRow, h.takeBar, ok_bind]
  show (Color.readTokens "barTag" _ >>= _) = _
  rw [hgroup]
  rfl

theorem of_perm (h : Names row n) (hperm : row.Perm other) : Names other n where
  alone := by
    obtain ⟨number, hnumber, hn⟩ := h.alone
    refine ⟨number, List.perm_singleton.1 ?_, hn⟩
    rw [← hnumber]
    exact (hperm.filterMap bar?).symm
  known t ht := h.known t (hperm.mem_iff.2 ht)
  sets hnil := h.sets (by
    have := hperm.flatMap_right settings
    rw [hnil] at this
    exact this.eq_nil)

end Names

/-! ## What the tokens of a value set -/

/-- What the tokens of a row set, one after the other, under the keys of its bar. -/
def assigned (row : List Text) : List (List (Text × Text)) :=
  match takeBar row with
  | .ok (some bar, _) => row.map fun t => flatPairs bar (settings t)
  | _ => []

theorem Names.assigned (h : Names row n) : BarTag.assigned row = row.map fun t => flatPairs n (settings t) := by
  rw [BarTag.assigned, h.takeBar]

theorem Names.flatten_assigned (h : Names row n) :
    (BarTag.assigned row).flatten = flatPairs n (row.flatMap settings) := by
  rw [h.assigned, ← List.flatMap_def, flatPairs, List.map_flatMap]
  rfl

/-- **A row lays what its tokens set under the keys of its bar.** -/
theorem Names.lay (h : Names row n) (hnodup : ((BarTag.assigned row).flatten.map Prod.fst).Nodup) (attrs : Attributes) :
    BarTag.lay attrs row = .ok (attrs.union (BarTag.assigned row).flatten) := by
  rw [h.flatten_assigned, flatPairs, List.map_map] at hnodup
  have hgroup : ((row.flatMap settings).map Prod.fst).Nodup := by
    refine List.Nodup.of_map (flatKey n) ?_
    rwa [List.map_map]
  rw [BarTag.lay, h.readRow, ok_bind, h.flatten_assigned]
  show Except.ok (OrderedMap.union attrs (flatPairs n (OrderedMap.ofList (row.flatMap settings)).pairs)) = _
  rw [OrderedMap.pairs_ofList hgroup]

theorem foldlM_lay : ∀ {rs : List (List Text)} {attrs : Attributes}, (∀ row ∈ rs, ∃ n, Names row n) →
    ((rs.flatMap assigned).flatten.map Prod.fst).Nodup →
    rs.foldlM lay attrs = .ok (attrs.union (rs.flatMap assigned).flatten)
  | [], _, _, _ => rfl
  | row :: rs, attrs, h, hnodup => by
    rw [List.forall_mem_cons] at h
    rw [List.flatMap_cons, List.flatten_append, List.map_append, List.nodup_append] at hnodup
    obtain ⟨n, hrow⟩ := h.1
    rw [List.foldlM_cons, hrow.lay hnodup.1, ok_bind, foldlM_lay h.2 hnodup.2.1, List.flatMap_cons,
      List.flatten_append, OrderedMap.union_append]

end

/-- Every block names one bar and says something of it, and no two tokens set the same attribute of the same bar. -/
structure Apart (rs : List (List Text)) : Prop where
  single : ∀ row ∈ rs, (row.filterMap bar?).length = 1
  said : ∀ row ∈ rs, ∃ bar group, readRow row = .ok (some (bar, group))
  apart : (rs.flatMap assigned).Pairwise fun sets others => ∀ p ∈ sets, ∀ q ∈ others, p.1 ≠ q.1

section

variable {rs more : List (List Text)}

theorem Apart.names (h : Apart rs) : ∀ row ∈ rs, ∃ n, Names row n := by
  intro row hrow
  obtain ⟨n, group, hread⟩ := h.said row hrow
  exact ⟨n, names_of_readRow (h.single row hrow) hread⟩

theorem Apart.keys_nodup (h : Apart rs) : ((rs.flatMap assigned).flatten.map Prod.fst).Nodup := by
  rw [List.map_flatten, List.nodup_flatten, List.pairwise_map]
  constructor
  · intro keys hkeys
    obtain ⟨sets, hsets, rfl⟩ := List.mem_map.1 hkeys
    obtain ⟨row, hrow, hsets⟩ := List.mem_flatMap.1 hsets
    obtain ⟨n, hn⟩ := h.names row hrow
    rw [hn.assigned] at hsets
    obtain ⟨t, -, rfl⟩ := List.mem_map.1 hsets
    exact Attributes.keys_flatPairs_nodup n (Color.settings_nodup "barTag" t)
  · refine h.apart.imp fun hne key hkey hother => ?_
    obtain ⟨p, hp, rfl⟩ := List.mem_map.1 hkey
    obtain ⟨q, hq, heq⟩ := List.mem_map.1 hother
    exact hne p hp q hq heq.symm

/-! ## The order of the tokens and of the blocks -/

theorem flatMap_assigned_perm (hnames : ∀ row ∈ rs, ∃ n, Names row n) (h : Rearranged rs more) :
    (rs.flatMap assigned).Perm (more.flatMap assigned) := by
  obtain ⟨between, hrows, hmore⟩ := h
  refine List.Perm.trans ?_ (hmore.flatMap_right assigned)
  clear hmore
  induction hrows with
  | nil => exact List.Perm.refl _
  | cons hrow _ ih =>
    rw [List.forall_mem_cons] at hnames
    obtain ⟨n, hn⟩ := hnames.1
    rw [List.flatMap_cons, List.flatMap_cons, hn.assigned, (hn.of_perm hrow).assigned]
    exact (hrow.map _).append (ih hnames.2)

/-- The same attributes in another order are written alike. -/
theorem encode_of_perm {attrs others : Attributes} {contents : Nat → Color.Content} (h : Told attrs contents)
    (hperm : attrs.pairs.Perm others.pairs) : format.encode others = format.encode attrs :=
  encode_congr h (h.of_perm hperm) fun _ => rfl

/-- The tokens in another order are those of the value that they make, if no bracket is left open. -/
theorem rows_joined_of_rearranged {value : Text} (h : rows value = .ok rs) (hvalue : Balanced value)
    (hapart : Apart rs) (hmore : Rearranged rs more) : rows (joined more) = .ok more := by
  refine rows_joined (fun row hrow => ?_) fun row hrow t ht => ?_
  · obtain ⟨first, hfirst, hperm⟩ := hmore.exists_perm hrow
    have hone := hapart.single first hfirst
    rintro rfl
    rw [hperm.eq_nil] at hone
    cases hone
  · obtain ⟨first, hfirst, hperm⟩ := hmore.exists_perm hrow
    exact part_of_mem_rows hvalue h hfirst (hperm.mem_iff.2 ht)

/-- **The order of the blocks and of their tokens does not count.** -/
theorem decode_of_rearranged {value other : Text} (h : rows value = .ok rs) (hapart : Apart rs)
    (hmore : Rearranged rs more) (hother : rows other = .ok more) :
    ∃ a b, format.decode value = .ok (PropertyFormat.something a) ∧
      format.decode other = .ok (PropertyFormat.something b) ∧ a.pairs.Perm b.pairs ∧
      format.encode a = format.encode b := by
  have hnames := hapart.names
  have hnamed : ∀ row ∈ more, ∃ n, Names row n := fun row hrow =>
    have ⟨first, hfirst, hrow⟩ := hmore.exists_perm hrow
    have ⟨n, hn⟩ := hnames first hfirst
    ⟨n, hn.of_perm hrow⟩
  have hperm := (flatMap_assigned_perm hnames hmore).flatten
  have hnodup := hapart.keys_nodup
  have hnodup' := (hperm.map Prod.fst).nodup_iff.1 hnodup
  have hlay : rs.foldlM lay ∅ = .ok (OrderedMap.ofList (rs.flatMap assigned).flatten) := foldlM_lay hnames hnodup
  have hlay' : more.foldlM lay ∅ = .ok (OrderedMap.ofList (more.flatMap assigned).flatten) := foldlM_lay hnamed hnodup'
  have hpairs : (OrderedMap.ofList (rs.flatMap assigned).flatten).pairs.Perm
      (OrderedMap.ofList (more.flatMap assigned).flatten).pairs := by
    rwa [OrderedMap.pairs_ofList hnodup, OrderedMap.pairs_ofList hnodup']
  obtain ⟨texts, -, hblocks⟩ := exists_blocks_of_rows h
  obtain ⟨contents, hcontents⟩ := exists_told_of_blocks (hblocks.trans hlay)
  exact ⟨_, _, decode_of_rows h hlay, decode_of_rows hother hlay', hpairs, (encode_of_perm hcontents hpairs).symm⟩

end

end StyleScript.BarTag

namespace StyleScript

open PropertyFormat (something)

/-- **Values say the same whose tokens stand in another order**, line styles and bars alike; bars also if the blocks
stand in another order.  The tokens in another order are those of the value that they make; only bars that leave a
bracket open may make another one. -/
theorem same_of_reordered (value : Text) :
    (∀ found ts, LineStyle.format.decode value = .ok found → Text.tokens value = .ok ts → LineStyle.Apart ts →
      ∀ more, ts.Perm more → Text.tokens (Text.words more) = .ok more ∧
        ∀ other, Text.tokens other = .ok more → LineStyle.format.decode other = .ok found) ∧
    (∀ rs, BarTag.rows value = .ok rs → BarTag.Apart rs → ∀ more, BarTag.Rearranged rs more →
      (Text.Balanced value → BarTag.rows (BarTag.joined more) = .ok more) ∧
        ∀ other, BarTag.rows other = .ok more → ∃ a b, BarTag.format.decode value = .ok (something a) ∧
          BarTag.format.decode other = .ok (something b) ∧ a.pairs.Perm b.pairs ∧
            BarTag.format.encode a = BarTag.format.encode b) := by
  constructor
  · intro found ts hdecode hts hapart more hperm
    obtain ⟨us, hus, hread⟩ := bind_eq_ok.1 hdecode
    cases hts.symm.trans hus
    obtain ⟨settings, hsettings, -⟩ := bind_eq_ok.1 hread
    exact ⟨LineStyle.tokens_words_of_perm hts hsettings hperm, fun other hother =>
      LineStyle.decode_of_perm hdecode hts hapart hperm hother⟩
  · intro rs hrows hapart more hmore
    exact ⟨fun hvalue => BarTag.rows_joined_of_rearranged hrows hvalue hapart hmore, fun other hother =>
      BarTag.decode_of_rearranged hrows hapart hmore hother⟩

/-- Flags, a pattern and a number of a line, and two bars of which one has an opacity and an angle. -/
theorem same_of_reordered_bars :
    LineStyle.format.decode "~arrow dashedlong thickness=7" = LineStyle.format.decode "thickness=7 ~arrow dashedlong" ∧
    ∃ a b, BarTag.format.decode "bar=5 #000001 | fill=hatch #00000280 angle=30 bar=2" = .ok (something a) ∧
      BarTag.format.decode "angle=30 bar=2 #00000280 fill=hatch | #000001 bar=5" = .ok (something b) ∧
      a.pairs.Perm b.pairs ∧ BarTag.format.encode a = BarTag.format.encode b := by
  constructor
  · have hline : LineStyle.format.decode "thickness=7 ~arrow dashedlong" =
        .ok (some (.table [("type", "15"), ("thickness", "7"), ("drawArrow", "false")])) := by decide +kernel
    have hsettings : (["thickness=7", "~arrow", "dashedlong"] : List Text).mapM LineStyle.token =
        .ok [("thickness", "7"), ("drawArrow", "false"), ("type", "15")] := by decide +kernel
    have hapart := (LineStyle.apart_iff hsettings).2 (by decide)
    rw [hline]
    exact ((same_of_reordered _).1 _ _ hline (by decide +kernel) hapart ["~arrow", "dashedlong", "thickness=7"]
      (by decide)).2 _ (by decide +kernel)
  · have hapart : BarTag.Apart [["bar=5", "#000001"], ["fill=hatch", "#00000280", "angle=30", "bar=2"]] := {
      single := by decide +kernel
      said := List.forall_mem_cons.2 ⟨⟨5, .table [("r", "0"), ("g", "0"), ("b", "1")], by decide +kernel⟩,
        List.forall_mem_singleton.2 ⟨2, .table [("fillType", "1"), ("r", "0"), ("g", "0"), ("b", "2"),
          ("alpha", "0.5019607843137255"), ("hatchAngle", "30")], by decide +kernel⟩⟩
      apart := by decide +kernel }
    refine ((same_of_reordered _).2 _ (by decide +kernel) hapart
      [["angle=30", "bar=2", "#00000280", "fill=hatch"], ["#000001", "bar=5"]] ?_).2 _ (by decide +kernel)
    exact ⟨[["#000001", "bar=5"], ["angle=30", "bar=2", "#00000280", "fill=hatch"]],
      .cons (by decide) (.cons (by decide) .nil), by decide⟩

/-- A token that leaves a bracket open takes in the tokens behind it. -/
theorem not_same_of_openBracket :
    BarTag.rows "bar=1 angle=(5" = .ok [["bar=1", "angle=(5"]] ∧ BarTag.Apart [["bar=1", "angle=(5"]] ∧
      BarTag.Rearranged [["bar=1", "angle=(5"]] [["angle=(5", "bar=1"]] ∧
      ¬∃ a b, BarTag.format.decode "bar=1 angle=(5" = .ok (something a) ∧
        BarTag.format.decode (BarTag.joined [["angle=(5", "bar=1"]]) = .ok (something b) ∧ a.pairs.Perm b.pairs ∧
          BarTag.format.encode a = BarTag.format.encode b := by
  have hdecode : BarTag.format.decode "bar=1 angle=(5" = .ok (some (.table [("1.hatchAngle", "(5")])) := by
    decide +kernel
  have hmoved : BarTag.format.decode (BarTag.joined [["angle=(5", "bar=1"]]) = .ok none := by decide +kernel
  refine ⟨by decide +kernel, ⟨by decide +kernel, ?_, by decide +kernel⟩, ⟨[["angle=(5", "bar=1"]], ?_, .refl _⟩, ?_⟩
  · refine List.forall_mem_singleton.2 ⟨1, .table [("hatchAngle", "(5")], by decide +kernel⟩
  · exact .cons (by decide) .nil
  · rintro ⟨a, b, ha, hb, hperm, -⟩
    obtain ⟨rfl, -⟩ := PropertyFormat.something_eq_some.1 (Except.ok.inj (ha.symm.trans hdecode))
    have hnone : something b = none := Except.ok.inj (hb.symm.trans hmoved)
    have hempty : b = ∅ := by
      by_contra hne
      rw [PropertyFormat.something_eq_some.2 ⟨rfl, hne⟩] at hnone
      cases hnone
    rw [hempty] at hperm
    cases hperm.eq_nil

end StyleScript
