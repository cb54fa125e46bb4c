import Mathlib.Logic.Function.Basic
import StyleScript.Property.BarTag
import StyleScript.Proofs.Color.RoundTrip
import StyleScript.Proofs.Property.Aspects
import StyleScript.Proofs.Property.Families
/-!
# What the bars of a chart say

The attributes of a chart say a content of every bar, of most bars the empty one (`Told`).  A block lays what it says
over what was said of its bar, so that whatever is read tells some contents (`exists_told_of_decode`).  The bars that
are there are those of which something is said, and each of them has the defaults of a color; so attributes are
compared bar by bar, as colors (`equivalent_kept_iff_bars`).
-/
namespace StyleScript.BarTag

open Attributes (Numbered flatKey greatestNumber)
open Color (Content Says)
open Text (Same same_refl)

/-- The attributes hold what the contents of the bars say, each under its number, and nothing else. -/
structure Told (attrs : Attributes) (contents : Nat → Content) : Prop where
  numbered : Numbered attrs
  get? : ∀ n name, attrs.get? (flatKey n name) = OrderedMap.find? name (contents n).pairs

theorem told_empty : Told ∅ fun _ => {} := ⟨Attributes.numbered_empty, fun _ _ => rfl⟩

section

variable {attrs more group : Attributes} {contents : Nat → Content} {n : Nat} {c : Content}

theorem Told.flattenInto (h : Told attrs contents) (hn : n ≤ greatestNumber) (hgroup : Says group c) :
    Told (attrs.flattenInto n group) (Function.update contents n (c.above (contents n))) where
  numbered := Attributes.numbered_flattenInto h.numbered hn group
  get? m name := by
    rw [Attributes.get?_flattenInto, h.get?, hgroup]
    by_cases hm : m = n
    · subst hm
      rw [if_pos rfl, Function.update_self, Content.find?_above]
    · rw [if_neg hm, Function.update_of_ne hm]

/-- The same attributes in another order tell the same. -/
theorem Told.of_perm (h : Told attrs contents) (hperm : attrs.pairs.Perm more.pairs) : Told more contents := by
  have hget : ∀ key, more.get? key = attrs.get? key := fun key =>
    (OrderedMap.find?_of_perm attrs.distinct hperm).symm
  refine ⟨fun key v hv => h.numbered key v ?_, fun n name => (hget _).trans (h.get? n name)⟩
  rwa [← hget]

theorem Told.ne_empty (h : Told attrs contents) (hn : contents n ≠ {}) : attrs ≠ ∅ := by
  rintro rfl
  exact hn (Color.Says.eq_empty fun name => h.get? n name)

/-! ## What is read -/

theorem le_of_takeBar : ∀ {ts colors : List Text} {n : Nat}, takeBar ts = .ok (some n, colors) → n ≤ greatestNumber
  | [], _, _, h => nomatch h
  | t :: ts, colors, n, h => by
    rw [takeBar] at h
    split at h
    · split at h
      · next m hm =>
        obtain ⟨⟨bar, rest⟩, hrest, h⟩ := bind_eq_ok.1 h
        have hbar := congrArg Prod.fst (pure_eq_ok.1 h)
        cases bar with
        | none =>
          cases hbar
          exact Text.le_of_natural? hm
        | some bar =>
          cases hbar
          exact le_of_takeBar hrest
      · cases h
    · obtain ⟨⟨bar, rest⟩, hrest, h⟩ := bind_eq_ok.1 h
      cases pure_eq_ok.1 h
      exact le_of_takeBar hrest

/-- What a block does: nothing, or it lays what its color says over what was said of its bar. -/
theorem block_cases {text : Text} (h : block attrs text = .ok more) : more = attrs ∨ ∃ ts n colors group,
    Text.tokens text = .ok ts ∧ takeBar ts = .ok (some n, colors) ∧
      Color.readTokens "barTag" colors = .ok (some group) ∧ more = attrs.flattenInto n group := by
  obtain ⟨ts, hts, h⟩ := bind_eq_ok.1 h
  obtain ⟨⟨bar, colors⟩, hbar, h⟩ := bind_eq_ok.1 h
  cases bar with
  | none => exact .inl (pure_eq_ok.1 h).symm
  | some n =>
    obtain ⟨found, hfound, h⟩ := bind_eq_ok.1 h
    cases found with
    | none => exact .inl (pure_eq_ok.1 h).symm
    | some group => exact .inr ⟨ts, n, colors, group, hts, hbar, hfound, (pure_eq_ok.1 h).symm⟩

theorem exists_told_of_block {text : Text} (h : Told attrs contents) (hblock : block attrs text = .ok more) :
    ∃ contents, Told more contents := by
  rcases block_cases hblock with rfl | ⟨ts, n, colors, group, -, hbar, hgroup, rfl⟩
  · exact ⟨contents, h⟩
  · obtain ⟨c, hc⟩ := Color.exists_says_of_readTokensOver Color.says_empty hgroup
    exact ⟨_, h.flattenInto (le_of_takeBar hbar) hc⟩

/-- What every block of a value keeps, the whole value keeps. -/
theorem holds_of_blocks {P : Attributes → Prop} : ∀ {texts : List Text} {attrs : Attributes},
    (∀ text ∈ texts, ∀ attrs more, P attrs → block attrs text = .ok more → P more) → P attrs →
    texts.foldlM block attrs = .ok more → P more
  | [], _, _, h, hread => by
    cases pure_eq_ok.1 hread
    exact h
  | text :: texts, attrs, hblock, h, hread => by
    rw [List.foldlM_cons] at hread
    obtain ⟨next, hnext, hread⟩ := bind_eq_ok.1 hread
    rw [List.forall_mem_cons] at hblock
    exact holds_of_blocks hblock.2 (hblock.1 attrs next h hnext) hread

theorem decode_eq_ok {value : Text} {a : Attributes} : format.decode value = .ok (some a) ↔
    ∃ texts, Text.parts '|' value = .ok texts ∧ texts.foldlM block ∅ = .ok a ∧ a ≠ ∅ := by
  show decode value = _ ↔ _
  rw [decode]
  simp only [bind_eq_ok, pure_eq_ok, PropertyFormat.something_eq_some]
  constructor
  · rintro ⟨texts, htexts, _, hread, rfl, hne⟩
    exact ⟨texts, htexts, hread, hne⟩
  · rintro ⟨texts, htexts, hread, hne⟩
    exact ⟨texts, htexts, a, hread, rfl, hne⟩

/-- **Attributes that were read tell contents.** -/
theorem exists_told_of_blocks {texts : List Text} {a : Attributes} (h : texts.foldlM block ∅ = .ok a) :
    ∃ contents, Told a contents := by
  refine holds_of_blocks (P := fun attrs => ∃ contents, Told attrs contents) ?_ ⟨_, told_empty⟩ h
  rintro text - attrs more ⟨contents, h⟩ hblock
  exact exists_told_of_block h hblock

theorem exists_told_of_decode {value : Text} {a : Attributes} (h : format.decode value = .ok (some a)) :
    ∃ contents, Told a contents := by
  obtain ⟨texts, -, hread, -⟩ := decode_eq_ok.1 h
  exact exists_told_of_blocks hread

/-! ## The bars that are there -/

/-- The numbers of the bars, ascending. -/
def numbers (attrs : Attributes) : List Nat := attrs.grouped.map Prod.fst

theorem mem_numbers : n ∈ numbers attrs ↔ ∃ group, (n, group) ∈ attrs.grouped := by
  rw [numbers, List.mem_map]
  constructor
  · rintro ⟨⟨m, group⟩, hmem, rfl⟩
    exact ⟨group, hmem⟩
  · rintro ⟨group, hmem⟩
    exact ⟨(n, group), hmem, rfl⟩

theorem Told.says_of_mem (h : Told attrs contents) (hmem : (n, group) ∈ attrs.grouped) : Says group (contents n) :=
  fun name => (Attributes.get?_of_mem_grouped h.numbered hmem name).trans (h.get? n name)

theorem eq_empty_of_says_empty {group : Attributes} (h : Says group {}) : group = ∅ := by
  by_contra hne
  obtain ⟨key, v, hv⟩ := OrderedMap.exists_get?_of_ne_empty hne
  rw [h key] at hv
  cases hv

/-- The bars are those of which something is said. -/
theorem Told.mem_numbers (h : Told attrs contents) : n ∈ numbers attrs ↔ contents n ≠ {} := by
  rw [BarTag.mem_numbers]
  constructor
  · rintro ⟨group, hmem⟩ hempty
    exact Attributes.ne_empty_of_mem_grouped hmem (eq_empty_of_says_empty (hempty ▸ h.says_of_mem hmem))
  · intro hne
    by_contra hnone
    refine hne (Color.Says.eq_empty fun name => ?_)
    show none = _
    rw [← h.get?, eq_comm, Option.eq_none_iff_forall_ne_some]
    exact fun v hv => hnone (Attributes.exists_mem_grouped h.numbered hv)

theorem Told.le (h : Told attrs contents) (hn : contents n ≠ {}) : n ≤ greatestNumber := by
  obtain ⟨group, hmem⟩ := BarTag.mem_numbers.1 (h.mem_numbers.2 hn)
  exact Attributes.le_of_mem_grouped h.numbered hmem

/-! ## The defaults of the bars -/

/-- What is found under the key of a bar, once the defaults are filled in. -/
theorem get?_complete (attrs : Attributes) (n : Nat) (name : Text) : (complete attrs).get? (flatKey n name) =
    (attrs.get? (flatKey n name)).or (if n ∈ numbers attrs then Color.defaults.get? name else none) := by
  rw [complete, OrderedMap.get?_union _ _ attrs.distinct, Attributes.get?_foldl_flattenInto]
  show (attrs.get? _).or _ = _
  congr 1
  show (if n ∈ numbers attrs then (Color.defaults.get? name).or none else none) = _
  rw [Option.or_none]

theorem numbered_complete (h : Numbered attrs) : Numbered (complete attrs) := by
  intro key v hv
  rcases OrderedMap.mem_or_get?_of_union hv with hmem | hold
  · exact h key v (OrderedMap.get?_eq_some.2 hmem)
  · refine Attributes.numbered_foldl_flattenInto (fun bar hbar => ?_) Attributes.numbered_empty key v hold
    exact Attributes.le_of_mem_grouped h hbar

/-! ## Comparing bar by bar -/

theorem equivalent_iff_bars (h : Numbered attrs) (k : Numbered more) : format.equivalent attrs more ↔
    ∀ n name, Same ((complete attrs).get? (flatKey n name)) ((complete more).get? (flatKey n name)) := by
  rw [PropertyFormat.equivalent_iff]
  constructor
  · exact fun hall n name => hall (flatKey n name)
  · exact Attributes.same_of_numbered (numbered_complete h) (numbered_complete k)

/-- A bar that is there is completed as a color is. -/
theorem get?_complete_of_mem (h : Numbered attrs) (hmem : (n, group) ∈ attrs.grouped) (property name : Text) :
    (complete attrs).get? (flatKey n name) = ((Color.format property).complete group).get? name := by
  rw [get?_complete, if_pos (BarTag.mem_numbers.2 ⟨group, hmem⟩), ← Attributes.get?_of_mem_grouped h hmem]
  exact (Attributes.get?_overlaid Color.defaults group name).symm

theorem get?_complete_of_not_mem (h : Told attrs contents) (hn : n ∉ numbers attrs) (name : Text) :
    (complete attrs).get? (flatKey n name) = none := by
  rw [get?_complete, if_neg hn, h.get?, not_not.1 (mt h.mem_numbers.2 hn)]
  rfl

/-- What is kept of a bar says the same if anything is kept and the bar is faithful. -/
theorem same_kept_iff (h : Told attrs contents) (k : Told more fun n => (contents n).kept)
    (hmem : (n, group) ∈ attrs.grouped) :
    (∀ name, Same ((complete attrs).get? (flatKey n name)) ((complete more).get? (flatKey n name))) ↔
      Color.writeTokens group ≠ [] ∧ Color.Faithful group := by
  rw [Color.writeTokens_eq (h.says_of_mem hmem)]
  by_cases hkept : (contents n).kept = {}
  · -- the bar is lost, and its defaults with it
    have hlost : n ∉ numbers more := fun hn => k.mem_numbers.1 hn hkept
    refine iff_of_false (fun hsame => ?_) fun hne => hne.1 (by rw [hkept]; rfl)
    have halpha := hsame "alpha"
    rw [get?_complete, if_pos (BarTag.mem_numbers.2 ⟨group, hmem⟩), get?_complete_of_not_mem k hlost] at halpha
    cases hvalue : attrs.get? (flatKey n "alpha") with
    | none =>
      rw [hvalue] at halpha
      cases halpha
    | some v =>
      rw [hvalue] at halpha
      cases halpha
  · obtain ⟨other, hother⟩ := BarTag.mem_numbers.1 (k.mem_numbers.2 hkept)
    have hcolors := @Color.equivalent_kept_iff group other (contents n) format.name (h.says_of_mem hmem)
      (k.says_of_mem hother)
    rw [PropertyFormat.equivalent_iff] at hcolors
    rw [and_iff_right (mt Color.eq_empty_of_texts hkept), ← hcolors]
    refine forall_congr' fun name => ?_
    rw [get?_complete_of_mem h.numbered hmem format.name, get?_complete_of_mem k.numbered hother format.name]

/-- **What is kept of the bars says the same exactly if something is kept of each, and each is faithful.** -/
theorem equivalent_kept_iff_bars (h : Told attrs contents) (k : Told more fun n => (contents n).kept) :
    format.equivalent attrs more ↔
      ∀ bar ∈ attrs.grouped, Color.writeTokens bar.2 ≠ [] ∧ Color.Faithful bar.2 := by
  rw [equivalent_iff_bars h.numbered k.numbered]
  constructor
  · exact fun hall bar hbar => (same_kept_iff h k hbar).1 (hall bar.1)
  · intro hall n
    by_cases hn : n ∈ numbers attrs
    · obtain ⟨group, hmem⟩ := BarTag.mem_numbers.1 hn
      exact (same_kept_iff h k hmem).2 (hall (n, group) hmem)
    · have hempty : contents n = {} := not_not.1 (mt h.mem_numbers.2 hn)
      have hn' : n ∉ numbers more := fun hmem => k.mem_numbers.1 hmem (by rw [hempty]; rfl)
      intro name
      rw [get?_complete_of_not_mem h hn, get?_complete_of_not_mem k hn']
      exact .none

end

end StyleScript.BarTag
