import StyleScript.Property.Lettering
import StyleScript.Proofs.Number.Decimals
import StyleScript.Proofs.Number.Spelling
import StyleScript.Proofs.Property.Aspects
import StyleScript.Proofs.Text.Division
/-!
# Lettering survives writing and reading

The style of letters is heard from several tokens, each of which puts a bit into it, and so the attributes are read by
a fold that remembers the style so far and not token by token.  What the fold keeps is `Sound`: flags, trimmed numbers
and a style of two bits.  Of sound attributes there is one table of what is written (`rows`), and the written tokens
are heard as just that table, the two words of a style as the style itself (`foldlM_write`).
-/
namespace StyleScript.Lettering

open Text (Part Same same_refl Trimmed)

/-! ## What is read -/

/-- What an attribute of letters can be: whether there are serifs, a size, or a style of two bits. -/
def Admits (key v : Text) : Prop :=
  if key = "serif" then ∃ on, v = Text.ofBool on
  else if key = "sizeM" then v.IsNumber ∧ Trimmed v
  else key = "style" ∧ ∃ s < 4, v = Text.ofNat s

theorem admits_serif {v : Text} : Admits "serif" v ↔ ∃ on, v = Text.ofBool on := by
  rw [Admits, if_pos rfl]

theorem admits_size {v : Text} : Admits "sizeM" v ↔ v.IsNumber ∧ Trimmed v := by
  rw [Admits, if_neg (by decide), if_pos rfl]

theorem admits_style {v : Text} : Admits "style" v ↔ ∃ s < 4, v = Text.ofNat s := by
  rw [Admits, if_neg (by decide), if_neg (by decide), and_iff_right rfl]

theorem Admits.key_mem {key v : Text} (h : Admits key v) : key ∈ (["serif", "sizeM", "style"] : List Text) := by
  rw [Admits] at h
  simp only [List.mem_cons, List.not_mem_nil, or_false]
  split at h
  · exact .inl ‹_›
  · split at h
    · exact .inr (.inl ‹_›)
    · exact .inr (.inr h.1)

/-- What the fold over the tokens keeps. -/
structure Said.Sound (said : Said) : Prop where
  settings : ∀ p ∈ said.settings, Admits p.1 p.2
  style : ∀ s ∈ said.style, s < 4

theorem sound_nothing : Said.Sound {} where
  settings := List.forall_mem_nil _
  style := by rintro s ⟨⟩

theorem Said.Sound.set {said : Said} (h : said.Sound) {key v : Text} (hv : Admits key v) : (said.set key v).Sound where
  settings := List.forall_mem_append.2 ⟨h.settings, List.forall_mem_singleton.2 hv⟩
  style := h.style

theorem Said.Sound.styled {said : Said} (h : said.Sound) {bit : Nat} (hbit : bit < 4) :
    Said.Sound { said with style := some (said.style.getD 0 ||| bit) } where
  settings := h.settings
  style := by
    rintro s ⟨⟩
    refine Nat.or_lt_two_pow (n := 2) ?_ hbit
    cases hs : said.style with
    | none => decide
    | some s => exact h.style s hs

theorem sound_word {said next : Said} {t : Text} (h : said.Sound) (ht : word said t = .ok next) : next.Sound := by
  rw [word] at ht
  split at ht
  split at ht
  · cases ht
    exact h.set (admits_serif.2 ⟨_, rfl⟩)
  · split at ht
    · cases ht
      exact ⟨h.settings, fun s hs => by cases hs; decide⟩
    · split at ht
      · cases ht
        exact h.styled (by decide)
      · split at ht
        · cases ht
          exact h.styled (by decide)
        · cases ht

/-- A size has no blanks around it, since it stands in one token. -/
theorem sound_token {value : Text} {ts : List Text} (hts : Text.tokens value = .ok ts) {said next : Said} {t : Text}
    (hmem : t ∈ ts) (h : said.Sound) (ht : token said t = .ok next) : next.Sound := by
  rw [token.eq_def] at ht
  split at ht
  · next size =>
    obtain ⟨x, hx, ht⟩ := bind_eq_ok.1 ht
    cases ht
    have hmem : ['*'] ++ size ∈ ts := hmem
    exact h.set (admits_size.2 ⟨Text.isNumber_of_number hx, Text.trimmed_of_append_mem_tokens hts hmem rfl⟩)
  · exact sound_word h ht

theorem sound_of_foldlM {value : Text} {ts : List Text} (hts : Text.tokens value = .ok ts) :
    ∀ {us : List Text} {said next : Said}, us ⊆ ts → said.Sound → us.foldlM token said = .ok next → next.Sound
  | [], said, next, _, h, hread => by
    rw [List.foldlM_nil, pure_eq_ok] at hread
    exact hread ▸ h
  | t :: us, said, next, hsub, h, hread => by
    rw [List.foldlM_cons] at hread
    rw [List.cons_subset] at hsub
    obtain ⟨mid, ht, hread⟩ := bind_eq_ok.1 hread
    exact sound_of_foldlM hts hsub.2 (sound_token hts hsub.1 h ht) hread

/-- Attributes as they are read. -/
def Lettered (attrs : Attributes) : Prop := ∀ key v, attrs.get? key = some v → Admits key v

theorem lettered_of_sound {said : Said} (h : said.Sound) : Lettered said.attributes := by
  intro key v hv
  rcases OrderedMap.mem_or_get?_of_union hv with hmem | hnone
  · rcases List.mem_append.1 hmem with hmem | hmem
    · exact h.settings _ hmem
    · obtain ⟨s, hs, heq⟩ := Option.map_eq_some_iff.1 (Option.mem_toList.1 hmem)
      cases heq
      exact admits_style.2 ⟨s, h.style s hs, rfl⟩
  · cases hnone

theorem lettered_of_decode {value : Text} {a : Attributes} (h : format.decode value = .ok (some a)) : Lettered a := by
  obtain ⟨ts, hts, h⟩ := bind_eq_ok.1 h
  obtain ⟨said, hsaid, h⟩ := bind_eq_ok.1 h
  obtain ⟨rfl, -⟩ := PropertyFormat.something_eq_some.1 (pure_eq_ok.1 h)
  exact lettered_of_sound (sound_of_foldlM hts (List.Subset.refl ts) sound_nothing hsaid)

/-! ## What is written -/

/-- What is kept of each attribute. -/
def rows (attrs : Attributes) : List (Text × Option Text) :=
  [("serif", if attrs.isTrue "serif" then some "true" else none),
    ("sizeM", attrs.unlessDefault? "sizeM" "1"),
    ("style", if styleOf attrs = 0 then none else some (Text.ofNat (styleOf attrs)))]

/-- What the written tokens say. -/
def written (attrs : Attributes) : Attributes :=
  OrderedMap.ofList ((rows attrs).filterMap fun row => row.2.map (row.1, ·))

theorem get?_written (attrs : Attributes) (key : Text) :
    (written attrs).get? key = (OrderedMap.find? key (rows attrs)).bind id := by
  have hnodup : ((rows attrs).map Prod.fst).Nodup := by
    show (["serif", "sizeM", "style"] : List Text).Nodup
    decide
  exact (OrderedMap.get?_ofList (hnodup.sublist (OrderedMap.keys_filterMap_sublist id (rows attrs)))).trans
    (OrderedMap.find?_filterMap id key hnodup)

theorem get?_written_serif (attrs : Attributes) :
    (written attrs).get? "serif" = if attrs.isTrue "serif" then some "true".toList else none := by
  rw [get?_written]
  rfl

theorem get?_written_size (attrs : Attributes) : (written attrs).get? "sizeM" = attrs.unlessDefault? "sizeM" "1" := by
  rw [get?_written]
  rfl

theorem get?_written_style (attrs : Attributes) :
    (written attrs).get? "style" = if styleOf attrs = 0 then none else some (Text.ofNat (styleOf attrs)) := by
  rw [get?_written]
  rfl

theorem styleOf_of_get? {attrs : Attributes} {s : Nat} (hs : s < 4) (h : attrs.get? "style" = some (Text.ofNat s)) :
    styleOf attrs = s := by
  rw [styleOf, h, Option.bind_some, Text.trim_ofNat, Text.natural32?, Text.natural?_ofNat (by omega)]
  rfl

theorem Lettered.styleOf_lt {a : Attributes} (h : Lettered a) : styleOf a < 4 := by
  cases hstyle : a.get? "style" with
  | none =>
    rw [styleOf, hstyle]
    decide
  | some v =>
    obtain ⟨s, hs, rfl⟩ := admits_style.1 (h _ v hstyle)
    rwa [styleOf_of_get? hs hstyle]

theorem write_written {a : Attributes} (h : Lettered a) : write (written a) = write a := by
  have hserif : (written a).isTrue "serif" = a.isTrue "serif" := by
    rw [Attributes.isTrue, get?_written_serif]
    cases a.isTrue "serif" <;> rfl
  have hsize : (written a).unlessDefault? "sizeM" "1" = a.unlessDefault? "sizeM" "1" := by
    rw [Attributes.unlessDefault?, get?_written_size, Attributes.unlessDefault?, Option.filter_filter]
    simp only [Bool.and_self]
  have hstyle : styleOf (written a) = styleOf a := by
    by_cases hzero : styleOf a = 0
    · rw [styleOf, get?_written_style, if_pos hzero, hzero]
      rfl
    · exact styleOf_of_get? h.styleOf_lt (by rw [get?_written_style, if_neg hzero])
  rw [write, write, hserif, hsize, hstyle]

/-! ## What is read again -/

theorem part_of_mem_write {a : Attributes} (h : Lettered a) : ∀ t ∈ write a, Part Text.isBlank t := by
  have hword : ∀ w ∈ (["serif", "italic", "bold"] : List Text), Part Text.isBlank w := by
    intro w hw
    have hplain : ∀ w ∈ (["serif", "italic", "bold"] : List Text), w ≠ [] ∧ w.all Text.isPlain := by decide
    exact Text.part_of_plain (hplain w hw).1 (hplain w hw).2
  have hif : ∀ (c : Prop) [Decidable c] (w : Text), w ∈ (["serif", "italic", "bold"] : List Text) →
      ∀ t ∈ (if c then [w] else []), Part Text.isBlank t := by
    intro c _ w hw t ht
    split at ht
    · exact List.mem_singleton.1 ht ▸ hword w hw
    · cases ht
  rw [write, List.forall_mem_append, List.forall_mem_append, List.forall_mem_append]
  refine ⟨⟨⟨hif _ _ (by decide), fun t ht => ?_⟩, hif _ _ (by decide)⟩, hif _ _ (by decide)⟩
  obtain ⟨v, hv, rfl⟩ := Option.map_eq_some_iff.1 (Option.mem_toList.1 ht)
  obtain ⟨hnumber, htrimmed⟩ := admits_size.1 (h _ v (Option.filter_eq_some_iff.1 hv).1)
  have hspelled := hnumber.spelled_of_trimmed htrimmed
  refine Text.part_of_plain (List.cons_ne_nil _ _) (List.all_eq_true.2 (List.forall_mem_cons.2 ⟨by decide, ?_⟩))
  exact fun c hc => Text.isPlain_of_isSpelling (hspelled.all c hc)

/-- The style that is heard of the two words for the bits of a style. -/
def heard (style : Nat) : Option Nat :=
  let italic := if style.testBit 1 then some (0 ||| 2) else none
  if style.testBit 0 then some (italic.getD 0 ||| 1) else italic

theorem heard_eq : ∀ s < 4, heard s = if s = 0 then none else some s := by decide

/-- **The written tokens are heard as the table of what is written.** -/
theorem foldlM_write {a : Attributes} (h : Lettered a) :
    ∃ said, (write a).foldlM token {} = .ok said ∧ said.attributes = written a := by
  let serifs : List (Text × Text) := if a.isTrue "serif" then [("serif", "true")] else []
  let sizes : List (Text × Text) := ((a.unlessDefault? "sizeM" "1").map ("sizeM".toList, ·)).toList
  have hserif : (if a.isTrue "serif" then ["serif".toList] else []).foldlM token {} = .ok ⟨serifs, none⟩ := by
    cases hserif : a.isTrue "serif" <;> simp only [serifs, hserif] <;> rfl
  have hsize : ((a.unlessDefault? "sizeM" "1").map fun v => '*' :: v).toList.foldlM token ⟨serifs, none⟩ =
      .ok ⟨serifs ++ sizes, none⟩ := by
    cases hv : a.unlessDefault? "sizeM" "1" with
    | none =>
      simp only [sizes, hv, Option.map_none, Option.toList_none, List.append_nil]
      rfl
    | some v =>
      obtain ⟨x, hx⟩ := (admits_size.1 (h _ v (Option.filter_eq_some_iff.1 hv).1)).1.number "font size"
      have htoken : token ⟨serifs, none⟩ ('*' :: v) = .ok ⟨serifs ++ [("sizeM".toList, v)], none⟩ := by
        rw [token, hx]
        rfl
      simp only [sizes, hv, Option.map_some, Option.toList_some, List.foldlM_cons, htoken]
      rfl
  have hstyle : ∀ settings : List (Text × Text),
      ((if (styleOf a).testBit 1 then ["italic".toList] else []) ++
        (if (styleOf a).testBit 0 then ["bold".toList] else [])).foldlM token ⟨settings, none⟩ =
        .ok ⟨settings, heard (styleOf a)⟩ := by
    intro settings
    rw [heard]
    cases (styleOf a).testBit 1 <;> cases (styleOf a).testBit 0 <;> rfl
  refine ⟨⟨serifs ++ sizes, heard (styleOf a)⟩, ?_, ?_⟩
  · rw [write, List.append_assoc, List.foldlM_append, List.foldlM_append, hserif, ok_bind, hsize, ok_bind, hstyle]
  · rw [Said.attributes, written, heard_eq _ h.styleOf_lt, List.append_assoc]
    refine congrArg OrderedMap.ofList ?_
    simp only [serifs, sizes, rows]
    cases a.isTrue "serif" <;> cases a.unlessDefault? "sizeM" "1" <;> by_cases hzero : styleOf a = 0 <;>
      simp [hzero]

theorem reread_eq {a : Attributes} (h : Lettered a) : format.reread a = .ok (some (written a)) := by
  obtain ⟨said, hsaid, hwritten⟩ := foldlM_write h
  have hparts := part_of_mem_write h
  refine PropertyFormat.reread_of_texts rfl (fun t ht => (hparts t ht).ne_nil) (fun hempty => ?_) fun hne => ?_
  · rw [hempty] at hsaid
    cases hsaid
    rw [← hwritten]
    rfl
  · -- nothing would be written of no attributes
    have hsome : written a ≠ ∅ := fun hempty => hne (by rw [← write_written h, hempty]; rfl)
    show (Text.tokens (Text.words (write a)) >>= fun ts => ts.foldlM token {} >>= fun said =>
      pure (PropertyFormat.something said.attributes)) = _
    rw [Text.tokens_words hparts, ok_bind, hsaid, ok_bind, hwritten]
    exact congrArg Except.ok (PropertyFormat.something_eq_some.2 ⟨rfl, hsome⟩)

/-- What is not written says the same as its default. -/
theorem same_or_default {a : Attributes} (h : Lettered a) (key : Text) :
    Same ((a.get? key).or (defaults.get? key)) (((written a).get? key).or (defaults.get? key)) := by
  have hserif : defaults.get? "serif" = some "false".toList := by decide
  have hsize : defaults.get? "sizeM" = some "1".toList := by decide
  have hstyle : defaults.get? "style" = some "0".toList := by decide
  by_cases hkey : key ∈ (["serif", "sizeM", "style"] : List Text)
  · simp only [List.mem_cons, List.not_mem_nil, or_false] at hkey
    rcases hkey with rfl | rfl | rfl
    · rw [get?_written_serif, hserif, Attributes.isTrue]
      cases hv : a.get? "serif" with
      | none => exact same_refl _
      | some v =>
        obtain ⟨on, rfl⟩ := admits_serif.1 (h _ v hv)
        cases on <;> exact same_refl _
    · rw [get?_written_size, hsize, Attributes.unlessDefault?]
      cases hv : a.get? "sizeM" with
      | none => exact same_refl _
      | some v =>
        rw [Option.filter_some]
        cases hsame : Text.sameValue v "1" with
        | true => exact .some hsame
        | false => exact same_refl _
    · rw [get?_written_style, hstyle]
      cases hv : a.get? "style" with
      | none =>
        rw [if_pos (by rw [styleOf, hv]; rfl)]
        exact same_refl _
      | some v =>
        obtain ⟨s, hs, rfl⟩ := admits_style.1 (h _ v hv)
        rw [styleOf_of_get? hs hv]
        split
        · next hzero =>
          rw [hzero]
          exact same_refl _
        · exact same_refl _
  · have hnone : a.get? key = none := Option.eq_none_iff_forall_ne_some.2 fun v hv => hkey (h key v hv).key_mem
    have hwritten : OrderedMap.find? key (rows a) = none := OrderedMap.find?_eq_none.2 hkey
    rw [hnone, get?_written, hwritten]
    exact same_refl _

/-- **Lettering survives writing and reading.** -/
theorem survives {value : Text} {a : Attributes} (h : format.decode value = .ok (some a)) : format.Survives a := by
  have hlettered := lettered_of_decode h
  refine ⟨written a, reread_eq hlettered, PropertyFormat.equivalent_iff.2 fun key => ?_,
    congrArg (fun texts => Text.nonempty? (Text.words texts)) (write_written hlettered)⟩
  show Same ((Attributes.overlaid defaults a).get? key) ((Attributes.overlaid defaults (written a)).get? key)
  rw [Attributes.get?_overlaid, Attributes.get?_overlaid]
  exact same_or_default hlettered key

end StyleScript.Lettering
