import StyleScript.Property.LineStyle
import StyleScript.Proofs.Number.Integers
import StyleScript.Proofs.Property.Aspects
/-!
# Line styles survive writing and reading

A line style is read token by token, and then a pattern without a thickness gets one, and the other way round.  On
writing each of the two is left out where it is the default.  So what is written of one need not name the other, and
the second reading pairs what the first did not have to.  Whatever is paired, though, is a default (`get?_paired`):
it is not written, and it says what would have been said without it.  So both readings agree once the defaults are
filled in.
-/
namespace StyleScript.LineStyle

open PropertyFormat (Aspect Reads)
open Binary64 (IsCut)
open Text (Part Same same_refl)

/-- A token as a row of one setting. -/
def listed (t : Text) : Except Cause (List (Text × Text)) := (token t).map fun p => [p]

def keptKeys : List Text := ["type", "thickness", "typeHidden", "opacity", "drawArrow"]

/-! ## Pairing and ordering -/

/-- A key that says nothing gets a value. -/
def filled (set : Attributes) (key value : Text) : Attributes :=
  if set.contains key then set else set.set key value

theorem get?_filled (set : Attributes) (key value other : Text) :
    (filled set key value).get? other = (set.get? other).or (if other = key then some value else none) := by
  rw [filled, OrderedMap.contains]
  by_cases hkey : other = key
  · subst hkey
    cases hv : set.get? other with
    | none => exact (OrderedMap.get?_set ..).trans (if_pos rfl |>.trans (if_pos rfl).symm)
    | some v => exact hv
  · rw [if_neg hkey, Option.or_none]
    split
    · rfl
    · rw [OrderedMap.get?_set, if_neg (Ne.symm hkey)]

theorem get?_filled_pair (set : Attributes) {p q : Text} (hne : p ≠ q) (v w key : Text) :
    (if set.contains p || set.contains q then filled (filled set p v) q w else set).get? key =
      (set.get? key).or
        (if key = p then (set.get? q).map fun _ => v
        else if key = q then (set.get? p).map fun _ => w
        else none) := by
  rw [OrderedMap.contains, OrderedMap.contains]
  by_cases hp : key = p
  · subst hp
    cases hx : set.get? key <;> cases hy : set.get? q <;> simp [get?_filled, hx, hne]
  · by_cases hq : key = q
    · subst hq
      cases hx : set.get? p <;> cases hy : set.get? key <;> simp [get?_filled, hy, hne.symm]
    · cases hx : set.get? p <;> cases hy : set.get? q <;> simp [get?_filled, hp, hq]

/-- **What pairing adds is a default.** -/
theorem get?_paired (set : Attributes) (key : Text) : (paired set).get? key =
    (set.get? key).or
      (if key = "type" then (set.get? "thickness").map fun _ => "0"
      else if key = "thickness" then (set.get? "type").map fun _ => "5"
      else none) :=
  get?_filled_pair set (by decide) "0" "5" key

theorem find?_filterMap_get? (set : Attributes) (key : Text) : ∀ keys : List Text,
    OrderedMap.find? key (keys.filterMap fun k => (set.get? k).map fun value => (k, value)) =
      if key ∈ keys then set.get? key else none
  | [] => rfl
  | k :: keys => by
    have hrest := find?_filterMap_get? set key keys
    by_cases hk : k = key
    · subst hk
      rw [if_pos List.mem_cons_self]
      cases hv : set.get? k with
      | none =>
        rw [List.filterMap_cons_none (by rw [hv]; rfl), hrest, hv, ite_self]
      | some v => rw [List.filterMap_cons_some (by rw [hv]; rfl), OrderedMap.find?, if_pos rfl]
    · have hmem : key ∈ k :: keys ↔ key ∈ keys := by rw [List.mem_cons, or_iff_right (Ne.symm hk)]
      rw [if_congr hmem rfl rfl, ← hrest]
      cases hv : set.get? k with
      | none => rw [List.filterMap_cons_none (by rw [hv]; rfl)]
      | some v => rw [List.filterMap_cons_some (by rw [hv]; rfl), OrderedMap.find?, if_neg hk]

theorem get?_ordered (set : Attributes) (key : Text) :
    (ordered set).get? key = if key ∈ keptKeys then set.get? key else none := by
  have hnodup : ((keptKeys.filterMap fun k => (set.get? k).map fun value => (k, value)).map Prod.fst).Nodup := by
    have hsub := OrderedMap.keys_filterMap_sublist set.get? (keptKeys.map fun k => (k, k))
    rw [List.filterMap_map, List.map_map] at hsub
    exact List.Nodup.sublist hsub (by decide)
  exact (OrderedMap.get?_ofList hnodup).trans (find?_filterMap_get? set key keptKeys)

/-! ## What is read -/

/-- What an attribute of a line style can be. -/
def Admits (key v : Text) : Prop :=
  if key = "type" then v ∈ patterns.map Prod.snd
  else if key = "typeHidden" then v ∈ "0".toList :: hiddenStyles.map Prod.snd
  else if key = "drawArrow" then ∃ on, v = Text.ofBool on
  else (key = "thickness" ∨ key = "opacity") ∧ ∃ n, IsCut n ∧ v = Text.ofInt n

theorem admits_pattern {v : Text} : Admits "type" v ↔ v ∈ patterns.map Prod.snd := by
  rw [Admits, if_pos rfl]

theorem admits_hidden {v : Text} : Admits "typeHidden" v ↔ v ∈ "0".toList :: hiddenStyles.map Prod.snd := by
  rw [Admits, if_neg (by decide), if_pos rfl]

theorem admits_arrow {v : Text} : Admits "drawArrow" v ↔ ∃ on, v = Text.ofBool on := by
  rw [Admits, if_neg (by decide), if_neg (by decide), if_pos rfl]

theorem admits_integer {key v : Text} (h : key ∈ (["thickness", "opacity"] : List Text)) :
    Admits key v ↔ ∃ n, IsCut n ∧ v = Text.ofInt n := by
  have hother : ∀ key ∈ (["thickness", "opacity"] : List Text), key ≠ "type" ∧ key ≠ "typeHidden" ∧
      key ≠ "drawArrow" ∧ (key = "thickness" ∨ key = "opacity") := by decide
  obtain ⟨htype, hhidden, harrow, hkey⟩ := hother key h
  rw [Admits, if_neg htype, if_neg hhidden, if_neg harrow, and_iff_right hkey]

theorem admits_truncated {key what text : Text} {n : Int} (hkey : key ∈ (["thickness", "opacity"] : List Text))
    (h : Text.truncated what text = .ok n) : Admits key (Text.ofInt n) :=
  (admits_integer hkey).2 ⟨n, Text.isCut_of_truncated h, rfl⟩

theorem admits_of_token {t : Text} {p : Text × Text} (h : token t = .ok p) : Admits p.1 p.2 := by
  rw [token] at h
  split at h
  · next hpattern =>
    have hcode := List.mem_map_of_mem (f := Prod.snd) (List.mem_of_find?_eq_some hpattern)
    cases h
    exact admits_pattern.2 hcode
  · split at h
    · rw [setting] at h
      split at h
      · obtain ⟨n, hn, rfl⟩ := map_eq_ok.1 h
        exact admits_truncated (.head _) hn
      · split at h
        · obtain ⟨n, hn, rfl⟩ := map_eq_ok.1 h
          exact admits_truncated (.tail _ (.head _)) hn
        · split at h
          · split at h
            · next hstyle =>
              have hcode := List.mem_map_of_mem (f := Prod.snd) (List.mem_of_find?_eq_some hstyle)
              cases h
              exact admits_hidden.2 (.tail _ hcode)
            · cases h
          · cases h
    · rw [word] at h
      split at h
      split at h
      · cases h
        exact admits_hidden.2 (.head _)
      · split at h
        · cases h
          exact admits_arrow.2 ⟨_, rfl⟩
        · cases h

theorem Admits.key_mem {key v : Text} (h : Admits key v) : key ∈ keptKeys := by
  rw [Admits] at h
  split at h
  · next hkey => exact hkey ▸ by decide
  · split at h
    · next hkey => exact hkey ▸ by decide
    · split at h
      · next hkey => exact hkey ▸ by decide
      · rcases h.1 with rfl | rfl <;> decide

theorem isCut_five : IsCut 5 :=
  @Text.isCut_of_truncated [] "5" 5 (by decide +kernel)

/-- Attributes as they are read: each is what it can be, and a pattern and a thickness come together. -/
structure Styled (attrs : Attributes) : Prop where
  admits : ∀ key v, attrs.get? key = some v → Admits key v
  paired : (attrs.get? "type").isSome = (attrs.get? "thickness").isSome

theorem styled_of_admits {set : Attributes} (h : ∀ key v, set.get? key = some v → Admits key v) :
    Styled (ordered (paired set)) where
  admits key v hv := by
    rw [get?_ordered] at hv
    split at hv
    · rw [get?_paired] at hv
      rcases Option.or_eq_some_iff.1 hv with hset | ⟨-, hfill⟩
      · exact h key v hset
      · split at hfill
        · next hkey =>
          obtain ⟨-, -, rfl⟩ := Option.map_eq_some_iff.1 hfill
          exact hkey ▸ admits_pattern.2 (by decide)
        · split at hfill
          · next hkey =>
            obtain ⟨-, -, rfl⟩ := Option.map_eq_some_iff.1 hfill
            exact hkey ▸ (admits_integer (by decide)).2 ⟨5, isCut_five, by decide⟩
          · cases hfill
    · cases hv
  paired := by
    rw [get?_ordered, get?_ordered, if_pos (by decide), if_pos (by decide), get?_paired, get?_paired, if_pos rfl,
      if_neg (by decide), if_pos rfl]
    cases set.get? "type" <;> cases set.get? "thickness" <;> rfl

theorem decode_eq_ok {value : Text} {a : Attributes} : decode value = .ok (some a) ↔
    ∃ ts settings, Text.tokens value = .ok ts ∧ ts.mapM token = .ok settings ∧
      ordered (paired (OrderedMap.ofList settings)) = a ∧ a ≠ ∅ := by
  rw [decode]
  simp only [bind_eq_ok, pure_eq_ok, PropertyFormat.something_eq_some]
  constructor
  · rintro ⟨ts, hts, settings, hsettings, h⟩
    exact ⟨ts, settings, hts, hsettings, h⟩
  · rintro ⟨ts, settings, hts, hsettings, h⟩
    exact ⟨ts, hts, settings, hsettings, h⟩

theorem styled_of_decode {value : Text} {a : Attributes} (h : decode value = .ok (some a)) : Styled a := by
  obtain ⟨ts, settings, -, hsettings, rfl, -⟩ := decode_eq_ok.1 h
  refine styled_of_admits fun key v hv => ?_
  rcases OrderedMap.mem_or_get?_of_union hv with hmem | hnone
  · obtain ⟨t, -, ht⟩ := exists_of_mem_mapM hsettings hmem
    exact admits_of_token ht
  · cases hnone

/-! ## The aspects of a line style -/

def patternWord? (v : Text) : Option Text :=
  if Text.sameValue v "0" then none else (patterns.find? (·.2 = Text.truncateText v)).map Prod.fst

def hiddenWord? (v : Text) : Option Text :=
  if Text.truncateText v = "0" then some "hidden"
  else (hiddenStyles.find? (·.2 = Text.truncateText v)).map fun style => "hidden=" ++ style.1

/-- A code, written by its word where it has one. -/
def worded (key : Text) (word? : Text → Option Text) : Aspect :=
  .single key (fun v => (word? v).isSome) fun v => (word? v).getD []

/-- An integer behind its key, written of some of its values. -/
def integer (key : Text) (keeps : Text → Bool) : Aspect :=
  .single key keeps fun v => key ++ '=' :: Text.truncateText v

/-- The aspects in the order in which they are written. -/
def aspects : List Aspect :=
  [worded "type" patternWord?, integer "thickness" fun v => !Text.sameValue v "5", worded "typeHidden" hiddenWord?,
    integer "opacity" fun _ => true, .flag "drawArrow" "arrow" true]

theorem texts_worded (key : Text) (word? : Text → Option Text) (attrs : Attributes) :
    (worded key word?).texts attrs = ((attrs.get? key).bind word?).toList := by
  show (((attrs.get? key).filter fun v => (word? v).isSome).map fun v => (word? v).getD []).toList = _
  cases attrs.get? key with
  | none => rfl
  | some v => cases hw : word? v <;> simp [hw]

theorem texts_pattern (attrs : Attributes) : (worded "type" patternWord?).texts attrs =
    match attrs.unlessDefault? "type" "0" with
    | some code => ((patterns.find? (·.2 = Text.truncateText code)).map Prod.fst).toList
    | none => [] := by
  rw [texts_worded, Attributes.unlessDefault?]
  cases attrs.get? "type" with
  | none => rfl
  | some v =>
    rw [Option.bind_some, patternWord?, Option.filter_some]
    cases Text.sameValue v "0" <;> rfl

theorem texts_hidden (attrs : Attributes) : (worded "typeHidden" hiddenWord?).texts attrs = writeHidden attrs := by
  rw [texts_worded, writeHidden]
  cases attrs.get? "typeHidden" with
  | none => rfl
  | some v =>
    rw [Option.bind_some, hiddenWord?, Option.map_some]
    by_cases hv : Text.truncateText v = "0"
    · rw [if_pos hv]
      exact (if_pos hv).symm
    · rw [if_neg hv]
      refine Eq.trans ?_ (if_neg hv).symm
      cases hiddenStyles.find? (·.2 = Text.truncateText v) <;> rfl

theorem write_eq (attrs : Attributes) : write attrs = aspects.flatMap (·.texts attrs) := by
  have hopacity : (integer "opacity" fun _ => true).texts attrs =
      ((attrs.get? "opacity").map fun v => "opacity=" ++ Text.truncateText v).toList := by
    show (((attrs.get? "opacity").filter fun _ => true).map _).toList = _
    cases attrs.get? "opacity" <;> rfl
  have harrow := Aspect.texts_flag_true "drawArrow" "arrow" attrs
  rw [write]
  simp only [aspects, List.flatMap_cons, List.flatMap_nil, List.append_nil, List.append_assoc, texts_pattern,
    texts_hidden, hopacity, harrow]
  rfl

/-! ## What is read again -/

theorem listed_of_token {t : Text} {p : Text × Text} (h : token t = .ok p) : listed t = .ok [p] := by
  rw [listed, h]
  rfl

/-- A token with a key is no pattern. -/
theorem token_keyValue {key : Text} (hkey : Text.isKey key) (v : Text) :
    token (key ++ '=' :: v) = setting key v := by
  have hpatterns : ∀ p ∈ patterns, Text.keyValue? p.1 = none := by decide +kernel
  have hkeyed := Text.keyValue?_of_isKey hkey v
  have hnone : patterns.find? (·.1 = key ++ '=' :: v) = none := by
    refine List.find?_eq_none.2 fun p hp heq => ?_
    rw [← of_decide_eq_true heq, hpatterns p hp] at hkeyed
    cases hkeyed
  rw [token, hnone, hkeyed]

/-- A code with a word is read again from the word, and a code without one is the default. -/
theorem lasts_worded {key : Text} {word? : Text → Option Text} (codes : List Text) {a : Attributes}
    (hwords : ∀ v ∈ codes, ∀ w, word? v = some w → w ≠ [] ∧ w.all Text.isPlain ∧ token w = .ok (key, v))
    (hdefault : ∀ v ∈ codes, word? v = none → ∃ d, defaults.get? key = some d ∧ Text.sameValue v d)
    (hcodes : ∀ v, a.get? key = some v → v ∈ codes) : (worded key word?).Lasts listed defaults a := by
  refine Aspect.lasts_single (fun v hv hword => ?_) fun v hv hword => ?_
  · obtain ⟨w, hw⟩ := Option.isSome_iff_exists.1 hword
    obtain ⟨hne, hplain, htoken⟩ := hwords v (hcodes v hv) w hw
    rw [hw]
    exact ⟨Text.part_of_plain hne hplain, listed_of_token htoken⟩
  · exact hdefault v (hcodes v hv) (Option.not_isSome_iff_eq_none.1 (Bool.eq_false_iff.1 hword))

theorem lasts_pattern {a : Attributes} (h : Styled a) : (worded "type" patternWord?).Lasts listed defaults a := by
  refine lasts_worded (patterns.map Prod.snd) ?_ ?_ fun v hv => admits_pattern.1 (h.admits _ v hv)
  · decide +kernel
  · have hzero : ∀ v ∈ patterns.map Prod.snd, patternWord? v = none → Text.sameValue v "0" := by decide +kernel
    exact fun v hv hword => ⟨"0", by decide, hzero v hv hword⟩

theorem lasts_hidden {a : Attributes} (h : Styled a) :
    (worded "typeHidden" hiddenWord?).Lasts listed defaults a := by
  refine lasts_worded ("0".toList :: hiddenStyles.map Prod.snd) ?_ ?_
    fun v hv => admits_hidden.1 (h.admits _ v hv)
  · decide +kernel
  · have hword : ∀ v ∈ "0".toList :: hiddenStyles.map Prod.snd, hiddenWord? v ≠ none := by decide +kernel
    exact fun v hv hnone => absurd hnone (hword v hv)

theorem token_integer {key : Text} (hkey : key ∈ (["thickness", "opacity"] : List Text)) {n : Int} (h : IsCut n) :
    Part Text.isBlank (key ++ '=' :: Text.ofInt n) ∧
      token (key ++ '=' :: Text.ofInt n) = .ok (key, Text.ofInt n) := by
  have hall : ∀ key ∈ (["thickness", "opacity"] : List Text), Text.isKey key := by decide
  refine ⟨Text.part_keyValue (hall key hkey) (Text.part_ofInt n), ?_⟩
  rw [token_keyValue (hall key hkey), setting]
  rcases List.mem_pair.1 hkey with rfl | rfl
  · rw [if_pos rfl, Text.truncated_ofInt _ h]
    rfl
  · rw [if_neg (by decide), if_pos rfl, Text.truncated_ofInt _ h]
    rfl

theorem lasts_integer {key : Text} {keeps : Text → Bool} {a : Attributes} (h : Styled a)
    (hkey : key ∈ (["thickness", "opacity"] : List Text))
    (hdefault : ∀ v, keeps v = false → ∃ d, defaults.get? key = some d ∧ Text.sameValue v d) :
    (integer key keeps).Lasts listed defaults a := by
  refine Aspect.lasts_single (fun v hv _ => ?_) fun v _ hv => hdefault v hv
  obtain ⟨n, hn, rfl⟩ := (admits_integer hkey).1 (h.admits key v hv)
  rw [Text.truncateText_ofInt hn]
  exact ⟨(token_integer hkey hn).1, listed_of_token (token_integer hkey hn).2⟩

theorem lasts {a : Attributes} (h : Styled a) : ∀ aspect ∈ aspects, aspect.Lasts listed defaults a := by
  have hthickness : (integer "thickness" fun v => !Text.sameValue v "5").Lasts listed defaults a :=
    lasts_integer h (by decide) fun v hv => ⟨"5", by decide, (Bool.not_eq_false' _).mp hv⟩
  have hopacity : (integer "opacity" fun _ => true).Lasts listed defaults a :=
    lasts_integer h (by decide) fun _ hv => nomatch hv
  have harrow : (Aspect.flag "drawArrow" "arrow" true).Lasts listed defaults a :=
    Aspect.lasts_flag (Text.part_of_plain (by decide) (by decide)) (by decide) (by decide)
      fun v hv => admits_arrow.1 (h.admits _ v hv)
  simp only [aspects, List.forall_mem_cons, List.not_mem_nil, false_implies, implies_true, and_true]
  exact ⟨lasts_pattern h, hthickness, lasts_hidden h, hopacity, harrow⟩

/-! ## Lines survive -/

theorem get?_ordered_paired (set : Attributes) {key : Text} (hkey : key ∈ keptKeys) :
    (ordered (paired set)).get? key = (set.get? key).or
      (if key = "type" then (set.get? "thickness").map fun _ => "0"
      else if key = "thickness" then (set.get? "type").map fun _ => "5"
      else none) := by
  rw [get?_ordered, if_pos hkey, get?_paired]

/-- What pairing adds is said without it. -/
theorem get?_or_default (set : Attributes) {key : Text} (hkey : key ∈ keptKeys) :
    ((ordered (paired set)).get? key).or (defaults.get? key) = (set.get? key).or (defaults.get? key) := by
  have htype : defaults.get? "type" = some "0".toList := by decide
  have hthickness : defaults.get? "thickness" = some "5".toList := by decide
  rw [get?_ordered_paired set hkey, Option.or_assoc]
  refine congrArg (set.get? key).or ?_
  split
  · next hkey =>
    rw [hkey, htype]
    cases set.get? "thickness" <;> rfl
  · split
    · next hkey =>
      rw [hkey, hthickness]
      cases set.get? "type" <;> rfl
    · rfl

/-- What pairing adds is not written. -/
theorem write_ordered_paired (set : Attributes) : write (ordered (paired set)) = write set := by
  have hget : ∀ key ∈ keptKeys.drop 2, (ordered (paired set)).get? key = set.get? key := by
    have hother : ∀ key ∈ keptKeys.drop 2, key ≠ "type" ∧ key ≠ "thickness" := by decide
    intro key hkey
    rw [get?_ordered_paired set (List.mem_of_mem_drop hkey), if_neg (hother key hkey).1, if_neg (hother key hkey).2,
      Option.or_none]
  have htype : (ordered (paired set)).unlessDefault? "type" "0" = set.unlessDefault? "type" "0" := by
    rw [Attributes.unlessDefault?, get?_ordered_paired set (.head _), if_pos rfl, Attributes.unlessDefault?]
    cases set.get? "type" <;> cases set.get? "thickness" <;> rfl
  have hthickness : (ordered (paired set)).unlessDefault? "thickness" "5" = set.unlessDefault? "thickness" "5" := by
    rw [Attributes.unlessDefault?, get?_ordered_paired set (.tail _ (.head _)), if_neg (by decide), if_pos rfl,
      Attributes.unlessDefault?]
    cases set.get? "thickness" <;> cases set.get? "type" <;> rfl
  rw [write, write, writeHidden, writeHidden, Attributes.isTrue, Attributes.isTrue, htype, hthickness,
    hget "typeHidden" (.head _), hget "opacity" (.tail _ (.head _)), hget "drawArrow" (.tail _ (.tail _ (.head _)))]

theorem decode_of_reads {texts : List Text} {pairs : List (Text × Text)} (h : Reads listed texts pairs)
    (hne : texts ≠ []) (hkeys : ∀ p ∈ pairs, p.1 ∈ keptKeys) :
    decode (Text.words texts) = .ok (some (ordered (paired (OrderedMap.ofList pairs)))) := by
  obtain ⟨rows, hrows, rfl⟩ := h.read
  have hlisted : ∀ {ts : List Text} {rows : List (List (Text × Text))},
      List.Forall₂ (fun t row => listed t = .ok row) ts rows → ts.mapM token = .ok rows.flatten := by
    intro ts rows hread
    induction hread with
    | nil => rfl
    | cons ht _ ih =>
      obtain ⟨p, hp, rfl⟩ := map_eq_ok.1 ht
      rw [List.mapM_cons, hp, ok_bind, ih]
      rfl
  refine decode_eq_ok.2 ⟨texts, _, Text.tokens_words h.parts, hlisted (mapM_eq_ok_iff.1 hrows), rfl, fun hempty => ?_⟩
  -- what the first token sets is there
  obtain ⟨p, rest, hpairs⟩ := List.exists_cons_of_ne_nil (h.nonempty hne)
  have hmem : p ∈ rows.flatten := hpairs ▸ List.mem_cons_self
  have hfound : ((OrderedMap.ofList rows.flatten).get? p.1).isSome := by
    rw [OrderedMap.ofList, OrderedMap.get?_union_isSome]
    exact .inr (List.mem_map_of_mem hmem)
  have hkept := get?_ordered_paired (OrderedMap.ofList rows.flatten) (hkeys p hmem)
  rw [hempty] at hkept
  have hnone : (OrderedMap.ofList rows.flatten).get? p.1 = none := (Option.or_eq_none_iff.1 hkept.symm).1
  rw [hnone] at hfound
  cases hfound

theorem encode_eq (attrs : Attributes) : format.encode attrs = Text.nonempty? (Text.words (write attrs)) := rfl

theorem reread_of_reads {a : Attributes} {pairs : List (Text × Text)} (h : Reads listed (write a) pairs)
    (hkeys : ∀ p ∈ pairs, p.1 ∈ keptKeys) :
    format.reread a = .ok (some (ordered (paired (OrderedMap.ofList pairs)))) := by
  refine PropertyFormat.reread_of_texts (encode_eq a) (fun t ht => (h.parts t ht).ne_nil) (fun hempty => ?_)
    fun hne => decode_of_reads h hne hkeys
  obtain ⟨rows, hrows, rfl⟩ := h.read
  rw [hempty] at hrows
  cases mapM_eq_ok_iff.1 hrows
  rfl

/-- **Line styles survive writing and reading**, and have a pattern exactly if they have a thickness. -/
theorem line_styles_survive {value : Text} {a : Attributes} (h : format.decode value = .ok (some a)) :
    a.contains "type" = a.contains "thickness" ∧ format.Survives a := by
  have hstyled := styled_of_decode h
  have hlasts := lasts hstyled
  have hrereads := fun aspect haspect => (hlasts aspect haspect).toRereads
  have hreads := Aspect.reads_flatMap hrereads
  rw [← write_eq] at hreads
  have hfound := Aspect.get?_union_said (m := ∅) hrereads (by decide) fun _ _ => rfl
  have hown : ∀ p ∈ aspects.flatMap (·.said a), p.1 ∈ keptKeys := fun p hp =>
    Aspect.key_mem_of_said hrereads (List.mem_map_of_mem hp)
  have hpaired : a.contains "type" = a.contains "thickness" := hstyled.paired
  have hreread := reread_of_reads hreads hown
  refine ⟨hpaired, _, hreread, PropertyFormat.equivalent_iff.2 fun key => ?_, ?_⟩
  · show Same ((Attributes.overlaid defaults a).get? key) ((Attributes.overlaid defaults _).get? key)
    rw [Attributes.get?_overlaid, Attributes.get?_overlaid]
    by_cases hkey : key ∈ keptKeys
    · obtain ⟨aspect, haspect, hmem⟩ := List.mem_flatMap.1 (show key ∈ aspects.flatMap Aspect.keys from hkey)
      rw [get?_or_default _ hkey]
      exact hfound aspect haspect key hmem ▸ (hlasts aspect haspect).same key hmem
    · have hnone : a.get? key = none :=
        Option.eq_none_iff_forall_ne_some.2 fun v hv => hkey (hstyled.admits key v hv).key_mem
      rw [hnone, get?_ordered, if_neg hkey]
      exact same_refl _
  · have hagain := List.flatMap_congr fun aspect haspect =>
      (hrereads aspect haspect).again (hfound aspect haspect)
    rw [encode_eq, encode_eq, write_ordered_paired, write_eq, write_eq]
    exact congrArg (fun texts => Text.nonempty? (Text.words texts)) hagain

/-- A pattern and a thickness given twice, the last time as the default, a number beyond all integers, and none. -/
theorem line_styles_survive_of_respelled : ∃ a,
    format.decode "thickness=nan dashedlong opacity=1e30 full ~arrow thickness=5.9 hidden=show" =
        .ok (some a) ∧
      a.contains "type" = a.contains "thickness" ∧ format.Survives a := by
  have hdecode : format.decode "thickness=nan dashedlong opacity=1e30 full ~arrow thickness=5.9 hidden=show" =
      .ok (some (.table [("type", "0"), ("thickness", "5"), ("typeHidden", "2"), ("opacity", "9223372036854775807"),
        ("drawArrow", "false")])) := by decide +kernel
  exact ⟨_, hdecode, line_styles_survive hdecode⟩

end StyleScript.LineStyle
