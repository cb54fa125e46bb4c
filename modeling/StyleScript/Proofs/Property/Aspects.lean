import Mathlib.Data.List.Perm.Basic
import StyleScript.Proofs.Property.Tables
import StyleScript.Proofs.Text.Tokens
/-!
# Values that are rows of tokens

A format that reads its value token by token writes attributes aspect by aspect: an aspect is the attributes under a
few keys, with the tokens that are written of them and what these tokens set again (`Aspect`).  Mostly it is one
attribute with one token (`Aspect.single`).

If the tokens of every aspect are read as what it says, and what it says is written by the same tokens, then written
attributes are read again, and written alike (`Rowed.exists_reread`).  Whether they also say the same is decided
aspect by aspect (`Rowed.equivalent_iff`).
-/
namespace StyleScript

theorem mapM_eq_ok_iff {ε α β : Type} {f : α → Except ε β} : ∀ {as : List α} {bs : List β},
    as.mapM f = .ok bs ↔ List.Forall₂ (fun a b => f a = .ok b) as bs
  | [], bs => by
    rw [List.mapM_nil, pure_eq_ok, List.forall₂_nil_left_iff, eq_comm]
  | a :: as, bs => by
    rw [List.mapM_cons, bind_eq_ok, List.forall₂_cons_left_iff]
    constructor
    · rintro ⟨b, hb, h⟩
      obtain ⟨rest, hrest, h⟩ := bind_eq_ok.1 h
      exact ⟨b, rest, hb, mapM_eq_ok_iff.1 hrest, (pure_eq_ok.1 h).symm⟩
    · rintro ⟨b, rest, hb, hrest, rfl⟩
      exact ⟨b, hb, bind_eq_ok.2 ⟨rest, mapM_eq_ok_iff.2 hrest, rfl⟩⟩

theorem exists_of_mem_mapM {ε α β : Type} {f : α → Except ε β} {as : List α} {bs : List β} (h : as.mapM f = .ok bs)
    {b : β} (hb : b ∈ bs) : ∃ a ∈ as, f a = .ok b := by
  have hread := mapM_eq_ok_iff.1 h
  obtain ⟨i, hi, rfl⟩ := List.getElem_of_mem hb
  have hlength : i < as.length := by rwa [hread.length_eq]
  exact ⟨as[i], List.getElem_mem hlength, hread.get hlength hi⟩

theorem exists_of_mapM {ε α β : Type} {f : α → Except ε β} {as : List α} {bs : List β} (h : as.mapM f = .ok bs)
    {a : α} (ha : a ∈ as) : ∃ b ∈ bs, f a = .ok b := by
  have hread := mapM_eq_ok_iff.1 h
  obtain ⟨i, hi, rfl⟩ := List.getElem_of_mem ha
  have hlength : i < bs.length := by rwa [← hread.length_eq]
  exact ⟨bs[i], List.getElem_mem hlength, hread.get hi hlength⟩

/-- What is read of a row in another order is what was read, in another order. -/
theorem exists_perm_of_mapM {ε α β : Type} {f : α → Except ε β} {as more : List α} {bs : List β} (hperm : as.Perm more)
    (h : as.mapM f = .ok bs) : ∃ cs, more.mapM f = .ok cs ∧ bs.Perm cs := by
  obtain ⟨cs, hcs, hbs⟩ := List.perm_comp_forall₂ hperm.symm (mapM_eq_ok_iff.1 h)
  exact ⟨cs, mapM_eq_ok_iff.2 hcs, hbs.symm⟩

theorem map_eq_ok {ε α β : Type} {x : Except ε α} {f : α → β} {b : β} :
    x.map f = .ok b ↔ ∃ a, x = .ok a ∧ f a = b := by
  cases x <;> simp [Except.map]

namespace PropertyFormat

open Text (Part Same same_refl)

/-- Written and read again, the attributes say the same and are written alike. -/
def Survives (format : PropertyFormat) (attrs : Attributes) : Prop :=
  ∃ more, format.reread attrs = .ok (some more) ∧ format.equivalent attrs more ∧
    format.encode more = format.encode attrs

variable {token : Text → Except Cause (List (Text × Text))}

/-! ## What is read -/

theorem something_eq_some {m a : Attributes} : something m = some a ↔ m = a ∧ a ≠ ∅ := by
  rw [something]
  split
  · next h =>
    constructor
    · exact fun h => nomatch h
    · rintro ⟨rfl, hne⟩
      exact absurd (OrderedMap.isEmpty_iff.1 h) hne
  · next h =>
    constructor
    · rintro ⟨⟩
      exact ⟨rfl, fun hempty => h (OrderedMap.isEmpty_iff.2 hempty)⟩
    · exact fun h => congrArg some h.1

theorem readTokens_eq_ok {value : Text} {a : Attributes} : readTokens token value = .ok (some a) ↔
    ∃ ts settings, Text.tokens value = .ok ts ∧ ts.mapM token = .ok settings ∧
      OrderedMap.ofList settings.flatten = a ∧ a ≠ ∅ := by
  rw [readTokens]
  simp only [bind_eq_ok, pure_eq_ok, something_eq_some]
  constructor
  · rintro ⟨ts, hts, settings, hsettings, h⟩
    exact ⟨ts, settings, hts, hsettings, h⟩
  · rintro ⟨ts, settings, hts, hsettings, h⟩
    exact ⟨ts, hts, settings, hsettings, h⟩

theorem token_of_mem {value : Text} {a : Attributes} {ts : List Text} (hts : Text.tokens value = .ok ts)
    (h : readTokens token value = .ok (some a)) : ∀ t ∈ ts, ∃ settings, token t = .ok settings := by
  obtain ⟨us, settings, hus, hsettings, -⟩ := readTokens_eq_ok.1 h
  cases hts.symm.trans hus
  intro t ht
  obtain ⟨row, -, hrow⟩ := exists_of_mapM hsettings ht
  exact ⟨row, hrow⟩

/-- **What holds of no attributes, and is kept by every token of a value, holds of what is read of it.** -/
theorem holds_of_tokens {P : Attributes → Prop} {value : Text} {a : Attributes} {ts : List Text}
    (hts : Text.tokens value = .ok ts) (hempty : P ∅) (htoken : ∀ {attrs : Attributes} {t : Text}
      {settings : List (Text × Text)}, t ∈ ts → P attrs → token t = .ok settings → P (attrs.union settings))
    (h : readTokens token value = .ok (some a)) : P a := by
  have hall : ∀ {us : List Text} {settings : List (List (Text × Text))} {m : Attributes}, us ⊆ ts → P m →
      List.Forall₂ (fun t s => token t = .ok s) us settings → P (m.union settings.flatten) := by
    intro us settings m hsub hm hread
    induction hread generalizing m with
    | nil => exact hm
    | cons ht _ ih =>
      rw [List.cons_subset] at hsub
      rw [List.flatten_cons, OrderedMap.union_append]
      exact ih hsub.2 (htoken hsub.1 hm ht)
  obtain ⟨us, settings, hus, hsettings, rfl, -⟩ := readTokens_eq_ok.1 h
  cases hts.symm.trans hus
  exact hall (List.Subset.refl _) hempty (mapM_eq_ok_iff.1 hsettings)

theorem holds_of_readTokens {P : Attributes → Prop} (hempty : P ∅)
    (htoken : ∀ {attrs : Attributes} {t : Text} {settings : List (Text × Text)}, P attrs → token t = .ok settings →
      P (attrs.union settings)) {value : Text} {a : Attributes} (h : readTokens token value = .ok (some a)) : P a := by
  obtain ⟨ts, -, hts, -⟩ := readTokens_eq_ok.1 h
  exact holds_of_tokens hts hempty (fun _ => htoken) h

theorem values_of_tokens {P : Text → Text → Prop} {value : Text} {a : Attributes} {ts : List Text}
    (hts : Text.tokens value = .ok ts)
    (htoken : ∀ t ∈ ts, ∀ settings, token t = .ok settings → ∀ p ∈ settings, P p.1 p.2)
    (h : readTokens token value = .ok (some a)) : ∀ key v, a.get? key = some v → P key v := by
  refine holds_of_tokens (P := fun m => ∀ key v, m.get? key = some v → P key v) hts (fun _ _ h => nomatch h) ?_ h
  intro attrs t settings ht hattrs hsettings key v hv
  rcases OrderedMap.mem_or_get?_of_union hv with hmem | hold
  · exact htoken t ht settings hsettings (key, v) hmem
  · exact hattrs key v hold

theorem values_of_readTokens {P : Text → Text → Prop}
    (htoken : ∀ {t : Text} {settings : List (Text × Text)}, token t = .ok settings → ∀ p ∈ settings, P p.1 p.2)
    {value : Text} {a : Attributes} (h : readTokens token value = .ok (some a)) :
    ∀ key v, a.get? key = some v → P key v := by
  obtain ⟨ts, -, hts, -⟩ := readTokens_eq_ok.1 h
  exact values_of_tokens hts (fun _ _ _ => htoken) h

/-- What is written as a row of texts is read again as what that row is read as, or, if the row is empty, as
nothing. -/
theorem reread_of_texts {format : PropertyFormat} {attrs more : Attributes} {texts : List Text}
    (hencode : format.encode attrs = Text.nonempty? (Text.words texts)) (htexts : ∀ t ∈ texts, t ≠ [])
    (hnothing : texts = [] → more = ∅) (hread : texts ≠ [] → format.decode (Text.words texts) = .ok (some more)) :
    format.reread attrs = .ok (some more) := by
  rw [reread, hencode]
  by_cases hne : texts = []
  · rw [hnothing hne, hne]
    rfl
  · rw [Text.nonempty?_words htexts hne]
    exact hread hne

/-! ## Rows of tokens that set attributes -/

/-- The texts are tokens, which set the pairs. -/
structure Reads (token : Text → Except Cause (List (Text × Text))) (texts : List Text)
    (pairs : List (Text × Text)) : Prop where
  parts : ∀ t ∈ texts, Part Text.isBlank t
  read : ∃ settings, texts.mapM token = .ok settings ∧ settings.flatten = pairs
  nonempty : texts ≠ [] → pairs ≠ []

theorem reads_nil : Reads token [] [] :=
  ⟨List.forall_mem_nil _, ⟨[], rfl, rfl⟩, fun h => absurd rfl h⟩

theorem reads_token {text : Text} {pairs : List (Text × Text)} (hpart : Part Text.isBlank text)
    (htoken : token text = .ok pairs) (hne : pairs ≠ []) : Reads token [text] pairs :=
  ⟨List.forall_mem_singleton.2 hpart,
    ⟨[pairs], mapM_eq_ok_iff.2 (.cons htoken .nil), List.append_nil pairs⟩, fun _ => hne⟩

theorem Reads.append {texts more : List Text} {pairs others : List (Text × Text)} (h : Reads token texts pairs)
    (k : Reads token more others) : Reads token (texts ++ more) (pairs ++ others) := by
  obtain ⟨settings, hsettings, rfl⟩ := h.read
  obtain ⟨rest, hrest, rfl⟩ := k.read
  refine ⟨List.forall_mem_append.2 ⟨h.parts, k.parts⟩, ⟨settings ++ rest, ?_, List.flatten_append⟩, fun hne => ?_⟩
  · exact mapM_eq_ok_iff.2 (List.rel_append (mapM_eq_ok_iff.1 hsettings) (mapM_eq_ok_iff.1 hrest))
  · rw [Ne, List.append_eq_nil_iff, not_and_or] at hne ⊢
    exact hne.imp h.nonempty k.nonempty

theorem Reads.readTokens {texts : List Text} {pairs : List (Text × Text)} (h : Reads token texts pairs)
    (hne : texts ≠ []) : readTokens token (Text.words texts) = .ok (some (OrderedMap.ofList pairs)) := by
  obtain ⟨settings, hsettings, rfl⟩ := h.read
  have hfound := OrderedMap.ofList_ne_empty (h.nonempty hne)
  exact readTokens_eq_ok.2 ⟨texts, settings, Text.tokens_words h.parts, hsettings, rfl, hfound⟩

theorem Reads.reread {format : PropertyFormat} {attrs : Attributes} {texts : List Text} {pairs : List (Text × Text)}
    (h : Reads token texts pairs) (hdecode : format.decode = PropertyFormat.readTokens token)
    (hencode : format.encode attrs = Text.nonempty? (Text.words texts)) :
    format.reread attrs = .ok (some (OrderedMap.ofList pairs)) := by
  refine reread_of_texts hencode (fun t ht => (h.parts t ht).ne_nil) (fun hempty => ?_) fun hne => ?_
  · obtain ⟨settings, hsettings, rfl⟩ := h.read
    rw [hempty] at hsettings
    cases mapM_eq_ok_iff.1 hsettings
    rfl
  · rw [hdecode]
    exact h.readTokens hne

/-! ## Aspects -/

/-- The attributes under a few keys, with the tokens that are written of them and what these set again. -/
structure Aspect where
  keys : List Text
  texts : Attributes → List Text
  said : Attributes → List (Text × Text)

namespace Aspect

/-- What is written of an aspect is read as what it says, and what it says is written alike. -/
structure Rereads (token : Text → Except Cause (List (Text × Text))) (aspect : Aspect) (attrs : Attributes) :
    Prop where
  reads : Reads token (aspect.texts attrs) (aspect.said attrs)
  own : ∀ p ∈ aspect.said attrs, p.1 ∈ aspect.keys
  distinct : ((aspect.said attrs).map Prod.fst).Nodup
  again : ∀ {more : Attributes}, (∀ key ∈ aspect.keys, more.get? key = OrderedMap.find? key (aspect.said attrs)) →
    aspect.texts more = aspect.texts attrs

theorem reads_flatMap {attrs : Attributes} : ∀ {aspects : List Aspect},
    (∀ aspect ∈ aspects, aspect.Rereads token attrs) →
    Reads token (aspects.flatMap (·.texts attrs)) (aspects.flatMap (·.said attrs))
  | [], _ => reads_nil
  | aspect :: aspects, h => by
    rw [List.flatMap_cons, List.flatMap_cons]
    exact (h aspect List.mem_cons_self).reads.append
      (reads_flatMap fun other hother => h other (List.mem_cons_of_mem aspect hother))

theorem key_mem_of_said {attrs : Attributes} {aspects : List Aspect}
    (h : ∀ aspect ∈ aspects, aspect.Rereads token attrs)
    {key : Text} (hkey : key ∈ (aspects.flatMap (·.said attrs)).map Prod.fst) : key ∈ aspects.flatMap keys := by
  obtain ⟨p, hp, rfl⟩ := List.mem_map.1 hkey
  obtain ⟨aspect, haspect, hp⟩ := List.mem_flatMap.1 hp
  exact List.mem_flatMap.2 ⟨aspect, haspect, (h aspect haspect).own p hp⟩

/-- Aspects with keys of their own are found again, each as what it says. -/
theorem get?_union_said {attrs : Attributes} : ∀ {aspects : List Aspect} {m : Attributes},
    (∀ aspect ∈ aspects, aspect.Rereads token attrs) → (aspects.flatMap keys).Nodup →
    (∀ key ∈ aspects.flatMap keys, m.get? key = none) →
    ∀ aspect ∈ aspects, ∀ key ∈ aspect.keys,
      (m.union (aspects.flatMap (·.said attrs))).get? key = OrderedMap.find? key (aspect.said attrs)
  | first :: aspects, m, h, hkeys, hm, aspect, haspect, key, hkey => by
    have hfirst := h first List.mem_cons_self
    have hothers := fun other hother => h other (List.mem_cons_of_mem first hother)
    rw [List.flatMap_cons, List.nodup_append] at hkeys
    obtain ⟨-, hrest, hapart⟩ := hkeys
    rw [List.flatMap_cons, OrderedMap.union_append]
    rcases List.mem_cons.1 haspect with rfl | haspect
    · have hnot : key ∉ (aspects.flatMap (·.said attrs)).map Prod.fst := fun hmem =>
        hapart key hkey key (key_mem_of_said hothers hmem) rfl
      rw [OrderedMap.get?_union_of_not_mem hnot, OrderedMap.get?_union key m hfirst.distinct,
        hm key (List.mem_flatMap.2 ⟨aspect, List.mem_cons_self, hkey⟩), Option.or_none]
    · refine get?_union_said hothers hrest (fun other hother => ?_) aspect haspect key hkey
      have hnot : other ∉ (first.said attrs).map Prod.fst := fun hmem => by
        obtain ⟨p, hp, rfl⟩ := List.mem_map.1 hmem
        exact hapart _ (hfirst.own p hp) _ hother rfl
      rw [OrderedMap.get?_union_of_not_mem hnot]
      exact hm other (List.flatMap_cons .. ▸ List.mem_append_right _ hother)

end Aspect

/-- A format whose values are rows of tokens, written aspect by aspect. -/
structure Rowed (format : PropertyFormat) (token : Text → Except Cause (List (Text × Text)))
    (aspects : List Aspect) : Prop where
  decode : format.decode = readTokens token
  encode : ∀ attrs, format.encode attrs = Text.nonempty? (Text.words (aspects.flatMap (·.texts attrs)))
  complete : format.complete = format.defaults.overlaid
  distinct : (aspects.flatMap Aspect.keys).Nodup

namespace Rowed

variable {format : PropertyFormat} {aspects : List Aspect} {a b : Attributes}

/-- **What is written of every aspect is read again as what it says, and is written alike.** -/
theorem exists_reread (h : Rowed format token aspects) (hall : ∀ aspect ∈ aspects, aspect.Rereads token a) :
    ∃ b, format.reread a = .ok (some b) ∧ format.encode b = format.encode a ∧
      (∀ key ∉ aspects.flatMap Aspect.keys, b.get? key = none) ∧
      ∀ aspect ∈ aspects, ∀ key ∈ aspect.keys, b.get? key = OrderedMap.find? key (aspect.said a) := by
  have hfound := Aspect.get?_union_said (m := ∅) hall h.distinct fun _ _ => rfl
  refine ⟨_, (Aspect.reads_flatMap hall).reread h.decode (h.encode a), ?_, fun key hkey => ?_, hfound⟩
  · rw [h.encode, h.encode]
    refine congrArg (fun texts => Text.nonempty? (Text.words texts)) (List.flatMap_congr fun aspect haspect => ?_)
    exact (hall aspect haspect).again (hfound aspect haspect)
  · exact OrderedMap.get?_union_of_not_mem fun hmem => hkey (Aspect.key_mem_of_said hall hmem)

/-- Attributes under the keys of the aspects are compared aspect by aspect. -/
theorem equivalent_iff (h : Rowed format token aspects) (ha : ∀ key ∉ aspects.flatMap Aspect.keys, a.get? key = none)
    (hb : ∀ key ∉ aspects.flatMap Aspect.keys, b.get? key = none) :
    format.equivalent a b ↔ ∀ aspect ∈ aspects, ∀ key ∈ aspect.keys,
      Same ((a.get? key).or (format.defaults.get? key)) ((b.get? key).or (format.defaults.get? key)) := by
  rw [PropertyFormat.equivalent_iff]
  simp only [h.complete, Attributes.get?_overlaid]
  constructor
  · exact fun hall aspect _ key _ => hall key
  · intro hall key
    by_cases hkey : key ∈ aspects.flatMap Aspect.keys
    · obtain ⟨aspect, haspect, hkey⟩ := List.mem_flatMap.1 hkey
      exact hall aspect haspect key hkey
    · rw [ha key hkey, hb key hkey]
      exact same_refl _

end Rowed

/-! ## Aspects of which nothing is lost -/

/-- The aspect is written again as it was, and what is not written of it says the same as the defaults. -/
structure Aspect.Lasts (token : Text → Except Cause (List (Text × Text))) (defaults : Attributes) (aspect : Aspect)
    (attrs : Attributes) : Prop extends aspect.Rereads token attrs where
  same : ∀ key ∈ aspect.keys, Same ((attrs.get? key).or (defaults.get? key))
    ((OrderedMap.find? key (aspect.said attrs)).or (defaults.get? key))

/-- **Attributes last if all their aspects do.** -/
theorem Rowed.exists_survivor {format : PropertyFormat} {aspects : List Aspect} {a : Attributes}
    (h : Rowed format token aspects) (hkeys : ∀ key v, a.get? key = some v → key ∈ aspects.flatMap Aspect.keys)
    (hall : ∀ aspect ∈ aspects, aspect.Lasts token format.defaults a) :
    ∃ b, format.reread a = .ok (some b) ∧ format.equivalent a b ∧ format.encode b = format.encode a ∧
      ∀ aspect ∈ aspects, ∀ key ∈ aspect.keys, b.get? key = OrderedMap.find? key (aspect.said a) := by
  obtain ⟨b, hreread, hencode, hnone, hsaid⟩ := h.exists_reread fun aspect haspect => (hall aspect haspect).toRereads
  have hnothing : ∀ key ∉ aspects.flatMap Aspect.keys, a.get? key = none := fun key hkey =>
    Option.eq_none_iff_forall_ne_some.2 fun v hv => hkey (hkeys key v hv)
  refine ⟨b, hreread, (h.equivalent_iff hnothing hnone).2 fun aspect haspect key hkey => ?_, hencode, hsaid⟩
  rw [hsaid aspect haspect key hkey]
  exact (hall aspect haspect).same key hkey

/-! ## Aspects of one attribute -/

namespace Aspect

/-- One attribute with a token of its own, which is written of some of its values. -/
def single (key : Text) (keeps : Text → Bool) (write : Text → Text) : Aspect where
  keys := [key]
  texts attrs := (((attrs.get? key).filter keeps).map write).toList
  said attrs := (((attrs.get? key).filter keeps).map (key, ·)).toList

variable {key : Text} {keeps : Text → Bool} {write : Text → Text} {attrs defaults : Attributes}

theorem find?_single : OrderedMap.find? key ((single key keeps write).said attrs) = (attrs.get? key).filter keeps := by
  rw [single]
  dsimp only
  cases (attrs.get? key).filter keeps with
  | none => rfl
  | some v => exact if_pos rfl

theorem mem_texts_single {text : Text} :
    text ∈ (single key keeps write).texts attrs ↔ ∃ v, attrs.get? key = some v ∧ keeps v ∧ text = write v := by
  show text ∈ (((attrs.get? key).filter keeps).map write).toList ↔ _
  rw [Option.mem_toList, Option.map_eq_some_iff]
  refine exists_congr fun v => ?_
  rw [Option.filter_eq_some_iff, and_assoc, @eq_comm _ text]

theorem rereads_single (h : ∀ v, attrs.get? key = some v → keeps v →
    Part Text.isBlank (write v) ∧ token (write v) = .ok [(key, v)]) : (single key keeps write).Rereads token attrs where
  reads := by
    rw [single]
    dsimp only
    cases hv : (attrs.get? key).filter keeps with
    | none => exact reads_nil
    | some v =>
      obtain ⟨hget, hkeeps⟩ := Option.filter_eq_some_iff.1 hv
      exact reads_token (h v hget hkeeps).1 (h v hget hkeeps).2 (List.cons_ne_nil _ _)
  own := by
    intro p hp
    obtain ⟨v, -, rfl⟩ := Option.map_eq_some_iff.1 (Option.mem_toList.1 hp)
    exact List.mem_singleton_self key
  distinct := by
    rw [single]
    dsimp only
    cases (attrs.get? key).filter keeps with
    | none => exact List.nodup_nil
    | some v => exact List.pairwise_singleton _ _
  again := by
    intro more hmore
    have hkey := hmore key List.mem_cons_self
    rw [find?_single] at hkey
    show (((more.get? key).filter keeps).map write).toList = _
    rw [hkey, Option.filter_filter]
    simp only [Bool.and_self]
    rfl

theorem lasts_single (hread : ∀ v, attrs.get? key = some v → keeps v →
      Part Text.isBlank (write v) ∧ token (write v) = .ok [(key, v)])
    (hdefault : ∀ v, attrs.get? key = some v → keeps v = false → ∃ d, defaults.get? key = some d ∧ Text.sameValue v d) :
    (single key keeps write).Lasts token defaults attrs where
  toRereads := rereads_single hread
  same := by
    intro other hother
    cases List.mem_singleton.1 hother
    rw [find?_single]
    cases hv : attrs.get? key with
    | none => exact same_refl _
    | some v =>
      rw [Option.filter_some]
      cases hkeeps : keeps v with
      | true => exact same_refl _
      | false =>
        obtain ⟨d, hd, hsame⟩ := hdefault v hv hkeeps
        rw [hd]
        exact .some hsame

/-- A flag that is written by a word where it is not as usual. -/
def flag (key word : Text) (unusual : Bool) : Aspect :=
  single key (fun v => decide (v = Text.ofBool unusual)) fun _ => word

theorem texts_flag (key word : Text) (unusual : Bool) (attrs : Attributes) :
    (flag key word unusual).texts attrs = if attrs.get? key = some (Text.ofBool unusual) then [word] else [] := by
  show (((attrs.get? key).filter fun v => decide (v = Text.ofBool unusual)).map fun _ => word).toList = _
  cases attrs.get? key with
  | none => rfl
  | some v =>
    rw [Option.filter_some]
    by_cases hv : v = Text.ofBool unusual
    · rw [if_pos (congrArg some hv), decide_eq_true hv]
      rfl
    · rw [if_neg fun h => hv (Option.some.inj h), decide_eq_false hv]
      rfl

theorem texts_flag_true (key word : Text) (attrs : Attributes) :
    (flag key word true).texts attrs = if attrs.isTrue key then [word] else [] := by
  rw [texts_flag, Attributes.isTrue]
  by_cases h : attrs.get? key = some (Text.ofBool true)
  · rw [if_pos h]
    exact (if_pos (decide_eq_true h)).symm
  · rw [if_neg h]
    exact (if_neg fun h' => h (of_decide_eq_true h')).symm

/-- The words of the flags among many that are not as usual. -/
theorem texts_flags {φ : Type} (key word : φ → Text) (unusual : φ → Bool) (attrs : Attributes) : ∀ flags : List φ,
    (flags.map fun f => flag (key f) (word f) (unusual f)).flatMap (·.texts attrs) =
      (flags.filter fun f => attrs.get? (key f) = some (Text.ofBool (unusual f))).map word
  | [] => rfl
  | f :: flags => by
    rw [List.map_cons, List.flatMap_cons, texts_flag, texts_flags key word unusual attrs flags]
    by_cases hf : attrs.get? (key f) = some (Text.ofBool (unusual f))
    · rw [if_pos hf, List.filter_cons, if_pos (decide_eq_true hf)]
      rfl
    · rw [if_neg hf, List.filter_cons, if_neg (by simpa using hf)]
      rfl

theorem lasts_flag {word : Text} {unusual : Bool} (hpart : Part Text.isBlank word)
    (htoken : token word = .ok [(key, Text.ofBool unusual)])
    (hdefault : defaults.get? key = some (Text.ofBool (!unusual)))
    (hflag : ∀ v, attrs.get? key = some v → ∃ on, v = Text.ofBool on) :
    (flag key word unusual).Lasts token defaults attrs := by
  refine lasts_single (fun v _ hv => ?_) fun v hget hv => ?_
  · rw [of_decide_eq_true hv]
    exact ⟨hpart, htoken⟩
  · obtain ⟨on, rfl⟩ := hflag v hget
    have hon : on = !unusual := by
      have hne := of_decide_eq_false hv
      cases on <;> cases unusual <;> first | rfl | exact absurd rfl hne
    exact ⟨_, hdefault, hon ▸ Text.sameValue_refl _⟩

end Aspect
end PropertyFormat
end StyleScript
