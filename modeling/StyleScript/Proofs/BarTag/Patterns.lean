import StyleScript.Proofs.BarTag.Rereading
import StyleScript.Proofs.Number.Spelling
/-!
# Patterns with a `|`

Blocks have `|` between them, and image and symbol are quoted against it, but the angle and the distance of a hatching
are written as in a color, bare if they can be one token.  Of what is written only they can divide a block
(`texts_cases`).

What is read again never does.  A value that was written divides at `|` and at blanks into tokens that do not divide,
and if such a token sets a pattern, then the pattern is written undivided: it stood in quotes because it needs them, or
it was a bare piece and is that piece again (`Settled`).  The tokens of its blocks are among these, and so every
pattern that is read from it is written undivided (`part_pipe_of_reread`).
-/
namespace StyleScript.BarTag

open Attributes (flatKey)
open Color (Content)
open Text (Part Divides DividesInto Balanced)

/-! ## Patterns -/

/-- An attribute of a hatching: the word of its token, its key, its default, and its value in a content. -/
structure Pattern where
  word : Text
  attr : Text
  default : Text
  value : Content → Option Text

def patterns : List Pattern :=
  [⟨"angle", "hatchAngle", "45", Content.angle⟩, ⟨"dist", "hatchDistance", "10", Content.dist⟩]

def Pattern.token (p : Pattern) (v : Text) : Text := p.word ++ '=' :: Text.quoteIfNeeded v

section

variable {p : Pattern} {c : Content} {t v w : Text}

theorem isKey_word : ∀ p ∈ patterns, Text.isKey p.word := by decide

theorem field_mem : ∀ p ∈ patterns, (p.attr, p.value) ∈ Content.fields := by
  simp only [patterns, List.forall_mem_cons, List.not_mem_nil, false_implies, implies_true, and_true]
  exact ⟨List.mem_of_getElem? (i := 10) rfl, List.mem_of_getElem? (i := 11) rfl⟩

theorem find?_attr (hp : p ∈ patterns) (c : Content) : OrderedMap.find? p.attr c.pairs = p.value c := by
  rw [Content.find?_pairs, (OrderedMap.find?_eq_some Content.fields_nodup).2 (field_mem p hp), Option.bind_some]

theorem value_of_kept : ∀ p ∈ patterns, ∀ {c : Content} {v : Text}, p.value c.kept = some v → p.value c = some v := by
  simp only [patterns, List.forall_mem_cons, List.not_mem_nil, false_implies, implies_true, and_true]
  exact ⟨fun h => (Option.filter_eq_some_iff.1 h).1, fun h => (Option.filter_eq_some_iff.1 h).1⟩

theorem part_blank_token (hp : p ∈ patterns) (v : Text) : Part Text.isBlank (p.token v) :=
  Text.part_keyValue (isKey_word p hp) (Text.part_quoteIfNeeded Text.breaksTokens_isBlank v)

/-- A key with a value behind it is no two blocks if the value is none. -/
theorem part_pipe_keyValue {key : Text} (hkey : Text.isKey key) (hv : Part (· = '|') v) :
    Part (· = '|') (key ++ '=' :: v) := by
  have hkeyPart : Part (· = '|') (key ++ ['=']) := by
    refine (Text.part_key hkey).of_not_sep Text.divides_blank fun c hc => decide_eq_false ?_
    rintro rfl
    rcases List.mem_append.1 hc with hc | hc
    · exact Text.not_mem_of_isKey hkey (by decide) hc
    · exact absurd hc (by decide)
  have := hkeyPart.append hv
  rwa [List.append_assoc] at this

theorem part_pipe_of_needsQuoting (hp : p ∈ patterns) (h : Text.needsQuoting v) : Part (· = '|') (p.token v) := by
  rw [Pattern.token, Text.quoteIfNeeded, if_pos h]
  exact part_pipe_keyValue (isKey_word p hp) (Text.part_quote _ v)

theorem part_pipe_of_spelled (hp : p ∈ patterns) (h : Text.Spelled (Text.trim v)) : Part (· = '|') (p.token v) := by
  cases hquote : Text.needsQuoting v with
  | true => exact part_pipe_of_needsQuoting hp hquote
  | false =>
    rw [Text.trim_eq_self (Text.trimmed_of_not_needsQuoting hquote)] at h
    rw [Pattern.token, Text.quoteIfNeeded, hquote, if_neg Bool.false_ne_true]
    refine part_pipe_keyValue (isKey_word p hp) (Text.part_pipe_of_not_mem h.part fun hpipe => ?_)
    exact absurd (h.all _ hpipe) (by decide)

theorem part_pipe_default (hp : p ∈ patterns) : Part (· = '|') (p.token p.default) := by
  have hspelled : ∀ p ∈ patterns, Text.trim p.default ≠ [] ∧ (Text.trim p.default).all Text.isSpelling := by decide
  exact part_pipe_of_spelled hp ⟨(hspelled p hp).1, List.all_eq_true.1 (hspelled p hp).2⟩

/-- What says the same as an undivided pattern is one. -/
theorem part_pipe_of_same (hp : p ∈ patterns) (hsame : Text.sameValue v w) (hw : Part (· = '|') (p.token w)) :
    Part (· = '|') (p.token v) := by
  rcases Text.sameValue_eq_true.1 hsame with rfl | ⟨x, -, hx, -, -⟩
  · exact hw
  · exact part_pipe_of_spelled hp (Text.spelled_of_float? hx)

/-! ## The tokens of a content -/

theorem part_pipe_leaf (v : Text) : Part (· = '|') (Color.leaf v) := by
  rw [Color.leaf]
  split
  · exact Text.part_quote _ v
  · next hpipe =>
    rw [Text.quoteIfNeeded]
    split
    · exact Text.part_quote _ v
    · next hquote =>
      have hbare := Bool.not_eq_true _ ▸ hquote
      refine Text.part_pipe_of_not_mem (Text.part_of_not_needsQuoting Text.breaksTokens_isBlank hbare) fun hmem => hpipe ?_
      exact List.contains_iff_mem.2 hmem

theorem part_pipe_call (call : Color.Call) : Part (· = '|') call.token := by
  have hspace : ∀ space : Fin Color.spaces.length,
      Text.needsQuoting (Color.spaces.get space) = false ∧ '|' ∉ Color.spaces.get space := by decide
  obtain ⟨hbare, hno⟩ := hspace call.space
  exact Text.part_call (Text.part_pipe_of_not_mem (Text.part_of_not_needsQuoting Text.breaksTokens_isBlank hbare) hno) _

/-- Of a color only the patterns are written so that they may divide. -/
theorem texts_cases (ht : t ∈ c.texts) : Part (· = '|') t ∧ t.head? ≠ some 'a' ∧ t.head? ≠ some 'd' ∨
    ∃ p ∈ patterns, ∃ v, p.value c = some v ∧ t = p.token v := by
  have hpart := (@Color.reads_texts [] c).parts t ht
  simp only [Content.texts, List.mem_append, Option.mem_toList, Option.map_eq_some_iff] at ht
  rcases ht with ((((((⟨hex, -, rfl⟩ | ⟨call, -, rfl⟩) | ⟨code, -, rfl⟩) | ⟨v, hv, rfl⟩) | ⟨v, hv, rfl⟩) |
    ⟨v, -, rfl⟩) | ⟨v, -, rfl⟩) | ⟨on, -, rfl⟩
  · refine .inl ⟨Text.part_pipe_of_not_mem hpart ?_, by simp [Color.Hex.token], by simp [Color.Hex.token]⟩
    have hbyte : ∀ byte : Fin 256, '|' ∉ Color.hexByte byte := by decide +kernel
    have halpha : '|' ∉ hex.alpha.elim [] fun byte => Color.hexByte byte := by
      cases hex.alpha with
      | none => exact List.not_mem_nil
      | some byte => exact hbyte byte
    simp [Color.Hex.token, hbyte, halpha]
  · have hspace : ∀ space : Fin Color.spaces.length, Color.spaces.get space ≠ [] ∧
        (Color.spaces.get space).head? ≠ some 'a' ∧ (Color.spaces.get space).head? ≠ some 'd' := by decide
    obtain ⟨hne, hhead⟩ := hspace call.space
    refine .inl ⟨part_pipe_call call, ?_⟩
    rw [Color.Call.token, List.append_assoc, List.append_assoc, List.head?_append_of_ne_nil _ hne]
    exact hhead
  · have hname : ∀ code : Fin Color.fillNames.length, '|' ∉ "fill=".toList ++ Color.fillNames.get code := by decide
    exact .inl ⟨Text.part_pipe_of_not_mem hpart (hname code), by simp, by simp⟩
  · exact .inr ⟨_, .head _, v, hv, rfl⟩
  · exact .inr ⟨_, .tail _ (.head _), v, hv, rfl⟩
  · exact .inl ⟨@part_pipe_keyValue _ "image" (by decide) (part_pipe_leaf v), by simp, by simp⟩
  · exact .inl ⟨@part_pipe_keyValue _ "symbol" (by decide) (part_pipe_leaf v), by simp, by simp⟩
  · have hword : ∀ on : Bool, '|' ∉ (if on then "inverse".toList else "~inverse".toList) ∧
        (if on then "inverse".toList else "~inverse".toList).head? ≠ some 'a' ∧
        (if on then "inverse".toList else "~inverse".toList).head? ≠ some 'd' := by decide
    exact .inl ⟨Text.part_pipe_of_not_mem hpart (hword on).1, (hword on).2⟩

end

/-! ## Tokens that set undivided patterns -/

/-- If the token sets a pattern, then the pattern is written undivided. -/
def Settled (t : Text) : Prop :=
  ∀ p ∈ patterns, ∀ r v, t = p.word ++ '=' :: r → Text.scalar r = .ok v → Part (· = '|') (p.token v)

theorem settled_of_head {t : Text} (ha : t.head? ≠ some 'a') (hd : t.head? ≠ some 'd') : Settled t := by
  have hword : ∀ p ∈ patterns, ∀ rest : Text,
      (p.word ++ rest).head? = some 'a' ∨ (p.word ++ rest).head? = some 'd' := by simp [patterns]
  rintro p hp r v rfl -
  rcases hword p hp ('=' :: r) with h | h
  · exact absurd h ha
  · exact absurd h hd

theorem settled_token {q : Pattern} {w : Text} (hq : q ∈ patterns) (h : Part (· = '|') (q.token w)) :
    Settled (q.token w) := by
  intro p hp r v ht hv
  have hkey := congrArg Text.keyValue? ht
  rw [Pattern.token, Text.keyValue?_of_isKey (isKey_word q hq), Text.keyValue?_of_isKey (isKey_word p hp),
    Option.some_inj, Prod.mk.injEq] at hkey
  rw [← hkey.2, Text.scalar_quoteIfNeeded] at hv
  cases hv
  have htoken : p.token w = q.token w := by rw [Pattern.token, Pattern.token, hkey.1]
  rw [htoken]
  exact h

/-- A bare piece that sets a pattern is written as it was. -/
theorem settled_of_bare {t : Text} (h : Part (· = '|') t) (hbare : ∀ c ∈ t, Text.breaksToken c = false) :
    Settled t := by
  rintro p hp r v rfl hv
  have hr : ∀ c ∈ r, Text.breaksToken c = false := fun c hc =>
    hbare c (List.mem_append_right _ (List.mem_cons_of_mem _ hc))
  have htrimmed := Text.trimmed_of_no_blank fun c hc => Text.isBlank_of_not_breaksToken (hr c hc)
  rw [Text.scalar_bare htrimmed fun hq => Text.ne_quote_of_not_breaksToken (hr _ (List.mem_of_mem_head? hq)) rfl] at hv
  cases hv
  cases hquote : Text.needsQuoting r with
  | true => exact part_pipe_of_needsQuoting hp hquote
  | false =>
    rw [Pattern.token, Text.quoteIfNeeded, hquote, if_neg Bool.false_ne_true]
    exact h

/-! ## Values that divide into such tokens -/

/-- Where blocks or tokens divide. -/
abbrev breaks : Char → Bool := Text.either (· = '|') Text.isBlank

theorem divides_breaks : Divides breaks '|' := ⟨rfl, by decide⟩

theorem divides_breaks_space : Divides breaks ' ' := ⟨by decide, by decide⟩

theorem part_breaks_iff {t : Text} : Part breaks t ↔ Part (· = '|') t ∧ Part Text.isBlank t :=
  Text.part_either_iff Text.divides_pipe Text.divides_blank

/-- The text divides into tokens that set undivided patterns. -/
structure Settles (text : Text) : Prop where
  balanced : Balanced text
  divides : ∃ us, DividesInto breaks text us ∧ ∀ u ∈ us, Settled u

theorem settles_nil : Settles [] := ⟨rfl, [], Text.dividesInto_nil breaks, List.forall_mem_nil _⟩

theorem Settles.append {u w : Text} {x : Char} (hu : Settles u) (hx : Divides breaks x) (hw : Settles w) :
    Settles (u ++ x :: w) := by
  obtain ⟨us, hus, hall⟩ := hu.divides
  obtain ⟨ws, hws, hall'⟩ := hw.divides
  refine ⟨?_, us ++ ws, hus.append hx hws, List.forall_mem_append.2 ⟨hall, hall'⟩⟩
  have hsingle : Balanced [x] := Text.next_of_divides hx 0
  exact hu.balanced.append (hsingle.append hw.balanced)

theorem settles_of_part {t : Text} (hpipe : Part (· = '|') t) (hblank : Part Text.isBlank t) (h : Settled t) :
    Settles t :=
  ⟨hpipe.balanced Text.divides_pipe, [t], (part_breaks_iff.2 ⟨hpipe, hblank⟩).dividesInto, List.forall_mem_singleton.2 h⟩

theorem settles_token {p : Pattern} (hp : p ∈ patterns) (v : Text) : Settles (p.token v) := by
  have hblank := part_blank_token hp v
  cases hquote : Text.needsQuoting v with
  | true =>
    have hpipe := part_pipe_of_needsQuoting hp hquote
    exact settles_of_part hpipe hblank (settled_token hp hpipe)
  | false =>
    have hbalanced := hblank.balanced Text.divides_blank
    obtain ⟨us, hus⟩ := Text.exists_divide_of_balanced breaks hbalanced
    refine ⟨hbalanced, us, hbalanced.dividesInto hus, fun u hu => ?_⟩
    have hpart := Text.part_of_mem_divide divides_breaks hbalanced hus u hu
    refine settled_of_bare (part_breaks_iff.1 hpart).1 fun c hc => ?_
    have hword : ∀ p ∈ patterns, (p.word ++ ['=']).all fun c => !Text.breaksToken c := by decide
    have hmem := Text.subset_of_mem_divide hus u hu hc
    rw [Pattern.token, Text.quoteIfNeeded, hquote, if_neg Bool.false_ne_true, List.append_cons] at hmem
    rcases List.mem_append.1 hmem with hmem | hmem
    · exact (Bool.not_eq_true' _).mp (List.all_eq_true.1 (hword p hp) c hmem)
    · exact (Text.of_not_needsQuoting hquote).2.2.2 c hmem

theorem settles_of_mem_texts {c : Content} {t : Text} (ht : t ∈ c.texts) : Settles t := by
  rcases texts_cases ht with ⟨hpipe, ha, hd⟩ | ⟨p, hp, v, -, rfl⟩
  · exact settles_of_part hpipe ((@Color.reads_texts [] c).parts t ht) (settled_of_head ha hd)
  · exact settles_token hp v

theorem settles_barToken (n : Nat) : Settles (barToken n) :=
  settles_of_part (part_pipe_barToken n) (part_barToken n)
    (settled_of_head (by simp [barToken]) (by simp [barToken]))

theorem settles_join {gap : Text} (hgap : ∀ {u w : Text}, Settles u → Settles w → Settles (u ++ gap ++ w)) :
    ∀ {ts : List Text}, (∀ t ∈ ts, Settles t) → Settles (Text.join gap ts)
  | [], _ => settles_nil
  | [t], h => h t List.mem_cons_self
  | t :: next :: ts, h => by
    rw [List.forall_mem_cons] at h
    exact hgap h.1 (settles_join hgap h.2)

theorem settles_blockText (n : Nat) (c : Content) : Settles (blockText n c) := by
  have hall := List.forall_mem_cons.2 ⟨settles_barToken n, fun t ht => @settles_of_mem_texts c t ht⟩
  refine settles_join (fun hu hw => ?_) fun t ht => hall t (List.mem_of_mem_filter ht)
  rw [List.append_assoc]
  exact hu.append divides_breaks_space hw

theorem settles_join_blocks {ts : List Text} (h : ∀ t ∈ ts, Settles t) : Settles (Text.join " | " ts) := by
  refine settles_join (fun hu hw => ?_) h
  rw [List.append_assoc]
  -- between the blanks and the separator stands nothing
  exact hu.append divides_breaks_space
    (settles_nil.append divides_breaks (settles_nil.append divides_breaks_space hw))

/-- **What is written divides into tokens that set undivided patterns.** -/
theorem settles_encode {attrs : Attributes} {contents : Nat → Content} {text : Text} (h : Told attrs contents)
    (htext : format.encode attrs = some text) : Settles text := by
  rw [encode_eq h] at htext
  split at htext
  · cases htext
  · cases htext
    refine settles_join_blocks fun t ht => ?_
    obtain ⟨n, -, rfl⟩ := List.mem_map.1 ht
    exact settles_blockText n _

/-! ## Patterns that are read -/

section

variable {property key v : Text} {settings : List (Text × Text)} {p : Pattern}

theorem not_mem_of_hexColor? {digits : Text} (h : Color.hexColor? digits = some settings) :
    ∀ p ∈ patterns, (p.attr, v) ∉ settings := by
  unfold Color.hexColor? at h
  split at h
  · cases h
    simp [patterns]
  · cases h
    simp [patterns]
  · cases h

theorem not_mem_of_expressions? {text : Text} (h : Color.expressions? text = .ok (some settings)) :
    ∀ p ∈ patterns, (p.attr, v) ∉ settings := by
  have hother : ∀ p ∈ patterns, p.attr ∉ Color.expressionKeys ∧ p.attr ≠ "colorSpace" := by decide
  unfold Color.expressions? at h
  split at h
  · cases h
  · split at h
    · cases h
    · split at h
      · cases h
      · obtain ⟨operands, -, h⟩ := bind_eq_ok.1 h
        split at h
        · cases h
        · obtain ⟨values, -, h⟩ := bind_eq_ok.1 h
          intro p hp hmem
          rw [← Option.some.inj (pure_eq_ok.1 h), List.mem_append, List.mem_singleton] at hmem
          rcases hmem with hmem | hmem
          · exact (hother p hp).1 (List.of_mem_zip hmem).1
          · exact (hother p hp).2 (congrArg Prod.fst hmem)

theorem word_of_modifier {value : Text} (hp : p ∈ patterns) (h : Color.modifier property key value = .ok settings)
    (hmem : (p.attr, v) ∈ settings) : key = p.word ∧ Text.scalar value = .ok v := by
  have hattr : ∀ p ∈ patterns, p.attr ≠ "fillType" ∧ p.attr ≠ "image" ∧ p.attr ≠ "fillSymbol" ∧
      (p.attr = "hatchAngle" → p.word = "angle") ∧ (p.attr = "hatchDistance" → p.word = "dist") := by decide
  obtain ⟨hfill, himage, hsymbol, hangle, hdist⟩ := hattr p hp
  obtain ⟨w, hw, h⟩ := bind_eq_ok.1 h
  have hsingle : ∀ {attr x : Text}, (p.attr, v) ∈ [(attr, x)] → p.attr = attr ∧ v = x := fun h =>
    Prod.mk.inj (List.mem_singleton.1 h)
  split at h
  · obtain ⟨code, -, h⟩ := bind_eq_ok.1 h
    cases pure_eq_ok.1 h
    exact absurd (hsingle hmem).1 hfill
  · split at h
    · next hkey =>
      cases pure_eq_ok.1 h
      obtain ⟨hword, rfl⟩ := hsingle hmem
      exact ⟨hkey.trans (hangle hword).symm, hw⟩
    · split at h
      · next hkey =>
        cases pure_eq_ok.1 h
        obtain ⟨hword, rfl⟩ := hsingle hmem
        exact ⟨hkey.trans (hdist hword).symm, hw⟩
      · split at h
        · cases pure_eq_ok.1 h
          exact absurd (hsingle hmem).1 himage
        · split at h
          · cases pure_eq_ok.1 h
            exact absurd (hsingle hmem).1 hsymbol
          · cases h

/-- A token that sets a pattern is the word of the pattern with the value behind it. -/
theorem pattern_of_token {t : Text} (hp : p ∈ patterns) (h : Color.token property t = .ok (some settings))
    (hmem : (p.attr, v) ∈ settings) : ∃ r, t = p.word ++ '=' :: r ∧ Text.scalar r = .ok v := by
  unfold Color.token at h
  split at h
  · exact absurd hmem (not_mem_of_hexColor? (Except.ok.inj h) p hp)
  · obtain ⟨found, hfound, h⟩ := bind_eq_ok.1 h
    split at h
    · cases pure_eq_ok.1 h
      exact absurd hmem (not_mem_of_expressions? hfound p hp)
    · split at h
      · next key value hkey =>
        obtain ⟨pairs, hpairs, h⟩ := bind_eq_ok.1 h
        cases pure_eq_ok.1 h
        obtain ⟨rfl, hv⟩ := word_of_modifier hp hpairs hmem
        exact ⟨value, (Text.keyValue?_eq_some hkey).1, hv⟩
      · split at h
        have hword := pure_eq_ok.1 h
        split at hword
        · cases hword
          have hinverse : ∀ p ∈ patterns, p.attr ≠ "inverseFill" := by decide
          exact absurd (congrArg Prod.fst (List.mem_singleton.1 hmem)) (hinverse p hp)
        · cases hword

/-- What the tokens of a row set of a pattern is written undivided. -/
theorem part_pipe_of_readTokensOver (hp : p ∈ patterns) {ts : List Text} {attrs more : Attributes}
    (hts : ∀ t ∈ ts, Settled t) (hattrs : ∀ v, attrs.get? p.attr = some v → Part (· = '|') (p.token v))
    (h : Color.readTokensOver property attrs ts = .ok (some more)) (v : Text) (hv : more.get? p.attr = some v) :
    Part (· = '|') (p.token v) := by
  obtain ⟨hknown, rfl, -⟩ := Color.readTokensOver_eq_ok.1 h
  rcases OrderedMap.mem_or_get?_of_union hv with hmem | hold
  · obtain ⟨t, ht, hset⟩ := List.mem_flatMap.1 hmem
    obtain ⟨r, htoken, hr⟩ := pattern_of_token hp (hknown t ht) hset
    exact hts t ht p hp r v htoken hr
  · exact hattrs v hold

theorem subset_of_takeBar : ∀ {ts colors : List Text} {bar : Option Nat}, takeBar ts = .ok (bar, colors) → colors ⊆ ts
  | [], _, _, h => by
    cases h
    exact List.Subset.refl _
  | t :: ts, colors, bar, h => by
    rw [takeBar] at h
    split at h
    · split at h
      · obtain ⟨⟨last, rest⟩, hrest, h⟩ := bind_eq_ok.1 h
        cases pure_eq_ok.1 h
        exact List.subset_cons_of_subset t (subset_of_takeBar hrest)
      · cases h
    · obtain ⟨⟨last, rest⟩, hrest, h⟩ := bind_eq_ok.1 h
      cases pure_eq_ok.1 h
      exact List.cons_subset_cons t (subset_of_takeBar hrest)

/-- What a block sets of a pattern is written undivided. -/
theorem part_pipe_of_block {attrs more : Attributes} {text : Text} (hp : p ∈ patterns)
    (hts : ∀ ts, Text.tokens text = .ok ts → ∀ t ∈ ts, Settled t)
    (hattrs : ∀ n v, attrs.get? (flatKey n p.attr) = some v → Part (· = '|') (p.token v))
    (h : block attrs text = .ok more) (n : Nat) (hv : more.get? (flatKey n p.attr) = some v) :
    Part (· = '|') (p.token v) := by
  rcases block_cases h with rfl | ⟨ts, m, colors, group, htokens, hbar, hgroup, rfl⟩
  · exact hattrs n v hv
  · have hcolors : ∀ t ∈ colors, Settled t := fun t ht => hts ts htokens t (subset_of_takeBar hbar ht)
    rw [Attributes.get?_flattenInto] at hv
    split at hv
    · rcases Option.or_eq_some_iff.1 hv with hnew | ⟨-, hold⟩
      · exact part_pipe_of_readTokensOver hp hcolors (fun _ h => by cases h) hgroup v hnew
      · exact hattrs n v hold
    · exact hattrs n v hv

/-- **A pattern that is read again is written undivided.** -/
theorem part_pipe_of_reread {attrs more : Attributes} {contents : Nat → Content} (h : Told attrs contents)
    (hreread : format.reread attrs = .ok (some more)) (hp : p ∈ patterns) (n : Nat)
    (hv : more.get? (flatKey n p.attr) = some v) : Part (· = '|') (p.token v) := by
  rw [PropertyFormat.reread] at hreread
  split at hreread
  · cases hreread
    cases hv
  · next text htext =>
    have hsettles := settles_encode h htext
    obtain ⟨us, hus, hall⟩ := hsettles.divides
    obtain ⟨texts, htexts, hread, -⟩ := decode_eq_ok.1 hreread
    refine holds_of_blocks (P := fun attrs => ∀ n v, attrs.get? (flatKey n p.attr) = some v →
      Part (· = '|') (p.token v)) ?_ (fun _ _ h => by cases h) hread n v hv
    intro part hpart attrs more hattrs hblock n v hv
    refine part_pipe_of_block hp (fun ts hts t ht => hall t ?_) hattrs hblock n hv
    exact Text.subset_of_divide hsettles.balanced htexts hpart hts hus.atEnd ht

end

end StyleScript.BarTag
