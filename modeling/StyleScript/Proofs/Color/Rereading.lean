import StyleScript.Proofs.Color.Writing
import StyleScript.Proofs.Property.Closed
import StyleScript.Proofs.Text.Tokens
/-!
# Colors that are read again

The tokens of a content are read as that content (`reads_texts`), token by token: one that says a content is laid over
what was said before.
-/
namespace StyleScript.Color

open Text (Part)

/-! ## Contents one over the other -/

namespace Content

theorem above_assoc (m n c : Content) : (m.above n).above c = m.above (n.above c) := by
  simp only [above, Option.or_assoc]
  congr 1
  · cases m.hex with
    | none => rfl
    | some hex =>
      cases n.hex with
      | none => simp only [Option.bind_none, Option.or_none]
      | some other => simp only [Option.bind_some, Option.or_assoc]
  · cases m.call with
    | none => rfl
    | some call =>
      cases n.call with
      | none => simp only [Option.bind_none, Option.or_none]
      | some other => simp only [Option.bind_some, Option.or_assoc]

theorem above_empty (c : Content) : c.above {} = c := by
  obtain ⟨hex, call, fill, angle, dist, image, symbol, inverse⟩ := c
  cases hex <;> cases call <;> simp only [above, Option.or_none, Option.bind_none]

end Content

/-! ## Rows of tokens that say a content -/

/-- The texts are tokens, and reading them lays the content over what was read before. -/
structure Reads (property : Text) (texts : List Text) (n : Content) : Prop where
  parts : ∀ t ∈ texts, Part Text.isBlank t
  known : ∀ t ∈ texts, ∃ settings, token property t = .ok (some settings)
  read : ∀ {attrs : Attributes} {c : Content} (rest : List Text), Says attrs c →
    ∃ more, Says more (n.above c) ∧ readTokensOver property attrs (texts ++ rest) = readTokensOver property more rest

variable {property : Text}

theorem reads_nil : Reads property [] {} :=
  ⟨List.forall_mem_nil _, List.forall_mem_nil _, fun _ hattrs => ⟨_, hattrs, rfl⟩⟩

theorem Reads.append {texts more : List Text} {m n : Content} (hn : Reads property texts n)
    (hm : Reads property more m) : Reads property (texts ++ more) (m.above n) := by
  refine ⟨List.forall_mem_append.2 ⟨hn.parts, hm.parts⟩, List.forall_mem_append.2 ⟨hn.known, hm.known⟩,
    fun {attrs c} rest hattrs => ?_⟩
  obtain ⟨mid, hmid, hread⟩ := hn.read (more ++ rest) hattrs
  obtain ⟨last, hlast, hread'⟩ := hm.read rest hmid
  exact ⟨last, Content.above_assoc m n c ▸ hlast, by rw [List.append_assoc, hread, hread']⟩

theorem reads_token {text : Text} {n : Content} (hpart : Part Text.isBlank text)
    (htoken : token property text = .ok (some n.pairs)) : Reads property [text] n := by
  refine ⟨List.forall_mem_singleton.2 hpart, List.forall_mem_singleton.2 ⟨_, htoken⟩,
    fun {attrs c} rest hattrs => ⟨_, hattrs.union n, ?_⟩⟩
  rw [List.singleton_append, readTokensOver, htoken]
  rfl

/-- A token for something that may be absent. -/
theorem reads_optional {α : Type} {write : α → Text} (say : Option α → Content) (hnone : say none = {})
    (h : ∀ value, Reads property [write value] (say (some value))) (value : Option α) :
    Reads property (value.map write).toList (say value) := by
  cases value with
  | none => rw [hnone]; exact reads_nil
  | some value => exact h value

/-! ## Bytes -/

theorem hexDigit?_hexChar {n : Nat} (h : n < 16) : Text.hexDigit? (hexChar n) = some n := by
  have hall : ∀ n ∈ List.range 16, Text.hexDigit? (hexChar n) = some n := by decide
  exact hall n (List.mem_range.2 h)

theorem hexBytes?_hexByte (byte : Fin 256) (rest : Text) :
    hexBytes? (hexByte byte ++ rest) = (hexBytes? rest).map (byte.val :: ·) := by
  have hlt := byte.isLt
  have hbyte : 16 * (byte.val / 16) + byte.val % 16 = byte.val := Nat.div_add_mod ..
  rw [hexByte, List.cons_append, List.singleton_append, hexBytes?, hexDigit?_hexChar (by omega),
    hexDigit?_hexChar (by omega)]
  cases hrest : hexBytes? rest with
  | none => rfl
  | some bytes => exact congrArg (fun byte => some (byte :: bytes)) hbyte

theorem tame_hexToken (hex : Hex) : hex.token.all Lexeme.isTame := by
  have htame : ∀ byte : Fin 256, (hexByte byte).all Lexeme.isTame :=
    fun byte => tame_hexByte (Nat.le_of_lt_succ byte.isLt)
  have halpha : (hex.alpha.elim [] fun byte => hexByte byte).all Lexeme.isTame := by
    cases hex.alpha with
    | none => rfl
    | some byte => exact htame byte
  simp only [Hex.token, List.cons_append, List.all_cons, List.all_append, htame, halpha, Bool.and_true]
  decide

theorem hexColor?_token (hex : Hex) :
    hexColor? (hexByte hex.red ++ (hexByte hex.green ++ (hexByte hex.blue ++
      hex.alpha.elim [] fun byte => hexByte byte))) = some ({ hex := some hex } : Content).pairs := by
  rw [hexColor?, hexBytes?_hexByte, hexBytes?_hexByte, hexBytes?_hexByte]
  obtain ⟨red, green, blue, alpha⟩ := hex
  cases alpha with
  | none => rfl
  | some byte =>
    have halpha : hexBytes? (hexByte byte) = some [byte.val] := by
      have := hexBytes?_hexByte byte []
      rwa [List.append_nil] at this
    rw [Option.elim_some, halpha]
    rfl

theorem reads_hex (hex : Hex) : Reads property [hex.token] { hex := some hex } := by
  refine reads_token (Text.part_of_not_needsQuoting Text.breaksTokens_isBlank
    (Lexeme.needsQuoting_of_tame (List.cons_ne_nil _ _) (tame_hexToken hex))) ?_
  have htoken : hex.token = '#' :: (hexByte hex.red ++ (hexByte hex.green ++ (hexByte hex.blue ++
      hex.alpha.elim [] fun byte => hexByte byte))) := by
    simp only [Hex.token, List.cons_append, List.append_assoc]
  rw [htoken]
  exact congrArg Except.ok (hexColor?_token hex)

/-! ## Expressions -/

theorem token_of_head {text : Text} (h : text.head? ≠ some '#') :
    token property text = wordOrModifier property text := by
  cases text with
  | nil => rfl
  | cons c text =>
    rw [token]
    rintro digits ⟨⟩
    exact h rfl

theorem beforeLast?_concat (c : Char) (text : Text) : Text.beforeLast? c (text ++ [c]) = some text := by
  rw [Text.beforeLast?, List.reverse_append]
  show (if c = c then some text.reverse.reverse else none) = some text
  rw [if_pos rfl, List.reverse_reverse]

theorem expressions?_token (call : Call) :
    expressions? call.token = .ok (some ({ call := some call } : Content).pairs) := by
  have hspace : ∀ space : Fin spaces.length, '(' ∉ spaces.get space ∧
      spaces.idxOf? (Text.lowered (spaces.get space)) = some space.val := by decide
  obtain ⟨hopen, hcode⟩ := hspace call.space
  have hcut : Text.cut? '(' call.token =
      some (spaces.get call.space, Text.join "," (call.operands.map Text.quoteIfNeeded) ++ [')']) := by
    rw [Call.token, List.append_assoc, List.append_assoc]
    exact Text.cut?_append _ hopen
  have hparts : Text.parts ',' (Text.join "," (call.operands.map Text.quoteIfNeeded)) =
      .ok (call.operands.map Text.quoteIfNeeded) := by
    refine Text.parts_join (by decide) fun p hp => ?_
    obtain ⟨v, -, rfl⟩ := List.mem_map.1 hp
    exact Text.part_quoteIfNeeded Text.breaksTokens_comma v
  rw [expressions?, hcut]
  dsimp only
  rw [hcode]
  dsimp only
  rw [beforeLast?_concat]
  dsimp only
  have hcount : (decide ((call.operands.map Text.quoteIfNeeded).length < 3) ||
      decide (4 < (call.operands.map Text.quoteIfNeeded).length)) = false := by
    rw [List.length_map, Call.operands]
    cases call.fourth <;> rfl
  rw [hparts, ok_bind, hcount, if_neg Bool.false_ne_true, mapM_map_eq_ok Text.scalar_quoteIfNeeded, ok_bind,
    Call.operands]
  obtain ⟨space, first, second, third, fourth⟩ := call
  cases fourth <;> rfl

theorem reads_call (call : Call) : Reads property [call.token] { call := some call } := by
  have hspace : ∀ space : Fin spaces.length, Text.needsQuoting (spaces.get space) = false ∧
      (spaces.get space).head?.all (· ≠ '#') ∧ spaces.get space ≠ [] := by decide
  obtain ⟨hbare, hhead, hne⟩ := hspace call.space
  have hname := Text.part_of_not_needsQuoting Text.breaksTokens_isBlank hbare
  refine reads_token (Text.part_call hname call.operands) ?_
  rw [token_of_head, wordOrModifier, expressions?_token]
  · rfl
  · intro h
    rw [Call.token, List.append_assoc, List.append_assoc, List.head?_append_of_ne_nil _ hne] at h
    rw [h] at hhead
    cases hhead

/-! ## Modifiers -/

/-- Before a bracket behind `=` stands no color space. -/
theorem expressions?_keyValue {key value : Text} (hkey : Text.isKey key) :
    expressions? (key ++ '=' :: value) = .ok none := by
  have hopen : '(' ∉ key := Text.not_mem_of_isKey hkey (by decide)
  rw [expressions?]
  cases hcut : Text.cut? '(' (key ++ '=' :: value) with
  | none => rfl
  | some found =>
    obtain ⟨space, rest⟩ := found
    obtain ⟨htext, -⟩ := Text.cut?_eq_some hcut
    have hmem : '=' ∈ space := by
      rcases List.append_eq_append_iff.1 htext with ⟨lead, rfl, hlead⟩ | ⟨lead, rfl, hlead⟩
      · cases lead with
        | nil => cases hlead
        | cons c lead =>
          cases hlead
          exact List.mem_append_right _ List.mem_cons_self
      · cases lead with
        | nil => cases hlead
        | cons c lead =>
          cases hlead
          exact absurd (List.mem_append_right _ List.mem_cons_self) hopen
    have hspaces : ∀ name ∈ spaces, '=' ∉ name := by decide
    have hlowered : Text.lowered space ∉ spaces := fun h => hspaces _ h (List.mem_map_of_mem (f := Char.toLower) hmem)
    dsimp only
    rw [List.idxOf?_eq_none_iff.2 hlowered]

theorem token_keyValue {key value : Text} (hkey : Text.isKey key) :
    token property (key ++ '=' :: value) = (modifier property key value).map some := by
  rw [token_of_head, wordOrModifier, expressions?_keyValue hkey, ok_bind]
  · dsimp only
    rw [Text.keyValue?_of_isKey hkey]
    dsimp only
    cases modifier property key value <;> rfl
  · cases key with
    | nil => cases hkey
    | cons c rest =>
      intro h
      cases h
      exact Text.not_mem_of_isKey hkey (c := '#') (by decide) List.mem_cons_self

/-- A modifier whose value is one token again. -/
theorem reads_modifier (key value : Text) {n : Content} (hkey : Text.isKey key) (hvalue : Part Text.isBlank value)
    (h : modifier property key value = .ok n.pairs) : Reads property [key ++ '=' :: value] n := by
  refine reads_token (Text.part_keyValue hkey hvalue) ?_
  rw [token_keyValue hkey, h]
  rfl

theorem reads_fill (code : Fin fillNames.length) :
    Reads property ["fill=" ++ fillNames.get code] { fill := some code } := by
  have hname : ∀ code : Fin fillNames.length, Text.needsQuoting (fillNames.get code) = false ∧
      Text.scalar (fillNames.get code) = .ok (fillNames.get code) ∧
      fillCode (fillNames.get code) = .ok code.val := by decide
  obtain ⟨hbare, hscalar, hcode⟩ := hname code
  refine reads_modifier "fill" (fillNames.get code) (by decide)
    (Text.part_of_not_needsQuoting Text.breaksTokens_isBlank hbare) ?_
  rw [modifier, hscalar, ok_bind, if_pos rfl, hcode]
  rfl

theorem reads_angle (v : Text) : Reads property ["angle=" ++ Text.quoteIfNeeded v] { angle := some v } := by
  refine reads_modifier "angle" (Text.quoteIfNeeded v) (by decide)
    (Text.part_quoteIfNeeded Text.breaksTokens_isBlank v) ?_
  rw [modifier, Text.scalar_quoteIfNeeded, ok_bind]
  rfl

theorem reads_dist (v : Text) : Reads property ["dist=" ++ Text.quoteIfNeeded v] { dist := some v } := by
  refine reads_modifier "dist" (Text.quoteIfNeeded v) (by decide)
    (Text.part_quoteIfNeeded Text.breaksTokens_isBlank v) ?_
  rw [modifier, Text.scalar_quoteIfNeeded, ok_bind]
  rfl

theorem scalar_leaf (v : Text) : Text.scalar (leaf v) = .ok v := by
  rw [leaf]
  split
  · exact Text.scalar_quote v
  · exact Text.scalar_quoteIfNeeded v

theorem part_leaf (v : Text) : Part Text.isBlank (leaf v) := by
  rw [leaf]
  split
  · exact Text.part_quote Text.isBlank v
  · exact Text.part_quoteIfNeeded Text.breaksTokens_isBlank v

theorem reads_image (v : Text) : Reads property ["image=" ++ leaf v] { image := some v } := by
  refine reads_modifier "image" (leaf v) (by decide) (part_leaf v) ?_
  rw [modifier, scalar_leaf, ok_bind]
  rfl

theorem reads_symbol (v : Text) : Reads property ["symbol=" ++ leaf v] { symbol := some v } := by
  refine reads_modifier "symbol" (leaf v) (by decide) (part_leaf v) ?_
  rw [modifier, scalar_leaf, ok_bind]
  rfl

theorem reads_inverse (on : Bool) :
    Reads property [if on then "inverse" else "~inverse"] { inverse := some on } := by
  cases on with
  | true => exact reads_token (Text.part_of_not_needsQuoting Text.breaksTokens_isBlank (by decide)) rfl
  | false => exact reads_token (Text.part_of_not_needsQuoting Text.breaksTokens_isBlank (by decide)) rfl

/-! ## All tokens of a content -/

/-- **The tokens of a content say it.** -/
theorem reads_texts (c : Content) : Reads property c.texts c := by
  have hhex := reads_optional (fun hex => { hex := hex }) rfl (@reads_hex property) c.hex
  have hcall := reads_optional (fun call => { call := call }) rfl (@reads_call property) c.call
  have hfill := reads_optional (fun fill => { fill := fill }) rfl (@reads_fill property) c.fill
  have hangle := reads_optional (fun angle => { angle := angle }) rfl (@reads_angle property) c.angle
  have hdist := reads_optional (fun dist => { dist := dist }) rfl (@reads_dist property) c.dist
  have himage := reads_optional (fun image => { image := image }) rfl (@reads_image property) c.image
  have hsymbol := reads_optional (fun symbol => { symbol := symbol }) rfl (@reads_symbol property) c.symbol
  have hinverse := reads_optional (fun inverse => { inverse := inverse }) rfl (@reads_inverse property) c.inverse
  have hrow := ((((((hhex.append hcall).append hfill).append hangle).append hdist).append himage).append
    hsymbol).append hinverse
  have hlayers : ({ inverse := c.inverse } : Content).above (({ symbol := c.symbol } : Content).above
      (({ image := c.image } : Content).above (({ dist := c.dist } : Content).above
      (({ angle := c.angle } : Content).above (({ fill := c.fill } : Content).above
      (({ call := c.call } : Content).above { hex := c.hex })))))) = c := by
    obtain ⟨hex, call, fill, angle, dist, image, symbol, inverse⟩ := c
    cases call with
    | none => simp only [Content.above, Option.none_or, Option.or_none]
    | some call => simp only [Content.above, Option.none_or, Option.or_none, Option.bind_none]
  rw [hlayers] at hrow
  exact hrow

/-! ## The written form -/

theorem Says.eq_empty {c : Content} (h : Says ∅ c) : c = {} := by
  have hhex : none = c.hex.map fun hex => Text.ofNat hex.red := h.get? "r"
  have hcall : none = c.call.map Call.first := h.get? "dynamicr"
  have hfill : none = c.fill.map fun code : Fin fillNames.length => Text.ofNat code := h.get? "fillType"
  have hangle : none = c.angle := h.get? "hatchAngle"
  have hdist : none = c.dist := h.get? "hatchDistance"
  have himage : none = c.image := h.get? "image"
  have hsymbol : none = c.symbol := h.get? "fillSymbol"
  have hinverse : none = c.inverse.map Text.ofBool := h.get? "inverseFill"
  obtain ⟨hex, call, fill, angle, dist, image, symbol, inverse⟩ := c
  cases Option.map_eq_none_iff.1 hhex.symm
  cases Option.map_eq_none_iff.1 hcall.symm
  cases Option.map_eq_none_iff.1 hfill.symm
  cases hangle
  cases hdist
  cases himage
  cases hsymbol
  cases Option.map_eq_none_iff.1 hinverse.symm
  rfl

theorem eq_empty_of_texts {c : Content} (h : c.texts = []) : c = {} := by
  simp only [Content.texts, List.append_eq_nil_iff, Option.toList_eq_nil_iff, Option.map_eq_none_iff] at h
  obtain ⟨⟨⟨⟨⟨⟨⟨hhex, hcall⟩, hfill⟩, hangle⟩, hdist⟩, himage⟩, hsymbol⟩, hinverse⟩ := h
  obtain ⟨hex, call, fill, angle, dist, image, symbol, inverse⟩ := c
  cases hhex
  cases hcall
  cases hfill
  cases hangle
  cases hdist
  cases himage
  cases hsymbol
  cases hinverse
  rfl

/-- **The tokens of a content are read as attributes that say it**, unless there are none. -/
theorem readTokens_texts {c : Content} (hne : c ≠ {}) :
    ∃ b, readTokens property c.texts = .ok (some b) ∧ Says b c := by
  obtain ⟨b, hb, hread⟩ := (@reads_texts property c).read [] says_empty
  rw [List.append_nil] at hread
  rw [Content.above_empty] at hb
  have hsome : PropertyFormat.something b = some b := by
    refine if_neg fun hempty => hne ?_
    rw [OrderedMap.isEmpty_iff.1 hempty] at hb
    exact hb.eq_empty
  refine ⟨b, ?_, hb⟩
  rw [readTokens, hread, readTokensOver, hsome]

/-- **What is written of attributes is read as what is kept of them.** -/
theorem exists_reread {attrs : Attributes} {c : Content} (h : Says attrs c) (name : Text) :
    ∃ b, (format name).reread attrs = .ok (some b) ∧ Says b c.kept := by
  have hreads := @reads_texts name c.kept
  have hencode : (format name).encode attrs = Text.nonempty? (Text.words c.kept.texts) := by
    rw [← writeTokens_eq h]
    rfl
  rw [PropertyFormat.reread, hencode]
  by_cases hnil : c.kept.texts = []
  · refine ⟨∅, ?_, eq_empty_of_texts hnil ▸ says_empty⟩
    rw [hnil]
    rfl
  · obtain ⟨b, hread, hb⟩ := @readTokens_texts name c.kept fun hempty => hnil (by rw [hempty]; rfl)
    refine ⟨b, ?_, hb⟩
    rw [Text.nonempty?_words (fun t ht => (hreads.parts t ht).ne_nil) hnil]
    show (Text.tokens (Text.words c.kept.texts) >>= readTokens name) = _
    rw [Text.tokens_words hreads.parts, ok_bind, hread]

end StyleScript.Color
