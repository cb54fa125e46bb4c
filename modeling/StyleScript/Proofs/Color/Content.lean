import Mathlib.Data.List.Basic
import StyleScript.Property.Color
import StyleScript.Proofs.Property.Aspects
/-!
# What a color says

The attributes of a color are not arbitrary: the channels come together and are bytes, the expressions come together
with the space, the filling is a code of the table.  `Content` holds what they can say, and attributes say a content
if they hold its values under its keys and nothing else (`Says`).

Every token says a content of its own (`exists_pairs_of_token`), which is laid over what was said before, so that all
attributes that are read say some content (`exists_says_of_decode`).
-/
namespace StyleScript.Color

/-! ## Contents -/

/-- A color of bytes. -/
structure Hex where
  red : Fin 256
  green : Fin 256
  blue : Fin 256
  alpha : Option (Fin 256) := none
  deriving DecidableEq

/-- The attribute `alpha` of a byte. -/
def Hex.share (byte : Fin 256) : Text := alphaText byte

/-- A color of expressions. -/
structure Call where
  space : Fin spaces.length
  first : Text
  second : Text
  third : Text
  fourth : Option Text := none
  deriving DecidableEq

/-- What the attributes of a color say. -/
structure Content where
  hex : Option Hex := none
  call : Option Call := none
  fill : Option (Fin fillNames.length) := none
  angle : Option Text := none
  dist : Option Text := none
  image : Option Text := none
  symbol : Option Text := none
  inverse : Option Bool := none
  deriving DecidableEq

namespace Content

/-- The keys with what a content holds under them, in the order of the tokens. -/
def fields : List (Text × (Content → Option Text)) :=
  [("r", fun c => c.hex.map fun hex => Text.ofNat hex.red),
   ("g", fun c => c.hex.map fun hex => Text.ofNat hex.green),
   ("b", fun c => c.hex.map fun hex => Text.ofNat hex.blue),
   ("alpha", fun c => c.hex.bind fun hex => hex.alpha.map Hex.share),
   ("dynamicr", fun c => c.call.map Call.first),
   ("dynamicg", fun c => c.call.map Call.second),
   ("dynamicb", fun c => c.call.map Call.third),
   ("dynamica", fun c => c.call.bind Call.fourth),
   ("colorSpace", fun c => c.call.map fun call => Text.ofNat call.space),
   ("fillType", fun c => c.fill.map fun code : Fin fillNames.length => Text.ofNat code),
   ("hatchAngle", angle),
   ("hatchDistance", dist),
   ("image", image),
   ("fillSymbol", symbol),
   ("inverseFill", fun c => c.inverse.map Text.ofBool)]

theorem fields_nodup : (fields.map Prod.fst).Nodup := by decide

def pairs (c : Content) : List (Text × Text) :=
  fields.filterMap fun field => (field.2 c).map (field.1, ·)

theorem pairs_nodup (c : Content) : (c.pairs.map Prod.fst).Nodup :=
  fields_nodup.sublist (OrderedMap.keys_filterMap_sublist (fun field : Content → Option Text => field c) fields)

theorem find?_pairs (c : Content) (key : Text) :
    OrderedMap.find? key c.pairs = (OrderedMap.find? key fields).bind fun field => field c :=
  OrderedMap.find?_filterMap (fun field : Content → Option Text => field c) key fields_nodup

/-! ## Contents over contents -/

/-- What both say, where the first one counts. -/
def above (n c : Content) : Content where
  hex := match n.hex with
    | some hex => some { hex with alpha := hex.alpha.or (c.hex.bind Hex.alpha) }
    | none => c.hex
  call := match n.call with
    | some call => some { call with fourth := call.fourth.or (c.call.bind Call.fourth) }
    | none => c.call
  fill := n.fill.or c.fill
  angle := n.angle.or c.angle
  dist := n.dist.or c.dist
  image := n.image.or c.image
  symbol := n.symbol.or c.symbol
  inverse := n.inverse.or c.inverse

theorem field_above (n c : Content) : ∀ field ∈ fields, field.2 (n.above c) = (field.2 n).or (field.2 c) := by
  simp only [fields, above, List.forall_mem_cons, List.not_mem_nil, false_implies, implies_true, and_true]
  refine ⟨?_, ?_, ?_, ?_, ?_, ?_, ?_, ?_, ?_, Option.map_or, trivial, trivial, trivial, trivial, Option.map_or⟩
  · cases n.hex <;> rfl
  · cases n.hex <;> rfl
  · cases n.hex <;> rfl
  · cases n.hex with
    | none => rfl
    | some hex => exact Option.map_or.trans (congrArg _ (Option.map_bind ..))
  · cases n.call <;> rfl
  · cases n.call <;> rfl
  · cases n.call <;> rfl
  · cases n.call <;> rfl
  · cases n.call <;> rfl

theorem find?_above (n c : Content) (key : Text) : OrderedMap.find? key (n.above c).pairs =
    (OrderedMap.find? key n.pairs).or (OrderedMap.find? key c.pairs) := by
  rw [find?_pairs, find?_pairs, find?_pairs]
  cases hkey : OrderedMap.find? key fields with
  | none => rfl
  | some field => exact field_above n c (key, field) ((OrderedMap.find?_eq_some fields_nodup).1 hkey)

end Content

/-- The attributes hold what the content says, and nothing else. -/
def Says (attrs : Attributes) (c : Content) : Prop :=
  ∀ key, attrs.get? key = OrderedMap.find? key c.pairs

theorem says_empty : Says ∅ {} := fun _ => rfl

theorem Says.get? {attrs : Attributes} {c : Content} (h : Says attrs c) (key : Text) :
    attrs.get? key = (OrderedMap.find? key Content.fields).bind fun field => field c :=
  (h key).trans (Content.find?_pairs c key)

theorem Says.union {attrs : Attributes} {c : Content} (h : Says attrs c) (n : Content) :
    Says (attrs.union n.pairs) (n.above c) := by
  intro key
  rw [OrderedMap.get?_union key attrs n.pairs_nodup, h, Content.find?_above]

/-! ## What a token says -/

theorem hexDigit?_lt {c : Char} {n : Nat} (h : Text.hexDigit? c = some n) : n < 16 := by
  unfold Text.hexDigit? at h
  split at h
  · next hc =>
    cases h
    exact Text.forall_isDigit (P := fun c => c.toNat - '0'.toNat < 16) (by decide) hc
  · split at h
    · next hc =>
      cases h
      have : c.toNat ≤ 'f'.toNat := hc.2
      have : 'f'.toNat = 102 := rfl
      have : 'a'.toNat = 97 := rfl
      omega
    · split at h
      · next hc =>
        cases h
        have : c.toNat ≤ 'F'.toNat := hc.2
        have : 'F'.toNat = 70 := rfl
        have : 'A'.toNat = 65 := rfl
        omega
      · cases h

theorem hexBytes?_lt : ∀ {digits : Text} {bytes : List Nat}, hexBytes? digits = some bytes → ∀ byte ∈ bytes, byte < 256
  | [], _, h => by cases h; exact List.forall_mem_nil _
  | [_], _, h => by cases h
  | high :: low :: rest, bytes, h => by
    simp only [hexBytes?, Option.bind_eq_bind, Option.bind_eq_some_iff] at h
    obtain ⟨x, hx, y, hy, more, hmore, h⟩ := h
    cases h
    have := hexDigit?_lt hx
    have := hexDigit?_lt hy
    exact List.forall_mem_cons.2 ⟨by omega, hexBytes?_lt hmore⟩

theorem exists_pairs_of_hexColor? {digits : Text} {settings : List (Text × Text)}
    (h : hexColor? digits = some settings) : ∃ c : Content, settings = c.pairs := by
  unfold hexColor? at h
  split at h
  · next r g b hbytes =>
    have hlt := hexBytes?_lt hbytes
    simp only [List.forall_mem_cons] at hlt
    refine ⟨{ hex := some ⟨⟨r, hlt.1⟩, ⟨g, hlt.2.1⟩, ⟨b, hlt.2.2.1⟩, none⟩ }, ?_⟩
    rw [← Option.some.inj h]
    rfl
  · next r g b a hbytes =>
    have hlt := hexBytes?_lt hbytes
    simp only [List.forall_mem_cons] at hlt
    refine ⟨{ hex := some ⟨⟨r, hlt.1⟩, ⟨g, hlt.2.1⟩, ⟨b, hlt.2.2.1⟩, some ⟨a, hlt.2.2.2.1⟩⟩ }, ?_⟩
    rw [← Option.some.inj h]
    rfl
  · cases h

theorem exists_pairs_of_expressions? {text : Text} {settings : List (Text × Text)}
    (h : expressions? text = .ok (some settings)) : ∃ c : Content, settings = c.pairs := by
  unfold expressions? at h
  split at h
  · cases h
  · split at h
    · cases h
    · next code hcode =>
      obtain ⟨hspace, -⟩ := List.idxOf?_eq_some_iff.1 hcode
      split at h
      · cases h
      · next inner _ =>
        obtain ⟨operands, -, h⟩ := bind_eq_ok.1 h
        split at h
        · cases h
        · next hcount =>
          obtain ⟨values, hvalues, h⟩ := bind_eq_ok.1 h
          have hlength := length_of_mapM_eq_ok hvalues
          rw [Bool.or_eq_true, decide_eq_true_eq, decide_eq_true_eq] at hcount
          rw [← Option.some.inj (pure_eq_ok.1 h)]
          rcases (show values.length = 3 ∨ values.length = 4 by omega) with hthree | hfour
          · obtain ⟨x, y, z, rfl⟩ := List.length_eq_three.1 hthree
            exact ⟨{ call := some ⟨⟨code, hspace⟩, x, y, z, none⟩ }, rfl⟩
          · obtain ⟨x, y, z, w, rfl⟩ := List.length_eq_four.1 hfour
            exact ⟨{ call := some ⟨⟨code, hspace⟩, x, y, z, some w⟩ }, rfl⟩

theorem fillCode_lt {name : Text} {code : Nat} (h : fillCode name = .ok code) : code < fillNames.length := by
  unfold fillCode at h
  split at h
  · next hcode =>
    cases h
    exact (List.idxOf?_eq_some_iff.1 hcode).1
  · split at h
    · split at h
      · next hlt =>
        cases h
        exact hlt
      · cases h
    · cases h

theorem exists_pairs_of_modifier {property key value : Text} {settings : List (Text × Text)}
    (h : modifier property key value = .ok settings) : ∃ c : Content, settings = c.pairs := by
  unfold modifier at h
  obtain ⟨value, -, h⟩ := bind_eq_ok.1 h
  split at h
  · obtain ⟨code, hcode, h⟩ := bind_eq_ok.1 h
    exact ⟨{ fill := some ⟨code, fillCode_lt hcode⟩ }, (pure_eq_ok.1 h).symm⟩
  · split at h
    · exact ⟨{ angle := some value }, (pure_eq_ok.1 h).symm⟩
    · split at h
      · exact ⟨{ dist := some value }, (pure_eq_ok.1 h).symm⟩
      · split at h
        · exact ⟨{ image := some value }, (pure_eq_ok.1 h).symm⟩
        · split at h
          · exact ⟨{ symbol := some value }, (pure_eq_ok.1 h).symm⟩
          · cases h

theorem exists_pairs_of_wordOrModifier {property text : Text} {settings : List (Text × Text)}
    (h : wordOrModifier property text = .ok (some settings)) : ∃ c : Content, settings = c.pairs := by
  unfold wordOrModifier at h
  obtain ⟨found, hfound, h⟩ := bind_eq_ok.1 h
  split at h
  · cases pure_eq_ok.1 h
    exact exists_pairs_of_expressions? hfound
  · split at h
    · obtain ⟨settings, hsettings, h⟩ := bind_eq_ok.1 h
      cases pure_eq_ok.1 h
      exact exists_pairs_of_modifier hsettings
    · split at h
      · next on word _ =>
        have := pure_eq_ok.1 h
        split at this
        · cases this
          exact ⟨{ inverse := some on }, rfl⟩
        · cases this

/-- **What a token sets is what some content says.** -/
theorem exists_pairs_of_token {property text : Text} {settings : List (Text × Text)}
    (h : token property text = .ok (some settings)) : ∃ c : Content, settings = c.pairs := by
  unfold token at h
  split at h
  · exact exists_pairs_of_hexColor? (Except.ok.inj h)
  · exact exists_pairs_of_wordOrModifier h

/-- What a token sets: nothing, if it is refused or makes the value say nothing. -/
def settings (property text : Text) : List (Text × Text) :=
  match token property text with
  | .ok (some settings) => settings
  | _ => []

theorem settings_nodup (property text : Text) : ((settings property text).map Prod.fst).Nodup := by
  rw [settings]
  split
  · next h =>
    obtain ⟨c, rfl⟩ := exists_pairs_of_token h
    exact c.pairs_nodup
  · exact List.nodup_nil

/-- **What is read of a row is what its tokens set**, laid over what was read before. -/
theorem readTokensOver_eq_ok {property : Text} : ∀ {texts : List Text} {attrs a : Attributes},
    readTokensOver property attrs texts = .ok (some a) ↔
      (∀ t ∈ texts, token property t = .ok (some (settings property t))) ∧
        attrs.union (texts.flatMap (settings property)) = a ∧ a ≠ ∅
  | [], attrs, a => by
    rw [readTokensOver, Except.ok.injEq, PropertyFormat.something_eq_some, and_iff_right (List.forall_mem_nil _)]
    exact Iff.rfl
  | t :: texts, attrs, a => by
    rw [readTokensOver, List.forall_mem_cons, List.flatMap_cons, OrderedMap.union_append, bind_eq_ok]
    constructor
    · rintro ⟨found, hfound, h⟩
      cases found with
      | none => cases h
      | some sets =>
        obtain ⟨htexts, h⟩ := readTokensOver_eq_ok.1 h
        have hsets : settings property t = sets := by rw [settings, hfound]
        rw [hsets]
        exact ⟨⟨hfound, htexts⟩, h⟩
    · rintro ⟨⟨ht, htexts⟩, h⟩
      exact ⟨_, ht, readTokensOver_eq_ok.2 ⟨htexts, h⟩⟩

/-- What was read over attributes that say a content says one too. -/
theorem exists_says_of_readTokensOver {property : Text} : ∀ {texts : List Text} {attrs : Attributes} {c : Content}
    {a : Attributes}, Says attrs c → readTokensOver property attrs texts = .ok (some a) → ∃ c, Says a c
  | [], attrs, c, a, hattrs, h => by
    rw [readTokensOver, PropertyFormat.something] at h
    split at h
    · cases h
    · cases h
      exact ⟨c, hattrs⟩
  | text :: texts, attrs, c, a, hattrs, h => by
    rw [readTokensOver] at h
    obtain ⟨found, hfound, h⟩ := bind_eq_ok.1 h
    split at h
    · next settings =>
      obtain ⟨n, rfl⟩ := exists_pairs_of_token hfound
      exact exists_says_of_readTokensOver (hattrs.union n) h
    · cases h

/-- **Attributes that were read say a content.** -/
theorem exists_says_of_decode {name value : Text} {a : Attributes} (h : (format name).decode value = .ok (some a)) :
    ∃ c, Says a c := by
  obtain ⟨texts, -, h⟩ := bind_eq_ok.1 h
  exact exists_says_of_readTokensOver says_empty h

end StyleScript.Color
