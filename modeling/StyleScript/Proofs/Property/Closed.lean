import Mathlib.Data.List.Basic
import StyleScript.Property.Catalog
import StyleScript.Proofs.Script.Raw
/-!
# Which formats write closed values

Closed texts that are put together with blanks, behind a key, or in brackets are closed again.  So a format
whose leaves are numbers it has made itself, words of its own, and texts written as one token writes closed
values whatever its attributes hold (`closed_of_mem_builtIn`).

Some formats write a text that was kept as a number, or as a word of a list, without looking at it again.
These are the formats of the `bareElements`.
-/
namespace StyleScript

open Text (Context)
open Lexeme (Closed Joined StopsOutside)

namespace Lexeme

variable {stop : Char → Bool}

/-! ## Putting closed texts together -/

theorem Closed.append {u w : Text} (hu : Closed stop u) (hw : Closed stop w) (hj : Joined u w) :
    Closed stop (u ++ w) where
  through := by
    rw [through?_append stop _ hj, hu.through]
    exact hw.through
  trimmed := by
    constructor
    · intro c hc
      cases u with
      | nil => exact hw.trimmed.1 c hc
      | cons d u => exact hu.trimmed.1 c hc
    · intro c hc
      rw [List.getLast?_append] at hc
      cases hlast : w.getLast? with
      | none => rw [hlast] at hc; exact hu.trimmed.2 c hc
      | some d => rw [hlast] at hc; exact hw.trimmed.2 c (hlast ▸ hc)

/-- Closed texts with a separator between them that begins and ends with a blank. -/
theorem Closed.separated {t sep rest : Text} (ht : Closed stop t) (hne : t ≠ []) (hrest : Closed stop rest)
    (hrne : rest ≠ []) (hsep : through? stop (.plain 0) sep = some (.plain 0)) (hhead : sep.head? = some ' ')
    (hlast : sep.getLast? = some ' ') : Closed stop (t ++ sep ++ rest) where
  through := by
    have hj : Joined t (sep ++ rest) := by
      refine joined_of_head fun hh => ?_
      rw [List.head?_append, hhead] at hh
      have : some ' ' = some '/' := hh
      exact absurd this (by decide)
    have hj' : Joined sep rest := joined_of_getLast (by rw [hlast]; decide)
    rw [List.append_assoc, through?_append stop _ hj, ht.through, Option.bind_some, through?_append stop _ hj',
      hsep]
    exact hrest.through
  trimmed := by
    constructor
    · intro c hc
      rw [List.append_assoc, List.head?_append_of_ne_nil _ hne] at hc
      exact ht.trimmed.1 c hc
    · intro c hc
      rw [List.getLast?_append_of_ne_nil _ hrne] at hc
      exact hrest.trimmed.2 c hc

theorem closed_join {sep : Text} (hsep : through? stop (.plain 0) sep = some (.plain 0))
    (hhead : sep.head? = some ' ') (hlast : sep.getLast? = some ' ') : ∀ {ts : List Text},
    (∀ t ∈ ts, Closed stop t ∧ t ≠ []) → Closed stop (Text.join sep ts) ∧ (ts ≠ [] → Text.join sep ts ≠ [])
  | [], _ => ⟨closed_nil, fun h => absurd rfl h⟩
  | [t], h => ⟨(h t List.mem_cons_self).1, fun _ => (h t List.mem_cons_self).2⟩
  | t :: next :: rest, h => by
    obtain ⟨ht, hne⟩ := h t List.mem_cons_self
    obtain ⟨hrest, hrne⟩ := closed_join hsep hhead hlast fun s hs => h s (List.mem_cons_of_mem t hs)
    refine ⟨ht.separated hne hrest (hrne (List.cons_ne_nil next rest)) hsep hhead hlast, fun _ hnil => hne ?_⟩
    exact (List.append_eq_nil_iff.1 (List.append_eq_nil_iff.1 hnil).1).1

variable (hstop : StopsOutside stop)
include hstop

theorem closed_words {ts : List Text} (h : ∀ t ∈ ts, Closed stop t) : Closed stop (Text.words ts) := by
  refine (closed_join (through?_blank_cons hstop rfl []) rfl rfl fun t ht => ?_).1
  obtain ⟨hmem, hne⟩ := List.mem_filter.1 ht
  exact ⟨h t hmem, by simpa using hne⟩

theorem closed_of_not_needsQuoting {t : Text} (h : Text.needsQuoting t = false) : Closed stop t := by
  have := closed_quoteIfNeeded hstop t
  rwa [Text.quoteIfNeeded, if_neg (by rw [h]; exact Bool.false_ne_true)] at this

theorem closed_quote (text : Text) : Closed stop (Text.quote text) :=
  ⟨through?_quote hstop 0 text, Text.trimmed_quote text⟩

/-! ## Characters without a meaning -/

/-- A character that means nothing in raw text. -/
def isTame (c : Char) : Bool := !Text.breaksToken c && !Text.isOpener c && !Text.isCloser c && c ≠ '/'

omit hstop in
theorem bracketsClose_of_tame : ∀ {t : Text}, t.all isTame → Text.bracketsClose 0 t ∧ Text.holds "//" t = false
  | [], _ => ⟨rfl, rfl⟩
  | c :: t, h => by
    rw [List.all_cons, Bool.and_eq_true] at h
    have hc := h.1
    simp only [isTame, Bool.and_eq_true, Bool.not_eq_true', decide_eq_true_eq] at hc
    obtain ⟨⟨⟨-, hopen⟩, hclose⟩, hslash⟩ := hc
    obtain ⟨hb, hs⟩ := bracketsClose_of_tame h.2
    have hafter : Text.after? "//" (c :: t) = none := by simp [Text.after?, hslash.symm]
    constructor
    · simp only [Text.bracketsClose, hopen, hclose, Bool.false_eq_true, if_false]
      exact hb
    · rw [Text.holds, hafter, hs]
      rfl

omit hstop in
theorem needsQuoting_of_tame {t : Text} (hne : t ≠ []) (h : t.all isTame) : Text.needsQuoting t = false := by
  obtain ⟨hb, hs⟩ := bracketsClose_of_tame h
  have hbreaks : t.any Text.breaksToken = false := by
    rw [List.any_eq_false]
    intro c hc
    have := List.all_eq_true.1 h c hc
    simp only [isTame, Bool.and_eq_true, Bool.not_eq_true'] at this
    rw [this.1.1.1]
    exact Bool.false_ne_true
  rw [Text.needsQuoting, List.isEmpty_eq_false_iff.2 hne, hs, hb, hbreaks]
  rfl

theorem closed_of_tame {t : Text} (h : t.all isTame) : Closed stop t := by
  by_cases hne : t = []
  · rw [hne]
    exact closed_nil
  · exact closed_of_not_needsQuoting hstop (needsQuoting_of_tame hne h)

theorem Closed.behind {value : Text} (hvalue : Closed stop value) {key : Text} (hkey : key.all isTame) :
    Closed stop (key ++ value) := by
  refine (closed_of_tame hstop hkey).append hvalue (joined_of_getLast fun hlast => ?_)
  have := List.all_eq_true.1 hkey _ (List.mem_of_getLast? hlast)
  exact absurd this (by decide)

/-! ## Calls -/

theorem through?_commas (depth : Nat) : ∀ ts : List Text,
    through? stop (.plain (depth + 1)) (Text.join "," (ts.map Text.quoteIfNeeded)) = some (.plain (depth + 1))
  | [] => rfl
  | [t] => through?_quoteIfNeeded hstop (depth + 1) t
  | t :: next :: rest => by
    have hcomma : ∀ w, through? stop (.plain (depth + 1)) (',' :: w) = through? stop (.plain (depth + 1)) w := by
      intro w
      simp [through?, Context.next, Text.isOpener, Text.isCloser]
    have hj : Joined (Text.quoteIfNeeded t) (',' :: Text.join "," ((next :: rest).map Text.quoteIfNeeded)) :=
      joined_of_head (by simp)
    have hjoin : Text.join "," ((t :: next :: rest).map Text.quoteIfNeeded) =
        Text.quoteIfNeeded t ++ (',' :: Text.join "," ((next :: rest).map Text.quoteIfNeeded)) := by
      simp [Text.join]
    rw [hjoin, through?_append stop _ hj, through?_quoteIfNeeded hstop, Option.bind_some, hcomma]
    exact through?_commas depth (next :: rest)

theorem closed_call {name : Text} (hname : name.all isTame) (hne : name ≠ []) (ts : List Text) :
    Closed stop (name ++ "(" ++ Text.join "," (ts.map Text.quoteIfNeeded) ++ ")") := by
  have hclosed := closed_of_tame hstop hname
  have hopen : ∀ w, through? stop (.plain 0) ('(' :: w) = through? stop (.plain 1) w := by
    intro w
    have hs : stop '(' = false := by
      cases hs : stop '(' with
      | false => rfl
      | true => exact absurd (hstop _ hs) (by decide)
    simp [through?, endsRaw, startsComment, hs, Context.next, Text.isOpener, Text.isCloser]
  have hclose : through? stop (.plain 1) [')'] = some (.plain 0) := rfl
  have htext : name ++ "(" ++ Text.join "," (ts.map Text.quoteIfNeeded) ++ ")" =
      name ++ ('(' :: (Text.join "," (ts.map Text.quoteIfNeeded) ++ [')'])) := by simp
  rw [htext]
  refine ⟨?_, fun c hc => ?_, fun c hc => ?_⟩
  · rw [through?_append stop _ (joined_of_head (by simp)), hclosed.through, Option.bind_some, hopen,
      through?_append stop _ (joined_of_head (by simp)), through?_commas hstop 0]
    exact hclose
  · rw [List.head?_append_of_ne_nil _ hne] at hc
    exact hclosed.trimmed.1 c hc
  · rw [← List.cons_append, ← List.append_assoc, List.getLast?_concat] at hc
    rw [← Option.some.inj hc]
    decide

end Lexeme

/-! ## Values of the built-in formats -/

/-- The format writes closed values, whatever the attributes hold. -/
def WritesClosed (format : PropertyFormat) : Prop :=
  ∀ {attrs : Attributes} {value : Text}, format.encode attrs = some value → Closed (· = '}') value

theorem closed_of_nonempty? {text value : Text} (h : Text.nonempty? text = some value)
    (hclosed : Closed (· = '}') text) : Closed (· = '}') value := by
  unfold Text.nonempty? at h
  split at h
  · cases h
  · exact Option.some.inj h ▸ hclosed

theorem closed_token (text : Text) : Closed (· = '}') (Text.quoteIfNeeded text) :=
  Lexeme.closed_quoteIfNeeded Lexeme.stopsOutside_brace text

theorem closed_tame {text : Text} (h : text.all Lexeme.isTame) : Closed (· = '}') text :=
  Lexeme.closed_of_tame Lexeme.stopsOutside_brace h

theorem isTame_of_isDigit {c : Char} (h : c.isDigit) : Lexeme.isTame c :=
  Text.forall_isDigit (P := fun c => Lexeme.isTame c) (by decide) h

theorem tame_of_allDigits {text : Text} (h : Text.allDigits text) : text.all Lexeme.isTame :=
  List.all_eq_true.2 fun c hc => isTame_of_isDigit (List.all_eq_true.1 h c hc)

theorem tame_ofNat (n : Nat) : (Text.ofNat n).all Lexeme.isTame :=
  List.all_eq_true.2 fun _ hc => isTame_of_isDigit (Text.isDigit_of_mem_ofNat hc)

namespace Color

theorem tame_hexChar {n : Nat} (h : n < 16) : Lexeme.isTame (hexChar n) := by
  have hall : ∀ n ∈ List.range 16, Lexeme.isTame (hexChar n) := by decide
  exact hall n (List.mem_range.2 h)

theorem tame_hexByte {byte : Nat} (h : byte ≤ 255) : (hexByte byte).all Lexeme.isTame := by
  have h1 := tame_hexChar (show byte / 16 < 16 by omega)
  have h2 := tame_hexChar (Nat.mod_lt byte (show 0 < 16 by decide))
  simp only [hexByte, List.all_cons, h1, h2, List.all_nil, Bool.and_self]

theorem toByte_le (x : Binary64) : x.toByte ≤ 255 := by
  cases x with
  | nan => exact Nat.zero_le _
  | infinity negative => cases negative <;> decide
  | finite negative units =>
    cases negative with
    | true => exact Nat.zero_le _
    | false => exact Nat.min_le_left ..

theorem channel?_le {attrs : Attributes} {key : Text} {byte : Nat} (h : channel? attrs key = some byte) :
    byte ≤ 255 := by
  obtain ⟨x, -, rfl⟩ := Option.map_eq_some_iff.1 h
  exact toByte_le x

theorem tame_alphaDigits (attrs : Attributes) : (alphaDigits attrs).all Lexeme.isTame := by
  unfold alphaDigits
  split
  · split
    · exact tame_hexByte (toByte_le _)
    · rfl
  · rfl

theorem spaceName_mem (attrs : Attributes) : spaceName attrs ∈ spaces := by
  unfold spaceName
  cases h : ((attrs.get? "colorSpace").bind Text.natural64?).bind (spaces[·]?) with
  | none => exact List.mem_cons_self
  | some name =>
    obtain ⟨code, -, hcode⟩ := Option.bind_eq_some_iff.1 h
    exact List.mem_of_getElem? hcode

theorem closed_writeColor {attrs : Attributes} {color : Text} (h : writeColor attrs = some color) :
    Closed (· = '}') color := by
  unfold writeColor at h
  split at h
  · next r g b hr hg hb =>
    rw [← Option.some.inj h]
    refine closed_tame ?_
    simp only [List.cons_append, List.all_cons, List.all_append, tame_hexByte (channel?_le hr),
      tame_hexByte (channel?_le hg), tame_hexByte (channel?_le hb), tame_alphaDigits, Bool.and_true]
    decide
  · split at h
    · rw [← Option.some.inj h]
      have hall : ∀ name ∈ spaces, name.all Lexeme.isTame ∧ name ≠ [] := by decide
      obtain ⟨htame, hne⟩ := hall _ (spaceName_mem attrs)
      exact Lexeme.closed_call Lexeme.stopsOutside_brace htame hne _
    · cases h

theorem closed_leaf (text : Text) : Closed (· = '}') (leaf text) := by
  unfold leaf
  split
  · exact Lexeme.closed_quote Lexeme.stopsOutside_brace text
  · exact closed_token text

theorem fillName?_mem {kept name : Text} (h : fillName? kept = some name) : name ∈ fillNames := by
  unfold fillName? at h
  split at h
  · exact List.mem_of_getElem? h
  · exact List.mem_of_find?_eq_some h

theorem closed_writeTokens (attrs : Attributes) : ∀ t ∈ writeTokens attrs, Closed (· = '}') t := by
  have hkey : ∀ {key value : Text}, key.all Lexeme.isTame → Closed (· = '}') value →
      Closed (· = '}') (key ++ value) :=
    fun hkey hvalue => hvalue.behind Lexeme.stopsOutside_brace hkey
  intro t ht
  simp only [writeTokens, List.mem_append] at ht
  rcases ht with (((((ht | ht) | ht) | ht) | ht) | ht) | ht
  · exact closed_writeColor (Option.mem_toList.1 ht)
  · split at ht
    · next name hname =>
      split at ht
      · cases ht
      · rw [List.mem_singleton.1 ht]
        obtain ⟨kept, -, hfill⟩ := Option.bind_eq_some_iff.1 hname
        have hall : ∀ name ∈ fillNames, name.all Lexeme.isTame := by decide
        exact hkey (by decide) (closed_tame (hall _ (fillName?_mem hfill)))
    · cases ht
  · obtain ⟨v, -, rfl⟩ := Option.map_eq_some_iff.1 (Option.mem_toList.1 ht)
    exact hkey (by decide) (closed_token v)
  · obtain ⟨v, -, rfl⟩ := Option.map_eq_some_iff.1 (Option.mem_toList.1 ht)
    exact hkey (by decide) (closed_token v)
  · obtain ⟨v, -, rfl⟩ := Option.map_eq_some_iff.1 (Option.mem_toList.1 ht)
    exact hkey (by decide) (closed_leaf v)
  · obtain ⟨v, -, rfl⟩ := Option.map_eq_some_iff.1 (Option.mem_toList.1 ht)
    exact hkey (by decide) (closed_leaf v)
  · split at ht
    · rw [List.mem_singleton.1 ht]
      exact closed_tame (by decide)
    · cases ht

theorem closed_write (attrs : Attributes) : Closed (· = '}') (write attrs) :=
  Lexeme.closed_words Lexeme.stopsOutside_brace (closed_writeTokens attrs)

theorem writesClosed (name : Text) : WritesClosed (format name) :=
  fun h => closed_of_nonempty? h (closed_write _)

end Color

theorem Visibility.writesClosed : WritesClosed Visibility.format := by
  intro attrs value h
  refine closed_of_nonempty? h (Lexeme.closed_words Lexeme.stopsOutside_brace fun t ht => ?_)
  simp only [write, List.mem_append] at ht
  rcases ht with (ht | ht) | ht
  · split at ht
    · rw [List.mem_singleton.1 ht]
      exact closed_tame (by decide)
    · cases ht
  · split at ht
    · rw [List.mem_singleton.1 ht]
      exact closed_tame (by decide)
    · cases ht
  · obtain ⟨bit, hbit, rfl⟩ := List.mem_map.1 ht
    have hall : ∀ bit ∈ bitTokens, bit.2.all Lexeme.isTame := by decide
    exact closed_tame (hall _ (List.mem_filter.1 hbit).1)

namespace Animation

theorem tame_of_isPlainNumber {text : Text} (h : Text.isPlainNumber text) : text.all Lexeme.isTame := by
  unfold Text.isPlainNumber at h
  split at h
  · rw [Bool.and_eq_true] at h
    exact tame_of_allDigits h.2
  · next whole fraction hcut =>
    simp only [Bool.and_eq_true] at h
    rw [(Text.cut?_eq_some hcut).1, List.all_append, List.all_cons, tame_of_allDigits h.1.1.2,
      tame_of_allDigits h.2]
    decide

theorem closed_expression (text : Text) : Closed (· = '}') (expression text) := by
  unfold expression
  split
  · next h => exact closed_tame (tame_of_isPlainNumber h)
  · exact Lexeme.closed_quote Lexeme.stopsOutside_brace text

theorem tame_sign (attrs : Attributes) : (sign attrs).all Lexeme.isTame := by
  unfold sign
  split
  · next code _ =>
    have hall : ∀ direction ∈ directions, Lexeme.isTame direction.1 := by decide
    generalize hfind : List.find? _ directions = found
    cases found with
    | none => rfl
    | some direction =>
      have := hall _ (List.mem_of_find?_eq_some hfind)
      simp only [Option.map_some, Option.getD_some, List.all_cons, this, List.all_nil, Bool.and_self]
  · rfl

theorem writesClosed : WritesClosed format := by
  intro attrs value h
  refine closed_of_nonempty? h (Lexeme.closed_words Lexeme.stopsOutside_brace fun t ht => ?_)
  simp only [write, List.mem_append] at ht
  rcases ht with (ht | ht) | ht
  · split at ht
    · rw [List.mem_singleton.1 ht]
      exact closed_tame (by decide)
    · cases ht
  · rw [List.mem_singleton.1 ht]
    split
    · exact (closed_expression _).behind Lexeme.stopsOutside_brace (tame_sign attrs)
    · exact closed_tame (tame_sign attrs)
  · obtain ⟨v, -, rfl⟩ := Option.map_eq_some_iff.1 (Option.mem_toList.1 ht)
    exact (closed_expression v).behind Lexeme.stopsOutside_brace (by decide)

end Animation

namespace Slider

theorem closed_writeValue {key : Text} (hkey : key.all Lexeme.isTame) (attrs : Attributes) :
    ∀ t ∈ writeValue attrs key, Closed (· = '}') t := by
  intro t ht
  obtain ⟨v, -, rfl⟩ := Option.map_eq_some_iff.1 (Option.mem_toList.1 ht)
  refine (closed_token v).behind Lexeme.stopsOutside_brace ?_
  rw [List.all_append, hkey]
  decide

theorem writesClosed : WritesClosed format := by
  intro attrs value h
  refine closed_of_nonempty? h (Lexeme.closed_words Lexeme.stopsOutside_brace fun t ht => ?_)
  simp only [write, List.mem_append] at ht
  rcases ht with (((((ht | ht) | ht) | ht) | ht) | ht) | ht
  · exact closed_writeValue (by decide) attrs t ht
  · exact closed_writeValue (by decide) attrs t ht
  · obtain ⟨v, -, rfl⟩ := Option.map_eq_some_iff.1 (Option.mem_toList.1 ht)
    exact (closed_token v).behind Lexeme.stopsOutside_brace (by decide)
  · split at ht
    · rw [List.mem_singleton.1 ht]
      exact closed_tame (by decide)
    · cases ht
  · exact closed_writeValue (by decide) attrs t ht
  · exact closed_writeValue (by decide) attrs t ht
  · obtain ⟨flag, hflag, rfl⟩ := List.mem_map.1 ht
    have hall : ∀ flag ∈ flags, flag.1.all Lexeme.isTame := by decide
    exact closed_tame (hall _ (List.mem_of_mem_drop (List.mem_filter.1 hflag).1))

end Slider

namespace BarTag

theorem closed_writeBlock {bar : Nat} {group : Attributes} {block : Text} (h : writeBlock bar group = some block) :
    Closed (· = '}') block ∧ block ≠ [] := by
  obtain ⟨color, hcolor, rfl⟩ := Option.map_eq_some_iff.1 h
  have hclosed := closed_of_nonempty? hcolor (Color.closed_write group)
  have hne : color ≠ [] := by
    rintro rfl
    unfold Text.nonempty? at hcolor
    split at hcolor
    · cases hcolor
    · next he => exact he (Option.some.inj hcolor ▸ rfl)
  have hbar : Closed (· = '}') ("bar=" ++ Text.ofNat bar) :=
    closed_tame (by rw [List.all_append, tame_ofNat]; decide)
  refine ⟨hbar.separated (by simp) hclosed hne (Lexeme.through?_blank_cons Lexeme.stopsOutside_brace rfl []) rfl rfl, ?_⟩
  simp

theorem writesClosed : WritesClosed format := by
  intro attrs value h
  have h : encode attrs = some value := h
  unfold encode at h
  split at h
  · cases h
  · rw [← Option.some.inj h]
    refine (Lexeme.closed_join rfl rfl rfl fun block hblock => ?_).1
    obtain ⟨bar, -, hbar⟩ := List.mem_filterMap.1 hblock
    exact closed_writeBlock hbar

end BarTag

theorem ScriptProperty.writesClosed (property : ScriptProperty) : WritesClosed property.format := by
  intro attrs value h
  obtain ⟨text, -, rfl⟩ := Option.map_eq_some_iff.1 h
  exact closed_token text

theorem RandomFlag.writesClosed : WritesClosed RandomFlag.format := by
  intro attrs value h
  have h : (if attrs.isTrue "val" then some [] else none) = some value := h
  split at h
  · rw [← Option.some.inj h]
    exact Lexeme.closed_nil
  · cases h

theorem Checkbox.writesClosed : WritesClosed Checkbox.format := by
  intro attrs value h
  rw [← Option.some.inj h]
  split
  · exact closed_tame (by decide)
  · exact Lexeme.closed_nil

/-! ## Values kept as they were written -/

/-- The elements whose values are written without another look at what was kept: numbers, forms, columns and
coordinates. -/
def bareElements : List Text :=
  ["lineStyle", "coords", "spreadsheetTrace", "tableview", "startPoint", "labelOffset", "absoluteScreenLocation",
   "eqnStyle", "font", "boundingBox", "contentSize", "cropBox", "dimensions", "arcSize", "decimals", "layer",
   "length", "selectedIndex", "significantfigures", "slopeTriangleSize", "fading", "ordering",
   "pointSize"].map String.toList

namespace SingleValue

/-- The property has a number, or it writes words without a meaning of their own. -/
def isBareOrTame (property : SingleValue) : Bool :=
  match property.kind with
  | .flag _ => true
  | .integer _ => bareElements.contains property.element
  | .number _ => bareElements.contains property.element
  | .text _ named => named.all fun value => value.1.all Lexeme.isTame

theorem writesClosed {property : SingleValue} (h : property.isBareOrTame) (hbare : property.element ∉ bareElements) :
    WritesClosed property.format := by
  intro attrs value henc
  obtain ⟨kept, -, hwritten⟩ := Option.bind_eq_some_iff.1 henc
  obtain ⟨name, kind, element, attr, reset⟩ := property
  cases kind with
  | flag inverted =>
    simp only [written?] at hwritten
    split at hwritten
    · rw [← Option.some.inj hwritten]
      exact Lexeme.closed_nil
    · cases hwritten
  | integer default => exact absurd (List.contains_iff_mem.1 h) hbare
  | number default => exact absurd (List.contains_iff_mem.1 h) hbare
  | text default named =>
    simp only [written?] at hwritten
    split at hwritten
    · cases hwritten
    · split at hwritten
      · next word code hfind =>
        rw [← Option.some.inj hwritten]
        exact closed_tame (List.all_eq_true.1 h _ (List.mem_of_find?_eq_some hfind))
      · rw [← Option.some.inj hwritten]
        exact closed_token kept

theorem isBareOrTame_builtIn : ∀ property ∈ builtIn, property.isBareOrTame := by decide +kernel

end SingleValue

/-- **Every built-in format writes closed values only, unless its element is a bare one.** -/
theorem closed_of_mem_builtIn : ∀ format ∈ Catalog.builtIn, format.element ∉ bareElements → WritesClosed format := by
  have bare : ∀ {format : PropertyFormat}, format.element ∈ bareElements → format.element ∉ bareElements →
      WritesClosed format := fun h hn => absurd h hn
  unfold Catalog.builtIn
  simp only [List.cons_append, List.nil_append, List.forall_mem_cons]
  refine ⟨fun _ => Color.writesClosed _, fun _ => Color.writesClosed _, fun _ => Color.writesClosed _,
    bare (by decide), fun _ => Visibility.writesClosed, fun _ => Animation.writesClosed, bare (by decide),
    fun _ => Slider.writesClosed, bare (by decide), bare (by decide), bare (by decide), fun _ => BarTag.writesClosed,
    fun _ => ScriptProperty.writesClosed _, fun _ => ScriptProperty.writesClosed _,
    fun _ => ScriptProperty.writesClosed _, fun _ => ScriptProperty.writesClosed _,
    fun _ => ScriptProperty.writesClosed _, fun _ => ScriptProperty.writesClosed _, fun _ => RandomFlag.writesClosed,
    bare (by decide), bare (by decide), bare (by decide), bare (by decide), bare (by decide), bare (by decide),
    bare (by decide), bare (by decide), fun _ => Checkbox.writesClosed, fun format hformat hbare => ?_⟩
  obtain ⟨property, hproperty, rfl⟩ := List.mem_map.1 hformat
  exact SingleValue.writesClosed (SingleValue.isBareOrTame_builtIn property hproperty) hbare

end StyleScript
