import StyleScript.Property.Checkbox
import StyleScript.Property.Equation
import StyleScript.Property.Placement
import StyleScript.Proofs.Number.Integers
import StyleScript.Proofs.Property.Lettering
import StyleScript.Proofs.Property.Measures
import StyleScript.Proofs.Writer.Leaves
/-!
# Properties of one value survive writing and reading

Where a property holds one value, what was read is either written in a form that is read as the same attributes again,
or it is left out because it says what its default says (`Kept`).  What was read is always in the form that is kept:
a flag is one of two texts, an integer is the decimal of one, a named value is its code.  So there is one lemma for
each kind of value, and a table of names only has to find each name under its own row (`Worded`).

Lettering is the exception: its flags are left out one by one, so it is not read as the same attributes, but it
survives all the same.
-/
namespace StyleScript

open PropertyFormat (Survives)
open Binary64 (IsCut)
open Text (Part same_refl Trimmed)

/-! ## Kept attributes -/

/-- What is written of the attributes is read as the same attributes; or nothing is written, as of no attributes at
all, and they say what the defaults say. -/
inductive Kept (format : PropertyFormat) (a : Attributes) : Prop where
  | written (text : Text) (encode : format.encode a = some text) (decode : format.decode text = .ok (some a))
  | omitted (encode : format.encode a = none) (nothing : format.encode ∅ = none)
      (same : ∀ key v, a.get? key = some v → ∃ d, format.defaults.get? key = some d ∧ Text.sameValue v d)

namespace Kept

variable {format : PropertyFormat} {a : Attributes}

theorem reread_of_isSome (h : Kept format a) (hsome : (format.encode a).isSome) : format.reread a = .ok (some a) := by
  cases h with
  | written text hencode hdecode =>
    rw [PropertyFormat.reread, hencode]
    exact hdecode
  | omitted hencode _ _ =>
    rw [hencode] at hsome
    cases hsome

theorem survives (h : Kept format a) (hcomplete : format.complete = format.defaults.overlaid) : format.Survives a := by
  cases h with
  | written text hencode hdecode =>
    refine ⟨a, ?_, PropertyFormat.equivalent_iff.2 fun key => same_refl _, rfl⟩
    rw [PropertyFormat.reread, hencode]
    exact hdecode
  | omitted hencode hnothing hsame =>
    refine ⟨∅, ?_, PropertyFormat.equivalent_iff.2 fun key => ?_, hnothing.trans hencode.symm⟩
    · rw [PropertyFormat.reread, hencode]
    · rw [hcomplete, Attributes.get?_overlaid, Attributes.get?_overlaid]
      cases hv : a.get? key with
      | none => exact same_refl _
      | some v =>
        obtain ⟨d, hd, hvd⟩ := hsame key v hv
        rw [hd]
        exact .some hvd

end Kept

/-! ## Single values -/

namespace SingleValue

/-- Each name is bare and finds its own row. -/
def Worded (named : List (Text × Text)) : Prop :=
  ∀ row ∈ named, Text.needsQuoting row.1 = false ∧ named.find? (·.1 = row.1) = some row

instance (named : List (Text × Text)) : Decidable (Worded named) := inferInstanceAs (Decidable (∀ _ ∈ named, _))

/-- Kinds of values whose kept form is written so that it is kept again: all but numbers, which are kept as they are
spelled but written without quotes. -/
def Canonical : ValueKind → Prop
  | .flag _ => True
  | .integer _ => True
  | .number _ => False
  | .text _ named => Worded named

instance : ∀ kind, Decidable (Canonical kind)
  | .flag _ => .isTrue trivial
  | .integer _ => .isTrue trivial
  | .number _ => .isFalse id
  | .text _ named => inferInstanceAs (Decidable (Worded named))

theorem canonical_of_builtIn : ∀ property ∈ builtIn, (∀ default, property.kind ≠ .number default) →
    Canonical property.kind := by
  have hcanonical : ∀ property ∈ flags ++ integers ++ texts, Canonical property.kind := by decide +kernel
  have hnumbers : ∀ property ∈ numbers, ∃ default, property.kind = .number default := by simp [numbers]
  intro property hproperty hkind
  rw [builtIn, List.mem_append, List.mem_append] at hproperty
  rcases hproperty with (hflag | hnumber) | htext
  · exact hcanonical property (List.mem_append_left _ hflag)
  · obtain ⟨default, hdefault⟩ := hnumbers property hnumber
    exact absurd hdefault (hkind default)
  · exact hcanonical property (List.mem_append_right _ htext)

variable {name written kept : Text}

/-- A kept form is written so that it is kept again, or it says what the default says. -/
def Restored (name kept : Text) (kind : ValueKind) : Prop :=
  (∃ text again, written? kept kind = some text ∧ Text.scalar text = .ok again ∧ store name again kind = .ok kept) ∨
    written? kept kind = none ∧ Text.sameValue kept (stored kind)

theorem restored_flag {inverted : Bool} (h : store name written (.flag inverted) = .ok kept) :
    Restored name kept (.flag inverted) := by
  have hkept : kept = storedFlag inverted true ∨ kept = storedFlag inverted false := by
    rw [store] at h
    split at h
    · cases h
      exact .inl rfl
    · split at h
      · cases h
        exact .inr rfl
      · cases h
  rcases hkept with rfl | rfl
  · exact .inl ⟨[], [], if_pos rfl, rfl, rfl⟩
  · refine .inr ⟨if_neg ?_, Text.sameValue_refl _⟩
    cases inverted <;> decide

theorem restored_integer {default : Text} (h : store name written (.integer default) = .ok kept) :
    Restored name kept (.integer default) := by
  rw [store] at h
  split at h
  · cases h
  · obtain ⟨n, hn, rfl⟩ := map_eq_ok.1 h
    have hcut := Text.isCut_of_truncated hn
    by_cases hsame : Text.sameValue (Text.ofInt n) default
    · exact .inr ⟨if_pos hsame, hsame⟩
    · refine .inl ⟨Text.ofInt n, Text.ofInt n, if_neg hsame, Text.scalar_ofInt n, ?_⟩
      rw [store, if_neg (by simpa using Text.ofInt_ne_nil n), Text.truncated_ofInt name hcut]
      rfl

/-- What is kept of a text with named values is a code. -/
theorem mem_codes_of_store {default : Text} {named : List (Text × Text)} (hnamed : named.isEmpty = false)
    (h : store name written (.text default named) = .ok kept) : ∃ row ∈ named, row.2 = kept := by
  rw [store, hnamed, if_neg Bool.false_ne_true] at h
  split at h
  · next hfind =>
    cases h
    exact ⟨_, List.mem_of_find?_eq_some hfind, rfl⟩
  · split at h
    · next hany =>
      cases h
      simpa using hany
    · cases h

theorem restored_text {default : Text} {named : List (Text × Text)} (hworded : Worded named)
    (h : store name written (.text default named) = .ok kept) : Restored name kept (.text default named) := by
  by_cases hdefault : kept = default
  · exact .inr ⟨if_pos hdefault, hdefault ▸ Text.sameValue_refl _⟩
  · left
    cases hfind : named.find? (·.2 = kept) with
    | some row =>
      obtain ⟨hbare, hown⟩ := hworded row (List.mem_of_find?_eq_some hfind)
      have hcode : row.2 = kept := by simpa using List.find?_some hfind
      have hnamed : named.isEmpty = false :=
        List.isEmpty_eq_false_iff.2 (List.ne_nil_of_mem (List.mem_of_find?_eq_some hfind))
      have hscalar := Text.scalar_quoteIfNeeded row.1
      rw [Text.quoteIfNeeded, hbare, if_neg Bool.false_ne_true] at hscalar
      refine ⟨row.1, row.1, ?_, hscalar, ?_⟩
      · rw [written?, if_neg hdefault, hfind]
      · rw [store, hnamed, if_neg Bool.false_ne_true, hown]
        exact congrArg Except.ok hcode
    | none =>
      have hfree : named.isEmpty := by
        by_contra hnamed
        obtain ⟨row, hrow, hcode⟩ := mem_codes_of_store (Bool.eq_false_iff.2 hnamed) h
        exact List.find?_eq_none.1 hfind row hrow (decide_eq_true hcode)
      refine ⟨Text.quoteIfNeeded kept, kept, ?_, Text.scalar_quoteIfNeeded kept, ?_⟩
      · rw [written?, if_neg hdefault, hfind]
      · rw [store, if_pos hfree]

theorem restored {kind : ValueKind} (hkind : Canonical kind) (h : store name written kind = .ok kept) :
    Restored name kept kind := by
  cases kind with
  | flag inverted => exact restored_flag h
  | integer default => exact restored_integer h
  | number default => exact hkind.elim
  | text default named => exact restored_text hkind h

theorem kept_of_decode {property : SingleValue} (hkind : Canonical property.kind) {value : Text} {a : Attributes}
    (h : property.format.decode value = .ok (some a)) : Kept property.format a := by
  obtain ⟨written, -, h⟩ := bind_eq_ok.1 h
  obtain ⟨kept, hstore, h⟩ := bind_eq_ok.1 h
  cases pure_eq_ok.1 h
  have hget : (OrderedMap.ofList [(property.attr, kept)]).get? property.attr = some kept := by
    rw [get?_attr, if_pos rfl]
  rcases restored hkind hstore with ⟨text, again, hwritten, hscalar, hagain⟩ | ⟨hnone, hsame⟩
  · refine .written text ?_ ?_
    · show ((OrderedMap.ofList [(property.attr, kept)]).get? property.attr).bind _ = some text
      rw [hget]
      exact hwritten
    · show (Text.scalar text >>= fun written => store property.name written property.kind >>= fun kept =>
        pure (some (OrderedMap.ofList [(property.attr, kept)]))) = _
      rw [hscalar, ok_bind, hagain]
      rfl
  · refine .omitted ?_ rfl fun key v hv => ⟨stored property.kind, ?_, ?_⟩
    · show ((OrderedMap.ofList [(property.attr, kept)]).get? property.attr).bind _ = none
      rw [hget]
      exact hnone
    · rw [get?_attr] at hv
      split at hv
      · next hkey =>
        show (OrderedMap.ofList [(property.attr, stored property.kind)]).get? key = _
        rw [get?_attr, if_pos hkey]
      · cases hv
    · rw [get?_attr] at hv
      split at hv
      · exact Option.some.inj hv ▸ hsame
      · cases hv

end SingleValue

/-! ## Free texts and scripts -/

/-- A text that is written so that it is read back, or is left out as the default. -/
theorem KeepsText.kept {format : PropertyFormat} {attr text : Text} {default? : Option Text}
    (h : KeepsText format attr default?)
    (hdefault : default? = some text → format.encode ∅ = none ∧ format.defaults.get? attr = some text) :
    Kept format (OrderedMap.ofList [(attr, text)]) := by
  have hget : ∀ key, (OrderedMap.ofList [(attr, text)]).get? key = if attr = key then some text else none :=
    fun key => OrderedMap.get?_set ..
  have htext : (OrderedMap.ofList [(attr, text)]).get? attr = some text := by rw [hget, if_pos rfl]
  by_cases hsome : default? = some text
  · obtain ⟨hnothing, hdefaults⟩ := hdefault hsome
    refine .omitted (h.omitted htext hsome) hnothing fun key v hv => ?_
    rw [hget] at hv
    split at hv
    · next hkey =>
      cases hv
      exact ⟨text, hkey ▸ hdefaults, Text.sameValue_refl text⟩
    · cases hv
  · obtain ⟨value, hencode, -, hdecode⟩ := h.written htext hsome
    exact .written value hencode hdecode

theorem ScriptProperty.kept_of_decode {property : ScriptProperty} {value : Text} {a : Attributes}
    (h : property.format.decode value = .ok (some a)) : Kept property.format a := by
  obtain ⟨text, -, h⟩ := bind_eq_ok.1 h
  cases pure_eq_ok.1 h
  exact (keepsText_script property).kept fun hsome => ⟨rfl, Option.some.inj hsome ▸ rfl⟩

theorem PropertyFormat.kept_of_decode_unclaimed {name value : Text} {a : Attributes}
    (h : (unclaimed name).decode value = .ok (some a)) : Kept (unclaimed name) a := by
  have hval : ∃ text, a = OrderedMap.ofList [("val".toList, text)] := by
    rw [unclaimed] at h
    dsimp only at h
    split at h
    · cases pure_eq_ok.1 h
      exact ⟨_, rfl⟩
    · obtain ⟨text, -, h⟩ := bind_eq_ok.1 h
      cases pure_eq_ok.1 h
      exact ⟨text, rfl⟩
  obtain ⟨text, rfl⟩ := hval
  exact (keepsText_unclaimed name).kept fun hsome => by cases hsome

/-! ## Flags of their own -/

theorem RandomFlag.kept_of_decode {value : Text} {a : Attributes} (h : format.decode value = .ok (some a)) :
    Kept format a := by
  obtain ⟨word, -, h⟩ := bind_eq_ok.1 h
  split at h
  · cases pure_eq_ok.1 h
    exact .written [] (by decide) rfl
  · split at h
    · cases pure_eq_ok.1 h
      refine .omitted (by decide) rfl fun key v hv => ⟨v, hv, Text.sameValue_refl v⟩
    · cases h

theorem Checkbox.kept_of_decode {value : Text} {a : Attributes} (h : format.decode value = .ok (some a)) :
    Kept format a := by
  obtain ⟨ts, -, h⟩ := bind_eq_ok.1 h
  obtain ⟨fixed, -, h⟩ := bind_eq_ok.1 h
  cases pure_eq_ok.1 h
  cases fixed with
  | false => exact .written [] (by decide) (by decide +kernel)
  | true => exact .written "fixed" (by decide) (by decide +kernel)

/-! ## Two numbers -/

namespace Placement

variable {placement : Placement} {x y : Text}

theorem get?_pair (x y key : Text) :
    (pair x y).get? key = if "x" = key then some x else if "y" = key then some y else none :=
  OrderedMap.get?_ofList (show (["x", "y"] : List Text).Nodup by decide)

theorem encode_pair : placement.encode (pair x y) =
    if placement.isDefault x y then none else some (x ++ " " ++ y) := by
  rw [encode, get?_pair, get?_pair, if_pos rfl, if_neg (by decide), if_pos rfl]

theorem decode_pair {v w : Binary64} (hx : Text.number placement.name x = .ok v)
    (hy : Text.number placement.name y = .ok w) (htrimmed : ∀ t ∈ [x, y], Trimmed t) :
    placement.decode (x ++ " " ++ y) = .ok (some (pair x y)) := by
  have hparts : ∀ t ∈ [x, y], Part Text.isBlank t := by
    have hnumbers : ∀ t ∈ [x, y], t.IsNumber := by
      simp only [List.forall_mem_cons, List.not_mem_nil, false_implies, implies_true, and_true]
      exact ⟨Text.isNumber_of_number hx, Text.isNumber_of_number hy⟩
    exact fun t ht => ((hnumbers t ht).spelled_of_trimmed (htrimmed t ht)).part
  have hwords : Text.words [x, y] = x ++ " " ++ y := Text.words_eq_join fun t ht => (hparts t ht).ne_nil
  rw [decode, ← hwords, Text.tokens_words hparts, ok_bind]
  dsimp only
  rw [hx, hy]
  rfl

theorem kept_of_decode {value : Text} {a : Attributes} (h : placement.format.decode value = .ok (some a)) :
    Kept placement.format a := by
  obtain ⟨ts, hts, h⟩ := bind_eq_ok.1 h
  split at h
  · next x y =>
    obtain ⟨v, hx, h⟩ := bind_eq_ok.1 h
    obtain ⟨w, hy, h⟩ := bind_eq_ok.1 h
    cases pure_eq_ok.1 h
    by_cases hdefault : placement.isDefault x y
    · refine .omitted (encode_pair.trans (if_pos hdefault)) rfl fun key v hv => ?_
      obtain ⟨⟨dx, dy⟩, hplace, hsame⟩ := (Option.any_eq_true ..).1 hdefault
      rw [Bool.and_eq_true] at hsame
      have hdefaults : placement.format.defaults = pair dx dy := by
        rw [format, hplace]
        rfl
      rw [get?_pair] at hv
      rw [hdefaults, get?_pair]
      split at hv
      · next hkey =>
        cases hv
        exact ⟨dx, if_pos hkey, hsame.1⟩
      · next hx =>
        split at hv
        · next hkey =>
          cases hv
          exact ⟨dy, (if_neg hx).trans (if_pos hkey), hsame.2⟩
        · cases hv
    · refine .written _ (encode_pair.trans (if_neg hdefault)) (decode_pair hx hy fun t ht => ?_)
      exact Text.trimmed_of_mem_divide hts ht
  · cases h

end Placement

/-! ## Forms of equations -/

namespace Equation

theorem kept_of_style {style : Text} (h : style ∈ styles) : Kept format (OrderedMap.ofList [("style", style)]) := by
  have hdecode : ∀ style ∈ styles, decode style = .ok (some (OrderedMap.ofList [("style", style)])) := by
    decide +kernel
  exact .written style rfl (hdecode style h)

theorem kept_of_parameter {p : Text} (h : isLetter p) :
    Kept format (OrderedMap.ofList [("style", "parametric"), ("parameter", p)]) := by
  have hkey : Text.isKey "parametric" := by decide
  have hpart := Text.part_keyValue hkey (Text.part_quoteIfNeeded Text.breaksTokens_isBlank p)
  have hne : Text.nonempty? p = some p := by
    cases p with
    | nil => cases h
    | cons c p => rfl
  refine .written ("parametric" ++ '=' :: Text.quoteIfNeeded p) ?_ ?_
  · have hstyle : (OrderedMap.ofList [("style".toList, "parametric".toList), ("parameter".toList, p)]).get? "style" =
        some "parametric".toList := rfl
    have hparameter : (OrderedMap.ofList [("style".toList, "parametric".toList), ("parameter".toList, p)]).get?
        "parameter" = some p := rfl
    rw [show format.encode = encode from rfl, encode, hstyle, hparameter, Option.map_some, Option.bind_some, hne]
    rfl
  · show decode ("parametric" ++ '=' :: Text.quoteIfNeeded p) = _
    rw [decode, Text.trim_eq_self hpart.trimmed, Text.cut?_append _ (by decide)]
    dsimp only
    rw [Text.scalar_quoteIfNeeded, ok_bind, attributes, if_pos (by decide), if_pos rfl, Option.filter_some, h]
    rfl

theorem kept_of_decode {value : Text} {a : Attributes} (h : format.decode value = .ok (some a)) : Kept format a := by
  have hattributes : ∀ {style : Text} {parameter : Option Text}, attributes style parameter = some a →
      Kept format a := by
    intro style parameter h
    rw [attributes] at h
    split at h
    · next hstyle =>
      cases h
      split
      · next hparametric =>
        subst hparametric
        cases hp : parameter.filter isLetter with
        | none => exact kept_of_style (by decide)
        | some p => exact kept_of_parameter (Option.filter_eq_some_iff.1 hp).2
      · exact kept_of_style (List.contains_iff_mem.1 hstyle)
    · cases h
  rw [show format.decode value = decode value from rfl, decode] at h
  split at h
  · obtain ⟨parameter, -, h⟩ := bind_eq_ok.1 h
    exact hattributes (pure_eq_ok.1 h)
  · exact hattributes (Except.ok.inj h)

end Equation

/-! ## Every property of one value -/

/-- The formats of one value: flags, integers and texts of the catalog, scripts, names that no format claims, and a
few of their own. -/
inductive OneValued : PropertyFormat → Prop where
  | value {property : SingleValue} (mem : property ∈ SingleValue.builtIn)
      (kind : ∀ default, property.kind ≠ .number default) : OneValued property.format
  | script (property : ScriptProperty) : OneValued property.format
  | unclaimed (name : Text) : OneValued (.unclaimed name)
  | random : OneValued RandomFlag.format
  | placement (placement : Placement) : OneValued placement.format
  | equation : OneValued Equation.format
  | checkbox : OneValued Checkbox.format

namespace OneValued

variable {format : PropertyFormat}

theorem complete_eq (h : OneValued format) : format.complete = format.defaults.overlaid := by
  cases h <;> rfl

theorem kept_of_decode (h : OneValued format) {value : Text} {a : Attributes}
    (hdecode : format.decode value = .ok (some a)) : Kept format a := by
  cases h with
  | value hmem hkind => exact SingleValue.kept_of_decode (SingleValue.canonical_of_builtIn _ hmem hkind) hdecode
  | script => exact ScriptProperty.kept_of_decode hdecode
  | unclaimed => exact PropertyFormat.kept_of_decode_unclaimed hdecode
  | random => exact RandomFlag.kept_of_decode hdecode
  | placement => exact Placement.kept_of_decode hdecode
  | equation => exact Equation.kept_of_decode hdecode
  | checkbox => exact Checkbox.kept_of_decode hdecode

end OneValued

/-- **Properties of one value survive writing and reading.**  Lettering aside, what is written of them is even read as
the very same attributes. -/
theorem single_values_survive {format : PropertyFormat} (hformat : OneValued format ∨ format = Lettering.format)
    {value : Text} {a : Attributes} (h : format.decode value = .ok (some a)) :
    format.Survives a ∧
      (OneValued format → (format.encode a).isSome → format.reread a = .ok (some a)) := by
  refine ⟨?_, fun hone => (hone.kept_of_decode h).reread_of_isSome⟩
  rcases hformat with hone | rfl
  · exact (hone.kept_of_decode h).survives hone.complete_eq
  · exact Lettering.survives h

/-- A named value given by its code, which is written by its name, and lettering that takes back what it said. -/
theorem single_values_survive_of_code : (∃ a,
      (SingleValue.plainText "pointStyle" "0" SingleValue.pointStyles).format.decode "\"-1\"" = .ok (some a) ∧
      (SingleValue.plainText "pointStyle" "0" SingleValue.pointStyles).format.Survives a ∧
      (SingleValue.plainText "pointStyle" "0" SingleValue.pointStyles).format.reread a = .ok (some a)) ∧
    ∃ a, Lettering.format.decode "bold serif *02 plain italic ~serif" = .ok (some a) ∧ Lettering.format.Survives a := by
  have hpoint : OneValued (SingleValue.plainText "pointStyle" "0" SingleValue.pointStyles).format :=
    .value (by simp [SingleValue.builtIn, SingleValue.texts]) fun _ h => nomatch h
  have hcode : (SingleValue.plainText "pointStyle" "0" SingleValue.pointStyles).format.decode "\"-1\"" =
      .ok (some (.table [("val", "-1")])) := by decide +kernel
  have hfont : Lettering.format.decode "bold serif *02 plain italic ~serif" =
      .ok (some (.table [("serif", "false"), ("sizeM", "02"), ("style", "2")])) := by decide +kernel
  obtain ⟨hsurvives, hexact⟩ := single_values_survive (.inl hpoint) hcode
  exact ⟨⟨_, hcode, hsurvives, hexact hpoint (by decide +kernel)⟩, _, hfont,
    (single_values_survive (.inr rfl) hfont).1⟩

end StyleScript
