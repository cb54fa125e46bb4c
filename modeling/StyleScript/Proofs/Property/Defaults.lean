import StyleScript.Proofs.Property.Catalog
import StyleScript.Proofs.Property.Families
/-!
# What is never written

A value that says no more than the defaults is equivalent to one that says nothing, and nothing is written of it.  The
defaults are compared in several ways: as numbers, as words, by a bit or by a code.  What is left out in each of these
ways is told from `OnlyDefaults`, that every attribute says the same as its default.

One way is stricter than the others.  A text is compared with its default as it is spelled, so that of the six texts
whose default is a number another spelling of that number is written (`defaults_omitted_iff`).
-/
namespace StyleScript

/-! ## Attributes that say no more than the defaults -/

namespace Text

/-- What says the same as a word is this word. -/
theorem eq_of_sameValue_word {v word : Text} (hword : float? (trim word) = none) (h : sameValue v word) : v = word := by
  rcases sameValue_eq_true.1 h with rfl | ⟨_, _, -, hw, -⟩
  · rfl
  · rw [hword] at hw
    cases hw

/-- A number of 32 bits that says the same as zero is zero. -/
theorem eq_zero_of_sameValue {v : Text} {n : Nat} (hn : natural32? (trim v) = some n) (h : sameValue v "0") :
    n = 0 := by
  have hle := le_of_natural? hn
  have hsame : sameValue (ofNat n) (ofNat 0) := by
    rcases sameValue_eq_true.1 h with rfl | ⟨x, y, hx, hy, hxy⟩
    · have hzero : natural32? (trim "0") = some 0 := by decide
      cases hzero.symm.trans hn
      exact sameValue_refl _
    · refine sameValue_eq_true.2 (.inr ⟨x, y, ?_, hy, hxy⟩)
      rw [trim_ofNat, ← float?_of_natural? hn, hx]
  exact (sameValue_ofNat (by omega) (by decide)).1 hsame

end Text

/-- Every attribute says the same as its default. -/
def OnlyDefaults (defaults attrs : Attributes) : Prop :=
  ∀ key v, attrs.get? key = some v → ∃ default, defaults.get? key = some default ∧ Text.sameValue v default

namespace OnlyDefaults

variable {defaults attrs : Attributes} {key default v : Text}

theorem absent (h : OnlyDefaults defaults attrs) (hkey : defaults.get? key = none) : attrs.get? key = none := by
  refine Option.eq_none_iff_forall_ne_some.2 fun v hv => ?_
  obtain ⟨default, hdefault, -⟩ := h key v hv
  rw [hkey] at hdefault
  cases hdefault

theorem sameValue (h : OnlyDefaults defaults attrs) (hkey : defaults.get? key = some default)
    (hv : attrs.get? key = some v) : Text.sameValue v default := by
  obtain ⟨found, hfound, hsame⟩ := h key v hv
  rw [hkey] at hfound
  cases hfound
  exact hsame

theorem unlessDefault?_eq_none (h : OnlyDefaults defaults attrs) (hkey : defaults.get? key = some default) :
    attrs.unlessDefault? key default = none := by
  unfold Attributes.unlessDefault?
  cases hv : attrs.get? key with
  | none => rfl
  | some v => simp [h.sameValue hkey hv]

/-- An attribute whose default is a word holds no other. -/
theorem ne_some (h : OnlyDefaults defaults attrs) (hkey : defaults.get? key = some default)
    (hword : Text.float? (Text.trim default) = none) (hne : v ≠ default) : attrs.get? key ≠ some v := fun hv =>
  hne (Text.eq_of_sameValue_word hword (h.sameValue hkey hv))

theorem ne_flag {on : Bool} (h : OnlyDefaults defaults attrs) (hkey : defaults.get? key = some (Text.ofBool on)) :
    attrs.get? key ≠ some (Text.ofBool (!on)) := by
  apply h.ne_some hkey
  · cases on <;> decide
  · cases on <;> decide

/-- No flag is other than its default. -/
theorem filter_flags (h : OnlyDefaults defaults attrs) {flags : List (Text × Text × Bool)}
    (hflags : ∀ flag ∈ flags, defaults.get? flag.2.1 = some (Text.ofBool flag.2.2)) :
    (flags.filter fun (_, attr, default) => attrs.get? attr = some (Text.ofBool (!default))) = [] :=
  List.filter_eq_nil_iff.2 fun flag hflag hset => h.ne_flag (hflags flag hflag) (of_decide_eq_true hset)

theorem isTrue_eq_false (h : OnlyDefaults defaults attrs) (hkey : defaults.get? key = some "false".toList) :
    attrs.isTrue key = false :=
  decide_eq_false (h.ne_some hkey (by decide) (by decide))

theorem natural32_eq_zero (h : OnlyDefaults defaults attrs) (hkey : defaults.get? key = some "0".toList) :
    ((attrs.get? key).bind fun v => Text.natural32? (Text.trim v)).getD 0 = 0 := by
  cases hv : attrs.get? key with
  | none => rfl
  | some v =>
    rw [Option.bind_some]
    cases hn : Text.natural32? (Text.trim v) with
    | none => rfl
    | some n => exact Text.eq_zero_of_sameValue hn (h.sameValue hkey hv)

theorem eq_empty (h : OnlyDefaults ∅ attrs) : attrs = ∅ := by
  by_contra hne
  obtain ⟨key, v, hv⟩ := OrderedMap.exists_get?_of_ne_empty hne
  rw [h.absent rfl] at hv
  cases hv

end OnlyDefaults

namespace PropertyFormat

variable {format : PropertyFormat} {a : Attributes}

theorem onlyDefaults_of_equivalent (hcomplete : format.complete = format.defaults.overlaid)
    (h : format.equivalent a ∅) : OnlyDefaults format.defaults a := by
  intro key v hv
  have hsame := equivalent_iff.1 h key
  rw [hcomplete, Attributes.get?_overlaid, Attributes.get?_overlaid, hv, Option.some_or] at hsame
  change Text.Same (some v) (format.defaults.get? key) at hsame
  cases hdefault : format.defaults.get? key with
  | none =>
    rw [hdefault] at hsame
    cases hsame
  | some default =>
    rw [hdefault] at hsame
    cases hsame with
    | some hsame => exact ⟨default, rfl, hsame⟩

/-- Of attributes that say nothing beside the defaults nothing is written. -/
def Omits (format : PropertyFormat) : Prop := ∀ a : Attributes, format.equivalent a ∅ → format.encode a = none

theorem omits_of_onlyDefaults (hcomplete : format.complete = format.defaults.overlaid)
    (h : ∀ a, OnlyDefaults format.defaults a → format.encode a = none) : format.Omits :=
  fun a ha => h a (onlyDefaults_of_equivalent hcomplete ha)

theorem omits_of_words {write : Attributes → List Text} (hcomplete : format.complete = format.defaults.overlaid)
    (hencode : ∀ a, format.encode a = Text.nonempty? (Text.words (write a)))
    (h : ∀ a, OnlyDefaults format.defaults a → Text.words (write a) = []) : format.Omits :=
  omits_of_onlyDefaults hcomplete fun a ha => by rw [hencode, h a ha]; rfl

/-- Every attribute is spelled as its default. -/
def SpelledAsDefault (format : PropertyFormat) (a : Attributes) : Prop :=
  ∀ key v, a.get? key = some v → format.defaults.get? key = some v

/-- A format of families, whose defaults come with the members. -/
theorem omits_of_members (hcomplete : ∀ a, ∃ defaults : Attributes, format.complete a = defaults.union a.pairs)
    (hempty : format.complete ∅ = ∅) (h : format.encode ∅ = none) : format.Omits := by
  intro a ha
  have hnothing : a = ∅ := by
    by_contra hne
    obtain ⟨key, v, hv⟩ := OrderedMap.exists_get?_of_ne_empty hne
    obtain ⟨defaults, hdefaults⟩ := hcomplete a
    have hsame := equivalent_iff.1 ha key
    rw [hempty, hdefaults, OrderedMap.get?_union key defaults a.distinct] at hsame
    change Text.Same ((a.get? key).or _) none at hsame
    rw [hv] at hsame
    cases hsame
  rw [hnothing, h]

end PropertyFormat

open PropertyFormat (Omits omits_of_onlyDefaults omits_of_words omits_of_members)

/-! ## Formats of tokens -/

theorem Color.omits (name : Text) : Omits (Color.format name) := by
  refine omits_of_words rfl (fun _ => rfl) fun a (h : OnlyDefaults defaults a) => ?_
  have hbytes : a.get? "r" = none := h.absent (by decide)
  have hcall : a.get? "dynamicr" = none := h.absent (by decide)
  have hcolor : writeColor a = none := by
    unfold writeColor channel? OrderedMap.contains
    rw [hbytes, hcall]
    rfl
  unfold writeTokens
  rw [hcolor, h.unlessDefault?_eq_none (by decide), h.unlessDefault?_eq_none (by decide),
    h.unlessDefault?_eq_none (by decide), h.absent (by decide), h.absent (by decide), h.isTrue_eq_false (by decide)]
  rfl

theorem LineStyle.omits : Omits LineStyle.format := by
  refine omits_of_words rfl (fun _ => rfl) fun a h => ?_
  unfold write writeHidden
  rw [h.unlessDefault?_eq_none (by decide), h.unlessDefault?_eq_none (by decide), h.absent (by decide),
    h.absent (by decide), h.isTrue_eq_false (by decide)]
  rfl

theorem Visibility.omits : Omits Visibility.format := by
  refine omits_of_words rfl (fun _ => rfl) fun a h => ?_
  have hbits : bitsOf a = 0 := h.natural32_eq_zero (by decide)
  unfold write
  rw [h.isTrue_eq_false (by decide), h.isTrue_eq_false (by decide), hbits]
  rfl

/-- No direction has a code that says the same as none. -/
theorem Animation.sign_eq_nil {a : Attributes} (h : OnlyDefaults defaults a) : sign a = [] := by
  unfold sign
  cases htype : a.get? "type" with
  | none => rfl
  | some code =>
    have hsame : Text.sameValue code "0" := h.sameValue (by decide) htype
    have hcodes : ∀ row ∈ directions, ¬Text.sameValue row.2 "0" := by decide +kernel
    have hfind : (directions.find? fun row => Text.sameValue row.2 code) = none :=
      List.find?_eq_none.2 fun row hrow hcode => hcodes row hrow (Text.sameValue_trans hcode hsame)
    show ((directions.find? fun row => Text.sameValue row.2 code).map fun row => [row.1]).getD [] = []
    rw [hfind]
    rfl

theorem Animation.omits : Omits Animation.format := by
  refine omits_of_words rfl (fun _ => rfl) fun a h => ?_
  unfold write
  rw [h.isTrue_eq_false (by decide), h.unlessDefault?_eq_none (by decide), h.unlessDefault?_eq_none (by decide),
    sign_eq_nil h]
  rfl

theorem Slider.omits : Omits Slider.format := by
  refine omits_of_words rfl (fun _ => rfl) fun a h => ?_
  have hflags := @OnlyDefaults.filter_flags _ _ h (flags.drop 1) (by decide)
  unfold write writeValue
  rw [hflags, h.absent (by decide), h.absent (by decide), h.absent (by decide), h.absent (by decide),
    h.unlessDefault?_eq_none (by decide), h.isTrue_eq_false (by decide)]
  rfl

theorem Tracing.omits : Omits Tracing.format := by
  refine omits_of_words rfl (fun _ => rfl) fun a h => ?_
  have hflags := @OnlyDefaults.filter_flags _ _ h (flags.drop 1) (by decide)
  unfold write writeRows
  rw [hflags, h.unlessDefault?_eq_none (by decide), h.unlessDefault?_eq_none (by decide), h.isTrue_eq_false (by decide)]
  rfl

theorem TableView.omits : Omits TableView.format := by
  refine omits_of_words rfl (fun _ => rfl) fun a h => ?_
  have hdefault : defaults.get? "points" = some (Text.ofBool true) := by decide
  have hpoints : a.get? "points" ≠ some "false".toList := h.ne_flag hdefault
  unfold write
  rw [h.unlessDefault?_eq_none (by decide), if_neg hpoints]
  rfl

theorem Lettering.omits : Omits Lettering.format := by
  refine omits_of_words rfl (fun _ => rfl) fun a h => ?_
  have hstyle : styleOf a = 0 := h.natural32_eq_zero (by decide)
  unfold write
  rw [h.isTrue_eq_false (by decide), h.unlessDefault?_eq_none (by decide), hstyle]
  rfl

/-- A size is left out if it is its default, or if it has none and is not there. -/
theorem Extent.writeSize_eq_nil {extent : Extent} {a : Attributes} (h : OnlyDefaults extent.defaults a) (key : Text) :
    extent.writeSize a key = [] := by
  unfold writeSize
  cases hdefault : extent.defaults.get? key with
  | some default =>
    dsimp only
    rw [h.unlessDefault?_eq_none hdefault]
    rfl
  | none =>
    dsimp only
    rw [h.absent hdefault]
    rfl

theorem Extent.omits {extent : Extent}
    (hflag : ∀ flag ∈ extent.flag, extent.defaults.get? flag.attr = some (Text.ofBool flag.opposite)) :
    Omits extent.format := by
  refine omits_of_words rfl (fun _ => rfl) fun a (h : OnlyDefaults extent.defaults a) => ?_
  have hsizes : extent.keys.flatMap (extent.writeSize a) = [] :=
    List.flatMap_eq_nil_iff.2 fun key _ => writeSize_eq_nil h key
  have hwriteFlag : extent.writeFlag a = [] := by
    unfold writeFlag
    cases hextent : extent.flag with
    | none => rfl
    | some flag => exact if_neg (h.ne_flag (hflag flag hextent))
  unfold write
  rw [hsizes, hwriteFlag]
  rfl

/-! ## Formats of single texts -/

theorem Coordinates.omits : Omits Coordinates.format := by
  refine omits_of_onlyDefaults rfl fun a h => ?_
  have hx : a.get? "x" = none := h.absent (by decide)
  show encode a = none
  unfold encode
  rw [hx]

theorem Placement.omits_labelOffset : Omits labelOffset.format := by
  refine omits_of_onlyDefaults rfl fun a h => ?_
  show labelOffset.encode a = none
  unfold encode
  cases hx : a.get? "x" with
  | none => rfl
  | some x =>
    cases hy : a.get? "y" with
    | none => rfl
    | some y =>
      have hxsame : Text.sameValue x "0" := h.sameValue (by decide) hx
      have hysame : Text.sameValue y "0" := h.sameValue (by decide) hy
      apply if_pos
      show (Text.sameValue x "0" && Text.sameValue y "0") = true
      rw [hxsame, hysame]
      rfl

theorem Placement.omits_screen : Omits screen.format := by
  refine omits_of_onlyDefaults rfl fun a h => ?_
  rw [h.eq_empty]
  rfl

theorem Equation.omits : Omits Equation.format := by
  refine omits_of_onlyDefaults rfl fun a h => ?_
  rw [h.eq_empty]
  rfl

theorem ScriptProperty.omits (property : ScriptProperty) : Omits property.format := by
  refine omits_of_onlyDefaults rfl fun a (h : OnlyDefaults (.table [("val", "")]) a) => ?_
  show ((a.get? "val").bind Text.nonempty?).map Text.quoteIfNeeded = none
  cases hv : a.get? "val" with
  | none => rfl
  | some v =>
    have hempty : v = [] := Text.eq_of_sameValue_word (by decide) (h.sameValue (by decide) hv)
    rw [hempty]
    rfl

theorem RandomFlag.omits : Omits RandomFlag.format := by
  refine omits_of_onlyDefaults rfl fun a h => ?_
  show (if a.isTrue "val" then some [] else none) = none
  rw [h.isTrue_eq_false (by decide)]
  rfl

/-! ## Families -/

theorem Attributes.grouped_empty : grouped ∅ = [] := List.mergeSort_nil

theorem StartPoint.omits : Omits StartPoint.format := by
  refine omits_of_members (fun _ => ⟨_, rfl⟩) ?_ ?_
  · show complete ∅ = ∅
    unfold complete
    rw [Attributes.grouped_empty]
    rfl
  · show encode ∅ = none
    unfold encode
    rw [Attributes.grouped_empty]
    rfl

theorem BarTag.omits : Omits BarTag.format := by
  refine omits_of_members (fun _ => ⟨_, rfl⟩) ?_ ?_
  · show complete ∅ = ∅
    unfold complete
    rw [Attributes.grouped_empty]
    rfl
  · show encode ∅ = none
    unfold encode
    rw [Attributes.grouped_empty]
    rfl

/-! ## Properties of one value -/

/-- A text whose default is a number, which can be spelled in many ways. -/
def ValueKind.isLiteral : ValueKind → Bool
  | .text default _ => (Text.float? (Text.trim default)).isSome
  | _ => false

namespace SingleValue

variable {property : SingleValue} {a : Attributes} {kept : Text}

/-- A text is left out only if it is spelled as its default. -/
theorem written?_text_eq_none {default : Text} {named : List (Text × Text)} :
    written? kept (.text default named) = none ↔ kept = default := by
  rw [written?]
  by_cases hkept : kept = default
  · rw [if_pos hkept]
    exact iff_of_true rfl hkept
  · rw [if_neg hkept]
    refine iff_of_false ?_ hkept
    split
    · exact Option.some_ne_none _
    · exact Option.some_ne_none _

/-- A value that says the same as its default is left out, but for a literal one that is spelled otherwise. -/
theorem written?_eq_none_iff {kind : ValueKind} (h : Text.sameValue kept (stored kind)) :
    written? kept kind = none ↔ (kind.isLiteral → kept = stored kind) := by
  cases kind with
  | flag inverted =>
    have hkept : kept = storedFlag inverted false := by
      refine Text.eq_of_sameValue_word ?_ h
      cases inverted <;> decide
    have hother : storedFlag inverted false ≠ storedFlag inverted true := by cases inverted <;> decide
    rw [written?, hkept, if_neg hother]
    exact iff_of_true rfl fun h => nomatch h
  | integer default => exact iff_of_true (if_pos h) fun h => nomatch h
  | number default => exact iff_of_true (if_pos h) fun h => nomatch h
  | text default named =>
    rw [written?_text_eq_none]
    cases hfloat : Text.float? (Text.trim default) with
    | none => exact iff_of_true (Text.eq_of_sameValue_word hfloat h) fun _ => Text.eq_of_sameValue_word hfloat h
    | some x =>
      have hliteral : (ValueKind.text default named).isLiteral = true := by
        rw [ValueKind.isLiteral, hfloat]
        rfl
      rw [hliteral]
      exact ⟨fun hkept _ => hkept, fun hkept => hkept rfl⟩

theorem omitted_iff (h : property.format.equivalent a ∅) :
    property.format.encode a = none ↔ (property.kind.isLiteral → property.format.SpelledAsDefault a) := by
  have honly := PropertyFormat.onlyDefaults_of_equivalent rfl h
  have hdefault : property.format.defaults.get? property.attr = some (stored property.kind) := if_pos rfl
  have hothers : ∀ key v, a.get? key = some v → key = property.attr := fun key v hv => by
    by_contra hne
    rw [honly.absent (if_neg (Ne.symm hne))] at hv
    cases hv
  show (a.get? property.attr).bind (fun kept => written? kept property.kind) = none ↔ _
  cases hattr : a.get? property.attr with
  | none =>
    refine iff_of_true rfl fun _ key v hv => ?_
    rw [hothers key v hv, hattr] at hv
    cases hv
  | some kept =>
    rw [Option.bind_some, written?_eq_none_iff (honly.sameValue hdefault hattr)]
    constructor
    · intro hkept hliteral key v hv
      cases hothers key v hv
      cases hattr.symm.trans hv
      rw [hdefault, hkept hliteral]
    · intro hall hliteral
      exact Option.some_inj.1 ((hall hliteral _ kept hattr).symm.trans hdefault)

end SingleValue

/-! ## All formats -/

namespace Catalog

/-- The texts whose default is a number: only the default as it is spelled is left out. -/
def literalNames : List Text :=
  ["angleStyle", "decoration", "headStyle", "labelMode", "pointStyle", "tooltipMode"].map String.toList

theorem mem_literalNames_iff : ∀ property ∈ SingleValue.builtIn,
    property.name ∈ literalNames ↔ property.kind.isLiteral := by
  decide +kernel

/-- What is left out by a format that omits all that says no more than the defaults, however it is spelled. -/
theorem omitted_iff_of_omits {format : PropertyFormat} (homits : format.Omits) (hname : format.name ∉ literalNames) :
    ∀ a, format.equivalent a ∅ →
      (format.encode a = none ↔ (format.name ∈ literalNames → format.SpelledAsDefault a)) :=
  fun a ha => iff_of_true (homits a ha) fun hliteral => absurd hliteral hname

theorem omitted_iff_of_mem : ∀ format ∈ builtIn, format.name ≠ "checkbox" → ∀ a, format.equivalent a ∅ →
    (format.encode a = none ↔ (format.name ∈ literalNames → format.SpelledAsDefault a)) := by
  unfold builtIn
  simp only [List.cons_append, List.nil_append, List.forall_mem_cons]
  refine ⟨fun _ => omitted_iff_of_omits (Color.omits _) (by decide),
    fun _ => omitted_iff_of_omits (Color.omits _) (by decide),
    fun _ => omitted_iff_of_omits (Color.omits _) (by decide),
    fun _ => omitted_iff_of_omits LineStyle.omits (by decide),
    fun _ => omitted_iff_of_omits Visibility.omits (by decide),
    fun _ => omitted_iff_of_omits Animation.omits (by decide),
    fun _ => omitted_iff_of_omits Coordinates.omits (by decide),
    fun _ => omitted_iff_of_omits Slider.omits (by decide),
    fun _ => omitted_iff_of_omits Tracing.omits (by decide),
    fun _ => omitted_iff_of_omits TableView.omits (by decide),
    fun _ => omitted_iff_of_omits StartPoint.omits (by decide),
    fun _ => omitted_iff_of_omits BarTag.omits (by decide),
    fun _ => omitted_iff_of_omits (ScriptProperty.omits _) (by decide),
    fun _ => omitted_iff_of_omits (ScriptProperty.omits _) (by decide),
    fun _ => omitted_iff_of_omits (ScriptProperty.omits _) (by decide),
    fun _ => omitted_iff_of_omits (ScriptProperty.omits _) (by decide),
    fun _ => omitted_iff_of_omits (ScriptProperty.omits _) (by decide),
    fun _ => omitted_iff_of_omits (ScriptProperty.omits _) (by decide),
    fun _ => omitted_iff_of_omits RandomFlag.omits (by decide),
    fun _ => omitted_iff_of_omits Placement.omits_labelOffset (by decide),
    fun _ => omitted_iff_of_omits Placement.omits_screen (by decide),
    fun _ => omitted_iff_of_omits Equation.omits (by decide),
    fun _ => omitted_iff_of_omits Lettering.omits (by decide),
    fun _ => omitted_iff_of_omits (Extent.omits (by decide)) (by decide),
    fun _ => omitted_iff_of_omits (Extent.omits (by decide)) (by decide),
    fun _ => omitted_iff_of_omits (Extent.omits (by decide)) (by decide),
    fun _ => omitted_iff_of_omits (Extent.omits (by decide)) (by decide),
    fun hcheckbox => absurd rfl hcheckbox, fun format hformat _ a ha => ?_⟩
  obtain ⟨property, hproperty, rfl⟩ := List.mem_map.1 hformat
  rw [SingleValue.omitted_iff ha, ← mem_literalNames_iff property hproperty]
  rfl

/-- **What says no more than the defaults is never written**, unless it is a text with a number as its default, spelled
in another way. -/
theorem defaults_omitted_iff {name : Text} {format : PropertyFormat} (hformat : standard.format? name = some format)
    (hname : name ≠ "checkbox") {a : Attributes} (h : format.equivalent a ∅) :
    format.encode a = none ↔ (name ∈ literalNames → format.SpelledAsDefault a) := by
  obtain ⟨hmem, rfl⟩ := mem_of_format? hformat
  exact omitted_iff_of_mem format hmem hname a h

/-- Zero with a fraction is no other angle style than zero, and yet it is written. -/
theorem zero_written_of_fraction : ∃ format a, standard.format? "angleStyle" = some format ∧ format.equivalent a ∅ ∧
    format.encode a ≠ none := by
  have hmem : (SingleValue.plainText "angleStyle" "0" SingleValue.angleStyles).format ∈ builtIn := by
    refine List.mem_append_right _ (List.mem_map_of_mem ?_)
    simp [SingleValue.builtIn, SingleValue.texts]
  have hformat := format?_of_mem hmem
  have hequivalent : (SingleValue.plainText "angleStyle" "0" SingleValue.angleStyles).format.equivalent
      (.table [("val", "0.0")]) ∅ := by
    decide +kernel
  refine ⟨_, .table [("val", "0.0")], hformat, hequivalent, fun hnone => ?_⟩
  have hspelled := (defaults_omitted_iff hformat (by decide) hequivalent).1 hnone (by decide) "val" "0.0" (by decide)
  exact absurd hspelled (by decide)

end Catalog

end StyleScript
