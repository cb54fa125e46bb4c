import StyleScript.Proofs.BarTag.Contents
import StyleScript.Proofs.Coordinates.Survival
import StyleScript.Proofs.Property.Animation
import StyleScript.Proofs.Property.Catalog
import StyleScript.Proofs.Property.Lettering
import StyleScript.Proofs.Property.LineStyle
import StyleScript.Proofs.Property.Slider
import StyleScript.Proofs.Property.Tracing
import StyleScript.Proofs.Property.Visibility
import StyleScript.Proofs.StartPoint.Survival
/-!
# No value reads as a reset

A reset mark is put into attributes by a sheet, never by a value.  The built-in formats read keys of their own, and the
mark is none of them.  A single value may be kept under any key, even under that of the mark; but then nothing is
written of attributes without a mark.  So whatever formats a catalog was given (`Catalog.Supplied`), what is written of
unmarked attributes is read as unmarked ones (`Supplied.unmarked`).
-/
namespace StyleScript

namespace Attributes

variable {attrs : Attributes}

/-- The keys are known to be other ones. -/
theorem hasReset_of_keys {keys : List Text} (h : ∀ key v, attrs.get? key = some v → key ∈ keys)
    (hkeys : resetMark ∉ keys) : attrs.hasReset = false :=
  hasReset_eq_false.2 (Option.eq_none_iff_forall_ne_some.2 fun v hv => hkeys (h _ v hv))

theorem hasReset_of_ofList (keys : List Text) {pairs : List (Text × Text)} (heq : OrderedMap.ofList pairs = attrs)
    (hpairs : pairs.map Prod.fst = keys) (hkeys : resetMark ∉ keys) : attrs.hasReset = false :=
  hasReset_eq_false.2 (heq ▸ OrderedMap.get?_union_of_not_mem (hpairs ▸ hkeys))

/-- A mark has no number. -/
theorem hasReset_of_numbered (h : Numbered attrs) : attrs.hasReset = false := by
  refine hasReset_eq_false.2 (Option.eq_none_iff_forall_ne_some.2 fun v hv => ?_)
  obtain ⟨n, name, -, hkey⟩ := h _ v hv
  have hpoint : '.' ∈ resetMark := hkey ▸ List.mem_append_right _ List.mem_cons_self
  exact absurd hpoint (by decide)

end Attributes

open Attributes (resetMark hasReset_eq_false hasReset_of_keys hasReset_of_ofList hasReset_of_numbered)

/-! ## Formats with keys of their own -/

section

variable {value : Text} {a : Attributes}

theorem Color.hasReset_of_decode {name : Text} (h : (Color.format name).decode value = .ok (some a)) :
    a.hasReset = false := by
  obtain ⟨c, hc⟩ := Color.exists_says_of_decode h
  exact hasReset_eq_false.2 (hc.get? resetMark)

theorem Coordinates.hasReset_of_decode (h : Coordinates.format.decode value = .ok (some a)) : a.hasReset = false := by
  obtain ⟨groups, -, hlayout, heq⟩ := Coordinates.decode_eq_ok.1 h
  cases heq
  exact hasReset_eq_false.2 (Coordinates.get?_said_of_not_mem hlayout fun group => by cases group <;> decide)

theorem Visibility.hasReset_of_decode (h : Visibility.format.decode value = .ok (some a)) : a.hasReset = false := by
  have hkeys : ∀ key v, a.get? key = some v → key ∈ (["ev", "object", "label"] : List Text) := by
    intro key v hv
    rcases Visibility.holds_of_decode h key v hv with ⟨hkey, -⟩ | ⟨rfl, -⟩
    · exact .tail _ hkey
    · exact .head _
  exact hasReset_of_keys hkeys (by decide)

theorem StartPoint.hasReset_of_decode (h : StartPoint.format.decode value = .ok (some a)) : a.hasReset = false := by
  obtain ⟨corners, -, hlength, -, rfl⟩ := StartPoint.corners_of_decode h
  exact hasReset_of_numbered (StartPoint.numbered_table hlength)

theorem BarTag.hasReset_of_decode (h : BarTag.format.decode value = .ok (some a)) : a.hasReset = false := by
  obtain ⟨contents, htold⟩ := BarTag.exists_told_of_decode h
  exact hasReset_of_numbered htold.numbered

theorem Extent.key_mem_of_token {extent : Extent} {t : Text} {settings : List (Text × Text)}
    (h : extent.token t = .ok settings) :
    ∀ p ∈ settings, p.1 ∈ extent.keys ++ (extent.flag.map ExtentFlag.attr).toList := by
  rw [Extent.token] at h
  split at h
  · split at h
    · next hkey =>
      simp only [bind_eq_ok, pure_eq_ok] at h
      obtain ⟨written, -, v, -, rfl⟩ := h
      exact List.forall_mem_singleton.2 (List.mem_append_left _ (List.contains_iff_mem.1 hkey))
    · cases h
  · split at h
    split at h
    · next hflag =>
      cases h
      rw [(Option.filter_eq_some_iff.1 hflag).1]
      exact List.forall_mem_singleton.2 (List.mem_append_right _ List.mem_cons_self)
    · cases h

theorem Extent.hasReset_of_decode {extent : Extent}
    (hkeys : resetMark ∉ extent.keys ++ (extent.flag.map ExtentFlag.attr).toList)
    (h : extent.format.decode value = .ok (some a)) : a.hasReset = false := by
  refine hasReset_of_keys (PropertyFormat.values_of_readTokens (P := fun key _ => key ∈ _) ?_ h) hkeys
  exact Extent.key_mem_of_token

theorem Equation.hasReset_of_attributes {style : Text} {parameter : Option Text}
    (h : Equation.attributes style parameter = some a) : a.hasReset = false := by
  unfold Equation.attributes at h
  split at h
  · generalize (if style = "parametric" then parameter.filter Equation.isLetter else none) = kept at h
    cases kept with
    | none => exact hasReset_of_ofList ["style"] (Option.some.inj h) rfl (by decide)
    | some p => exact hasReset_of_ofList ["style", "parameter"] (Option.some.inj h) rfl (by decide)
  · cases h

theorem Equation.hasReset_of_decode (h : Equation.format.decode value = .ok (some a)) : a.hasReset = false := by
  have h : Equation.decode value = .ok (some a) := h
  unfold Equation.decode at h
  split at h
  · obtain ⟨parameter, -, h⟩ := bind_eq_ok.1 h
    exact Equation.hasReset_of_attributes (pure_eq_ok.1 h)
  · exact Equation.hasReset_of_attributes (Except.ok.inj h)

theorem TableView.key_mem_of_word {otherwise : Text → Except Cause (Text × Text)} {t : Text} {p : Text × Text}
    (hotherwise : ∀ {p}, otherwise t = .ok p → p.1 ∈ (["column", "points"] : List Text))
    (h : TableView.word otherwise t = .ok p) : p.1 ∈ (["column", "points"] : List Text) := by
  unfold TableView.word at h
  split at h
  split at h
  · cases h
    exact .tail _ (.head _)
  · exact hotherwise h

theorem TableView.key_mem_of_column {t : Text} {p : Text × Text} (h : TableView.column t = .ok p) :
    p.1 ∈ (["column", "points"] : List Text) := by
  unfold TableView.column at h
  split at h
  · cases h
    exact .head _
  · cases h

theorem TableView.key_mem_of_settings {ts : List Text} {settings : List (Text × Text)}
    (h : TableView.settings ts = .ok settings) : ∀ p ∈ settings, p.1 ∈ (["column", "points"] : List Text) := by
  cases ts with
  | nil =>
    cases h
    exact List.forall_mem_nil _
  | cons first rest =>
    obtain ⟨p, hp, h⟩ := bind_eq_ok.1 h
    obtain ⟨ps, hps, h⟩ := bind_eq_ok.1 h
    cases pure_eq_ok.1 h
    refine List.forall_mem_cons.2 ⟨TableView.key_mem_of_word TableView.key_mem_of_column hp, fun q hq => ?_⟩
    obtain ⟨t, -, ht⟩ := exists_of_mem_mapM hps hq
    exact TableView.key_mem_of_word (fun {p} hother => by cases hother) ht

theorem TableView.hasReset_of_decode (h : TableView.format.decode value = .ok (some a)) : a.hasReset = false := by
  obtain ⟨ts, -, h⟩ := bind_eq_ok.1 h
  obtain ⟨settings, hread, h⟩ := bind_eq_ok.1 h
  obtain ⟨heq, -⟩ := PropertyFormat.something_eq_some.1 (pure_eq_ok.1 h)
  have hkeys : ∀ key v, a.get? key = some v → key ∈ (["column", "points"] : List Text) := by
    intro key v hv
    rw [← heq] at hv
    rcases OrderedMap.mem_or_get?_of_union hv with hmem | hnone
    · exact TableView.key_mem_of_settings hread _ hmem
    · cases hnone
  exact hasReset_of_keys hkeys (by decide)

theorem ScriptProperty.hasReset_of_decode {property : ScriptProperty}
    (h : property.format.decode value = .ok (some a)) : a.hasReset = false := by
  obtain ⟨text, -, h⟩ := bind_eq_ok.1 h
  exact hasReset_of_ofList ["val"] (Option.some.inj (pure_eq_ok.1 h)) rfl (by decide)

theorem RandomFlag.hasReset_of_decode (h : RandomFlag.format.decode value = .ok (some a)) : a.hasReset = false := by
  obtain ⟨word, -, h⟩ := bind_eq_ok.1 h
  split at h
  · exact hasReset_of_ofList ["val"] (Option.some.inj (pure_eq_ok.1 h)) rfl (by decide)
  · split at h
    · exact hasReset_of_ofList ["val"] (Option.some.inj (pure_eq_ok.1 h)) rfl (by decide)
    · cases h

theorem Placement.hasReset_of_decode {placement : Placement} (h : placement.format.decode value = .ok (some a)) :
    a.hasReset = false := by
  obtain ⟨ts, -, h⟩ := bind_eq_ok.1 h
  split at h
  · obtain ⟨_, -, h⟩ := bind_eq_ok.1 h
    obtain ⟨_, -, h⟩ := bind_eq_ok.1 h
    exact hasReset_of_ofList ["x", "y"] (Option.some.inj (pure_eq_ok.1 h)) rfl (by decide)
  · cases h

theorem Checkbox.hasReset_of_decode (h : Checkbox.format.decode value = .ok (some a)) : a.hasReset = false := by
  obtain ⟨ts, -, h⟩ := bind_eq_ok.1 h
  obtain ⟨fixed, -, h⟩ := bind_eq_ok.1 h
  exact hasReset_of_ofList ["fixed"] (Option.some.inj (pure_eq_ok.1 h)) rfl (by decide)

theorem PropertyFormat.hasReset_of_decode_unclaimed {name : Text}
    (h : (PropertyFormat.unclaimed name).decode value = .ok (some a)) : a.hasReset = false := by
  rw [PropertyFormat.unclaimed] at h
  dsimp only at h
  split at h
  · exact hasReset_of_ofList ["val"] (Option.some.inj (pure_eq_ok.1 h)) rfl (by decide)
  · obtain ⟨text, -, h⟩ := bind_eq_ok.1 h
    exact hasReset_of_ofList ["val"] (Option.some.inj (pure_eq_ok.1 h)) rfl (by decide)

/-! ## Single values -/

theorem SingleValue.hasReset_of_decode {property : SingleValue} (hattr : property.attr ≠ resetMark)
    (h : property.format.decode value = .ok (some a)) : a.hasReset = false := by
  obtain ⟨written, -, h⟩ := bind_eq_ok.1 h
  obtain ⟨kept, -, h⟩ := bind_eq_ok.1 h
  exact hasReset_of_ofList [property.attr] (Option.some.inj (pure_eq_ok.1 h)) rfl
    fun hmem => hattr (List.mem_singleton.1 hmem).symm

/-- Of unmarked attributes nothing is written that is kept under the mark. -/
theorem SingleValue.encode_of_resetMark {property : SingleValue} (hattr : property.attr = resetMark)
    (h : a.hasReset = false) : property.format.encode a = none := by
  show (a.get? property.attr).bind _ = none
  rw [hattr, hasReset_eq_false.1 h]
  rfl

/-- **No built-in format reads a reset mark.** -/
theorem hasReset_of_decode_builtIn {format : PropertyFormat} (hformat : format ∈ Catalog.builtIn)
    (h : format.decode value = .ok (some a)) : a.hasReset = false := by
  rcases List.mem_append.1 hformat with hmem | hmem
  · simp only [List.mem_cons, List.not_mem_nil, or_false] at hmem
    rcases hmem with rfl | rfl | rfl | rfl | rfl | rfl | rfl | rfl | rfl | rfl | rfl | rfl | rfl | rfl | rfl | rfl |
      rfl | rfl | rfl | rfl | rfl | rfl | rfl | rfl | rfl | rfl | rfl | rfl
    · exact Color.hasReset_of_decode h
    · exact Color.hasReset_of_decode h
    · exact Color.hasReset_of_decode h
    · exact hasReset_of_keys (fun key v hv => ((LineStyle.styled_of_decode h).admits key v hv).key_mem) (by decide)
    · exact Visibility.hasReset_of_decode h
    · exact hasReset_of_keys (fun key v hv => (Animation.holds_of_decode h key v hv).key_mem) (by decide)
    · exact Coordinates.hasReset_of_decode h
    · exact hasReset_of_keys (fun key v hv => (Slider.holds_of_decode h key v hv).key_mem) (by decide)
    · exact hasReset_of_keys (Tracing.traced_of_decode h).key_mem (by decide)
    · exact TableView.hasReset_of_decode h
    · exact StartPoint.hasReset_of_decode h
    · exact BarTag.hasReset_of_decode h
    · exact ScriptProperty.hasReset_of_decode h
    · exact ScriptProperty.hasReset_of_decode h
    · exact ScriptProperty.hasReset_of_decode h
    · exact ScriptProperty.hasReset_of_decode h
    · exact ScriptProperty.hasReset_of_decode h
    · exact ScriptProperty.hasReset_of_decode h
    · exact RandomFlag.hasReset_of_decode h
    · exact Placement.hasReset_of_decode h
    · exact Placement.hasReset_of_decode h
    · exact Equation.hasReset_of_decode h
    · exact hasReset_of_keys (fun key v hv => (Lettering.lettered_of_decode h key v hv).key_mem) (by decide)
    · exact Extent.hasReset_of_decode (by decide) h
    · exact Extent.hasReset_of_decode (by decide) h
    · exact Extent.hasReset_of_decode (by decide) h
    · exact Extent.hasReset_of_decode (by decide) h
    · exact Checkbox.hasReset_of_decode h
  · obtain ⟨property, hproperty, rfl⟩ := List.mem_map.1 hmem
    have hattrs : ∀ property ∈ SingleValue.builtIn, property.attr ≠ resetMark := by decide +kernel
    exact SingleValue.hasReset_of_decode (hattrs property hproperty) h

end

/-! ## Catalogs of the formats that there are -/

/-- The formats that a catalog can be given: the built-in ones, and under any name a color, a script, a single value and
what an unclaimed name stands for. -/
inductive PropertyFormat.Supplied : PropertyFormat → Prop where
  | builtIn {format : PropertyFormat} (mem : format ∈ Catalog.builtIn) : Supplied format
  | color (name : Text) : Supplied (Color.format name)
  | script (property : ScriptProperty) : Supplied property.format
  | value (property : SingleValue) : Supplied property.format
  | unclaimed (name : Text) : Supplied (.unclaimed name)

/-- What is written of unmarked attributes is read as unmarked ones. -/
theorem PropertyFormat.Supplied.unmarked {format : PropertyFormat} (h : format.Supplied) {attrs read : Attributes}
    {value : Text} (hattrs : attrs.hasReset = false) (hwritten : format.encode attrs = some value)
    (hread : format.decode value = .ok (some read)) : read.hasReset = false := by
  cases h with
  | builtIn mem => exact hasReset_of_decode_builtIn mem hread
  | color => exact Color.hasReset_of_decode hread
  | script => exact ScriptProperty.hasReset_of_decode hread
  | value property =>
    by_cases hattr : property.attr = resetMark
    · cases (SingleValue.encode_of_resetMark hattr hattrs).symm.trans hwritten
    · exact SingleValue.hasReset_of_decode hattr hread
  | unclaimed => exact hasReset_of_decode_unclaimed hread

/-- A catalog that was empty or the standard one, and was then given some of these formats. -/
inductive Catalog.Supplied : Catalog → Prop where
  | empty : Supplied .empty
  | standard : Supplied .standard
  | enter {catalog : Catalog} {format : PropertyFormat} (rest : Supplied catalog) (supplied : format.Supplied) :
    Supplied (catalog.enter format)

theorem Catalog.Supplied.formatOf {catalog : Catalog} (h : catalog.Supplied) (name : Text) :
    (catalog.formatOf name).Supplied := by
  have hknown : ∀ format, catalog.format? name = some format → format.Supplied := by
    induction h with
    | empty => exact fun _ hnone => nomatch hnone
    | standard => exact fun format hformat => .builtIn (mem_of_format? hformat).1
    | @enter catalog entered rest supplied ih =>
      intro format hformat
      rw [format?_enter] at hformat
      split at hformat
      · exact Option.some.inj hformat ▸ supplied
      · exact ih format hformat
  unfold Catalog.formatOf
  cases hformat : catalog.format? name with
  | none => exact .unclaimed name
  | some format => exact hknown format hformat

end StyleScript
