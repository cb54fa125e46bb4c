import StyleScript.Proofs.Color.Rereading
/-!
# Which colors survive writing and reading

What was read of a color is written, and read again as attributes that are written alike.  They say the same as the
first ones exactly if these are `Faithful`: a color of bytes hides one of expressions, and empty texts are not
written, but nothing else is lost (`decode_encode`).
-/
namespace StyleScript.Color

open Text (Same same_refl)

/-- Attributes of which nothing is lost in writing. -/
structure Faithful (attrs : Attributes) : Prop where
  oneColor : ¬(attrs.contains "r" ∧ attrs.contains "dynamicr")
  image : attrs.get? "image" ≠ some []
  symbol : attrs.get? "fillSymbol" ≠ some []

/-! ## Values that say the same -/

/-- What is dropped says the same as the default. -/
theorem same_of_filter {α : Type} {write : α → Text} {keep : α → Bool} {default : Text}
    (h : ∀ v, keep v = false → Text.sameValue (write v) default) (x : Option α) :
    Same ((x.map write).or (some default)) (((x.filter keep).map write).or (some default)) := by
  cases x with
  | none => exact same_refl _
  | some v =>
    rw [Option.filter_some]
    cases hv : keep v with
    | true => exact same_refl _
    | false => exact .some (h v hv)

/-- What is dropped without a default is missed. -/
theorem same_filter_iff {keep : Text → Bool} {x : Option Text} :
    Same (x.or none) ((x.filter keep).or none) ↔ ∀ v, x = some v → keep v := by
  rw [Option.or_none, Option.or_none]
  cases x with
  | none => exact ⟨fun _ _ h => (nomatch h), fun _ => .none⟩
  | some v =>
    rw [Option.filter_some]
    constructor
    · rintro h w ⟨⟩
      cases hv : keep v with
      | true => rfl
      | false => rw [hv] at h; cases h
    · intro h
      rw [h v rfl]
      exact same_refl _

theorem sameValue_greatest : Text.sameValue (alphaText 255) "1.0" := by
  have hone : Text.float? (Text.trim "1.0") = some (.finite false Binary64.one) := by decide +kernel
  refine Text.sameValue_eq_true.2 (.inr ⟨_, _, float?_alphaText 255, hone, ?_⟩)
  rw [Binary64.ofRatio_greatest]
  exact Binary64.same_refl _

/-! ## Field by field -/

section

variable {attrs more : Attributes} {c : Content} {name : Text}

/-- Attributes that say contents are compared field by field. -/
theorem equivalent_iff_fields {d : Content} (h : Says attrs c) (k : Says more d) :
    (format name).equivalent attrs more ↔ ∀ field ∈ Content.fields,
      Same ((field.2 c).or (defaults.get? field.1)) ((field.2 d).or (defaults.get? field.1)) := by
  rw [PropertyFormat.equivalent_iff]
  have hcomplete : ∀ attrs key, ((format name).complete attrs).get? key = (attrs.get? key).or (defaults.get? key) :=
    fun attrs key => Attributes.get?_overlaid defaults attrs key
  constructor
  · intro hall field hfield
    have hfind := (OrderedMap.find?_eq_some Content.fields_nodup).2 (show (field.1, field.2) ∈ _ from hfield)
    have := hall field.1
    rwa [hcomplete, hcomplete, h.get?, k.get?, hfind] at this
  · intro hall key
    rw [hcomplete, hcomplete, h.get?, k.get?]
    cases hfind : OrderedMap.find? key Content.fields with
    | none => exact same_refl _
    | some field => exact hall (key, field) ((OrderedMap.find?_eq_some Content.fields_nodup).1 hfind)

theorem faithful_iff (h : Says attrs c) :
    Faithful attrs ↔ (c.hex = none ∨ c.call = none) ∧ c.image ≠ some [] ∧ c.symbol ≠ some [] := by
  have hr : attrs.get? "r" = c.hex.map fun hex => Text.ofNat hex.red := h.get? _
  have hd : attrs.get? "dynamicr" = c.call.map Call.first := h.get? _
  have himage : attrs.get? "image" = c.image := h.get? _
  have hsymbol : attrs.get? "fillSymbol" = c.symbol := h.get? _
  have hcolors : ¬(attrs.contains "r" ∧ attrs.contains "dynamicr") ↔ c.hex = none ∨ c.call = none := by
    rw [OrderedMap.contains, OrderedMap.contains, hr, hd, Option.isSome_map, Option.isSome_map]
    cases c.hex <;> cases c.call <;> simp
  rw [← hcolors, ← himage, ← hsymbol]
  exact ⟨fun h => ⟨h.oneColor, h.image, h.symbol⟩, fun h => ⟨h.1, h.2.1, h.2.2⟩⟩

/-! ## What is kept, and what it says -/

theorem kept_call {c : Content} (h : c.hex = none ∨ c.call = none) : c.kept.call = c.call := by
  rw [Content.kept]
  dsimp only
  rcases h with hnone | hnone <;> rw [hnone]
  · rfl
  · exact ite_self none

/-- Expressions are kept exactly if no bytes stand beside them. -/
theorem same_kept_call_iff (c : Content) :
    Same ((c.call.map Call.first).or none) ((c.kept.call.map Call.first).or none) ↔ c.hex = none ∨ c.call = none := by
  constructor
  · rw [Content.kept]
    dsimp only
    intro h
    cases hhex : c.hex with
    | none => exact .inl rfl
    | some hex =>
      cases hcall : c.call with
      | none => exact .inr rfl
      | some call =>
        rw [hhex, hcall] at h
        cases h
  · intro h
    rw [kept_call h]
    exact same_refl _

/-- Of the bytes only the last one can be dropped. -/
theorem kept_byte {part : Hex → Fin 256} (hpart : ∀ hex alpha, part { hex with alpha := alpha } = part hex)
    (c : Content) : c.kept.hex.map (fun hex => Text.ofNat (part hex)) = c.hex.map fun hex => Text.ofNat (part hex) := by
  rw [Content.kept, Option.map_map]
  refine congrArg (Option.map · c.hex) (funext fun hex => ?_)
  exact congrArg (fun byte : Fin 256 => Text.ofNat byte) (hpart hex _)

theorem same_kept_alpha (c : Content) :
    Same ((c.hex.bind fun hex => hex.alpha.map Hex.share).or (some "1.0".toList))
      ((c.kept.hex.bind fun hex => hex.alpha.map Hex.share).or (some "1.0".toList)) := by
  rw [Content.kept]
  cases c.hex with
  | none => exact same_refl _
  | some hex =>
    refine same_of_filter (fun byte hbyte => ?_) hex.alpha
    have hgreatest : byte.val = 255 := not_not.1 (of_decide_eq_false hbyte)
    rw [Hex.share, hgreatest]
    exact sameValue_greatest

theorem same_kept_fill (c : Content) :
    Same ((c.fill.map fun code : Fin fillNames.length => Text.ofNat code).or (some "0".toList))
      ((c.kept.fill.map fun code : Fin fillNames.length => Text.ofNat code).or (some "0".toList)) := by
  refine same_of_filter (fun code hcode => ?_) c.fill
  have hzero : code.val = 0 := not_not.1 (of_decide_eq_false hcode)
  rw [hzero]
  exact Text.sameValue_refl _

theorem same_kept_pattern (default : Text) (x : Option Text) :
    Same (x.or (some default)) ((x.filter fun v => !Text.sameValue v default).or (some default)) := by
  have hfilter := @same_of_filter Text id (fun v => !Text.sameValue v default) default
    (fun v hv => (Bool.not_eq_false' _).mp hv) x
  rwa [Option.map_id, id_eq, id_eq] at hfilter

theorem same_kept_inverse (c : Content) :
    Same ((c.inverse.map Text.ofBool).or (some "false".toList))
      ((c.kept.inverse.map Text.ofBool).or (some "false".toList)) := by
  refine same_of_filter (fun on hon => ?_) c.inverse
  have hoff : on = false := hon
  rw [hoff]
  exact Text.sameValue_refl _

theorem same_kept_nonempty_iff {x : Option Text} : Same (x.or none) ((x.filter (· ≠ [])).or none) ↔ x ≠ some [] := by
  rw [same_filter_iff]
  constructor
  · intro h hempty
    exact absurd (h [] hempty) (by decide)
  · intro h v hv
    exact decide_eq_true fun hempty => h (hempty ▸ hv)

/-- **What is kept says the same exactly if the attributes are faithful.** -/
theorem equivalent_kept_iff (h : Says attrs c) (k : Says more c.kept) :
    (format name).equivalent attrs more ↔ Faithful attrs := by
  rw [equivalent_iff_fields h k, faithful_iff h, ← same_kept_call_iff, ← same_kept_nonempty_iff,
    ← same_kept_nonempty_iff]
  simp only [Content.fields, List.forall_mem_cons, List.not_mem_nil, false_implies, implies_true, and_true]
  constructor
  · rintro ⟨-, -, -, -, hcall, -, -, -, -, -, -, -, himage, hsymbol, -⟩
    exact ⟨hcall, himage, hsymbol⟩
  · rintro ⟨hcall, himage, hsymbol⟩
    rw [kept_call ((same_kept_call_iff c).1 hcall), kept_byte fun _ _ => rfl, kept_byte fun _ _ => rfl,
      kept_byte fun _ _ => rfl]
    exact ⟨same_refl _, same_refl _, same_refl _, same_kept_alpha c, same_refl _, same_refl _, same_refl _,
      same_refl _, same_refl _, same_kept_fill c, same_kept_pattern _ c.angle, same_kept_pattern _ c.dist, himage,
      hsymbol, same_kept_inverse c⟩

end

/-- **Colors survive writing and reading exactly if they are faithful.** -/
theorem decode_encode {name value : Text} {a : Attributes} (h : (format name).decode value = .ok (some a)) :
    ∃ b, (format name).reread a = .ok (some b) ∧ (format name).encode b = (format name).encode a ∧
      ((format name).equivalent a b ↔ Faithful a) := by
  obtain ⟨c, hc⟩ := exists_says_of_decode h
  obtain ⟨b, hread, hb⟩ := exists_reread hc name
  have hencode : write b = write a := by
    rw [write, write, writeTokens_eq hb, writeTokens_eq hc, Content.kept_kept]
  exact ⟨b, hread, congrArg Text.nonempty? hencode, equivalent_kept_iff hc hb⟩

/-- A color of bytes hides one of expressions. -/
theorem not_equivalent_of_twoColors : ∃ a b, (format "objColor").decode "#FF0000 rgb(x, y, z)" = .ok (some a) ∧
    (format "objColor").reread a = .ok (some b) ∧ (format "objColor").encode b = (format "objColor").encode a ∧
      ¬(format "objColor").equivalent a b := by
  have hdecode : (format "objColor").decode "#FF0000 rgb(x, y, z)" = .ok (some (.table
      [("r", "255"), ("g", "0"), ("b", "0"), ("dynamicr", "x"), ("dynamicg", "y"), ("dynamicb", "z"),
        ("colorSpace", "0")])) := by decide +kernel
  obtain ⟨b, hread, hencode, hiff⟩ := decode_encode hdecode
  exact ⟨_, b, hdecode, hread, hencode, fun h => (hiff.1 h).oneColor ⟨rfl, rfl⟩⟩

end StyleScript.Color
