import StyleScript.Proofs.Number.Decimals
/-!
# Written numbers read back

The shortest decimal of a magnitude lies in its interval (`holds_shortest`): seventeen digits are a grid so fine that
the nearer of the two neighbours always does.  Its positional text writes the same decimal (`magnitude?_text`), so that
every number is read back from its text (`float?_text`).
-/
namespace StyleScript.Binary64

/-! ## The neighbours on a grid -/

theorem grid_eq (e : Int) : grid e = one * 10 ^ e.toNat := by rw [grid, Nat.pow_eq]

theorem lift_eq (e : Int) : lift e = 10 ^ (-e).toNat := by rw [lift, Nat.pow_eq]

theorem grid_pos (e : Int) : 0 < grid e := grid_eq e ▸ Nat.mul_pos one_pos (Nat.pow_pos (by decide))

theorem lift_pos (e : Int) : 0 < lift e := lift_eq e ▸ Nat.pow_pos (by decide)

namespace Interval

variable {i : Interval} {e : Int} {digits : Nat}

theorem covers_of_holds (h : i.holds e digits) : i.Covers (digits * grid e) (lift e) := by
  rw [holds, Nat.mul_assoc] at h
  split at h
  · next hclosed =>
    rw [Bool.and_eq_true, decide_eq_true_eq, decide_eq_true_eq] at h
    exact ⟨h.1, h.2, fun hopen => absurd (hclosed.symm.trans hopen) (by decide)⟩
  · rw [Bool.and_eq_true, decide_eq_true_eq, decide_eq_true_eq] at h
    exact ⟨h.1.le, h.2.le, fun _ => h⟩

theorem holds_of_inside (hlow : i.low * lift e < 4 * (digits * grid e))
    (hhigh : 4 * (digits * grid e) < i.high * lift e) : i.holds e digits := by
  rw [holds, Nat.mul_assoc]
  split
  · rw [decide_eq_true hlow.le, decide_eq_true hhigh.le]
    rfl
  · rw [decide_eq_true hlow, decide_eq_true hhigh]
    rfl

end Interval

/-- On a grid that is fine enough, the nearer neighbour of a magnitude lies in its interval. -/
theorem exists_onGrid {units : Nat} {e : Int} (hpos : 0 < units) (hfine : 2 * grid e < below units * lift e) :
    ∃ d, onGrid? units e = some d := by
  have hgrid := grid_pos e
  have hmod : units * lift e / grid e * grid e + units * lift e % grid e = units * lift e := Nat.div_add_mod' ..
  have hlt : units * lift e % grid e < grid e := Nat.mod_lt _ hgrid
  have hbelow : below units * lift e ≤ 2 * spacing units * lift e := Nat.mul_le_mul_right _ (below_le units)
  have hstep : 2 * spacing units * lift e ≤ 4 * (units * lift e) := by
    rw [← Nat.mul_assoc]
    exact Nat.mul_le_mul_right _ (by have := spacing_le hpos; omega)
  have hlow : (4 * units - below units) * lift e = 4 * (units * lift e) - below units * lift e := by
    rw [Nat.sub_mul, Nat.mul_assoc]
  have hhigh : (4 * units + 2 * spacing units) * lift e = 4 * (units * lift e) + 2 * spacing units * lift e := by
    rw [Nat.add_mul, Nat.mul_assoc]
  have hnext : (units * lift e / grid e + 1) * grid e = units * lift e / grid e * grid e + grid e := Nat.succ_mul ..
  rw [onGrid?]
  by_cases hnear : 2 * (units * lift e % grid e) < grid e
  · have hholds : (interval units).holds e (units * lift e / grid e) := by
      refine Interval.holds_of_inside ?_ ?_ <;> rw [interval_eq] <;> dsimp only
      · rw [hlow]; omega
      · rw [hhigh]; omega
    rw [hholds, decide_eq_true hnear]
    exact ⟨_, rfl⟩
  · have hholds : (interval units).holds e (units * lift e / grid e + 1) := by
      refine Interval.holds_of_inside ?_ ?_ <;> rw [interval_eq, hnext] <;> dsimp only
      · rw [hlow]; omega
      · rw [hhigh]; omega
    rw [if_pos hholds]
    split <;> exact ⟨_, rfl⟩

theorem holds_of_onGrid? {units : Nat} {e : Int} {d : Decimal} (h : onGrid? units e = some d) :
    (interval units).holds d.exponent d.digits := by
  rw [onGrid?] at h
  split at h
  · next hlower =>
    cases h
    exact (Bool.and_eq_true_iff.1 hlower).1
  · split at h
    · next hupper =>
      cases h
      exact hupper
    · cases h

/-! ## Seventeen digits -/

theorem below_fine (units : Nat) : 2 * units < 10 ^ 16 * below units := by
  obtain ⟨k, hlow, hhigh⟩ := exists_binade units
  have hstep := spacing_eq hlow hhigh
  have hk : 0 < 2 ^ k := Nat.two_pow_pos k
  rw [Nat.pow_add] at hhigh
  rw [below]
  split
  · next h =>
    have hleast : units = 2 ^ 52 * spacing units := of_decide_eq_true (Bool.and_eq_true_iff.1 h).2
    rw [hstep] at hleast ⊢
    omega
  · rw [hstep]
    omega

theorem grid_wholeDigits_le {units : Nat} (hpos : 0 < units) :
    10 ^ 16 * grid (wholeDigits units - 17) ≤ units * lift (wholeDigits units - 17) := by
  obtain ⟨a, ha, hone⟩ : ∃ a, a = 400 ∧ one ≤ Nat.pow 10 a := ⟨400, rfl, by decide +kernel⟩
  have hwhole : wholeDigits units = (Text.ofNat (units * Nat.pow 10 a / one)).length - (400 : Int) := by
    rw [ha, wholeDigits]
  -- the digits of the magnitude, with all that are behind the point counted in
  have hlead : 10 ^ ((Text.ofNat (units * Nat.pow 10 a / one)).length - 1) * one ≤ units * Nat.pow 10 a := by
    refine (Nat.le_div_iff_mul_le one_pos).1 (Text.pow_length_ofNat_le (Nat.div_pos ?_ one_pos))
    exact Nat.le_trans hone (Nat.le_mul_of_pos_left _ hpos)
  have hlength := Text.length_ofNat_pos (units * Nat.pow 10 a / one)
  rw [hwhole, grid_eq, lift_eq]
  generalize (Text.ofNat (units * Nat.pow 10 a / one)).length = n at *
  generalize hup : (n - (400 : Int) - 17).toNat = up
  generalize hdown : (-(n - (400 : Int) - 17)).toNat = down
  have hexponents : 16 + (up + a) = n - 1 + down := by omega
  rw [Nat.pow_eq] at hlead
  generalize one = unit at *
  have hscaled : 10 ^ 16 * (unit * 10 ^ up) * 10 ^ a ≤ units * 10 ^ down * 10 ^ a := by
    calc 10 ^ 16 * (unit * 10 ^ up) * 10 ^ a = 10 ^ (16 + (up + a)) * unit := by
          rw [Nat.pow_add, Nat.pow_add]
          ring
      _ = 10 ^ (n - 1) * unit * 10 ^ down := by rw [hexponents, Nat.pow_add, Nat.mul_right_comm]
      _ ≤ units * 10 ^ a * 10 ^ down := Nat.mul_le_mul_right _ hlead
      _ = units * 10 ^ down * 10 ^ a := Nat.mul_right_comm ..
  exact Nat.le_of_mul_le_mul_right hscaled (Nat.pow_pos (by decide))

/-- **The shortest decimal lies in the interval.** -/
theorem holds_shortest {units : Nat} (hpos : 0 < units) :
    (interval units).holds (shortest units).exponent (shortest units).digits := by
  have hfine : 2 * grid (wholeDigits units - 17) < below units * lift (wholeDigits units - 17) := by
    have hgrid := grid_wholeDigits_le hpos
    have hbelow : 2 * units * lift (wholeDigits units - 17) < 10 ^ 16 * below units * lift (wholeDigits units - 17) :=
      Nat.mul_lt_mul_of_pos_right (below_fine units) (lift_pos _)
    rw [Nat.mul_assoc, Nat.mul_assoc] at hbelow
    omega
  obtain ⟨d, hd⟩ := exists_onGrid hpos hfine
  rw [shortest]
  cases hfound : (List.range 17).findSome? fun (n : Nat) => onGrid? units (wholeDigits units - (n + 1)) with
  | none =>
    have hlast := List.findSome?_eq_none_iff.1 hfound 16 (by decide)
    rw [show wholeDigits units - ((16 : Nat) + 1) = wholeDigits units - 17 by omega, hd] at hlast
    cases hlast
  | some d =>
    obtain ⟨n, -, hn⟩ := List.exists_of_findSome?_eq_some hfound
    exact holds_of_onGrid? hn

/-! ## Positional texts -/

theorem exists_zeros (text : Text) : ∃ n, text = dropZeros text ++ List.replicate n '0' := by
  refine ⟨(text.reverse.takeWhile (· = '0')).length, ?_⟩
  have hzeros : text.reverse.takeWhile (· = '0') =
      List.replicate (text.reverse.takeWhile (· = '0')).length '0' :=
    List.eq_replicate_of_mem fun c hc => by
      have := List.mem_takeWhile_imp hc
      exact of_decide_eq_true this
  rw [dropZeros, ← List.reverse_replicate, ← hzeros, ← List.reverse_append, List.takeWhile_append_dropWhile,
    List.reverse_reverse]

theorem all_isDigit_zeros (n : Nat) : (List.replicate n '0').all Char.isDigit :=
  List.all_eq_true.2 fun _ hc => List.eq_of_mem_replicate hc ▸ rfl

/-- Zeros before digits do not count, and digits behind zeros are cut off with their value. -/
theorem digitsValue_padded (n k : Nat) :
    Text.digitsValue 0 (List.replicate k '0' ++ Text.ofNat n) = n := by
  rw [Text.digitsValue_append, Text.digitsValue_zeros, Nat.zero_mul, Text.digitsValue_ofNat]

/-- The digits of a decimal's text before and behind the point, and that they are worth the decimal. -/
structure Decimal.Parts (d : Decimal) (whole fraction : Text) : Prop where
  text : d.text = if fraction.isEmpty then whole else whole ++ '.' :: fraction
  nonempty : whole ≠ []
  wholeDigits : whole.all Char.isDigit
  fractionDigits : fraction.all Char.isDigit
  value : ∃ c, 0 < c ∧ d.digits * grid d.exponent = Text.digitsValue 0 (whole ++ fraction) * one * c ∧
    lift d.exponent = 10 ^ fraction.length * c

/-- Without a point, zeros stand behind the digits. -/
theorem Decimal.parts_ofNat (digits e : Nat) :
    Decimal.Parts ⟨digits, .ofNat e⟩ (Text.ofNat digits ++ List.replicate e '0') [] where
  text := rfl
  nonempty := List.append_ne_nil_of_left_ne_nil Nat.toDigits_ne_nil _
  wholeDigits := by
    rw [List.all_append, all_isDigit_zeros, Bool.and_true]
    exact Text.allDigits_ofNat digits
  fractionDigits := rfl
  value := by
    refine ⟨1, Nat.one_pos, ?_, ?_⟩
    · rw [grid_eq, List.append_nil, Text.digitsValue_append, Text.digitsValue_ofNat, Text.digitsValue_zeros,
        Nat.mul_one, Nat.mul_assoc, Nat.mul_comm one]
      rfl
    · rw [lift_eq, show (-Int.ofNat e).toNat = 0 by rw [Int.ofNat_eq_natCast]; omega]
      rfl

/-- The zeros that are cut off behind the point are the common factor. -/
theorem Decimal.parts_negSucc (digits e : Nat) {padded : Text}
    (hpadded : padded = List.replicate (e + 2 - (Text.ofNat digits).length) '0' ++ Text.ofNat digits) :
    Decimal.Parts ⟨digits, .negSucc e⟩ (padded.take (padded.length - (e + 1)))
      (dropZeros (padded.drop (padded.length - (e + 1)))) := by
  have hlength : e + 2 ≤ padded.length := by
    rw [hpadded, List.length_append, List.length_replicate]
    omega
  have hall : ∀ c ∈ padded, c.isDigit := by
    rw [hpadded, ← List.all_eq_true, List.all_append, all_isDigit_zeros, Bool.true_and]
    exact Text.allDigits_ofNat digits
  have htext : Decimal.text ⟨digits, .negSucc e⟩ =
      if (dropZeros (padded.drop (padded.length - (e + 1)))).isEmpty then padded.take (padded.length - (e + 1))
      else padded.take (padded.length - (e + 1)) ++ '.' :: dropZeros (padded.drop (padded.length - (e + 1))) := by
    rw [hpadded]
    rfl
  have hvalue : Text.digitsValue 0 padded = digits := hpadded ▸ digitsValue_padded ..
  generalize hcut : padded.length - (e + 1) = cut at *
  obtain ⟨n, hn⟩ := exists_zeros (padded.drop cut)
  refine ⟨htext, ?_, ?_, ?_, 10 ^ n, Nat.pow_pos (by decide), ?_, ?_⟩
  · rw [Ne, List.take_eq_nil_iff, ← List.length_eq_zero_iff]
    omega
  · exact List.all_eq_true.2 fun c hc => hall c (List.mem_of_mem_take hc)
  · refine List.all_eq_true.2 fun c hc => hall c (List.mem_of_mem_drop (i := cut) ?_)
    rw [hn]
    exact List.mem_append_left _ hc
  · have hcutoff : Text.digitsValue 0 (padded.take cut ++ dropZeros (padded.drop cut)) * 10 ^ n = digits := by
      rw [← Text.digitsValue_zeros, ← Text.digitsValue_append, List.append_assoc, ← hn, List.take_append_drop, hvalue]
    rw [grid_eq, Int.toNat_negSucc, Nat.pow_zero, Nat.mul_one]
    exact hcutoff ▸ Nat.mul_right_comm ..
  · have hplaces := congrArg List.length hn
    rw [List.length_drop, List.length_append, List.length_replicate] at hplaces
    rw [lift_eq, ← Nat.pow_add, ← hplaces]
    exact congrArg (10 ^ ·) (show e + 1 = padded.length - cut by omega)

theorem Decimal.exists_parts : ∀ d : Decimal, ∃ whole fraction, d.Parts whole fraction
  | ⟨digits, .ofNat e⟩ => ⟨_, _, parts_ofNat digits e⟩
  | ⟨digits, .negSucc e⟩ => ⟨_, _, parts_negSucc digits e rfl⟩

theorem exists_cons_text (d : Decimal) : ∃ c text, d.text = c :: text ∧ c.isDigit := by
  obtain ⟨whole, fraction, htext, hne, hwhole, -⟩ := d.exists_parts
  obtain ⟨c, whole, rfl⟩ := List.exists_cons_of_ne_nil hne
  have hc : c.isDigit := List.all_eq_true.1 hwhole c List.mem_cons_self
  rw [htext]
  split
  · exact ⟨c, whole, rfl, hc⟩
  · exact ⟨c, whole ++ '.' :: fraction, rfl, hc⟩

/-- A decimal in the interval of a magnitude is read as the magnitude. -/
theorem magnitude?_text {units : Nat} {d : Decimal} (negative : Bool) (hunits : Representable units)
    (hpos : 0 < units) (h : (interval units).holds d.exponent d.digits) :
    Text.magnitude? negative d.text = some (finite negative units) := by
  obtain ⟨whole, fraction, htext, hne, hwhole, hfraction, c, hc, hgrid, hlift⟩ := d.exists_parts
  have hcovers := Interval.covers_of_holds h
  rw [hgrid, hlift, covers_mul_right hc] at hcovers
  rw [htext, Text.magnitude?_positional hne hwhole hfraction]
  exact congrArg some (ofDecimal_places negative hunits hpos hcovers)

/-! ## Numbers -/

/-- What a number can be: its magnitude is one of the finite ones. -/
structure IsValue (x : Binary64) : Prop where
  representable : ∀ negative units, x = finite negative units → Representable units

/-- **Every number is read back from its text.** -/
theorem float?_text {x : Binary64} (h : x.IsValue) : Text.float? x.text = some x := by
  cases x with
  | nan => rfl
  | infinity negative => cases negative <;> rfl
  | finite negative units =>
    have hread : ∃ c rest, (if units = 0 then ['0'] else (shortest units).text) = c :: rest ∧ c.isDigit ∧
        Text.magnitude? negative (c :: rest) = some (finite negative units) := by
      split
      · next h0 => exact ⟨'0', [], rfl, rfl, by rw [h0]; rfl⟩
      · next hpos =>
        have hpos := Nat.pos_of_ne_zero hpos
        have hread := magnitude?_text negative (h.representable _ _ rfl) hpos (holds_shortest hpos)
        obtain ⟨c, rest, htext, hc⟩ := exists_cons_text (shortest units)
        exact ⟨c, rest, htext, hc, htext ▸ hread⟩
    obtain ⟨c, rest, htext, hc, hmagnitude⟩ := hread
    rw [text, htext]
    cases negative with
    | false => exact (Text.float?_of_isDigit hc).trans hmagnitude
    | true => exact hmagnitude

theorem isValue_ofUnits (negative : Bool) (num : Nat) {den : Nat} (hden : 0 < den) :
    (ofUnits negative num den).IsValue := by
  cases Nat.lt_or_ge (roundUnits num den) overflow with
  | inl h =>
    rw [ofUnits, if_pos h]
    refine ⟨fun negative units hx => ?_⟩
    cases hx
    exact ⟨spacing_roundUnits_dvd num hden, h⟩
  | inr h =>
    rw [ofUnits, if_neg (Nat.not_lt.2 h)]
    exact ⟨fun _ _ hx => Binary64.noConfusion hx⟩

theorem isValue_ofRatio (num : Nat) {den : Nat} (hden : 0 < den) : (ofRatio num den).IsValue := by
  rw [ofRatio]
  exact isValue_ofUnits false _ hden

/-- There are no blanks in a positional text. -/
theorem isBlank_of_mem_text {d : Decimal} {c : Char} (hc : c ∈ d.text) : Text.isBlank c = false := by
  obtain ⟨whole, fraction, htext, -, hwhole, hfraction, -⟩ := d.exists_parts
  have hall : ∀ c ∈ whole, Text.isBlank c = false :=
    fun c hc => Text.isBlank_of_isDigit (List.all_eq_true.1 hwhole c hc)
  rw [htext] at hc
  split at hc
  · exact hall c hc
  · rcases List.mem_append.1 hc with hc | hc
    · exact hall c hc
    · rcases List.mem_cons.1 hc with rfl | hc
      · rfl
      · exact Text.isBlank_of_isDigit (List.all_eq_true.1 hfraction c hc)

theorem trim_text (x : Binary64) : Text.trim x.text = x.text := by
  cases x with
  | nan => rfl
  | infinity negative => cases negative <;> rfl
  | finite negative units =>
    refine Text.trim_eq_self (Text.trimmed_of_no_blank fun c hc => ?_)
    rw [text] at hc
    rcases List.mem_append.1 hc with hc | hc
    · cases negative with
      | false => exact absurd hc List.not_mem_nil
      | true =>
        rw [List.mem_singleton.1 hc]
        rfl
    · split at hc
      · rw [List.mem_singleton.1 hc]
        rfl
      · exact isBlank_of_mem_text hc

end StyleScript.Binary64
