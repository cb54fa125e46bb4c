import Mathlib.Data.List.TakeWhile
import StyleScript.Number.Reading
import StyleScript.Proofs.Text.Tokens
/-!
# How numbers are spelled

Whatever is read as a number consists of ASCII letters, digits, signs and points, and of at least one of them
(`spelled_of_float?`).  So a number needs no quotes to stay one token, the blanks around it aside.
-/
namespace StyleScript.Text

/-- A character that a number can be spelled with. -/
def isSpelling (c : Char) : Bool := c.isAlphanum || c = '+' || c = '-' || c = '.'

/-- A text that a number could be spelled by. -/
structure Spelled (text : Text) : Prop where
  ne_nil : text ≠ []
  all : ∀ c ∈ text, isSpelling c

theorem isSpelling_of_isDigit {c : Char} (h : c.isDigit) : isSpelling c := by
  rw [isSpelling, Char.isAlphanum, h, Bool.or_true]
  rfl

theorem isSpelling_of_isAlpha {c : Char} (h : c.isAlpha) : isSpelling c := by
  rw [isSpelling, Char.isAlphanum, h]
  rfl

theorem isPlain_of_isSpelling {c : Char} (h : isSpelling c) : isPlain c := by
  simp only [isSpelling, Bool.or_eq_true, decide_eq_true_eq] at h
  rcases h with ((h | rfl) | rfl) | rfl
  · exact isPlain_of_alphanumeric (by rw [h]; rfl)
  · decide
  · decide
  · decide

theorem Spelled.cons {text : Text} {c : Char} (h : Spelled text) (hc : isSpelling c) : Spelled (c :: text) :=
  ⟨List.cons_ne_nil c text, List.forall_mem_cons.2 ⟨hc, h.all⟩⟩

theorem spelled_digits {text : Text} (hne : text ≠ []) (h : allDigits text) : Spelled text :=
  ⟨hne, fun c hc => isSpelling_of_isDigit (List.all_eq_true.1 h c hc)⟩

theorem spelled_of_isPlainNumber {text : Text} (h : isPlainNumber text) : Spelled text := by
  unfold isPlainNumber at h
  split at h
  · rw [Bool.and_eq_true, Bool.not_eq_true', List.isEmpty_eq_false_iff] at h
    exact spelled_digits h.1 h.2
  · next whole fraction hcut =>
    simp only [Bool.and_eq_true, Bool.not_eq_true', List.isEmpty_eq_false_iff] at h
    obtain ⟨⟨⟨hwhole, hdigits⟩, hfraction⟩, hmore⟩ := h
    rw [(cut?_eq_some hcut).1]
    have hall := (spelled_digits hwhole hdigits).all
    refine ⟨List.append_ne_nil_of_left_ne_nil hwhole _, List.forall_mem_append.2 ⟨hall, ?_⟩⟩
    exact ((spelled_digits hfraction hmore).cons (by decide)).all

/-! ## Words -/

theorem isAlpha_of_isAlpha_toLower {c : Char} (h : c.toLower.isAlpha) : c.isAlpha := by
  by_cases hupper : c.isUpper
  · exact (Bool.or_eq_true _ _).mpr (.inl hupper)
  · have hlower : c.toLower = c := dif_neg fun hrange => hupper (decide_eq_true hrange)
    rwa [hlower] at h

theorem spelled_of_lowered {text word : Text} (h : lowered text = word) (hne : word ≠ [])
    (hword : word.all Char.isAlpha) : Spelled text := by
  rw [← h, lowered] at hne hword
  refine ⟨fun hnil => hne (by rw [hnil]; rfl), fun c hc => ?_⟩
  exact isSpelling_of_isAlpha (isAlpha_of_isAlpha_toLower (List.all_eq_true.1 hword _ (List.mem_map_of_mem hc)))

/-! ## Decimals -/

theorem spelled_of_exponent? {text : Text} {e : Int} (h : exponent? text = some e) : Spelled text := by
  have hdigits : ∀ {text : Text}, (!text.isEmpty && allDigits text) = true → Spelled text := by
    intro text h
    rw [Bool.and_eq_true, Bool.not_eq_true', List.isEmpty_eq_false_iff] at h
    exact spelled_digits h.1 h.2
  rw [exponent?.eq_def] at h
  split at h
  · split at h
    · next hall => exact (hdigits hall).cons (by decide)
    · cases h
  · split at h
    · next hall => exact (hdigits hall).cons (by decide)
    · cases h
  · split at h
    · next hall => exact hdigits hall
    · cases h

theorem spelled_of_decimalParts? {text : Text} {p : Text × Text × Int} (h : decimalParts? text = some p) :
    Spelled text := by
  refine ⟨fun hnil => ?_, ?_⟩
  · rw [hnil] at h
    cases (show none = some p from h)
  · have hdigits : ∀ {u : Text} {c : Char}, c ∈ u.takeWhile Char.isDigit → isSpelling c := fun hc =>
      isSpelling_of_isDigit (List.mem_takeWhile_imp hc)
    have hletter : ∀ {c : Char} {written : Text} {f : Int → Text × Text × Int},
        (if c = 'e' || c = 'E' then (exponent? written).map f else none) = some p →
        ∀ x ∈ c :: written, isSpelling x := by
      intro c written f h
      split at h
      · next hletter =>
        obtain ⟨e, he, -⟩ := Option.map_eq_some_iff.1 h
        rw [Bool.or_eq_true, decide_eq_true_eq, decide_eq_true_eq] at hletter
        refine List.forall_mem_cons.2 ⟨?_, (spelled_of_exponent? he).all⟩
        rcases hletter with rfl | rfl
        · decide
        · decide
      · cases h
    simp only [decimalParts?] at h
    rw [← @List.takeWhile_append_dropWhile _ Char.isDigit text, List.forall_mem_append]
    refine ⟨fun c hc => hdigits hc, ?_⟩
    generalize text.dropWhile Char.isDigit = rest at *
    split at h
    · next more =>
      rw [List.forall_mem_cons, ← @List.takeWhile_append_dropWhile _ Char.isDigit more, List.forall_mem_append]
      split at h
      · cases h
      · refine ⟨by decide, fun c hc => hdigits hc, ?_⟩
        split at h
        · next hnil =>
          rw [hnil]
          exact List.forall_mem_nil _
        · next hcons =>
          rw [hcons]
          exact hletter h
    · split at h
      · cases h
      · split at h
        · exact List.forall_mem_nil _
        · exact hletter h

theorem spelled_of_magnitude? {negative : Bool} {text : Text} {x : Binary64} (h : magnitude? negative text = some x) :
    Spelled text := by
  rw [magnitude?] at h
  split at h
  · next hword =>
    rw [Bool.or_eq_true, decide_eq_true_eq, decide_eq_true_eq] at hword
    rcases hword with hword | hword
    · exact spelled_of_lowered hword (by decide) (by decide)
    · exact spelled_of_lowered hword (by decide) (by decide)
  · split at h
    · next hword => exact spelled_of_lowered hword (by decide) (by decide)
    · obtain ⟨p, hp, -⟩ := Option.map_eq_some_iff.1 h
      exact spelled_of_decimalParts? hp

/-- **What is read as a number is spelled with letters, digits, signs and points.** -/
theorem spelled_of_float? {text : Text} {x : Binary64} (h : float? text = some x) : Spelled text := by
  unfold float? at h
  split at h
  · exact (spelled_of_magnitude? h).cons (by decide)
  · exact (spelled_of_magnitude? h).cons (by decide)
  · exact spelled_of_magnitude? h

/-- A number stays one token. -/
theorem Spelled.part {text : Text} (h : Spelled text) : Part isBlank text :=
  part_of_plain h.ne_nil (List.all_eq_true.2 fun c hc => isPlain_of_isSpelling (h.all c hc))

theorem Spelled.ne_quote {text : Text} (h : Spelled text) : text.head? ≠ some '"' := fun hq => by
  have := h.all _ (List.mem_of_mem_head? hq)
  exact absurd this (by decide)

/-! ## Numbers with blanks around them -/

/-- Blanks aside, the text is a number. -/
def IsNumber (text : Text) : Prop := ∃ x, float? (trim text) = some x

theorem isNumber_of_number {what text : Text} {x : Binary64} (h : number what text = .ok x) : IsNumber text := by
  rw [number] at h
  split at h
  · exact ⟨_, ‹_›⟩
  · cases h

theorem isNumber_of_truncated {what text : Text} {n : Int} (h : truncated what text = .ok n) : IsNumber text := by
  obtain ⟨x, hx, -⟩ := bind_eq_ok.1 h
  exact isNumber_of_number hx

namespace IsNumber

variable {text : Text}

theorem spelled (h : IsNumber text) : Spelled (Text.trim text) := h.elim fun _ hx => spelled_of_float? hx

theorem spelled_of_trimmed (h : IsNumber text) (ht : Trimmed text) : Spelled text := trim_eq_self ht ▸ h.spelled

theorem number (h : IsNumber text) (what : Text) : ∃ x, Text.number what text = .ok x := by
  obtain ⟨x, hx⟩ := h
  refine ⟨x, ?_⟩
  rw [Text.number, hx]

theorem trim (h : IsNumber text) : IsNumber (Text.trim text) := by
  obtain ⟨x, hx⟩ := h
  exact ⟨x, by rwa [trim_eq_self (trimmed_trim text)]⟩

end IsNumber

end StyleScript.Text
