import StyleScript.Proofs.BarTag.Patterns
/-!
# Which bars survive writing and reading

Bars survive as colors do, with two exceptions: a bar is lost of which nothing is written, and a `|` in a pattern that
is written bare divides its block.  If no token divides, what is read again tells what is kept of the bars, and the rest
is a comparison of colors.  If a pattern divides, it is not read again, since whatever is read again is written
undivided; so what is read says something else (`survives_iff_lasting`).
-/
namespace StyleScript.BarTag

open Attributes (flatKey)
open Color (Content)
open Text (Part)

/-- A bar that survives: something is written of it, nothing of its color is lost, and no token divides its block. -/
structure Lasting (group : Attributes) : Prop where
  written : Color.writeTokens group ≠ []
  faithful : Color.Faithful group
  undivided : ∀ t ∈ Color.writeTokens group, Text.parts '|' t = .ok [t]

variable {attrs more : Attributes} {contents : Nat → Content}

/-- What says the same as attributes that were read again is written undivided. -/
theorem undivided_of_equivalent (h : Told attrs contents) (hreread : format.reread attrs = .ok (some more))
    (hsame : format.equivalent attrs more) {n : Nat} {t : Text} (ht : t ∈ (contents n).kept.texts) :
    Text.parts '|' t = .ok [t] := by
  refine ((Text.part_iff Text.divides_pipe).1 ?_).2
  rcases texts_cases ht with ⟨hpart, -⟩ | ⟨p, hp, v, hv, rfl⟩
  · exact hpart
  · have hvalue : attrs.get? (flatKey n p.attr) = some v := by
      rw [h.get?, find?_attr hp, value_of_kept p hp hv]
    have hsame := PropertyFormat.equivalent_iff.1 hsame (flatKey n p.attr)
    have hfirst : (format.complete attrs).get? (flatKey n p.attr) = some v := by
      show (complete attrs).get? _ = _
      rw [get?_complete, hvalue, Option.some_or]
    rw [hfirst] at hsame
    cases hw : (format.complete more).get? (flatKey n p.attr) with
    | none =>
      rw [hw] at hsame
      cases hsame
    | some w =>
      rw [hw] at hsame
      cases hsame with
      | some hsame =>
        refine part_pipe_of_same hp hsame ?_
        -- what is there was read again, or it is the default
        have hread : (complete more).get? (flatKey n p.attr) = some w := hw
        rw [get?_complete, Option.or_eq_some_iff] at hread
        rcases hread with hread | ⟨-, hdefault⟩
        · exact part_pipe_of_reread h hreread hp n hread
        · have hdefaults : ∀ p ∈ patterns, Color.defaults.get? p.attr = some p.default := by decide
          rw [hdefaults p hp] at hdefault
          split at hdefault
          · cases hdefault
            exact part_pipe_default hp
          · cases hdefault

/-- **Bars survive writing and reading exactly if each of them is lasting.** -/
theorem survives_iff_lasting {value : Text} {a : Attributes} (h : format.decode value = .ok (some a)) :
    format.Survives a ↔ ∀ bar ∈ a.grouped, Lasting bar.2 := by
  obtain ⟨contents, ha⟩ := exists_told_of_decode h
  have htokens : ∀ {bar : Nat × Attributes}, bar ∈ a.grouped → Color.writeTokens bar.2 = (contents bar.1).kept.texts :=
    fun hbar => Color.writeTokens_eq (ha.says_of_mem hbar)
  constructor
  · rintro ⟨b, hreread, hequivalent, -⟩
    have hundivided := fun n t (ht : t ∈ (contents n).kept.texts) =>
      undivided_of_equivalent ha hreread hequivalent ht
    obtain ⟨more, hmore, htold⟩ := exists_reread ha hundivided
    cases hreread.symm.trans hmore
    intro bar hbar
    obtain ⟨hwritten, hfaithful⟩ := (equivalent_kept_iff_bars ha htold).1 hequivalent bar hbar
    exact ⟨hwritten, hfaithful, fun t ht => hundivided bar.1 t (htokens hbar ▸ ht)⟩
  · intro hlasting
    have hundivided : ∀ n, ∀ t ∈ (contents n).kept.texts, Text.parts '|' t = .ok [t] := by
      intro n t ht
      have hn : contents n ≠ {} := fun hempty => by
        rw [hempty] at ht
        exact absurd ht List.not_mem_nil
      obtain ⟨group, hbar⟩ := mem_numbers.1 (ha.mem_numbers.2 hn)
      exact (hlasting _ hbar).undivided t ((htokens hbar).symm ▸ ht)
    obtain ⟨more, hmore, htold⟩ := exists_reread ha hundivided
    refine ⟨more, hmore, (equivalent_kept_iff_bars ha htold).2 fun bar hbar => ?_, encode_kept ha htold⟩
    exact ⟨(hlasting bar hbar).written, (hlasting bar hbar).faithful⟩

/-- A pattern with a `|` is divided. -/
theorem not_survives_of_pipe : ∃ a, format.decode "bar=1 angle=\"a|b\"" = .ok (some a) ∧ ¬format.Survives a := by
  have hdecode : format.decode "bar=1 angle=\"a|b\"" = .ok (some (.table [("1.hatchAngle", "a|b")])) := by
    decide +kernel
  have hbar : (1, Attributes.table [("hatchAngle", "a|b")]) ∈ (Attributes.table [("1.hatchAngle", "a|b")]).grouped :=
    Attributes.mem_grouped.2 (by decide +kernel)
  refine ⟨_, hdecode, fun hsurvives => ?_⟩
  have hundivided := ((survives_iff_lasting hdecode).1 hsurvives _ hbar).undivided
  have hparts := hundivided "angle=a|b" (by decide +kernel)
  exact absurd hparts (by decide +kernel)

end StyleScript.BarTag
