import StyleScript.Text.Quoted
import StyleScript.Proofs.Text.Classes
/-!
# A quoted text reads back

`quote` and `readQuoted` are inverse on every text (`readQuoted_quote`), and so are `quoteIfNeeded` and
`scalar` (`scalar_quoteIfNeeded`): a text that is left bare has no blank to trim and does not begin with a
quote.
-/
namespace StyleScript.Text

/-! ## Behind the opening quote -/

theorem readOn_cons {c : Char} (hq : c ≠ '"') (hb : c ≠ '\\') (rest : Text) :
    readOn (c :: rest) = (readOn rest).map fun (content, after) => (c :: content, after) := by
  rw [readOn]
  · exact hq
  · exact fun h => absurd h hb
  · exact fun _ _ h => absurd h hb

theorem readOn_escaped (c : Char) (rest : Text) :
    readOn ('\\' :: c :: rest) = (readOn rest).map fun (content, after) => (unescape c :: content, after) := by
  rw [readOn]

/-- One character as it is written is read as that character. -/
theorem readOn_escape (c : Char) (rest : Text) :
    readOn (escape c ++ rest) = (readOn rest).map fun (content, after) => (c :: content, after) := by
  unfold escape
  split
  · next h => rw [h]; exact readOn_escaped 'n' rest
  · split
    · next h => rw [h]; exact readOn_escaped 'r' rest
    · split
      · next h => rw [h]; exact readOn_escaped 't' rest
      · split
        · next h => rw [h]; exact readOn_escaped '"' rest
        · next hq =>
          split
          · next h => rw [h]; exact readOn_escaped '\\' rest
          · next hb => exact readOn_cons hq hb rest

theorem readOn_flatMap_escape : ∀ (text rest : Text),
    readOn (text.flatMap escape ++ '"' :: rest) = some (text, rest)
  | [], rest => by rw [List.flatMap_nil, List.nil_append, readOn]
  | c :: text, rest => by
    rw [List.flatMap_cons, List.append_assoc, readOn_escape, readOn_flatMap_escape text rest]
    rfl

/-! ## Whole values -/

/-- **A quoted text reads back**, whatever follows it. -/
theorem readQuoted_quote (text rest : Text) : readQuoted (quote text ++ rest) = .ok (text, rest) := by
  have h : quote text ++ rest = '"' :: (text.flatMap escape ++ '"' :: rest) := by simp [quote]
  rw [h]
  simp only [readQuoted, readOn_flatMap_escape]

theorem trimmed_quote (text : Text) : Trimmed (quote text) := by
  constructor
  · intro c hc
    have : '"' = c := by simpa [quote] using hc
    rw [← this]
    decide
  · intro c hc
    have : '"' = c := by
      rw [quote, List.getLast?_concat] at hc
      exact Option.some.inj hc
    rw [← this]
    decide

theorem scalar_quote (text : Text) : scalar (quote text) = .ok text := by
  have hq : quote text = '"' :: (text.flatMap escape ++ ['"']) := by simp [quote]
  have hr := readQuoted_quote text []
  rw [List.append_nil, hq] at hr
  rw [scalar, trim_eq_self (trimmed_quote text), hq]
  simp only [hr, bind, Except.bind, List.isEmpty_nil, if_true]

theorem scalar_of_trim {text : Text} (hq : (trim text).head? ≠ some '"') : scalar text = .ok (trim text) := by
  rw [scalar]
  split
  · next rest htrim =>
    rw [htrim] at hq
    exact absurd rfl hq
  · rfl

theorem scalar_bare {text : Text} (ht : Trimmed text) (hq : text.head? ≠ some '"') : scalar text = .ok text := by
  have htrim := trim_eq_self ht
  have hscalar := scalar_of_trim (htrim.symm ▸ hq)
  rwa [htrim] at hscalar

/-! ## Texts that stay bare -/

theorem of_not_needsQuoting {text : Text} (h : needsQuoting text = false) :
    text ≠ [] ∧ holds "//" text = false ∧ bracketsClose 0 text = true ∧ ∀ c ∈ text, breaksToken c = false := by
  simp only [needsQuoting, Bool.or_eq_false_iff, Bool.not_eq_false', List.any_eq_false, Bool.not_eq_true] at h
  obtain ⟨⟨⟨hne, hc⟩, hb⟩, ht⟩ := h
  refine ⟨?_, hc, hb, ht⟩
  rintro rfl
  cases hne

theorem isBlank_of_not_breaksToken {c : Char} (h : breaksToken c = false) : isBlank c = false := by
  simp only [breaksToken, Bool.or_eq_false_iff] at h
  exact h.2

theorem ne_quote_of_not_breaksToken {c : Char} (h : breaksToken c = false) : c ≠ '"' := by
  rintro rfl
  exact absurd h (by decide)

theorem trimmed_of_not_needsQuoting {text : Text} (h : needsQuoting text = false) : Trimmed text :=
  trimmed_of_no_blank fun c hc => isBlank_of_not_breaksToken ((of_not_needsQuoting h).2.2.2 c hc)

theorem trimmed_quoteIfNeeded (text : Text) : Trimmed (quoteIfNeeded text) := by
  unfold quoteIfNeeded
  split
  · exact trimmed_quote text
  · next h => exact trimmed_of_not_needsQuoting (Bool.not_eq_true _ ▸ h)

theorem quoteIfNeeded_ne_nil (text : Text) : quoteIfNeeded text ≠ [] := by
  unfold quoteIfNeeded
  split
  · simp [quote]
  · next h => exact (of_not_needsQuoting (Bool.not_eq_true _ ▸ h)).1

/-- **A text survives being written as one token.** -/
theorem scalar_quoteIfNeeded (text : Text) : scalar (quoteIfNeeded text) = .ok text := by
  unfold quoteIfNeeded
  split
  · exact scalar_quote text
  · next h =>
    have hbare := of_not_needsQuoting (Bool.not_eq_true _ ▸ h)
    refine scalar_bare (trimmed_of_not_needsQuoting (Bool.not_eq_true _ ▸ h)) fun hq => ?_
    exact ne_quote_of_not_breaksToken (hbare.2.2.2 _ (List.mem_of_mem_head? hq)) rfl

/-- A token is never blank, so it is not taken for a missing value. -/
theorem isBlankText_quoteIfNeeded (text : Text) : isBlankText (quoteIfNeeded text) = false := by
  obtain ⟨c, rest, hc⟩ := List.exists_cons_of_ne_nil (quoteIfNeeded_ne_nil text)
  have hhead : isBlank c = false := (trimmed_quoteIfNeeded text).1 c (by rw [hc]; rfl)
  rw [isBlankText, hc, List.all_cons, hhead, Bool.false_and]

end StyleScript.Text
