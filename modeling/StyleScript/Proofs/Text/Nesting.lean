import StyleScript.Proofs.Text.Division
/-!
# Texts in which everything closes

In a nested text every string and every bracket closes, and no bracket closes that is not open (`Nested`).  Brackets
count without their kinds, and what stands in a string does not count.

For a context that moves on by one character after the other this means two things: the outermost context stands at
the end, and no bracket closes where it stands (`nested_iff`).  The second is not implied, since a context passes over
a bracket that closes nothing.  A nested text always divides, and its parts are nested (`exists_divide_of_nested`).
-/
namespace StyleScript.Text

/-- What may stand between two quotes.  A backslash takes the character behind it along. -/
inductive StringBody : Text → Prop where
  | nil : StringBody []
  | char {c : Char} {body : Text} : c ≠ '"' → c ≠ '\\' → StringBody body → StringBody (c :: body)
  | escape {c : Char} {body : Text} : StringBody body → StringBody ('\\' :: c :: body)

/-- With so many brackets open in front of the text, every string and every bracket closes, and no bracket closes that
is not open. -/
inductive Nested : Nat → Text → Prop where
  | nil : Nested 0 []
  | char {depth : Nat} {c : Char} {u : Text} :
    c ≠ '"' → isOpener c = false → isCloser c = false → Nested depth u → Nested depth (c :: u)
  | opener {depth : Nat} {c : Char} {u : Text} : isOpener c → Nested (depth + 1) u → Nested depth (c :: u)
  | closer {depth : Nat} {c : Char} {u : Text} : isCloser c → Nested depth u → Nested (depth + 1) (c :: u)
  | string {depth : Nat} {body u : Text} : StringBody body → Nested depth u → Nested depth ('"' :: (body ++ '"' :: u))

/-- The outermost context stands at the end, and no bracket closes where it stands. -/
def nests : Context → Text → Bool
  | context, [] => context = .plain 0
  | context, c :: rest => !(context.outermost && isCloser c) && nests (context.next c) rest

variable {sep : Char → Bool} {context : Context} {depth : Nat} {c : Char} {u : Text}

/-! ## Both say the same -/

theorem isCloser_of_isOpener (h : isOpener c) : isCloser c = false := by
  simp only [isOpener, Bool.or_eq_true, decide_eq_true_eq] at h
  rcases h with (rfl | rfl) | rfl <;> rfl

theorem ne_quote_of_isOpener (h : isOpener c) : c ≠ '"' := by
  rintro rfl
  exact absurd h (by decide)

theorem ne_quote_of_isCloser (h : isCloser c) : c ≠ '"' := by
  rintro rfl
  exact absurd h (by decide)

theorem isOpener_of_isCloser (h : isCloser c) : isOpener c = false :=
  Bool.eq_false_iff.2 fun ho => Bool.false_ne_true ((isCloser_of_isOpener ho).symm.trans h)

theorem nests_of_stringBody {body : Text} (h : StringBody body) (rest : Text) :
    nests (.quoted depth) (body ++ '"' :: rest) = nests (.plain depth) rest := by
  induction h with
  | nil => rfl
  | @char c body hq hb _ ih =>
    have hnext : Context.next (.quoted depth) c = .quoted depth := by rw [Context.next, if_neg hb, if_neg hq]
    rw [List.cons_append, nests, hnext, ih]
    rfl
  | escape _ ih => exact ih

theorem nests_of_nested (h : Nested depth u) : nests (.plain depth) u := by
  induction h with
  | nil => rfl
  | char hq ho hc _ ih =>
    rw [nests, Context.next, if_neg hq, ho, hc, Bool.and_false]
    exact ih
  | opener ho _ ih =>
    rw [nests, Context.next, if_neg (ne_quote_of_isOpener ho), if_pos ho, isCloser_of_isOpener ho, Bool.and_false]
    exact ih
  | closer hc _ ih =>
    rw [nests, Context.next, if_neg (ne_quote_of_isCloser hc), isOpener_of_isCloser hc, if_pos hc]
    exact ih
  | @string depth body u hbody _ ih =>
    have hinside : nests (.plain depth) ('"' :: (body ++ '"' :: u)) = nests (.quoted depth) (body ++ '"' :: u) := by
      rw [nests, show isCloser '"' = false from rfl, Bool.and_false]
      rfl
    rw [hinside, nests_of_stringBody hbody]
    exact ih

/-- The string that a context stands in closes, and behind it the text is nested. -/
def Closes : Context → Text → Prop
  | .plain depth, u => Nested depth u
  | .quoted depth, u => ∃ body rest, u = body ++ '"' :: rest ∧ StringBody body ∧ Nested depth rest
  | .escaped depth, u => ∃ c body rest, u = c :: (body ++ '"' :: rest) ∧ StringBody body ∧ Nested depth rest

theorem closes_of_nests : ∀ {u : Text} {context : Context}, nests context u → Closes context u
  | [], _, h => by
    cases of_decide_eq_true h
    exact .nil
  | c :: u, .plain depth, h => by
    rw [nests, Bool.and_eq_true] at h
    obtain ⟨hguard, hrest⟩ := h
    have ih := closes_of_nests hrest
    rw [Context.next] at ih
    split at ih
    · next hq =>
      obtain ⟨body, rest, rfl, hbody, hnested⟩ := ih
      exact hq ▸ .string hbody hnested
    · next hq =>
      split at ih
      · next ho => exact .opener ho ih
      · next ho =>
        split at ih
        · next hc =>
          cases depth with
          | zero => rw [hc] at hguard; cases hguard
          | succ depth => exact .closer hc ih
        · next hc => exact .char hq (Bool.eq_false_iff.2 ho) (Bool.eq_false_iff.2 hc) ih
  | c :: u, .quoted depth, h => by
    rw [nests, Bool.and_eq_true] at h
    have ih := closes_of_nests h.2
    rw [Context.next] at ih
    split at ih
    · next hb =>
      obtain ⟨d, body, rest, rfl, hbody, hnested⟩ := ih
      exact ⟨'\\' :: d :: body, rest, by rw [hb]; rfl, .escape hbody, hnested⟩
    · next hb =>
      split at ih
      · next hq => exact ⟨[], u, by rw [hq]; rfl, .nil, ih⟩
      · next hq =>
        obtain ⟨body, rest, rfl, hbody, hnested⟩ := ih
        exact ⟨c :: body, rest, rfl, .char hq hb hbody, hnested⟩
  | c :: u, .escaped depth, h => by
    rw [nests, Bool.and_eq_true] at h
    obtain ⟨body, rest, rfl, hbody, hnested⟩ := closes_of_nests h.2
    exact ⟨c, body, rest, rfl, hbody, hnested⟩

/-- **A text is nested if the outermost context stands at its end, and no bracket closes where it stands.** -/
theorem nested_iff : Nested depth u ↔ nests (.plain depth) u := ⟨nests_of_nested, closes_of_nests⟩

instance (depth : Nat) (u : Text) : Decidable (Nested depth u) := decidable_of_iff _ nested_iff.symm

/-! ## What a nested text divides into -/

theorem foldl_next_of_nests : ∀ {u : Text} {context : Context}, nests context u →
    u.foldl Context.next context = .plain 0
  | [], _, h => of_decide_eq_true h
  | c :: u, context, h => by
    rw [nests, Bool.and_eq_true] at h
    rw [List.foldl_cons]
    exact foldl_next_of_nests h.2

theorem isCloser_of_isBlank (h : isBlank c) : isCloser c = false := by
  have hplain := (divides_of_isBlank h).plain
  rw [Bool.or_eq_false_iff] at hplain
  exact hplain.2

theorem nests_blanks : ∀ {gap : Text} {context : Context}, (∀ c ∈ gap, isBlank c) →
    (nests context gap ↔ context = .plain 0)
  | [], _, _ => decide_eq_true_iff
  | c :: gap, context, h => by
    rw [List.forall_mem_cons] at h
    have hcontext := @eq_plain_of_blanks [c] context (List.forall_mem_singleton.2 h.1)
    rw [nests, isCloser_of_isBlank h.1, Bool.and_false, Bool.not_false, Bool.true_and, nests_blanks h.2]
    exact hcontext

theorem nests_append_blanks {gap : Text} (h : ∀ c ∈ gap, isBlank c) : ∀ {u : Text} {context : Context},
    nests context (u ++ gap) = nests context u
  | [], context => Bool.eq_iff_iff.2 ((nests_blanks h).trans decide_eq_true_iff.symm)
  | c :: u, context => by rw [List.cons_append, nests, nests, nests_append_blanks h]

theorem nests_lead_blanks : ∀ {gap : Text}, (∀ c ∈ gap, isBlank c) → nests (.plain 0) (gap ++ u) = nests (.plain 0) u
  | [], _ => rfl
  | c :: gap, h => by
    rw [List.forall_mem_cons] at h
    rw [List.cons_append, nests, next_of_divides (divides_of_isBlank h.1), isCloser_of_isBlank h.1, Bool.and_false,
      nests_lead_blanks h.2]
    rfl

theorem nests_trim (h : nests (.plain 0) u) : nests (.plain 0) (trim u) := by
  obtain ⟨lead, tail, hu, hlead, htail⟩ := exists_gaps u
  rwa [hu, nests_append_blanks htail, nests_lead_blanks hlead] at h

/-- A division begins a piece where the outermost context stands, and so it leaves nothing open on either side. -/
theorem nests_of_mem_pieces : ∀ {u : Text} {context : Context} {piece : Text} {more : List Text},
    pieces sep context u = some (piece, more) → nests context u →
    nests context piece ∧ ∀ p ∈ more, nests (.plain 0) p
  | [], context, piece, more, h, hnests => by
    obtain rfl : context = .plain 0 := of_decide_eq_true hnests
    cases h
    exact ⟨rfl, List.forall_mem_nil _⟩
  | c :: u, context, piece, more, h, hnests => by
    obtain ⟨first, others, hpieces, hp⟩ := pieces_cons_eq_some.1 h
    rw [nests, Bool.and_eq_true] at hnests
    obtain ⟨hfirst, hothers⟩ := nests_of_mem_pieces hpieces hnests.2
    split at hp
    · next hdivides =>
      cases hp
      obtain ⟨rfl, hnext, -⟩ := of_dividesAt hdivides
      rw [hnext] at hfirst
      exact ⟨rfl, List.forall_mem_cons.2 ⟨hfirst, hothers⟩⟩
    · cases hp
      refine ⟨?_, hothers⟩
      rw [nests, hnests.1, hfirst]
      rfl

/-- **A nested text divides, and its parts are nested.** -/
theorem exists_divide_of_nested (sep : Char → Bool) (h : Nested 0 u) :
    ∃ ps, divide sep u = .ok ps ∧ ∀ p ∈ ps, Nested 0 p := by
  have hnests := nested_iff.1 h
  obtain ⟨piece, more, hpieces⟩ := @exists_pieces_of_balanced sep u _ (foldl_next_of_nests hnests)
  refine ⟨partsOf (piece :: more), divide_eq_ok.2 ⟨piece, more, hpieces, rfl⟩, fun p hp => ?_⟩
  obtain ⟨-, q, hq, rfl⟩ := mem_partsOf.1 hp
  obtain ⟨hpiece, hmore⟩ := nests_of_mem_pieces hpieces hnests
  have hall : ∀ q ∈ piece :: more, nests (.plain 0) q := List.forall_mem_cons.2 ⟨hpiece, hmore⟩
  exact nested_iff.2 (nests_trim (hall q hq))

end StyleScript.Text
