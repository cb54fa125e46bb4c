import StyleScript.Proofs.Text.Tokens
/-!
# Parts of parts

A value is divided into parts, and a part into tokens.  That is one division at both separators
(`subset_of_divide`), since the outermost context stands where a value divides.

A text is whole exactly if no division falls into it and the outermost context stands behind it (`whole_iff`); so what
a balanced text divides into are parts that stay whole when they are written between others (`part_of_mem_divide`).
-/
namespace StyleScript.Text

variable {sep other : Char → Bool} {context : Context} {u v : Text} {c x : Char}

/-! ## Undivided texts -/

/-- Whether a division falls on the character. -/
def dividesAt (sep : Char → Bool) (context : Context) (c : Char) : Bool :=
  context.outermost && sep c && !(c = '"' || isOpener c || isCloser c)

/-- No division falls into the text. -/
def undivided (sep : Char → Bool) : Context → Text → Bool
  | _, [] => true
  | context, c :: rest => !dividesAt sep context c && undivided sep (context.next c) rest

theorem next_of_divides (h : Divides sep c) (depth : Nat) : Context.next (.plain depth) c = .plain depth := by
  have hplain := h.plain
  simp only [Bool.or_eq_false_iff, decide_eq_false_iff_not] at hplain
  rw [Context.next, if_neg hplain.1.1, hplain.1.2, hplain.2]
  rfl

/-- Where a value divides the outermost context stands, and stands again. -/
theorem of_dividesAt (h : dividesAt sep context c) :
    context = .plain 0 ∧ context.next c = .plain 0 ∧ Divides sep c := by
  simp only [dividesAt, Bool.and_eq_true, Bool.not_eq_true'] at h
  have hc : Divides sep c := ⟨h.1.2, h.2⟩
  cases context with
  | plain depth =>
    obtain rfl : depth = 0 := of_decide_eq_true h.1.1
    exact ⟨rfl, next_of_divides hc 0, hc⟩
  | quoted _ => exact nomatch h.1.1
  | escaped _ => exact nomatch h.1.1

theorem dividesAt_of_divides (h : Divides sep c) : dividesAt sep (.plain 0) c := by
  rw [dividesAt, h.sep, h.plain]
  rfl

/-- A character ends the piece before it, or it belongs to the piece behind it. -/
theorem pieces_cons (sep : Char → Bool) (context : Context) (c : Char) (rest : Text) : pieces sep context (c :: rest) =
    (pieces sep (context.next c) rest).map fun (piece, more) =>
      if dividesAt sep context c then ([], piece :: more) else (c :: piece, more) := by
  rw [pieces, ← dividesAt]
  by_cases h : dividesAt sep context c
  · obtain ⟨hcontext, hnext, -⟩ := of_dividesAt h
    rw [if_pos h, hnext, ← hcontext]
    simp only [h, if_true]
  · rw [if_neg h]
    simp only [h, if_false, Bool.false_eq_true]

theorem pieces_cons_eq_some {rest piece : Text} {more : List Text} :
    pieces sep context (c :: rest) = some (piece, more) ↔ ∃ first others,
      pieces sep (context.next c) rest = some (first, others) ∧
        (piece, more) = if dividesAt sep context c then ([], first :: others) else (c :: first, others) := by
  rw [pieces_cons, Option.map_eq_some_iff]
  constructor
  · rintro ⟨⟨first, others⟩, hpieces, h⟩
    exact ⟨first, others, hpieces, h.symm⟩
  · rintro ⟨first, others, hpieces, h⟩
    exact ⟨(first, others), hpieces, h.symm⟩

theorem undivided_append : ∀ {u : Text} {context : Context}, undivided sep context (u ++ v) =
    (undivided sep context u && undivided sep (u.foldl Context.next context) v)
  | [], _ => (Bool.true_and _).symm
  | c :: u, context => by
    rw [List.cons_append, undivided, undivided_append, undivided, List.foldl_cons, Bool.and_assoc]

theorem whole_of_undivided : ∀ {u : Text} {context : Context}, undivided sep context u →
    Whole sep context u (u.foldl Context.next context)
  | [], context, _ => whole_nil sep context
  | c :: u, context, h => by
    rw [undivided, Bool.and_eq_true, Bool.not_eq_true'] at h
    have hchar : Whole sep context [c] (context.next c) := by
      intro w
      rw [List.singleton_append, pieces_cons, h.1]
      rfl
    exact hchar.append (whole_of_undivided h.2)

/-- A text in front of which nothing divides, in front of a separator that divides. -/
theorem undivided_of_pieces (hx : Divides sep x) : ∀ {u : Text} {context : Context},
    pieces sep context (u ++ [x]) = some (u, [[]]) → undivided sep context u ∧ u.foldl Context.next context = .plain 0
  | [], context, h => by
    obtain ⟨first, others, -, hp⟩ := pieces_cons_eq_some.1 h
    split at hp
    · next hdivides => exact ⟨rfl, (of_dividesAt hdivides).1⟩
    · cases hp
  | c :: u, context, h => by
    obtain ⟨first, others, hpieces, hp⟩ := pieces_cons_eq_some.1 h
    split at hp
    · cases hp
    · next hdivides =>
      cases hp
      obtain ⟨hundivided, hnext⟩ := undivided_of_pieces hx hpieces
      rw [undivided, Bool.eq_false_iff.2 hdivides]
      exact ⟨hundivided, hnext⟩

/-- **A text is whole if no division falls into it and the outermost context stands behind it.** -/
theorem whole_iff (hx : Divides sep x) : Whole sep context u (.plain 0) ↔
    undivided sep context u ∧ u.foldl Context.next context = .plain 0 := by
  constructor
  · intro h
    refine undivided_of_pieces hx ?_
    rw [h, pieces_cons, dividesAt_of_divides hx, next_of_divides hx]
    show some (u ++ [], [[]]) = some (u, [[]])
    rw [List.append_nil]
  · rintro ⟨hundivided, hnext⟩
    exact hnext ▸ whole_of_undivided hundivided

/-! ## Balanced texts -/

/-- Behind the text the outermost context stands again. -/
def Balanced (text : Text) : Prop := text.foldl Context.next (.plain 0) = .plain 0

theorem Balanced.append (hu : Balanced u) (hv : Balanced v) : Balanced (u ++ v) := by
  rw [Balanced, List.foldl_append, hu, hv]

theorem Part.balanced (hx : Divides sep x) (h : Part sep u) : Balanced u := ((whole_iff hx).1 h.whole).2

/-- A part none of whose characters is another separator. -/
theorem Part.of_not_sep (hx : Divides sep x) (h : Part sep u) (hother : ∀ c ∈ u, other c = false) : Part other u := by
  have hwhole := @whole_of_not_sep other u (.plain 0) hother
  rw [h.balanced hx] at hwhole
  exact ⟨hwhole, h.trimmed, h.ne_nil⟩

/-- What stands behind blanks in the outermost context stood there before. -/
theorem eq_plain_of_blanks : ∀ {gap : Text} {context : Context}, (∀ c ∈ gap, isBlank c) →
    (gap.foldl Context.next context = .plain 0 ↔ context = .plain 0)
  | [], _, _ => Iff.rfl
  | c :: gap, context, h => by
    rw [List.forall_mem_cons] at h
    rw [List.foldl_cons, eq_plain_of_blanks h.2]
    have hc := divides_of_isBlank h.1
    cases context with
    | plain depth => rw [next_of_divides hc]
    | quoted depth =>
      have hquote : c ≠ '"' := fun hq => by have := hc.plain; rw [hq] at this; exact nomatch this
      rw [Context.next, if_neg hquote]
      split
      · exact iff_of_false Context.noConfusion Context.noConfusion
      · exact iff_of_false Context.noConfusion Context.noConfusion
    | escaped depth => exact iff_of_false Context.noConfusion Context.noConfusion

theorem balanced_trim (h : Balanced u) : Balanced (trim u) := by
  obtain ⟨lead, tail, hu, hlead, htail⟩ := exists_gaps u
  have hopen := (eq_plain_of_blanks hlead).2 (show Context.plain 0 = .plain 0 from rfl)
  rwa [hu, Balanced, List.foldl_append, List.foldl_append, hopen, eq_plain_of_blanks htail] at h

theorem undivided_trim (h : undivided sep (.plain 0) u) : undivided sep (.plain 0) (trim u) := by
  obtain ⟨lead, tail, hu, hlead, -⟩ := exists_gaps u
  have hopen := (eq_plain_of_blanks hlead).2 (show Context.plain 0 = .plain 0 from rfl)
  rw [hu, undivided_append, undivided_append, hopen, Bool.and_eq_true, Bool.and_eq_true] at h
  exact h.1.2

/-! ## What a balanced text divides into -/

theorem exists_pieces_of_balanced : ∀ {u : Text} {context : Context}, u.foldl Context.next context = .plain 0 →
    ∃ piece more, pieces sep context u = some (piece, more)
  | [], context, h => by
    obtain rfl : context = .plain 0 := h
    exact ⟨[], [], rfl⟩
  | c :: u, context, h => by
    obtain ⟨first, others, hpieces⟩ := @exists_pieces_of_balanced u _ h
    rw [pieces_cons, hpieces]
    exact ⟨_, _, rfl⟩

theorem exists_divide_of_balanced (sep : Char → Bool) (h : Balanced u) : ∃ ps, divide sep u = .ok ps := by
  obtain ⟨piece, more, hpieces⟩ := @exists_pieces_of_balanced sep u _ h
  exact ⟨_, divide_eq_ok.2 ⟨piece, more, hpieces, rfl⟩⟩

/-- No division falls into the pieces. -/
theorem undivided_of_mem_pieces : ∀ {u : Text} {context : Context} {piece : Text} {more : List Text},
    pieces sep context u = some (piece, more) →
    undivided sep context piece ∧ ∀ p ∈ more, undivided sep (.plain 0) p
  | [], context, piece, more, h => by
    rw [pieces] at h
    split at h
    · cases h
    · cases h
      exact ⟨rfl, List.forall_mem_nil _⟩
  | c :: u, context, piece, more, h => by
    obtain ⟨first, others, hpieces, hp⟩ := pieces_cons_eq_some.1 h
    obtain ⟨hfirst, hothers⟩ := undivided_of_mem_pieces hpieces
    split at hp
    · next hdivides =>
      cases hp
      rw [(of_dividesAt hdivides).2.1] at hfirst
      exact ⟨rfl, List.forall_mem_cons.2 ⟨hfirst, hothers⟩⟩
    · next hdivides =>
      cases hp
      refine ⟨?_, hothers⟩
      rw [undivided, Bool.eq_false_iff.2 hdivides]
      exact hfirst

/-- The pieces of a balanced text are balanced. -/
theorem balanced_of_mem_pieces : ∀ {u : Text} {context : Context} {piece : Text} {more : List Text},
    pieces sep context u = some (piece, more) → u.foldl Context.next context = .plain 0 →
    piece.foldl Context.next context = .plain 0 ∧ ∀ p ∈ more, Balanced p
  | [], context, piece, more, h, hbalanced => by
    obtain rfl : context = .plain 0 := hbalanced
    cases h
    exact ⟨rfl, List.forall_mem_nil _⟩
  | c :: u, context, piece, more, h, hbalanced => by
    obtain ⟨first, others, hpieces, hp⟩ := pieces_cons_eq_some.1 h
    obtain ⟨hfirst, hothers⟩ := balanced_of_mem_pieces hpieces hbalanced
    split at hp
    · next hdivides =>
      cases hp
      obtain ⟨hcontext, hnext, -⟩ := of_dividesAt hdivides
      rw [hnext] at hfirst
      exact ⟨hcontext, List.forall_mem_cons.2 ⟨hfirst, hothers⟩⟩
    · cases hp
      exact ⟨hfirst, hothers⟩

theorem forall_mem_pieces {piece : Text} {more : List Text} (h : pieces sep (.plain 0) u = some (piece, more))
    (hu : Balanced u) : ∀ p ∈ piece :: more, undivided sep (.plain 0) p ∧ Balanced p :=
  have ⟨hpiece, hmore⟩ := undivided_of_mem_pieces h
  have ⟨hbalanced, hothers⟩ := balanced_of_mem_pieces h hu
  List.forall_mem_cons.2 ⟨⟨hpiece, hbalanced⟩, fun p hp => ⟨hmore p hp, hothers p hp⟩⟩

theorem mem_partsOf {ps : List Text} {p : Text} : p ∈ partsOf ps ↔ p ≠ [] ∧ ∃ piece ∈ ps, trim piece = p := by
  rw [partsOf, List.mem_filter, List.mem_map, Bool.not_eq_true', List.isEmpty_eq_false_iff, and_comm]

theorem trimmed_of_mem_divide {ps : List Text} {p : Text} (h : divide sep u = .ok ps) (hp : p ∈ ps) : Trimmed p := by
  obtain ⟨piece, more, -, rfl⟩ := divide_eq_ok.1 h
  obtain ⟨-, q, -, rfl⟩ := mem_partsOf.1 hp
  exact trimmed_trim q

theorem undivided_of_mem_divide {ps : List Text} {p : Text} (h : divide sep u = .ok ps) (hp : p ∈ ps) :
    undivided sep (.plain 0) p := by
  obtain ⟨piece, more, hpieces, rfl⟩ := divide_eq_ok.1 h
  obtain ⟨-, q, hq, rfl⟩ := mem_partsOf.1 hp
  obtain ⟨hpiece, hmore⟩ := undivided_of_mem_pieces hpieces
  have hall : ∀ q ∈ piece :: more, undivided sep (.plain 0) q := List.forall_mem_cons.2 ⟨hpiece, hmore⟩
  exact undivided_trim (hall q hq)

/-- What stands in a token behind a balanced lead begins with no blank. -/
theorem trimmed_of_append_mem_tokens {ts : List Text} {lead : Text} (h : tokens u = .ok ts) (hmem : lead ++ v ∈ ts)
    (hlead : Balanced lead) : Trimmed v := by
  have hundivided := undivided_of_mem_divide h hmem
  rw [undivided_append, hlead, Bool.and_eq_true] at hundivided
  constructor
  · intro c hc
    obtain ⟨rest, rfl⟩ := List.head?_eq_some_iff.1 hc
    rw [undivided, Bool.and_eq_true, Bool.not_eq_true'] at hundivided
    refine Bool.eq_false_iff.2 fun hblank => ?_
    have hdivides := dividesAt_of_divides (divides_of_isBlank hblank)
    rw [hundivided.2.1] at hdivides
    cases hdivides
  · intro c hc
    have hne : v ≠ [] := fun hnil => by rw [hnil] at hc; cases hc
    have hlast := (trimmed_of_mem_divide h hmem).2
    rw [List.getLast?_append_of_ne_nil _ hne] at hlast
    exact hlast c hc

/-- **What a balanced text divides into are parts.** -/
theorem part_of_mem_divide (hx : Divides sep x) (hu : Balanced u) {ps : List Text} (h : divide sep u = .ok ps) :
    ∀ p ∈ ps, Part sep p := by
  obtain ⟨piece, more, hpieces, rfl⟩ := divide_eq_ok.1 h
  intro p hp
  obtain ⟨hne, q, hq, rfl⟩ := mem_partsOf.1 hp
  obtain ⟨hundivided, hbalanced⟩ := forall_mem_pieces hpieces hu q hq
  exact ⟨(whole_iff hx).2 ⟨undivided_trim hundivided, balanced_trim hbalanced⟩, trimmed_trim q, hne⟩

theorem part_iff (hx : Divides sep x) : Part sep u ↔ Balanced u ∧ divide sep u = .ok [u] := by
  constructor
  · exact fun h => ⟨h.balanced hx, h.dividesInto.atEnd⟩
  · exact fun ⟨hbalanced, h⟩ => part_of_mem_divide hx hbalanced h u List.mem_cons_self

/-- A balanced text divides in front of others as it does alone. -/
theorem pieces_append_of_balanced (hx : Divides sep x) {w : Text} {q : Text} {qs : List Text}
    (hw : pieces sep (.plain 0) w = some (q, qs)) : ∀ {u : Text} {context : Context} {piece : Text} {more : List Text},
    pieces sep context u = some (piece, more) → u.foldl Context.next context = .plain 0 →
    pieces sep context (u ++ x :: w) = some (piece, more ++ q :: qs)
  | [], context, piece, more, h, hbalanced => by
    obtain rfl : context = .plain 0 := hbalanced
    cases h
    rw [List.nil_append, pieces_cons, dividesAt_of_divides hx, next_of_divides hx, hw]
    rfl
  | c :: u, context, piece, more, h, hbalanced => by
    obtain ⟨first, others, hpieces, hp⟩ := pieces_cons_eq_some.1 h
    have hrest := pieces_append_of_balanced hx hw hpieces hbalanced
    refine pieces_cons_eq_some.2 ⟨first, others ++ q :: qs, hrest, ?_⟩
    split at hp
    · next hdivides =>
      cases hp
      rw [if_pos hdivides]
      rfl
    · next hdivides =>
      cases hp
      rw [if_neg hdivides]

theorem partsOf_append (ps qs : List Text) : partsOf (ps ++ qs) = partsOf ps ++ partsOf qs := by
  rw [partsOf, List.map_append, List.filter_append]
  rfl

theorem Balanced.dividesInto (hu : Balanced u) {ps : List Text} (h : divide sep u = .ok ps) : DividesInto sep u ps where
  atEnd := h
  before := by
    intro x w qs hx hw
    obtain ⟨piece, more, hpieces, rfl⟩ := divide_eq_ok.1 h
    obtain ⟨first, rest, hfirst, rfl⟩ := divide_eq_ok.1 hw
    refine divide_eq_ok.2 ⟨piece, more ++ first :: rest, pieces_append_of_balanced hx hfirst hpieces hu, ?_⟩
    rw [← partsOf_append]
    rfl

theorem subset_of_pieces : ∀ {u : Text} {context : Context} {piece : Text} {more : List Text},
    pieces sep context u = some (piece, more) → ∀ p ∈ piece :: more, p ⊆ u
  | [], context, piece, more, h => by
    rw [pieces] at h
    split at h
    · cases h
    · cases h
      exact List.forall_mem_singleton.2 (List.Subset.refl _)
  | c :: u, context, piece, more, h => by
    obtain ⟨first, others, hpieces, hp⟩ := pieces_cons_eq_some.1 h
    have hall := subset_of_pieces hpieces
    split at hp
    · cases hp
      exact List.forall_mem_cons.2 ⟨List.nil_subset _, fun p hp => List.subset_cons_of_subset c (hall p hp)⟩
    · cases hp
      rw [List.forall_mem_cons] at hall
      exact List.forall_mem_cons.2 ⟨List.cons_subset_cons c hall.1, fun p hp =>
        List.subset_cons_of_subset c (hall.2 p hp)⟩

theorem trim_subset (text : Text) : trim text ⊆ text := by
  obtain ⟨lead, tail, htext, -, -⟩ := exists_gaps text
  intro c hc
  rw [htext]
  exact List.mem_append_left _ (List.mem_append_right _ hc)

/-- The parts of a text hold only its characters. -/
theorem subset_of_mem_divide {ps : List Text} (h : divide sep u = .ok ps) : ∀ p ∈ ps, p ⊆ u := by
  obtain ⟨piece, more, hpieces, rfl⟩ := divide_eq_ok.1 h
  intro p hp
  obtain ⟨-, q, hq, rfl⟩ := mem_partsOf.1 hp
  exact List.Subset.trans (trim_subset q) (subset_of_pieces hpieces q hq)

/-! ## Dividing twice -/

section

variable {coarse fine : Char → Bool}

/-- Where either separator divides. -/
def either (coarse fine : Char → Bool) (c : Char) : Bool := coarse c || fine c

theorem dividesAt_either : dividesAt (either coarse fine) context c =
    (dividesAt coarse context c || dividesAt fine context c) := by
  rw [dividesAt, dividesAt, dividesAt, either]
  cases context.outermost <;> cases coarse c <;> cases fine c <;> simp

theorem undivided_either : ∀ {u : Text} {context : Context}, undivided (either coarse fine) context u =
    (undivided coarse context u && undivided fine context u)
  | [], _ => rfl
  | c :: u, context => by
    rw [undivided, dividesAt_either, undivided_either, undivided, undivided, Bool.not_or]
    simp only [Bool.and_assoc, Bool.and_left_comm]

theorem part_either_iff {y : Char} (hx : Divides coarse x) (hy : Divides fine y) :
    Part (either coarse fine) u ↔ Part coarse u ∧ Part fine u := by
  have hboth : Divides (either coarse fine) x := ⟨by rw [either, hx.sep, Bool.true_or], hx.plain⟩
  constructor
  · rintro ⟨hwhole, htrimmed, hne⟩
    rw [whole_iff hboth, undivided_either, Bool.and_eq_true] at hwhole
    exact ⟨⟨(whole_iff hx).2 ⟨hwhole.1.1, hwhole.2⟩, htrimmed, hne⟩,
      ⟨(whole_iff hy).2 ⟨hwhole.1.2, hwhole.2⟩, htrimmed, hne⟩⟩
  · rintro ⟨h, k⟩
    refine ⟨(whole_iff hboth).2 ⟨?_, h.balanced hx⟩, h.trimmed, h.ne_nil⟩
    rw [undivided_either, ((whole_iff hx).1 h.whole).1, ((whole_iff hy).1 k.whole).1]
    rfl

/-- The pieces of the pieces are pieces at both separators. -/
theorem subset_of_pieces_of_pieces : ∀ {u : Text} {context : Context} {piece : Text} {more : List Text},
    pieces coarse context u = some (piece, more) → u.foldl Context.next context = .plain 0 →
    ∃ q qs, pieces (either coarse fine) context u = some (q, qs) ∧
      (∃ rs, pieces fine context piece = some (q, rs) ∧ rs ⊆ qs) ∧
      ∀ p ∈ more, ∃ r rs, pieces fine (.plain 0) p = some (r, rs) ∧ r :: rs ⊆ qs
  | [], context, piece, more, h, hbalanced => by
    obtain rfl : context = .plain 0 := hbalanced
    cases h
    exact ⟨[], [], rfl, ⟨[], rfl, List.Subset.refl _⟩, List.forall_mem_nil _⟩
  | c :: u, context, piece, more, h, hbalanced => by
    obtain ⟨first, others, hpieces, hp⟩ := pieces_cons_eq_some.1 h
    obtain ⟨q, qs, hq, ⟨rs, hrs, hsub⟩, hmore⟩ := subset_of_pieces_of_pieces hpieces hbalanced
    have hmore' : ∀ p ∈ others, ∃ r rs, pieces fine (.plain 0) p = some (r, rs) ∧ r :: rs ⊆ q :: qs := fun p hp =>
      have ⟨r, rs, hr, hsub⟩ := hmore p hp
      ⟨r, rs, hr, List.subset_cons_of_subset q hsub⟩
    by_cases hcoarse : dividesAt coarse context c
    · obtain ⟨rfl, hnext, -⟩ := of_dividesAt hcoarse
      rw [if_pos hcoarse] at hp
      cases hp
      refine ⟨[], q :: qs, pieces_cons_eq_some.2 ⟨q, qs, hq, ?_⟩, ⟨[], rfl, List.nil_subset _⟩,
        List.forall_mem_cons.2 ⟨⟨q, rs, hnext ▸ hrs, List.cons_subset_cons q hsub⟩, hmore'⟩⟩
      rw [dividesAt_either, hcoarse, Bool.true_or, if_pos rfl]
    · rw [if_neg hcoarse] at hp
      cases hp
      by_cases hfine : dividesAt fine context c
      · refine ⟨[], q :: qs, pieces_cons_eq_some.2 ⟨q, qs, hq, ?_⟩,
          ⟨q :: rs, pieces_cons_eq_some.2 ⟨q, rs, hrs, ?_⟩, List.cons_subset_cons q hsub⟩, hmore'⟩
        · rw [dividesAt_either, hfine, Bool.or_true, if_pos rfl]
        · rw [if_pos hfine]
      · refine ⟨c :: q, qs, pieces_cons_eq_some.2 ⟨q, qs, hq, ?_⟩,
          ⟨rs, pieces_cons_eq_some.2 ⟨q, rs, hrs, ?_⟩, hsub⟩, hmore⟩
        · rw [dividesAt_either, Bool.eq_false_iff.2 hcoarse, Bool.eq_false_iff.2 hfine]
          rfl
        · rw [if_neg hfine]

/-- Blanks around a balanced text are no tokens. -/
theorem Balanced.tokens_of_trim (hu : Balanced u) {ts : List Text} (h : tokens (trim u) = .ok ts) :
    tokens u = .ok ts := by
  obtain ⟨lead, tail, htext, hlead, htail⟩ := exists_gaps u
  have := (((balanced_trim hu).dividesInto h).lead_blanks hlead).append_blanks htail
  rw [← htext] at this
  exact this.atEnd

/-- **The tokens of the parts are what the text divides into at both separators.** -/
theorem subset_of_divide (hu : Balanced u) {ps ts us : List Text} {p : Text} (hps : divide coarse u = .ok ps)
    (hp : p ∈ ps) (hts : tokens p = .ok ts) (hus : divide (either coarse isBlank) u = .ok us) : ts ⊆ us := by
  obtain ⟨piece, more, hpieces, rfl⟩ := divide_eq_ok.1 hps
  obtain ⟨q, qs, hq, ⟨first, hfirst, hsub⟩, hmore⟩ := @subset_of_pieces_of_pieces coarse isBlank u _ _ _ hpieces hu
  obtain ⟨q', qs', hq', rfl⟩ := divide_eq_ok.1 hus
  cases hq.symm.trans hq'
  obtain ⟨-, m, hm, rfl⟩ := mem_partsOf.1 hp
  have hbalanced := (forall_mem_pieces hpieces hu m hm).2
  have hall : ∀ m ∈ piece :: more, ∃ r rs, pieces isBlank (.plain 0) m = some (r, rs) ∧ r :: rs ⊆ q :: qs := by
    refine List.forall_mem_cons.2 ⟨⟨q, first, hfirst, List.cons_subset_cons q hsub⟩, fun m hm => ?_⟩
    obtain ⟨r, rs, hr, hsub⟩ := hmore m hm
    exact ⟨r, rs, hr, List.subset_cons_of_subset q hsub⟩
  obtain ⟨r, rs, hr, hrs⟩ := hall m hm
  obtain ⟨r', rs', hr', rfl⟩ := divide_eq_ok.1 (hbalanced.tokens_of_trim hts)
  cases hr.symm.trans hr'
  intro t ht
  obtain ⟨hne, s, hs, hst⟩ := mem_partsOf.1 ht
  exact mem_partsOf.2 ⟨hne, s, hrs hs, hst⟩

end

/-! ## Parts with bars between them -/

theorem divides_pipe : Divides (· = '|') '|' := ⟨rfl, by decide⟩

theorem part_pipe_of_not_mem {t : Text} (h : Part isBlank t) (hno : '|' ∉ t) : Part (· = '|') t :=
  h.of_not_sep divides_blank fun _ hc => decide_eq_false fun heq => hno (heq ▸ hc)

/-! ## Blanks around the separators -/

theorem trim_cons_of_isBlank (h : isBlank c) (text : Text) : trim (c :: text) = trim text := by
  rw [trim, trimLeft, List.dropWhile_cons_of_pos h]
  rfl

theorem divide_cons_of_isBlank (hc : isBlank c) {ps : List Text} (h : divide sep u = .ok ps) :
    divide sep (c :: u) = .ok ps := by
  obtain ⟨piece, more, hpieces, rfl⟩ := divide_eq_ok.1 h
  rw [← next_of_divides (divides_of_isBlank hc)] at hpieces
  by_cases hdivides : dividesAt sep (.plain 0) c
  · refine divide_eq_ok.2 ⟨[], piece :: more, pieces_cons_eq_some.2 ⟨piece, more, hpieces, ?_⟩, rfl⟩
    rw [if_pos hdivides]
  · refine divide_eq_ok.2 ⟨c :: piece, more, pieces_cons_eq_some.2 ⟨piece, more, hpieces, ?_⟩, ?_⟩
    · rw [if_neg hdivides]
    · rw [partsOf_cons, partsOf_cons, trim_cons_of_isBlank hc]

theorem DividesInto.cons_of_isBlank (hc : isBlank c) {ps : List Text} (h : DividesInto sep u ps) :
    DividesInto sep (c :: u) ps where
  atEnd := divide_cons_of_isBlank hc h.atEnd
  before hx hw := divide_cons_of_isBlank hc (h.before hx hw)

theorem Part.dividesInto_space (h : Part sep u) : DividesInto sep (u ++ [' ']) [u] := by
  cases hsep : sep ' ' with
  | true => exact h.dividesInto.append ⟨hsep, by decide⟩ (dividesInto_nil sep)
  | false =>
    have hwhole := (h.whole.append (whole_char (x := ' ') (.inr hsep))).dividesInto
    have htrim := @trim_append_blank u h.trimmed h.ne_nil [' '] (List.forall_mem_singleton.2 (by decide))
    rwa [htrim, nonempty?, List.isEmpty_eq_false_iff.2 h.ne_nil] at hwhole

/-- **Parts with blanks around the separators between them are divided again.** -/
theorem dividesInto_join_spaced (hx : Divides sep x) : ∀ {ps : List Text}, (∀ p ∈ ps, Part sep p) →
    DividesInto sep (join [' ', x, ' '] ps) ps
  | [], _ => dividesInto_nil sep
  | [p], h => (h p List.mem_cons_self).dividesInto
  | p :: next :: ps, h => by
    rw [List.forall_mem_cons] at h
    have hrest := (dividesInto_join_spaced hx h.2).cons_of_isBlank (c := ' ') (by decide)
    have hall := h.1.dividesInto_space.append hx hrest
    rw [List.append_assoc] at hall
    rw [join, List.append_assoc]
    exact hall

end StyleScript.Text
