import StyleScript.Script.Cursor
import StyleScript.Proofs.Text.Quoted
/-!
# Raw text that is taken whole

Raw text ends at a line break, a `;`, a comment or a stop character, but not inside of brackets or strings.
`through?` follows the contexts over a text and fails where raw text would end, so that a text is taken whole
in front of anything that ends it as soon as `through?` comes back to the outermost context
(`raw_append_of_through?`).  It composes: what is written piece by piece is followed piece by piece
(`through?_append`).  Only a comment looks further than one character, so two pieces must not make a `//`
between them, which is `Joined`.

Quoted texts and bare tokens pass (`through?_quote`, `through?_of_not_needsQuoting`), and values made of them
are `Closed`: no reader of raw text ends inside of one or runs past it.
-/
namespace StyleScript.Lexeme

open Text (Context)

/-- The context behind a text, all of which raw text takes. -/
def through? (stop : Char → Bool) : Context → Text → Option Context
  | context, [] => some context
  | .plain depth, c :: rest =>
    if depth = 0 && (endsRaw stop (c :: rest) || Text.isCloser c) then none
    else through? stop (Context.next (.plain depth) c) rest
  | context, c :: rest => through? stop (context.next c) rest

/-- Two texts that make no comment where they meet. -/
def Joined (u w : Text) : Prop := u.getLast? = some '/' → w.head? ≠ some '/'

theorem joined_of_head {u w : Text} (h : w.head? ≠ some '/') : Joined u w := fun _ => h

theorem joined_of_getLast {u w : Text} (h : u.getLast? ≠ some '/') : Joined u w := fun hu => absurd hu h

theorem Joined.tail {c : Char} {u w : Text} (h : Joined (c :: u) w) : Joined u w := by
  intro hu
  refine h ?_
  cases u with
  | nil => cases hu
  | cons d u => rw [List.getLast?_cons_cons]; exact hu

/-! ## One character -/

theorem startsComment_iff {text : Text} : startsComment text ↔ ∃ rest, text = '/' :: '/' :: rest := by
  unfold startsComment
  split
  · next rest => exact ⟨fun _ => ⟨rest, rfl⟩, fun _ => rfl⟩
  · next h => exact ⟨fun he => Bool.noConfusion he, fun ⟨rest, he⟩ => absurd he (h rest)⟩

theorem startsComment_append {c : Char} {u w : Text} (h : Joined (c :: u) w) :
    startsComment (c :: u ++ w) = startsComment (c :: u) := by
  cases u with
  | cons d u => by_cases hc : c = '/' <;> by_cases hd : d = '/' <;> simp [startsComment, hc, hd]
  | nil =>
    by_cases hc : c = '/'
    · subst hc
      have hw := h rfl
      cases w with
      | nil => rfl
      | cons d w =>
        have hd : d ≠ '/' := fun hd => hw (by rw [hd]; rfl)
        simp [startsComment, hd]
    · simp [startsComment, hc]

theorem endsRaw_append (stop : Char → Bool) {c : Char} {u w : Text} (h : Joined (c :: u) w) :
    endsRaw stop (c :: u ++ w) = endsRaw stop (c :: u) := by
  have hs := startsComment_append h
  rw [List.cons_append] at hs ⊢
  simp only [endsRaw, hs]

theorem endsRaw_append_of_endsRaw {stop : Char → Bool} {c : Char} {u : Text} (w : Text)
    (h : endsRaw stop (c :: u)) : endsRaw stop (c :: (u ++ w)) := by
  simp only [endsRaw, Bool.or_eq_true] at h ⊢
  rcases h with h | h
  · exact .inl h
  · obtain ⟨rest, hrest⟩ := startsComment_iff.1 h
    refine .inr (startsComment_iff.2 ⟨rest ++ w, ?_⟩)
    rw [← List.cons_append, hrest]
    rfl

/-! ## Composing -/

theorem through?_append (stop : Char → Bool) : ∀ {u w : Text} (context : Context), Joined u w →
    through? stop context (u ++ w) = (through? stop context u).bind (through? stop · w)
  | [], w, context, _ => by cases context <;> rfl
  | c :: u, w, .plain depth, h => by
    rw [List.cons_append]
    simp only [through?]
    rw [show endsRaw stop (c :: (u ++ w)) = endsRaw stop (c :: u) from endsRaw_append stop h]
    split
    · rfl
    · exact through?_append stop _ h.tail
  | c :: u, w, .quoted depth, h => through?_append stop (Context.next (.quoted depth) c) h.tail
  | c :: u, w, .escaped depth, h => through?_append stop (Context.next (.escaped depth) c) h.tail

/-- What raw text takes whole it takes in front of what it takes next. -/
theorem raw_append_of_through? (stop : Char → Bool) : ∀ {u w taken left : Text} {context next : Context},
    Joined u w → through? stop context u = some next → raw stop next w = .ok (taken, left) →
    raw stop context (u ++ w) = .ok (u ++ taken, left)
  | [], w, taken, left, context, next, _, hu, hw => by
    have : context = next := by cases context <;> exact Option.some.inj hu
    rw [this]
    exact hw
  | c :: u, w, taken, left, .plain depth, next, h, hu, hw => by
    simp only [through?] at hu
    split at hu
    · cases hu
    · next hgo =>
      have ih := raw_append_of_through? stop h.tail hu hw
      rw [← endsRaw_append stop h] at hgo
      rw [List.cons_append] at hgo ⊢
      simp only [raw]
      rw [if_neg (fun he => hgo (by simp only [Bool.and_eq_true] at he ⊢; simp [he.1, he.2])),
        if_neg (fun he => hgo (by simp only [Bool.and_eq_true] at he ⊢; simp [he.1, he.2])), ih]
      rfl
  | c :: u, w, taken, left, .quoted depth, next, h, hu, hw => by
    have ih := raw_append_of_through? stop h.tail hu hw
    rw [List.cons_append]
    simp only [raw, ih]
    rfl
  | c :: u, w, taken, left, .escaped depth, next, h, hu, hw => by
    have ih := raw_append_of_through? stop h.tail hu hw
    rw [List.cons_append]
    simp only [raw, ih]
    rfl

theorem raw_of_endsRaw (stop : Char → Bool) {w : Text} (h : endsRaw stop w) :
    raw stop (.plain 0) w = .ok ([], w) := by
  cases w with
  | nil => rfl
  | cons c w => simp only [raw, h, decide_true, Bool.and_self, if_true]

theorem through?_of_raw {stop : Char → Bool} {context : Context} {text taken left : Text}
    (h : raw stop context text = .ok (taken, left)) : through? stop context taken = some (.plain 0) := by
  fun_induction raw stop context text generalizing taken left with
  | case1 =>
    simp only [Except.ok.injEq, Prod.mk.injEq] at h
    rw [← h.1]
    rfl
  | case2 => cases h
  | case3 depth c rest he =>
    simp only [Except.ok.injEq, Prod.mk.injEq] at h
    simp only [Bool.and_eq_true, decide_eq_true_eq] at he
    rw [← h.1, he.1]
    rfl
  | case4 => cases h
  | case5 depth c rest he hc t l hr ih =>
    simp only [Except.ok.injEq, Prod.mk.injEq] at h
    have happ : t ++ l = rest := raw_append hr
    rw [← h.1, through?]
    have hgo : ¬ (decide (depth = 0) && (endsRaw stop (c :: t) || Text.isCloser c)) = true := by
      intro hgo
      simp only [Bool.and_eq_true, Bool.or_eq_true] at hgo he hc
      rcases hgo with ⟨h0, hend | hcl⟩
      · exact he ⟨h0, happ ▸ endsRaw_append_of_endsRaw l hend⟩
      · exact hc ⟨h0, hcl⟩
    rw [if_neg hgo]
    exact ih hr
  | case6 => cases h
  | case7 => cases h
  | case8 context c rest hp ih =>
    obtain ⟨m, hm, rfl⟩ := extend_eq_ok h
    cases context with
    | plain depth => exact absurd rfl (hp depth)
    | quoted depth => exact ih hm
    | escaped depth => exact ih hm

/-! ## Quoted texts and bare tokens -/

theorem through?_escape (stop : Char → Bool) (depth : Nat) (c : Char) (rest : Text) :
    through? stop (.quoted depth) (Text.escape c ++ rest) = through? stop (.quoted depth) rest := by
  unfold Text.escape
  split
  · rfl
  · split
    · rfl
    · split
      · rfl
      · split
        · rfl
        · next hq =>
          split
          · rfl
          · next hb =>
            simp only [List.cons_append, List.nil_append, through?, Context.next, hb, hq, if_false]

theorem through?_flatMap_escape (stop : Char → Bool) (depth : Nat) : ∀ text rest : Text,
    through? stop (.quoted depth) (text.flatMap Text.escape ++ rest) = through? stop (.quoted depth) rest
  | [], rest => rfl
  | c :: text, rest => by
    rw [List.flatMap_cons, List.append_assoc, through?_escape, through?_flatMap_escape stop depth text rest]

/-- A stop character that no quoted text and no bare token begins with or holds. -/
def StopsOutside (stop : Char → Bool) : Prop := ∀ c, stop c → c = '}'

theorem stopsOutside_brace : StopsOutside (· = '}') := fun _ h => of_decide_eq_true h

variable {stop : Char → Bool}

theorem through?_blank_cons (hstop : StopsOutside stop) {c : Char} (hc : isInlineBlank c) (rest : Text) :
    through? stop (.plain 0) (c :: rest) = through? stop (.plain 0) rest := by
  rw [isInlineBlank, Bool.and_eq_true, decide_eq_true_eq] at hc
  have hne : ∀ d, Text.isBlank d = false → c ≠ d := by
    rintro d hd rfl
    rw [hc.2] at hd
    cases hd
  have hs : stop c = false := Bool.eq_false_iff.2 fun h => hne '}' (by decide) (hstop c h)
  simp [through?, endsRaw, startsComment, hs, Text.isCloser, Text.isOpener, Context.next, hc.1,
    hne ';' (by decide), hne '/' (by decide), hne '"' (by decide), hne '(' (by decide), hne '[' (by decide),
    hne '{' (by decide), hne ')' (by decide), hne ']' (by decide), hne '}' (by decide)]

theorem through?_blanks (hstop : StopsOutside stop) : ∀ {gap : Text}, (∀ c ∈ gap, isInlineBlank c) →
    through? stop (.plain 0) gap = some (.plain 0)
  | [], _ => rfl
  | c :: gap, h => by
    rw [through?_blank_cons hstop (h c List.mem_cons_self)]
    exact through?_blanks hstop fun d hd => h d (List.mem_cons_of_mem c hd)

theorem through?_quote (hstop : StopsOutside stop) (depth : Nat) (text : Text) :
    through? stop (.plain depth) (Text.quote text) = some (.plain depth) := by
  have hquote : stop '"' = false := by
    cases hs : stop '"' with
    | false => rfl
    | true => exact absurd (hstop _ hs) (by decide)
  have hopen : ∀ rest, through? stop (.plain depth) ('"' :: rest) = through? stop (.quoted depth) rest := by
    intro rest
    simp [through?, endsRaw, startsComment, hquote, Text.isCloser, Context.next]
  have hclose : through? stop (.quoted depth) ['"'] = some (.plain depth) := rfl
  rw [Text.quote, List.cons_append, hopen, through?_flatMap_escape, hclose]

theorem not_stop_of_not_breaksToken (hstop : StopsOutside stop) {c : Char} (h : Text.breaksToken c = false) :
    stop c = false := by
  cases hs : stop c with
  | false => rfl
  | true =>
    rw [hstop c hs] at h
    exact absurd h (by decide)

/-- Behind a bracket that closes later the depth is the one before it. -/
theorem through?_of_bracketsClose (hstop : StopsOutside stop) (depth : Nat) : ∀ (k : Nat) (text : Text),
    Text.bracketsClose k text → Text.holds "//" text = false → (∀ c ∈ text, Text.breaksToken c = false) →
    through? stop (.plain (depth + k)) text = some (.plain depth)
  | k, [], hb, _, _ => by
    rw [of_decide_eq_true hb]
    rfl
  | k, c :: rest, hb, hc, ht => by
    have hbreak := ht c List.mem_cons_self
    have hrest : ∀ d ∈ rest, Text.breaksToken d = false := fun d hd => ht d (List.mem_cons_of_mem c hd)
    simp only [Text.holds, Bool.or_eq_false_iff] at hc
    have hend : endsRaw stop (c :: rest) = false := by
      simp only [endsRaw, Bool.or_eq_false_iff]
      refine ⟨⟨⟨?_, ?_⟩, not_stop_of_not_breaksToken hstop hbreak⟩, ?_⟩
      · refine decide_eq_false ?_
        rintro rfl
        exact absurd hbreak (by decide)
      · refine decide_eq_false ?_
        rintro rfl
        exact absurd hbreak (by decide)
      · cases hs : startsComment (c :: rest) with
        | false => rfl
        | true =>
          obtain ⟨more, hmore⟩ := startsComment_iff.1 hs
          rw [hmore] at hc
          exact absurd hc.1 (by simp [Text.after?])
    have hq : c ≠ '"' := Text.ne_quote_of_not_breaksToken hbreak
    simp only [Text.bracketsClose] at hb
    simp only [through?, hend, Bool.false_or, Context.next, hq, if_false]
    by_cases ho : Text.isOpener c
    · have hclose : Text.isCloser c = false := by
        simp only [Text.isOpener, Bool.or_eq_true, decide_eq_true_eq] at ho
        rcases ho with (rfl | rfl) | rfl <;> rfl
      rw [if_pos ho] at hb
      simp only [hclose, Bool.and_false, Bool.false_eq_true, if_false, ho, if_true]
      exact through?_of_bracketsClose hstop depth (k + 1) rest hb hc.2 hrest
    · rw [if_neg ho] at hb
      by_cases hcl : Text.isCloser c
      · rw [if_pos hcl, Bool.and_eq_true, decide_eq_true_eq] at hb
        have hdepth : depth + k ≠ 0 := by omega
        have hpred : depth + k - 1 = depth + (k - 1) := by omega
        simp only [hdepth, decide_false, Bool.false_and, Bool.false_eq_true, if_false, ho, hcl, if_true, hpred]
        exact through?_of_bracketsClose hstop depth (k - 1) rest hb.2 hc.2 hrest
      · rw [if_neg hcl] at hb
        simp only [hcl, Bool.and_false, Bool.false_eq_true, if_false, ho]
        exact through?_of_bracketsClose hstop depth k rest hb hc.2 hrest

theorem through?_of_not_needsQuoting (hstop : StopsOutside stop) (depth : Nat) {text : Text}
    (h : Text.needsQuoting text = false) : through? stop (.plain depth) text = some (.plain depth) := by
  obtain ⟨-, hc, hb, ht⟩ := Text.of_not_needsQuoting h
  exact through?_of_bracketsClose hstop depth 0 text hb hc ht

/-- **A text written as one token passes whole**, at every depth of brackets. -/
theorem through?_quoteIfNeeded (hstop : StopsOutside stop) (depth : Nat) (text : Text) :
    through? stop (.plain depth) (Text.quoteIfNeeded text) = some (.plain depth) := by
  unfold Text.quoteIfNeeded
  split
  · exact through?_quote hstop depth text
  · next h => exact through?_of_not_needsQuoting hstop depth (Bool.not_eq_true _ ▸ h)

/-- Raw text is never back in the outermost context behind a line break. -/
theorem through?_concat_newline (stop : Char → Bool) (context : Context) (text : Text) :
    through? stop context (text ++ ['\n']) ≠ some (.plain 0) := by
  rw [through?_append stop context (joined_of_head (by decide))]
  intro h
  obtain ⟨next, -, hnext⟩ := Option.bind_eq_some_iff.1 h
  cases next with
  | plain depth =>
    cases depth with
    | zero => cases hnext
    | succ depth => cases hnext
  | quoted depth => cases hnext
  | escaped depth => cases hnext

/-! ## Closed values -/

/-- A value that raw text takes whole and that trimming leaves as it is. -/
structure Closed (stop : Char → Bool) (value : Text) : Prop where
  through : through? stop (.plain 0) value = some (.plain 0)
  trimmed : Text.Trimmed value

instance (value : Text) : Decidable (Closed stop value) :=
  decidable_of_iff (through? stop (.plain 0) value = some (.plain 0) ∧ Text.Trimmed value)
    ⟨fun ⟨hthrough, htrimmed⟩ => ⟨hthrough, htrimmed⟩, fun ⟨hthrough, htrimmed⟩ => ⟨hthrough, htrimmed⟩⟩

theorem closed_nil : Closed stop [] :=
  ⟨rfl, fun c hc => absurd hc (Option.not_mem_none c), fun c hc => absurd hc (Option.not_mem_none c)⟩

theorem closed_quoteIfNeeded (hstop : StopsOutside stop) (text : Text) : Closed stop (Text.quoteIfNeeded text) :=
  ⟨through?_quoteIfNeeded hstop 0 text, Text.trimmed_quoteIfNeeded text⟩

theorem raw_of_closed {value w : Text} (h : Closed stop value) (hw : endsRaw stop w) (hj : Joined value w) :
    raw stop (.plain 0) (value ++ w) = .ok (value, w) := by
  have := raw_append_of_through? stop hj h.through (raw_of_endsRaw stop hw)
  rwa [List.append_nil] at this

/-- **A closed value is taken in front of blanks and of what ends raw text**, and the blanks are not part of it. -/
theorem raw_of_closed_blanks (hstop : StopsOutside stop) {c : Script.Cursor} {value gap r : Text}
    (h : Closed stop value) (hne : value ≠ []) (hgap : ∀ x ∈ gap, isInlineBlank x) (hr : endsRaw stop r)
    (hj : gap = [] → Joined value r) (hc : c.rest = value ++ (gap ++ r)) :
    c.raw stop = .ok (value, c.move (value ++ gap) r) := by
  have hblank : ∀ x ∈ gap, Text.isBlank x := fun x hx => ((Bool.and_eq_true _ _).mp (hgap x hx)).2
  have hslash : '/' ∉ gap := fun hx => absurd (hblank _ hx) (by decide)
  have hvalue : Joined value gap := joined_of_head fun hh => hslash (List.mem_of_mem_head? hh)
  have hbehind : Joined (value ++ gap) r := by
    cases gap with
    | nil =>
      rw [List.append_nil]
      exact hj rfl
    | cons x gap =>
      refine joined_of_getLast fun hx => hslash (List.mem_of_getLast? ?_)
      rwa [List.getLast?_append, List.getLast?_cons, Option.some_or, ← List.getLast?_cons] at hx
  have hthrough : through? stop (.plain 0) (value ++ gap) = some (.plain 0) := by
    rw [through?_append _ _ hvalue, h.through]
    exact through?_blanks hstop hgap
  have hraw := raw_append_of_through? stop hbehind hthrough (raw_of_endsRaw stop hr)
  rw [List.append_nil, List.append_assoc] at hraw
  rw [Script.Cursor.raw, hc, hraw]
  simp only
  rw [Text.trim_append_blank h.trimmed hne hblank]

/-- **A value is closed exactly when raw text in front of a line break is that value.** -/
theorem closed_iff {value : Text} :
    Closed stop value ↔ ∃ d, (Script.Cursor.start (value ++ ['\n'])).raw stop = .ok (value, d) := by
  constructor
  · intro h
    have hr := raw_of_closed (w := ['\n']) h rfl (joined_of_head (by decide))
    refine ⟨(Script.Cursor.start (value ++ ['\n'])).move value ['\n'], ?_⟩
    simp only [Script.Cursor.raw, Script.Cursor.start, hr, Text.trim_eq_self h.trimmed]
  · rintro ⟨d, hd⟩
    simp only [Script.Cursor.raw, Script.Cursor.start] at hd
    split at hd
    · next taken left hr =>
      simp only [Except.ok.injEq, Prod.mk.injEq] at hd
      have happ := raw_append hr
      have hthrough := through?_of_raw hr
      have hlen := Text.length_trim_le taken
      rw [hd.1] at hlen
      have hpre : taken = value := by
        rcases List.eq_nil_or_concat left with rfl | ⟨front, last, rfl⟩
        · rw [List.append_nil] at happ
          rw [happ] at hthrough
          exact absurd hthrough (through?_concat_newline stop _ value)
        · rw [List.concat_eq_append, ← List.append_assoc] at happ
          obtain ⟨hfront, -⟩ := List.append_inj' happ rfl
          have hnil : front = [] := by
            rw [← hfront, List.length_append] at hlen
            exact List.eq_nil_of_length_eq_zero (by omega)
          rw [← hfront, hnil, List.append_nil]
      rw [hpre] at hthrough hd
      exact ⟨hthrough, Text.trimmed_of_trim_eq_self hd.1⟩
    · cases hd

end StyleScript.Lexeme
