import Mathlib.Data.List.Forall2
import StyleScript.Text.Tokens
import StyleScript.Proofs.Text.Quoted
/-!
# Joined parts divide again

A value is divided at the separators of the outermost context.  A text is *whole* from one context to another if no
division falls into it; that composes, so a part that is written piece by piece is whole by its pieces
(`Whole.append`).  Quoted texts and texts that need no quotes are whole at every depth of brackets, and so parts that
are whole in the outermost context are what the value of them divides into (`divide_join`).
-/
namespace StyleScript.Text

/-- No division falls into the text, and behind it stands the other context. -/
def Whole (sep : Char → Bool) (context : Context) (u : Text) (next : Context) : Prop :=
  ∀ w, pieces sep context (u ++ w) = (pieces sep next w).map fun (piece, more) => (u ++ piece, more)

section

variable {sep : Char → Bool} {a b c : Context} {u v : Text}

theorem whole_nil (sep : Char → Bool) (context : Context) : Whole sep context [] context := by
  intro w
  rw [List.nil_append]
  cases pieces sep context w <;> rfl

theorem Whole.append (h : Whole sep a u b) (k : Whole sep b v c) : Whole sep a (u ++ v) c := by
  intro w
  rw [List.append_assoc, h, k, Option.map_map]
  refine congrArg (Option.map · _) (funext fun p => ?_)
  exact congrArg (Prod.mk · p.2) (List.append_assoc ..).symm

theorem whole_char {context : Context} {x : Char} (h : context.outermost = false ∨ sep x = false) :
    Whole sep context [x] (context.next x) := by
  intro w
  rw [List.singleton_append, pieces, if_neg (by rcases h with h | h <;> simp [h])]
  rfl

theorem whole_of_not_sep : ∀ {text : Text} {context : Context}, (∀ x ∈ text, sep x = false) →
    Whole sep context text (text.foldl Context.next context)
  | [], context, _ => whole_nil sep context
  | x :: _, _, h =>
    (whole_char (.inr (h x List.mem_cons_self))).append
      (whole_of_not_sep fun y hy => h y (List.mem_cons_of_mem x hy))

/-! ## Quoted texts and bare tokens -/

theorem whole_escape (sep : Char → Bool) (depth : Nat) (x : Char) :
    Whole sep (.quoted depth) (escape x) (.quoted depth) := by
  have hpair : ∀ y, Whole sep (.quoted depth) ['\\', y] (.quoted depth) := fun y =>
    (whole_char (x := '\\') (.inl rfl)).append (whole_char (x := y) (.inl rfl))
  unfold escape
  split
  · exact hpair 'n'
  · split
    · exact hpair 'r'
    · split
      · exact hpair 't'
      · split
        · exact hpair '"'
        · next hq =>
          split
          · exact hpair '\\'
          · next hb =>
            have hnext : Context.next (.quoted depth) x = .quoted depth := by
              rw [Context.next, if_neg hb, if_neg hq]
            have := @whole_char sep (.quoted depth) x (.inl rfl)
            rwa [hnext] at this

theorem whole_flatMap_escape (sep : Char → Bool) (depth : Nat) : ∀ text : Text,
    Whole sep (.quoted depth) (text.flatMap escape) (.quoted depth)
  | [] => whole_nil sep _
  | x :: text => (whole_escape sep depth x).append (whole_flatMap_escape sep depth text)

theorem whole_quote (sep : Char → Bool) (depth : Nat) (text : Text) :
    Whole sep (.plain depth) (quote text) (.plain depth) := by
  have hopen : Whole sep (.plain depth) ['"'] (.quoted depth) := by
    intro w
    rw [List.singleton_append, pieces, if_neg (by simp)]
    rfl
  exact (hopen.append (whole_flatMap_escape sep depth text)).append (whole_char (x := '"') (.inl rfl))

/-- Behind brackets that close the depth is the one before them. -/
theorem foldl_next_of_bracketsClose (depth : Nat) : ∀ (k : Nat) (text : Text), bracketsClose k text →
    '"' ∉ text → text.foldl Context.next (.plain (depth + k)) = .plain depth
  | k, [], h, _ => by rw [of_decide_eq_true h]; rfl
  | k, x :: text, h, hquote => by
    rw [List.mem_cons, not_or] at hquote
    rw [bracketsClose] at h
    rw [List.foldl_cons, Context.next, if_neg (Ne.symm hquote.1)]
    split at h
    · next ho =>
      rw [if_pos ho]
      exact foldl_next_of_bracketsClose depth (k + 1) text h hquote.2
    · next ho =>
      rw [if_neg ho]
      split at h
      · next hc =>
        rw [Bool.and_eq_true, decide_eq_true_eq] at h
        rw [if_pos hc, Nat.add_sub_assoc (Nat.one_le_iff_ne_zero.2 h.1)]
        exact foldl_next_of_bracketsClose depth (k - 1) text h.2 hquote.2
      · next hc =>
        rw [if_neg hc]
        exact foldl_next_of_bracketsClose depth k text h hquote.2

/-- Separators that a bare token cannot hold. -/
def BreaksTokens (sep : Char → Bool) : Prop := ∀ x, sep x → breaksToken x

theorem breaksTokens_isBlank : BreaksTokens isBlank := fun x h => by
  simp only [breaksToken, Bool.or_eq_true]
  exact .inr h

theorem breaksTokens_comma : BreaksTokens (· = ',') := fun x h => by
  rw [of_decide_eq_true h]
  decide

theorem whole_of_not_needsQuoting (hsep : BreaksTokens sep) (depth : Nat) {text : Text}
    (h : needsQuoting text = false) : Whole sep (.plain depth) text (.plain depth) := by
  obtain ⟨-, -, hclose, hbare⟩ := of_not_needsQuoting h
  have hno : ∀ x ∈ text, sep x = false := by
    intro x hx
    cases hs : sep x with
    | false => rfl
    | true => exact absurd (hsep x hs) (by rw [hbare x hx]; exact Bool.false_ne_true)
  have hquote : '"' ∉ text := fun hq => ne_quote_of_not_breaksToken (hbare _ hq) rfl
  have hwhole := @whole_of_not_sep sep text (.plain depth) hno
  have hnext := foldl_next_of_bracketsClose depth 0 text hclose hquote
  rw [Nat.add_zero] at hnext
  rwa [hnext] at hwhole

/-- **A text written as one token is whole**, at every depth of brackets. -/
theorem whole_quoteIfNeeded (hsep : BreaksTokens sep) (depth : Nat) (text : Text) :
    Whole sep (.plain depth) (quoteIfNeeded text) (.plain depth) := by
  unfold quoteIfNeeded
  split
  · exact whole_quote sep depth text
  · next h => exact whole_of_not_needsQuoting hsep depth (Bool.not_eq_true _ ▸ h)

/-! ## Plain characters -/

/-- A character that neither divides tokens nor opens or closes anything. -/
def isPlain (c : Char) : Bool := c ≠ '"' && !isOpener c && !isCloser c && !isBlank c

theorem next_of_isPlain {c : Char} (h : isPlain c) (depth : Nat) : Context.next (.plain depth) c = .plain depth := by
  simp only [isPlain, Bool.and_eq_true, Bool.not_eq_true', decide_eq_true_eq] at h
  obtain ⟨⟨⟨hquote, hopen⟩, hclose⟩, -⟩ := h
  rw [Context.next, if_neg hquote, hopen, hclose]
  rfl

theorem isBlank_of_isPlain {c : Char} (h : isPlain c) : isBlank c = false := by
  rw [isPlain, Bool.and_eq_true, Bool.not_eq_true'] at h
  exact h.2

theorem foldl_next_of_plain (depth : Nat) : ∀ {text : Text}, text.all isPlain →
    text.foldl Context.next (.plain depth) = .plain depth
  | [], _ => rfl
  | x :: _, h => by
    rw [List.all_cons, Bool.and_eq_true] at h
    rw [List.foldl_cons, next_of_isPlain h.1]
    exact foldl_next_of_plain depth h.2

theorem whole_of_plain (depth : Nat) {text : Text} (h : text.all isPlain) (hsep : ∀ x ∈ text, sep x = false) :
    Whole sep (.plain depth) text (.plain depth) := by
  have := @whole_of_not_sep sep text (.plain depth) hsep
  rwa [foldl_next_of_plain depth h] at this

/-- What holds of the ASCII characters one by one holds of every letter, digit and `_`. -/
theorem forall_alphanumeric {P : Char → Prop}
    (h : ∀ n ∈ List.range 128, (Char.ofNat n).isAlphanum || Char.ofNat n = '_' → P (Char.ofNat n)) {c : Char}
    (hc : c.isAlphanum || c = '_') : P c := by
  have hmem : c.toNat ∈ List.range 128 := by
    rw [List.mem_range]
    have hcases : c.isAlpha ∨ c.isDigit ∨ c = '_' := by
      simpa [Char.isAlphanum, or_assoc] using hc
    rcases hcases with h | h | rfl
    · have hbound : c.val.toNat ≤ 122 := by
        rcases (Bool.or_eq_true _ _).mp h with h | h
        · have hle : c.val ≤ 'Z'.val := (of_decide_eq_true h).2
          exact Nat.le_trans (UInt32.le_iff_toNat_le.1 hle) (by decide)
        · have hle : c.val ≤ 'z'.val := of_decide_eq_true ((Bool.and_eq_true _ _).mp h).2
          exact UInt32.le_iff_toNat_le.1 hle
      exact Nat.lt_of_le_of_lt hbound (by decide)
    · simp only [Char.isDigit, Bool.and_eq_true, decide_eq_true_eq] at h
      exact Nat.lt_of_le_of_lt (UInt32.le_iff_toNat_le.1 h.2) (by decide)
    · decide
  have := h c.toNat hmem
  rw [Char.ofNat_toNat] at this
  exact this hc

theorem isPlain_of_alphanumeric {c : Char} (h : c.isAlphanum || c = '_') : isPlain c :=
  forall_alphanumeric (P := fun c => isPlain c) (by decide +kernel) h

/-! ## Values of parts -/

/-- A part that stays one when it is written between others. -/
structure Part (sep : Char → Bool) (text : Text) : Prop where
  whole : Whole sep (.plain 0) text (.plain 0)
  trimmed : Trimmed text
  ne_nil : text ≠ []

theorem part_quoteIfNeeded (hsep : BreaksTokens sep) (text : Text) : Part sep (quoteIfNeeded text) :=
  ⟨whole_quoteIfNeeded hsep 0 text, trimmed_quoteIfNeeded text, quoteIfNeeded_ne_nil text⟩

theorem part_of_not_needsQuoting (hsep : BreaksTokens sep) {text : Text} (h : needsQuoting text = false) :
    Part sep text := by
  have := part_quoteIfNeeded hsep text
  rwa [quoteIfNeeded, if_neg (by rw [h]; exact Bool.false_ne_true)] at this

theorem part_quote (sep : Char → Bool) (text : Text) : Part sep (quote text) :=
  ⟨whole_quote sep 0 text, trimmed_quote text, List.cons_ne_nil _ _⟩

theorem part_of_plain {text : Text} (hne : text ≠ []) (h : text.all isPlain) : Part isBlank text :=
  have hblank : ∀ c ∈ text, isBlank c = false := fun c hc => isBlank_of_isPlain (List.all_eq_true.1 h c hc)
  ⟨whole_of_plain 0 h hblank, trimmed_of_no_blank hblank, hne⟩

theorem trimmed_append {u v : Text} (hu : Trimmed u) (hv : Trimmed v) (hune : u ≠ []) (hvne : v ≠ []) :
    Trimmed (u ++ v) := by
  constructor
  · rw [List.head?_append_of_ne_nil _ hune]
    exact hu.1
  · rw [List.getLast?_append_of_ne_nil _ hvne]
    exact hv.2

theorem Part.append (hu : Part sep u) (hv : Part sep v) : Part sep (u ++ v) :=
  ⟨hu.whole.append hv.whole, trimmed_append hu.trimmed hv.trimmed hu.ne_nil hv.ne_nil,
    List.append_ne_nil_of_left_ne_nil hu.ne_nil v⟩

/-- Two parts with a blank between them are one part where blanks do not divide. -/
theorem Part.append_space (hspace : sep ' ' = false) (hu : Part sep u) (hv : Part sep v) :
    Part sep (u ++ " " ++ v) := by
  refine ⟨(hu.whole.append (whole_char (x := ' ') (.inr hspace))).append hv.whole, ⟨?_, ?_⟩,
    List.append_ne_nil_of_right_ne_nil _ hv.ne_nil⟩
  · rw [List.append_assoc, List.head?_append_of_ne_nil _ hu.ne_nil]
    exact hu.trimmed.1
  · rw [List.getLast?_append_of_ne_nil _ hv.ne_nil]
    exact hv.trimmed.2

/-! ## Keys and values -/

theorem alphanumeric_of_isKey {key : Text} (h : isKey key) : key ≠ [] ∧ ∀ c ∈ key, c.isAlphanum || c = '_' := by
  cases key with
  | nil => cases h
  | cons d rest =>
    rw [isKey, Bool.and_eq_true] at h
    refine ⟨List.cons_ne_nil d rest, List.forall_mem_cons.2 ⟨?_, List.all_eq_true.1 h.2⟩⟩
    rw [Char.isAlphanum]
    rcases Bool.or_eq_true_iff.1 h.1 with hd | hd <;> simp [hd]

theorem not_mem_of_isKey {key : Text} (h : isKey key) {c : Char} (hc : (c.isAlphanum || c = '_') = false) :
    c ∉ key := by
  intro hmem
  have := (alphanumeric_of_isKey h).2 c hmem
  rw [hc] at this
  cases this

theorem keyValue?_of_isKey {key : Text} (h : isKey key) (value : Text) :
    keyValue? (key ++ '=' :: value) = some (key, value) := by
  rw [keyValue?, cut?_append value (not_mem_of_isKey h (by decide))]
  exact if_pos h

theorem keyValue?_eq_some {token key value : Text} (h : keyValue? token = some (key, value)) :
    token = key ++ '=' :: value ∧ isKey key := by
  rw [keyValue?] at h
  split at h
  · next hcut =>
    split at h
    · next hkey =>
      cases h
      exact ⟨(cut?_eq_some hcut).1, hkey⟩
    · cases h
  · cases h

theorem keyValue?_of_not_startsKey {c : Char} (h : (c.isAlpha || c = '_') = false) (rest : Text) :
    keyValue? (c :: rest) = none := by
  refine Option.eq_none_iff_forall_ne_some.2 fun p hp => ?_
  obtain ⟨htoken, hkey⟩ := keyValue?_eq_some hp
  cases hk : p.1 with
  | nil => rw [hk] at hkey; cases hkey
  | cons d key =>
    rw [hk] at htoken hkey
    rw [isKey, ← (List.cons.inj htoken).1, h] at hkey
    cases hkey

theorem negation_of_ne {c : Char} (h : c ≠ '~') (rest : Text) : negation (c :: rest) = (true, c :: rest) := by
  rw [negation]
  exact fun _ hcons => h (List.cons.inj hcons).1

/-- The sign and the name make the token again. -/
theorem eq_of_negation (token : Text) :
    token = if (negation token).1 then (negation token).2 else '~' :: (negation token).2 := by
  unfold negation
  split <;> rfl

theorem part_key {key : Text} (h : isKey key) : Part isBlank (key ++ ['=']) := by
  obtain ⟨hne, hall⟩ := alphanumeric_of_isKey h
  refine part_of_plain (List.append_ne_nil_of_left_ne_nil hne _) ?_
  rw [List.all_append, Bool.and_eq_true]
  exact ⟨List.all_eq_true.2 fun c hc => isPlain_of_alphanumeric (hall c hc), by decide⟩

theorem part_keyValue {key value : Text} (h : isKey key) (hvalue : Part isBlank value) :
    Part isBlank (key ++ '=' :: value) := by
  have := (part_key h).append hvalue
  rwa [List.append_assoc] at this

/-! ## Behind an opening bracket -/

/-- Behind an opening bracket nothing divides until it is closed. -/
theorem whole_of_bracketsClose (sep : Char → Bool) (depth : Nat) : ∀ (k : Nat) (text : Text), bracketsClose k text →
    '"' ∉ text → Whole sep (.plain (depth + 1 + k)) text (.plain (depth + 1))
  | k, [], h, _ => by
    rw [of_decide_eq_true h]
    exact whole_nil sep _
  | k, x :: text, h, hquote => by
    rw [List.mem_cons, not_or] at hquote
    have hinside : Context.outermost (.plain (depth + 1 + k)) = false := decide_eq_false (by omega)
    have hchar := @whole_char sep _ x (.inl hinside)
    rw [bracketsClose] at h
    rw [Context.next, if_neg (Ne.symm hquote.1)] at hchar
    split at h
    · next ho =>
      rw [if_pos ho] at hchar
      exact hchar.append (whole_of_bracketsClose sep depth (k + 1) text h hquote.2)
    · next ho =>
      rw [if_neg ho] at hchar
      split at h
      · next hc =>
        rw [Bool.and_eq_true, decide_eq_true_eq] at h
        rw [if_pos hc, Nat.add_sub_assoc (Nat.one_le_iff_ne_zero.2 h.1)] at hchar
        exact hchar.append (whole_of_bracketsClose sep depth (k - 1) text h.2 hquote.2)
      · next hc =>
        rw [if_neg hc] at hchar
        exact hchar.append (whole_of_bracketsClose sep depth k text h hquote.2)

theorem whole_quoteIfNeeded_inside (sep : Char → Bool) (depth : Nat) (text : Text) :
    Whole sep (.plain (depth + 1)) (quoteIfNeeded text) (.plain (depth + 1)) := by
  unfold quoteIfNeeded
  split
  · exact whole_quote sep (depth + 1) text
  · next h =>
    obtain ⟨-, -, hclose, hbare⟩ := of_not_needsQuoting (Bool.not_eq_true _ ▸ h)
    exact whole_of_bracketsClose sep depth 0 text hclose fun hq => ne_quote_of_not_breaksToken (hbare _ hq) rfl

theorem whole_commas (sep : Char → Bool) (depth : Nat) : ∀ ts : List Text,
    Whole sep (.plain (depth + 1)) (join "," (ts.map quoteIfNeeded)) (.plain (depth + 1))
  | [] => whole_nil sep _
  | [t] => whole_quoteIfNeeded_inside sep depth t
  | t :: next :: rest =>
    ((whole_quoteIfNeeded_inside sep depth t).append (whole_char (x := ',') (.inl rfl))).append
      (whole_commas sep depth (next :: rest))

theorem part_call {name : Text} (hname : Part sep name) (ts : List Text) :
    Part sep (name ++ "(" ++ join "," (ts.map quoteIfNeeded) ++ ")") := by
  have hopen : Whole sep (.plain 0) ['('] (.plain 1) := by
    intro w
    rw [List.singleton_append, pieces, if_neg (by simp [isOpener])]
    rfl
  refine ⟨((hname.whole.append hopen).append (whole_commas sep 0 ts)).append (whole_char (x := ')') (.inl rfl)),
    ⟨?_, ?_⟩, List.append_ne_nil_of_right_ne_nil _ (List.cons_ne_nil _ _)⟩
  · rw [List.append_assoc, List.append_assoc, List.head?_append_of_ne_nil _ hname.ne_nil]
    exact hname.trimmed.1
  · intro c hc
    rw [show (")" : Text) = [')'] from rfl, List.getLast?_concat] at hc
    rw [← Option.some.inj hc]
    decide

/-! ## Dividing what was put together -/

/-- A character at which parts divide, and which is no quote and no bracket. -/
structure Divides (sep : Char → Bool) (x : Char) : Prop where
  sep : sep x
  plain : (x = '"' || isOpener x || isCloser x) = false

theorem divides_blank : Divides isBlank ' ' := ⟨by decide, by decide⟩

/-- The text divides into the parts, at the end of a value and in front of a separator. -/
structure DividesInto (sep : Char → Bool) (u : Text) (ps : List Text) : Prop where
  atEnd : divide sep u = .ok ps
  before : ∀ {x : Char} {w : Text} {qs : List Text}, Divides sep x → divide sep w = .ok qs →
    divide sep (u ++ x :: w) = .ok (ps ++ qs)

/-- The parts among the pieces of a value: what is left of them without the blanks around them. -/
def partsOf (pieces : List Text) : List Text := (pieces.map trim).filter fun part => !part.isEmpty

theorem partsOf_cons (piece : Text) (more : List Text) :
    partsOf (piece :: more) = (nonempty? (trim piece)).toList ++ partsOf more := by
  rw [partsOf, List.map_cons, nonempty?]
  cases h : (trim piece).isEmpty with
  | true => rw [List.filter_cons_of_neg (by simp [h]), if_pos rfl]; rfl
  | false => rw [List.filter_cons_of_pos (by simp [h]), if_neg Bool.false_ne_true]; rfl

theorem divide_eq_ok {value : Text} {ps : List Text} : divide sep value = .ok ps ↔
    ∃ piece more, pieces sep (.plain 0) value = some (piece, more) ∧ ps = partsOf (piece :: more) := by
  rw [divide]
  cases pieces sep (.plain 0) value with
  | none => simp
  | some p =>
    constructor
    · rintro ⟨⟩
      exact ⟨p.1, p.2, rfl, rfl⟩
    · rintro ⟨piece, more, hpieces, rfl⟩
      cases hpieces
      rfl

theorem Whole.dividesInto (h : Whole sep (.plain 0) u (.plain 0)) :
    DividesInto sep u (nonempty? (trim u)).toList where
  atEnd := by
    have hpieces := h []
    rw [List.append_nil] at hpieces
    refine divide_eq_ok.2 ⟨u, [], ?_, (List.append_nil _).symm.trans (partsOf_cons u []).symm⟩
    rw [hpieces]
    exact congrArg (fun piece => some (piece, [])) (List.append_nil u)
  before := by
    intro x w qs hx hw
    obtain ⟨piece, more, hpieces, rfl⟩ := divide_eq_ok.1 hw
    refine divide_eq_ok.2 ⟨u, piece :: more, ?_, (partsOf_cons u (piece :: more)).symm⟩
    rw [h, pieces, if_pos (by simp [Context.outermost, hx.sep, hx.plain]), hpieces]
    exact congrArg (fun piece' => some (piece', piece :: more)) (List.append_nil u)

theorem Part.dividesInto (h : Part sep u) : DividesInto sep u [u] := by
  have := h.whole.dividesInto
  rwa [trim_eq_self h.trimmed, nonempty?, if_neg (mt List.isEmpty_iff.1 h.ne_nil)] at this

theorem dividesInto_nil (sep : Char → Bool) : DividesInto sep [] [] := (whole_nil sep (.plain 0)).dividesInto

theorem DividesInto.append {x : Char} {w : Text} {ps qs : List Text} (hu : DividesInto sep u ps)
    (hx : Divides sep x) (hw : DividesInto sep w qs) : DividesInto sep (u ++ x :: w) (ps ++ qs) where
  atEnd := hu.before hx hw.atEnd
  before := by
    intro y more rs hy hmore
    rw [List.append_assoc, List.cons_append, List.append_assoc]
    exact hu.before hx (hw.before hy hmore)

theorem DividesInto.join {x : Char} (hx : Divides sep x) : ∀ {us : List Text} {pss : List (List Text)},
    List.Forall₂ (DividesInto sep) us pss → DividesInto sep (join [x] us) pss.flatten
  | [], _, .nil => dividesInto_nil sep
  | [u], _, .cons (b := ps) hu .nil => by
    rw [List.flatten_cons, List.flatten_nil, List.append_nil]
    exact hu
  | u :: next :: us, _, .cons hu hmore => by
    have hrest := DividesInto.join hx hmore
    have hall := hu.append hx hrest
    rwa [List.append_cons] at hall

theorem DividesInto.unique {qs : List Text} {ps : List Text} (h : DividesInto sep u ps) (k : DividesInto sep u qs) :
    ps = qs :=
  Except.ok.inj (h.atEnd.symm.trans k.atEnd)

/-- **What is joined of parts divides into them again.** -/
theorem divide_join {x : Char} (hx : Divides sep x) {parts : List Text} (h : ∀ p ∈ parts, Part sep p) :
    divide sep (join [x] parts) = .ok parts := by
  have hall : List.Forall₂ (DividesInto sep) parts (parts.map fun p => [p]) := by
    rw [List.forall₂_map_right_iff, List.forall₂_same]
    exact fun p hp => (h p hp).dividesInto
  have hflat : (parts.map fun p => [p]).flatten = parts := by
    rw [← List.flatMap_def]
    exact List.flatMap_singleton' parts
  rw [(DividesInto.join hx hall).atEnd, hflat]

theorem parts_join {x : Char} (hx : (x = '"' || isOpener x || isCloser x) = false) {ps : List Text}
    (h : ∀ p ∈ ps, Part (· = x) p) : parts x (join [x] ps) = .ok ps :=
  divide_join ⟨decide_eq_true rfl, hx⟩ h

/-! ## Blanks between and around tokens -/

theorem divides_of_isBlank {c : Char} (h : isBlank c) : Divides isBlank c := by
  refine ⟨h, Bool.eq_false_iff.2 fun hother => ?_⟩
  simp only [isOpener, isCloser, Bool.or_eq_true, decide_eq_true_eq] at hother
  rcases hother with (rfl | (rfl | rfl) | rfl) | (rfl | rfl) | rfl <;> exact absurd h (by decide)

theorem dividesInto_blanks : ∀ {gap : Text}, (∀ c ∈ gap, isBlank c) → DividesInto isBlank gap []
  | [], _ => dividesInto_nil isBlank
  | _ :: _, h =>
    (dividesInto_nil isBlank).append (divides_of_isBlank (h _ List.mem_cons_self))
      (dividesInto_blanks fun c hc => h c (List.mem_cons_of_mem _ hc))

theorem DividesInto.lead_blanks {ps : List Text} (h : DividesInto isBlank u ps) : ∀ {gap : Text},
    (∀ c ∈ gap, isBlank c) → DividesInto isBlank (gap ++ u) ps
  | [], _ => h
  | _ :: _, hgap =>
    (dividesInto_nil isBlank).append (divides_of_isBlank (hgap _ List.mem_cons_self))
      (h.lead_blanks fun c hc => hgap c (List.mem_cons_of_mem _ hc))

theorem DividesInto.append_blanks {ps : List Text} (h : DividesInto isBlank u ps) {gap : Text}
    (hgap : ∀ c ∈ gap, isBlank c) : DividesInto isBlank (u ++ gap) ps := by
  cases gap with
  | nil =>
    rw [List.append_nil]
    exact h
  | cons c gap =>
    rw [List.forall_mem_cons] at hgap
    have := h.append (divides_of_isBlank hgap.1) (dividesInto_blanks hgap.2)
    rwa [List.append_nil] at this

theorem words_eq_join {ts : List Text} (h : ∀ t ∈ ts, t ≠ []) : words ts = join " " ts := by
  rw [words, List.filter_eq_self.2 fun t ht => by rw [Bool.not_eq_true', List.isEmpty_eq_false_iff]; exact h t ht]

theorem words_ne_nil {ts : List Text} (h : ∀ t ∈ ts, t ≠ []) (hne : ts ≠ []) : words ts ≠ [] := by
  rw [words_eq_join h]
  match ts with
  | [t] => exact h t List.mem_cons_self
  | t :: _ :: _ =>
    exact fun hnil => h t List.mem_cons_self (List.append_eq_nil_iff.1 (List.append_eq_nil_iff.1 hnil).1).1

theorem eq_of_nonempty?_eq_some {text other : Text} (h : nonempty? text = some other) : text = other := by
  rw [nonempty?] at h
  split at h
  · cases h
  · exact Option.some.inj h

theorem nonempty?_words {ts : List Text} (h : ∀ t ∈ ts, t ≠ []) (hne : ts ≠ []) :
    nonempty? (words ts) = some (words ts) := by
  rw [nonempty?, List.isEmpty_eq_false_iff.2 (words_ne_nil h hne), if_neg Bool.false_ne_true]

theorem part_join_space (hspace : sep ' ' = false) : ∀ {ts : List Text}, ts ≠ [] → (∀ t ∈ ts, Part sep t) →
    Part sep (join " " ts)
  | [], hne, _ => absurd rfl hne
  | [t], _, h => h t List.mem_cons_self
  | t :: next :: ts, _, h => by
    rw [List.forall_mem_cons] at h
    exact h.1.append_space hspace (part_join_space hspace (List.cons_ne_nil next ts) h.2)

theorem part_words (hspace : sep ' ' = false) {ts : List Text} (hne : ts ≠ []) (h : ∀ t ∈ ts, Part sep t) :
    Part sep (words ts) := by
  rw [words_eq_join fun t ht => (h t ht).ne_nil]
  exact part_join_space hspace hne h

theorem tokens_words {ts : List Text} (h : ∀ t ∈ ts, Part isBlank t) : tokens (words ts) = .ok ts := by
  rw [words_eq_join fun t ht => (h t ht).ne_nil]
  exact divide_join divides_blank h

/-- Words with blanks around and between what they divide into. -/
theorem tokens_words_of_divided {ts : List Text} {f : Text → List Text} (hne : ∀ t ∈ ts, t ≠ [])
    (h : ∀ t ∈ ts, DividesInto isBlank t (f t)) : tokens (words ts) = .ok (ts.flatMap f) := by
  have hall : List.Forall₂ (DividesInto isBlank) ts (ts.map f) := by
    rw [List.forall₂_map_right_iff, List.forall₂_same]
    exact h
  rw [words_eq_join hne, List.flatMap_def]
  exact (DividesInto.join divides_blank hall).atEnd

theorem length_join : ∀ (gap : Text) (ts : List Text),
    (join gap ts).length = ts.flatten.length + gap.length * (ts.length - 1)
  | _, [] => rfl
  | _, [t] => by rw [List.flatten_cons, List.flatten_nil, List.append_nil]; rfl
  | gap, t :: next :: ts => by
    rw [join, List.length_append, List.length_append, length_join gap (next :: ts), @List.flatten_cons _ t,
      List.length_append]
    simp only [List.length_cons, Nat.add_sub_cancel, Nat.mul_add]
    omega

theorem length_flatten_trim : ∀ ts : List Text, (ts.map trim).flatten.length ≤ ts.flatten.length ∧
    ((ts.map trim).flatten.length = ts.flatten.length → ∀ t ∈ ts, Trimmed t)
  | [] => ⟨Nat.le_refl 0, fun _ => List.forall_mem_nil _⟩
  | t :: ts => by
    obtain ⟨hle, hall⟩ := length_flatten_trim ts
    have hlength := length_trim_le t
    simp only [List.map_cons, List.flatten_cons, List.length_append]
    refine ⟨by omega, fun h => List.forall_mem_cons.2 ⟨trimmed_of_length_trim ?_, hall ?_⟩⟩ <;> omega

/-- Tokens that are not trimmed are longer, and so is the value of them. -/
theorem trimmed_of_words_map_trim {ts : List Text} (hne : ∀ t ∈ ts, trim t ≠ [])
    (h : words (ts.map trim) = words ts) : ∀ t ∈ ts, Trimmed t := by
  have hne' : ∀ t ∈ ts, t ≠ [] := fun t ht hnil => hne t ht (by rw [hnil]; rfl)
  rw [words_eq_join hne', words_eq_join (List.forall_mem_map.2 hne)] at h
  have hlength := congrArg List.length h
  rw [length_join, length_join, List.length_map] at hlength
  exact (length_flatten_trim ts).2 (Nat.add_right_cancel hlength)

end

end StyleScript.Text
