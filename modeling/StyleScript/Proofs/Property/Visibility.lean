import StyleScript.Property.Visibility
import StyleScript.Proofs.Number.Decimals
import StyleScript.Proofs.Property.Aspects
/-!
# The last token of a view decides

Tokens are read from left to right, and each sets its own flag or the bits of its own view.  So what a row of tokens
says of a word is what the last token that names the word says, and a bit is set exactly if that token is the one that
stands for the bit (`Latest`).  Two bits that a token pairs stand for a word and for its negation, and so they are never
both set (`Latest.exclusive`).

What is written names no word twice, unless two paired bits are set.  So of flags and bits without such a clash every
token is the last one of its word, and the row says again what was written (`survives_of_holds`).
-/
namespace StyleScript.Visibility

open PropertyFormat (Survives something)
open Text (Part Same same_refl)

/-! ## Tokens -/

def names : List Text := "object" :: "label" :: views.map Prod.fst

/-- A word, or a word negated. -/
def IsToken (t : Text) : Prop := (Text.negation t).2 ∈ names

instance : DecidablePred IsToken := fun t => inferInstanceAs (Decidable ((Text.negation t).2 ∈ names))

/-- The last of the tokens that names a word, negated or not. -/
def lastNaming? (name : Text) (ts : List Text) : Option Text :=
  ts.reverse.find? fun t => (Text.negation t).2 = name

variable {ts : List Text} {t name : Text}

theorem lastNaming?_append_of_eq (h : (Text.negation t).2 = name) : lastNaming? name (ts ++ [t]) = some t := by
  rw [lastNaming?, List.reverse_append]
  exact List.find?_cons_of_pos (decide_eq_true h)

theorem lastNaming?_append_of_ne (h : (Text.negation t).2 ≠ name) :
    lastNaming? name (ts ++ [t]) = lastNaming? name ts := by
  rw [lastNaming?, List.reverse_append]
  exact List.find?_cons_of_neg fun h' => h (of_decide_eq_true h')

theorem of_lastNaming? (h : lastNaming? name ts = some t) : t ∈ ts ∧ (Text.negation t).2 = name := by
  have hname := List.find?_some h
  exact ⟨List.mem_reverse.1 (List.mem_of_find?_eq_some h), of_decide_eq_true hname⟩

theorem exists_lastNaming? (h : t ∈ ts) : ∃ u, lastNaming? (Text.negation t).2 ts = some u := by
  rw [← Option.isSome_iff_exists, lastNaming?, List.find?_isSome]
  exact ⟨t, List.mem_reverse.2 h, decide_eq_true rfl⟩

/-- Where no word is named by different tokens, every token is the last one of its word. -/
theorem lastNaming?_eq_some_iff (h : ∀ t ∈ ts, ∀ u ∈ ts, (Text.negation t).2 = (Text.negation u).2 → t = u) :
    lastNaming? (Text.negation t).2 ts = some t ↔ t ∈ ts := by
  refine ⟨fun hlast => (of_lastNaming? hlast).1, fun ht => ?_⟩
  obtain ⟨u, hu⟩ := exists_lastNaming? ht
  rw [hu, h u (of_lastNaming? hu).1 t ht (of_lastNaming? hu).2]

theorem negation_inj {t u : Text} (h : Text.negation t = Text.negation u) : t = u := by
  rw [Text.eq_of_negation t, Text.eq_of_negation u, h]

/-! ## Bits -/

theorem testBit_assign (bits set clear i : Nat) :
    (assign bits set clear).testBit i = ((bits.testBit i || set.testBit i) && !clear.testBit i) := by
  simp only [assign, Nat.testBit_xor, Nat.testBit_and, Nat.testBit_or]
  cases bits.testBit i || set.testBit i <;> cases clear.testBit i <;> rfl

theorem assign_lt {bits set clear : Nat} (hbits : bits < 64) (hset : set < 64) : assign bits set clear < 64 := by
  have hor : bits ||| set < 2 ^ 6 := Nat.or_lt_two_pow hbits hset
  exact Nat.xor_lt_two_pow hor (Nat.lt_of_le_of_lt Nat.and_le_left hor)

/-- No two bits are set that a token pairs. -/
def Exclusive (bits : Nat) : Prop :=
  ¬(bits.testBit 2 ∧ bits.testBit 3) ∧ ¬(bits.testBit 4 ∧ bits.testBit 5)

instance : DecidablePred Exclusive := fun _ => inferInstanceAs (Decidable (_ ∧ _))

theorem eq_of_bitTokens {m n : Nat} (hm : m < 64) (hn : n < 64)
    (h : ∀ p ∈ bitTokens, m.testBit p.1 = n.testBit p.1) : m = n := by
  have hall : ∀ i < 6, ∃ p ∈ bitTokens, p.1 = i := by decide
  refine Nat.eq_of_testBit_eq fun i => ?_
  by_cases hi : i < 6
  · obtain ⟨p, hp, rfl⟩ := hall i hi
    exact h p hp
  · have hhigh : ∀ {k}, k < 64 → k.testBit i = false := fun hk =>
      Nat.testBit_lt_two_pow (Nat.lt_of_lt_of_le hk (Nat.pow_le_pow_right (n := 2) (by decide) (Nat.le_of_not_lt hi)))
    rw [hhigh hm, hhigh hn]

/-- The bits behind a view token, which may be negated. -/
def viewed (bits : Nat) (v : Text × Nat × Nat) (on : Bool) : Nat :=
  if on then assign bits v.2.1 v.2.2 else assign bits v.2.2 v.2.1

/-- A view token decides the bits of its own view, each of which stands for the word or for its negation, and leaves the
others alone. -/
theorem testBit_viewed (bits : Nat) {v : Text × Nat × Nat} (hv : v ∈ views) (on : Bool) {p : Nat × Text}
    (hp : p ∈ bitTokens) : (viewed bits v on).testBit p.1 =
      if v.1 = (Text.negation p.2).2 then on == (Text.negation p.2).1 else bits.testBit p.1 := by
  have htable : ∀ v ∈ views, ∀ p ∈ bitTokens, v.2.1.testBit p.1 =
      (decide (v.1 = (Text.negation p.2).2) && (Text.negation p.2).1) ∧ v.2.2.testBit p.1 =
      (decide (v.1 = (Text.negation p.2).2) && !(Text.negation p.2).1) := by decide
  obtain ⟨hset, hclear⟩ := htable v hv p hp
  rw [viewed]
  by_cases hview : v.1 = (Text.negation p.2).2
  · cases on <;> cases hbit : (Text.negation p.2).1 <;> simp [testBit_assign, hset, hclear, hview, hbit]
  · cases on <;> simp [testBit_assign, hset, hclear, hview]

theorem viewed_lt {bits : Nat} (hbits : bits < 64) {v : Text × Nat × Nat} (hv : v ∈ views) (on : Bool) :
    viewed bits v on < 64 := by
  have htable : ∀ v ∈ views, v.2.1 < 64 ∧ v.2.2 < 64 := by decide
  rw [viewed]
  split
  · exact assign_lt hbits (htable v hv).1
  · exact assign_lt hbits (htable v hv).2

/-! ## What a row of tokens says -/

/-- The flags and bits say of every word what the last token that names it says. -/
structure Latest (ts : List Text) (shown : Shown) : Prop where
  object : shown.object = (lastNaming? "object" ts).map fun t => (Text.negation t).1
  label : shown.label = (lastNaming? "label" ts).map fun t => (Text.negation t).1
  mentioned : shown.views.isSome ↔ ∃ t ∈ ts, (Text.negation t).2 ∈ views.map Prod.fst
  bits : ∀ p ∈ bitTokens, (shown.views.getD 0).testBit p.1 =
    decide (lastNaming? (Text.negation p.2).2 ts = some p.2)
  bounded : shown.views.getD 0 < 64

theorem latest_nil : Latest [] {} where
  object := rfl
  label := rfl
  mentioned := iff_of_false Bool.false_ne_true fun ⟨_, h, _⟩ => nomatch h
  bits := by decide
  bounded := by decide

variable {shown : Shown}

theorem Latest.exclusive (h : Latest ts shown) : Exclusive (shown.views.getD 0) := by
  have hpair : ∀ p ∈ bitTokens, ∀ q ∈ bitTokens, (Text.negation p.2).2 = (Text.negation q.2).2 → p.2 ≠ q.2 →
      ¬((shown.views.getD 0).testBit p.1 ∧ (shown.views.getD 0).testBit q.1) := by
    intro p hp q hq hname hne ⟨hbit, hother⟩
    rw [h.bits p hp, decide_eq_true_eq] at hbit
    rw [h.bits q hq, decide_eq_true_eq, ← hname] at hother
    exact hne (Option.some.inj (hbit.symm.trans hother))
  exact ⟨hpair (2, "3d") (by decide) (3, "~3d") (by decide) (by decide) (by decide),
    hpair (4, "plane") (by decide) (5, "~plane") (by decide) (by decide) (by decide)⟩

/-- A token that names no view leaves the views as they were. -/
theorem mentioned_append (h : (Text.negation t).2 ∉ views.map Prod.fst) :
    (∃ u ∈ ts ++ [t], (Text.negation u).2 ∈ views.map Prod.fst) ↔
      ∃ u ∈ ts, (Text.negation u).2 ∈ views.map Prod.fst := by
  constructor
  · rintro ⟨u, hu, hview⟩
    rcases List.mem_append.1 hu with hu | hu
    · exact ⟨u, hu, hview⟩
    · exact absurd (List.mem_singleton.1 hu ▸ hview) h
  · rintro ⟨u, hu, hview⟩
    exact ⟨u, List.mem_append_left _ hu, hview⟩

theorem Latest.flag (h : Latest ts shown) (hname : (Text.negation t).2 = name)
    (hflag : name ∈ (["object", "label"] : List Text)) : (shown.views.isSome ↔
        ∃ u ∈ ts ++ [t], (Text.negation u).2 ∈ views.map Prod.fst) ∧
      ∀ p ∈ bitTokens, (shown.views.getD 0).testBit p.1 =
        decide (lastNaming? (Text.negation p.2).2 (ts ++ [t]) = some p.2) := by
  have hother : ∀ name ∈ (["object", "label"] : List Text), name ∉ views.map Prod.fst ∧
      ∀ p ∈ bitTokens, name ≠ (Text.negation p.2).2 := by decide
  obtain ⟨hview, hbit⟩ := hother name hflag
  refine ⟨h.mentioned.trans (mentioned_append (hname.symm ▸ hview)).symm, fun p hp => ?_⟩
  rw [lastNaming?_append_of_ne (hname.symm ▸ hbit p hp)]
  exact h.bits p hp

theorem Latest.view (h : Latest ts shown) {v : Text × Nat × Nat} (hv : v ∈ views)
    (hname : v.1 = (Text.negation t).2) : Latest (ts ++ [t])
      { shown with views := some (viewed (shown.views.getD 0) v (Text.negation t).1) } := by
  have hflags : ∀ v ∈ views, v.1 ≠ "object" ∧ v.1 ≠ "label" := by decide
  refine ⟨?_, ?_, iff_of_true rfl ⟨t, List.mem_append_right _ List.mem_cons_self, ?_⟩, fun p hp => ?_,
    viewed_lt h.bounded hv _⟩
  · rw [lastNaming?_append_of_ne (hname ▸ (hflags v hv).1)]
    exact h.object
  · rw [lastNaming?_append_of_ne (hname ▸ (hflags v hv).2)]
    exact h.label
  · exact hname ▸ List.mem_map_of_mem hv
  · rw [Option.getD_some, testBit_viewed _ hv _ hp]
    split
    · -- the token decides the bit: it is the one that stands for it, or the other one of its word
      next hview =>
      have hname' := hname.symm.trans hview
      rw [lastNaming?_append_of_eq hname', Bool.beq_eq_decide_eq, decide_eq_decide, Option.some_inj]
      exact ⟨fun hon => negation_inj (Prod.ext hon hname'), fun ht => by rw [ht]⟩
    · next hview =>
      rw [lastNaming?_append_of_ne (hname ▸ hview)]
      exact h.bits p hp

/-- **A token decides its own word** and leaves the others as they were. -/
theorem Latest.token (h : Latest ts shown) (ht : IsToken t) :
    ∃ next, token shown t = .ok next ∧ Latest (ts ++ [t]) next := by
  rw [Visibility.token]
  by_cases hobject : (Text.negation t).2 = "object"
  · obtain ⟨hmentioned, hbits⟩ := h.flag hobject (by decide)
    dsimp only
    rw [if_pos hobject]
    refine ⟨_, rfl, ?_, ?_, hmentioned, hbits, h.bounded⟩
    · rw [lastNaming?_append_of_eq hobject]
      rfl
    · rw [lastNaming?_append_of_ne (hobject.symm ▸ by decide)]
      exact h.label
  · by_cases hlabel : (Text.negation t).2 = "label"
    · obtain ⟨hmentioned, hbits⟩ := h.flag hlabel (by decide)
      dsimp only
      rw [if_neg hobject, if_pos hlabel]
      refine ⟨_, rfl, ?_, ?_, hmentioned, hbits, h.bounded⟩
      · rw [lastNaming?_append_of_ne (hlabel.symm ▸ by decide)]
        exact h.object
      · rw [lastNaming?_append_of_eq hlabel]
        rfl
    · have hview : (Text.negation t).2 ∈ views.map Prod.fst :=
        ((List.mem_cons.1 ht).resolve_left hobject |> List.mem_cons.1).resolve_left hlabel
      cases hfind : views.find? (·.1 = (Text.negation t).2) with
      | none =>
        obtain ⟨v, hv, hname⟩ := List.mem_map.1 hview
        exact absurd hname (by simpa using List.find?_eq_none.1 hfind v hv)
      | some v =>
        have hfound := List.find?_some hfind
        have hname : v.1 = (Text.negation t).2 := of_decide_eq_true hfound
        dsimp only
        rw [if_neg hobject, if_neg hlabel, hfind]
        exact ⟨_, rfl, h.view (List.mem_of_find?_eq_some hfind) hname⟩

/-- **What a row of tokens says of a word is what the last token that names it says.** -/
theorem Latest.row : ∀ {us ts : List Text} {shown : Shown}, Latest ts shown → (∀ t ∈ us, IsToken t) →
    ∃ next, us.foldlM Visibility.token shown = .ok next ∧ Latest (ts ++ us) next
  | [], ts, shown, h, _ => ⟨shown, rfl, (List.append_nil ts).symm ▸ h⟩
  | u :: us, ts, shown, h, hall => by
    rw [List.forall_mem_cons] at hall
    obtain ⟨next, hnext, hlatest⟩ := h.token hall.1
    obtain ⟨last, hlast, hrow⟩ := hlatest.row hall.2
    refine ⟨last, ?_, List.append_cons ts u us ▸ hrow⟩
    rw [List.foldlM_cons, hnext]
    exact hlast

theorem isToken_of_token {shown next : Shown} (h : token shown t = .ok next) : IsToken t := by
  rw [token] at h
  split at h
  next hnegation =>
    rw [IsToken, hnegation]
    split at h
    · next hname => exact List.mem_cons.2 (.inl hname)
    · split at h
      · next hname => exact List.mem_cons_of_mem _ (List.mem_cons.2 (.inl hname))
      · split at h
        · next hfind =>
          have hfound := List.find?_some hfind
          exact of_decide_eq_true hfound ▸ List.mem_cons_of_mem _ (List.mem_cons_of_mem _
            (List.mem_map_of_mem (List.mem_of_find?_eq_some hfind)))
        · cases h

/-- Nothing but tokens is read. -/
theorem isToken_of_foldlM : ∀ {ts : List Text} {shown next : Shown}, ts.foldlM token shown = .ok next →
    ∀ t ∈ ts, IsToken t
  | [], _, _, _ => List.forall_mem_nil _
  | _ :: _, _, _, h => by
    rw [List.foldlM_cons] at h
    obtain ⟨_, hfirst, hrest⟩ := bind_eq_ok.1 h
    exact List.forall_mem_cons.2 ⟨isToken_of_token hfirst, isToken_of_foldlM hrest⟩

/-! ## What attributes say -/

/-- What an attribute can be: a flag, or bits of which no two are paired. -/
def Holds (key v : Text) : Prop :=
  key ∈ (["object", "label"] : List Text) ∧ (∃ on, v = Text.ofBool on) ∨
    key = "ev" ∧ ∃ bits < 64, Exclusive bits ∧ v = Text.ofNat bits

/-- The attributes say of every word what the last token that names it says. -/
structure Follows (ts : List Text) (a : Attributes) : Prop where
  object : a.get? "object" = (lastNaming? "object" ts).map fun t => Text.ofBool (Text.negation t).1
  label : a.get? "label" = (lastNaming? "label" ts).map fun t => Text.ofBool (Text.negation t).1
  mentioned : (a.get? "ev").isSome ↔ ∃ t ∈ ts, (Text.negation t).2 ∈ views.map Prod.fst
  bits : ∀ p ∈ bitTokens, (bitsOf a).testBit p.1 = decide (lastNaming? (Text.negation p.2).2 ts = some p.2)
  holds : ∀ key v, a.get? key = some v → Holds key v

variable {a b : Attributes}

theorem bitsOf_eq {bits : Option Nat} (h : a.get? "ev" = bits.map Text.ofNat) (hbits : bits.getD 0 < 64) :
    bitsOf a = bits.getD 0 := by
  rw [bitsOf, h]
  cases bits with
  | none => rfl
  | some n =>
    have hlimit : n ≤ 0xffffffff := Nat.le_of_lt (Nat.lt_of_lt_of_le hbits (by decide))
    rw [Option.map_some, Option.bind_some, Text.trim_ofNat, Text.natural32?, Text.natural?_ofNat hlimit]

theorem Latest.follows (h : Latest ts shown) : Follows ts shown.attributes := by
  have hobject : shown.attributes.get? "object" = shown.object.map Text.ofBool := by
    obtain ⟨object, label, bits⟩ := shown
    cases object <;> cases label <;> cases bits <;> rfl
  have hlabel : shown.attributes.get? "label" = shown.label.map Text.ofBool := by
    obtain ⟨object, label, bits⟩ := shown
    cases object <;> cases label <;> cases bits <;> rfl
  have hev : shown.attributes.get? "ev" = shown.views.map Text.ofNat := by
    obtain ⟨object, label, bits⟩ := shown
    cases object <;> cases label <;> cases bits <;> rfl
  refine ⟨?_, ?_, ?_, ?_, fun key v hv => ?_⟩
  · rw [hobject, h.object, Option.map_map]
    rfl
  · rw [hlabel, h.label, Option.map_map]
    rfl
  · rw [hev, Option.isSome_map]
    exact h.mentioned
  · rw [bitsOf_eq hev h.bounded]
    exact h.bits
  · rcases OrderedMap.mem_or_get?_of_union hv with hmem | hnone
    · rw [List.mem_append, List.mem_append, Option.mem_toList, Option.mem_toList, Option.mem_toList,
        Option.map_eq_some_iff, Option.map_eq_some_iff, Option.map_eq_some_iff] at hmem
      rcases hmem with (⟨on, -, hon⟩ | ⟨on, -, hon⟩) | ⟨bits, hbits, hpair⟩
      · cases hon
        exact .inl ⟨.head _, on, rfl⟩
      · cases hon
        exact .inl ⟨.tail _ (.head _), on, rfl⟩
      · cases hpair
        have hexclusive := h.exclusive
        have hbounded := h.bounded
        rw [hbits] at hexclusive hbounded
        exact .inr ⟨rfl, bits, hbounded, hexclusive, rfl⟩
    · cases hnone

theorem Follows.ne_empty (h : Follows ts a) (htokens : ∀ t ∈ ts, IsToken t) (hne : ts ≠ []) : a ≠ ∅ := by
  rintro rfl
  obtain ⟨t, more, rfl⟩ := List.exists_cons_of_ne_nil hne
  obtain ⟨u, hu⟩ := exists_lastNaming? (List.mem_cons_self (a := t) (l := more))
  rcases List.mem_cons.1 (htokens t List.mem_cons_self) with hobject | hother
  · have := h.object
    rw [← hobject, hu] at this
    cases this
  · rcases List.mem_cons.1 hother with hlabel | hview
    · have := h.label
      rw [← hlabel, hu] at this
      cases this
    · cases h.mentioned.2 ⟨t, List.mem_cons_self, hview⟩

/-! ## What is written -/

/-- Every token that can be written. -/
def written : List Text := "object" :: "label" :: bitTokens.map Prod.snd

theorem mem_write : t ∈ write a ↔ (t = "object" ∧ a.isTrue "object" ∨ t = "label" ∧ a.isTrue "label") ∨
    ∃ p ∈ bitTokens, (bitsOf a).testBit p.1 ∧ p.2 = t := by
  have hflag : ∀ (flag : Bool) (word : Text), t ∈ (if flag then [word] else []) ↔ t = word ∧ flag := by
    intro flag word
    cases flag <;> simp
  rw [write, List.mem_append, List.mem_append, hflag, hflag, List.mem_map]
  simp only [List.mem_filter, and_assoc]

theorem mem_written (h : t ∈ write a) : t ∈ written := by
  rcases mem_write.1 h with (⟨rfl, -⟩ | ⟨rfl, -⟩) | ⟨p, hp, -, rfl⟩
  · exact .head _
  · exact .tail _ (.head _)
  · exact .tail _ (.tail _ (List.mem_map_of_mem hp))

theorem bit_mem_write {p : Nat × Text} (hp : p ∈ bitTokens) : p.2 ∈ write a ↔ (bitsOf a).testBit p.1 := by
  have hother : ∀ p ∈ bitTokens, p.2 ≠ "object" ∧ p.2 ≠ "label" ∧ ∀ q ∈ bitTokens, q.2 = p.2 → q = p := by decide
  obtain ⟨hobject, hlabel, hunique⟩ := hother p hp
  rw [mem_write]
  constructor
  · rintro ((⟨heq, -⟩ | ⟨heq, -⟩) | ⟨q, hq, hbit, heq⟩)
    · exact absurd heq hobject
    · exact absurd heq hlabel
    · exact hunique q hq heq ▸ hbit
  · exact fun hbit => .inr ⟨p, hp, hbit, rfl⟩

theorem flag_mem_write (hname : name ∈ (["object", "label"] : List Text)) : name ∈ write a ↔ a.isTrue name := by
  have hother : ∀ name ∈ (["object", "label"] : List Text), ∀ p ∈ bitTokens, p.2 ≠ name := by decide
  have hflag : name = "object" ∧ a.isTrue "object" ∨ name = "label" ∧ a.isTrue "label" ↔ a.isTrue name := by
    rcases List.mem_cons.1 hname with rfl | hname
    · exact ⟨fun h => h.elim And.right fun h => absurd h.1 (by decide), fun h => .inl ⟨rfl, h⟩⟩
    · rw [List.mem_singleton.1 hname]
      exact ⟨fun h => h.elim (fun h => absurd h.1 (by decide)) And.right, fun h => .inr ⟨rfl, h⟩⟩
  rw [mem_write, hflag]
  exact or_iff_left fun ⟨p, hp, _, heq⟩ => hother name hname p hp heq

/-- **Of bits of which no two are paired no word is written twice.** -/
theorem apart_of_exclusive (h : Exclusive (bitsOf a)) :
    ∀ t ∈ write a, ∀ u ∈ write a, (Text.negation t).2 = (Text.negation u).2 → t = u := by
  have hclash : ∀ t ∈ written, ∀ u ∈ written, (Text.negation t).2 = (Text.negation u).2 → t = u ∨
      ∃ p ∈ bitTokens, ∃ q ∈ bitTokens, p.2 = t ∧ q.2 = u ∧
        (p.1, q.1) ∈ [(2, 3), (3, 2), (4, 5), (5, 4)] := by decide
  intro t ht u hu hname
  refine (hclash t (mem_written ht) u (mem_written hu) hname).resolve_right ?_
  rintro ⟨⟨i, word⟩, hp, ⟨j, other⟩, hq, rfl, rfl, hpaired⟩
  have hi := (bit_mem_write hp).1 ht
  have hj := (bit_mem_write hq).1 hu
  simp only [List.mem_cons, List.not_mem_nil, or_false, Prod.mk.injEq] at hpaired
  rcases hpaired with ⟨rfl, rfl⟩ | ⟨rfl, rfl⟩ | ⟨rfl, rfl⟩ | ⟨rfl, rfl⟩
  · exact h.1 ⟨hi, hj⟩
  · exact h.1 ⟨hj, hi⟩
  · exact h.2 ⟨hi, hj⟩
  · exact h.2 ⟨hj, hi⟩

/-! ## Flags and bits last -/

/-- The attributes show the same: all that is written of them. -/
structure Agrees (a b : Attributes) : Prop where
  flags : ∀ name ∈ (["object", "label"] : List Text), a.isTrue name = b.isTrue name
  bits : bitsOf a = bitsOf b

theorem Agrees.write_eq (h : Agrees a b) : write a = write b := by
  rw [write, write, h.flags "object" (.head _), h.flags "label" (.tail _ (.head _)), h.bits]

theorem exclusive_of_holds (h : ∀ key v, a.get? key = some v → Holds key v) :
    bitsOf a < 64 ∧ Exclusive (bitsOf a) ∧ (a.get? "ev").getD "0" = Text.ofNat (bitsOf a) := by
  cases hev : a.get? "ev" with
  | none =>
    have hzero : bitsOf a = 0 := @bitsOf_eq a none hev (by decide)
    rw [hzero]
    decide
  | some v =>
    rcases h _ v hev with ⟨hkey, -⟩ | ⟨-, bits, hbits, hexclusive, rfl⟩
    · exact absurd hkey (by decide)
    · rw [@bitsOf_eq a (some bits) hev hbits]
      exact ⟨hbits, hexclusive, rfl⟩

theorem flag_of_holds (h : ∀ key v, a.get? key = some v → Holds key v)
    (hname : name ∈ (["object", "label"] : List Text)) : (a.get? name).getD "false" = Text.ofBool (a.isTrue name) := by
  rw [Attributes.isTrue]
  cases hget : a.get? name with
  | none => rfl
  | some v =>
    rcases h name v hget with ⟨-, on, rfl⟩ | ⟨rfl, -⟩
    · cases on <;> rfl
    · exact absurd hname (by decide)

theorem equivalent_of_agrees (ha : ∀ key v, a.get? key = some v → Holds key v)
    (hb : ∀ key v, b.get? key = some v → Holds key v) (h : Agrees a b) : format.equivalent a b := by
  refine PropertyFormat.equivalent_iff.2 fun key => ?_
  show Same ((Attributes.overlaid defaults a).get? key) ((Attributes.overlaid defaults b).get? key)
  rw [Attributes.get?_overlaid, Attributes.get?_overlaid]
  have hfilled : ∀ (m : Attributes) {default : Text}, defaults.get? key = some default →
      (m.get? key).or (defaults.get? key) = some ((m.get? key).getD default) := by
    intro m default hdefault
    rw [hdefault]
    cases m.get? key <;> rfl
  have hdefaults : ∀ name ∈ (["object", "label"] : List Text), defaults.get? name = some ("false" : Text) := by decide
  by_cases hflag : key ∈ (["object", "label"] : List Text)
  · rw [hfilled a (hdefaults key hflag), hfilled b (hdefaults key hflag), flag_of_holds ha hflag,
      flag_of_holds hb hflag, h.flags key hflag]
    exact same_refl _
  · by_cases hev : key = "ev"
    · subst hev
      have hzero : defaults.get? "ev" = some ("0" : Text) := by decide
      rw [hfilled a hzero, hfilled b hzero, (exclusive_of_holds ha).2.2,
        (exclusive_of_holds hb).2.2, h.bits]
      exact same_refl _
    · have hnone : ∀ {m : Attributes}, (∀ key v, m.get? key = some v → Holds key v) → m.get? key = none :=
        fun hm => Option.eq_none_iff_forall_ne_some.2 fun v hv =>
          (hm key v hv).elim (fun h => hflag h.1) fun h => hev h.1
      rw [hnone ha, hnone hb]
      exact same_refl _

/-- Each flag is written with a token of its own, and each bit. -/
theorem Follows.agrees (hread : Follows (write a) b) (h : ∀ key v, a.get? key = some v → Holds key v) :
    Agrees b a where
  flags name hname := by
    have hself : ∀ name ∈ (["object", "label"] : List Text), Text.negation name = (true, name) ∧
        ∀ t ∈ written, (Text.negation t).2 = name → t = name := by decide
    obtain ⟨hnegation, hunique⟩ := hself name hname
    have hget : b.get? name = (lastNaming? name (write a)).map fun t => Text.ofBool (Text.negation t).1 := by
      rcases List.mem_cons.1 hname with rfl | hlabel
      · exact hread.object
      · rw [List.mem_singleton.1 hlabel]
        exact hread.label
    rw [Bool.eq_iff_iff, ← flag_mem_write (a := a) hname, Attributes.isTrue, decide_eq_true_eq, hget]
    cases hfound : lastNaming? name (write a) with
    | none =>
      refine iff_of_false (Option.some_ne_none _).symm fun hmem => ?_
      obtain ⟨u, hu⟩ := exists_lastNaming? hmem
      rw [hnegation, hfound] at hu
      cases hu
    | some t =>
      obtain ⟨ht, hname'⟩ := of_lastNaming? hfound
      obtain rfl := hunique t (mem_written ht) hname'
      rw [Option.map_some, hnegation]
      exact iff_of_true rfl ht
  bits := by
    obtain ⟨hbounded, hexclusive, -⟩ := exclusive_of_holds h
    have hlast : ∀ {t : Text}, lastNaming? (Text.negation t).2 (write a) = some t ↔ t ∈ write a :=
      lastNaming?_eq_some_iff (apart_of_exclusive hexclusive)
    refine eq_of_bitTokens (exclusive_of_holds hread.holds).1 hbounded fun p hp => ?_
    rw [hread.bits p hp, Bool.eq_iff_iff, decide_eq_true_eq, hlast]
    exact bit_mem_write hp

/-- What is written is read as what it was written of. -/
theorem exists_reread (h : ∀ key v, a.get? key = some v → Holds key v) :
    ∃ b, format.reread a = .ok (some b) ∧ (∀ key v, b.get? key = some v → Holds key v) ∧ Agrees b a := by
  have hwritten : ∀ t ∈ written, IsToken t ∧ t ≠ [] ∧ t.all Text.isPlain := by decide
  have htokens : ∀ t ∈ write a, IsToken t := fun t ht => (hwritten t (mem_written ht)).1
  have hparts : ∀ t ∈ write a, Part Text.isBlank t := by
    intro t ht
    obtain ⟨-, hne, hplain⟩ := hwritten t (mem_written ht)
    exact Text.part_of_plain hne hplain
  obtain ⟨shown, hshown, hlatest⟩ := latest_nil.row htokens
  rw [List.nil_append] at hlatest
  have hfollows := hlatest.follows
  refine ⟨shown.attributes, ?_, hfollows.holds, hfollows.agrees h⟩
  refine PropertyFormat.reread_of_texts rfl (fun t ht => (hparts t ht).ne_nil) (fun hempty => ?_) fun hne => ?_
  · rw [hempty] at hshown
    cases hshown
    rfl
  · show decode (Text.words (write a)) = _
    rw [decode, Text.tokens_words hparts, ok_bind, hshown, ok_bind,
      PropertyFormat.something_eq_some.2 ⟨rfl, hfollows.ne_empty htokens hne⟩]
    rfl

/-- **Flags and bits of which no two are paired survive writing and reading.** -/
theorem survives_of_holds (h : ∀ key v, a.get? key = some v → Holds key v) : format.Survives a := by
  obtain ⟨b, hreread, hb, hagrees⟩ := exists_reread h
  have hagain : Agrees a b := ⟨fun name hname => (hagrees.flags name hname).symm, hagrees.bits.symm⟩
  refine ⟨b, hreread, equivalent_of_agrees h hb hagain, ?_⟩
  exact congrArg (fun texts => Text.nonempty? (Text.words texts)) hagrees.write_eq

theorem decode_of_tokens {value : Text} (hts : Text.tokens value = .ok ts) (h : ∀ t ∈ ts, IsToken t) :
    ∃ a, format.decode value = .ok (something a) ∧ Follows ts a := by
  obtain ⟨shown, hshown, hlatest⟩ := latest_nil.row h
  refine ⟨shown.attributes, ?_, hlatest.follows⟩
  show decode value = _
  rw [decode, hts, ok_bind, hshown]
  rfl

theorem holds_of_decode {value : Text} (h : format.decode value = .ok (some a)) :
    ∀ key v, a.get? key = some v → Holds key v := by
  obtain ⟨ts, hts, hread⟩ := bind_eq_ok.1 h
  obtain ⟨shown, hshown, -⟩ := bind_eq_ok.1 hread
  obtain ⟨m, hm, hfollows⟩ := decode_of_tokens hts (isToken_of_foldlM hshown)
  have hsomething := (Except.ok.inj (hm.symm.trans h))
  rw [← (PropertyFormat.something_eq_some.1 hsomething).1]
  exact hfollows.holds

/-- **The last token that names a word decides it**, and of two paired bits at most one is set.  What was read survives
writing and reading, and so do any flags and bits without a clash. -/
theorem last_token_decides :
    (∀ {value : Text} {ts : List Text}, Text.tokens value = .ok ts → (∀ t ∈ ts, IsToken t) →
      ∃ a, format.decode value = .ok (something a) ∧ Follows ts a) ∧
    (∀ {value : Text} {a : Attributes}, format.decode value = .ok (some a) → format.Survives a) ∧
    ∀ {a : Attributes}, (∀ key v, a.get? key = some v → Holds key v) → format.Survives a :=
  ⟨decode_of_tokens, fun h => survives_of_holds (holds_of_decode h), survives_of_holds⟩

/-- A row in which flags and views are named again, and bits that no value was read of. -/
theorem last_token_decides_of_repeated :
    (∃ a, format.decode "object ~ev1 3d ~label plane ~3d ~object ev2" = .ok (something a) ∧
      Follows (["object", "~ev1", "3d", "~label", "plane", "~3d", "~object", "ev2"] : List Text) a) ∧
    (∃ a, format.decode "object ~ev1 3d ~label plane ~3d ~object ev2" = .ok (some a) ∧ format.Survives a) ∧
    format.Survives (.table [("ev", "38"), ("label", "true"), ("object", "false")]) := by
  have hdecode : format.decode "object ~ev1 3d ~label plane ~3d ~object ev2" =
      .ok (some (.table [("object", "false"), ("label", "false"), ("ev", "27")])) := by decide +kernel
  refine ⟨last_token_decides.1 (by decide +kernel) (by decide), ⟨_, hdecode, last_token_decides.2.1 hdecode⟩,
    last_token_decides.2.2 fun key v hv => ?_⟩
  have hall : ∀ p ∈ (Attributes.table [("ev", "38"), ("label", "true"), ("object", "false")]).pairs,
      p = ("ev".toList, Text.ofNat 38) ∨ p = ("label".toList, Text.ofBool true) ∨
        p = ("object".toList, Text.ofBool false) := by decide
  rcases hall (key, v) (OrderedMap.get?_eq_some.1 hv) with h | h | h
  · cases h
    exact .inr ⟨rfl, 38, by decide, by decide, rfl⟩
  · cases h
    exact .inl ⟨.tail _ (.head _), true, rfl⟩
  · cases h
    exact .inl ⟨.head _, false, rfl⟩

end StyleScript.Visibility
