import StyleScript.Proofs.Script.Macros
import StyleScript.Proofs.Script.Places
import StyleScript.Proofs.Script.Prolonged
/-!
# Behind the place where a reader stops

What stands behind the place where a reader stops does not matter: without it the same is read, and nothing is left
(`followed` is a cursor with more text behind it).  A reader looks a little further than it goes, but only to see
whether it is to go on; where nothing is left it is not to.  The one exception is a comment, which begins with two
slashes: so the text behind must not begin with one.
-/
namespace StyleScript

theorem nil_of_append_eq {α : Type} {taken left tail : List α} (h : taken ++ left = tail)
    (hleft : tail.length ≤ left.length) : taken = [] ∧ left = tail := by
  have hlength := congrArg List.length h
  rw [List.length_append] at hlength
  obtain rfl : taken = [] := List.eq_nil_of_length_eq_zero (by omega)
  exact ⟨rfl, h⟩

theorem exists_cons_of_append_eq {α : Type} {u tail rest : List α} {a : α} (h : u ++ tail = a :: rest)
    (hrest : tail.length ≤ rest.length) : ∃ v, u = a :: v ∧ v ++ tail = rest := by
  cases u with
  | nil =>
    have hlength := congrArg List.length h
    rw [List.nil_append, List.length_cons] at hlength
    omega
  | cons b v =>
    rw [List.cons_append, List.cons.injEq] at h
    exact ⟨v, by rw [h.1], h.2⟩

/-! ## Lexemes -/

namespace Lexeme

variable {tail : Text}

theorem blank_shortened (ht : tail.head? ≠ some '/') {passes : Char → Bool} : ∀ {inComment : Bool} {u taken left : Text},
    blank passes inComment (u ++ tail) = (taken, left) → tail.length ≤ left.length →
    ∃ l, left = l ++ tail ∧ blank passes inComment u = (taken, l)
  | inComment, [], taken, left, h, hleft => by
    have happ := blank_append passes inComment tail
    rw [List.nil_append] at h
    rw [h] at happ
    obtain ⟨rfl, rfl⟩ := nil_of_append_eq happ hleft
    exact ⟨[], rfl, rfl⟩
  | inComment, c :: u, taken, left, h, hleft => by
    have hs := startsComment_append (joined_of_head ht : Joined (c :: u) tail)
    rw [List.cons_append] at h hs
    simp only [blank, hs] at h ⊢
    split at h
    · next hpass =>
      rw [if_pos hpass]
      obtain ⟨rfl, rfl⟩ := Prod.mk.inj h
      obtain ⟨l, hl, hblank⟩ := blank_shortened ht (u := u) rfl hleft
      exact ⟨l, hl, by rw [hblank]⟩
    · next hpass =>
      rw [if_neg hpass]
      obtain ⟨rfl, rfl⟩ := Prod.mk.inj h
      exact ⟨c :: u, rfl, rfl⟩

/-- Blanks that go on into the text behind are all that is in front of it. -/
theorem blank_eq_nil_of_length_le (ht : tail.head? ≠ some '/') {passes : Char → Bool} : ∀ {inComment : Bool} {u : Text},
    (blank passes inComment (u ++ tail)).2.length ≤ tail.length → (blank passes inComment u).2 = []
  | _, [], _ => rfl
  | inComment, c :: u, h => by
    have hs := startsComment_append (joined_of_head ht : Joined (c :: u) tail)
    rw [List.cons_append] at h hs
    simp only [blank, hs] at h ⊢
    split at h
    · next hpass =>
      rw [if_pos hpass]
      exact blank_eq_nil_of_length_le ht h
    · rw [List.length_cons, List.length_append] at h
      omega

theorem span_shortened {p : Char → Bool} : ∀ {u : Text}, tail.length ≤ ((u ++ tail).dropWhile p).length →
    (u ++ tail).takeWhile p = u.takeWhile p ∧ (u ++ tail).dropWhile p = u.dropWhile p ++ tail
  | [], h => nil_of_append_eq List.takeWhile_append_dropWhile h
  | c :: u, h => by
    rw [List.cons_append, List.dropWhile_cons] at h
    rw [List.cons_append, List.takeWhile_cons, List.dropWhile_cons, List.takeWhile_cons, List.dropWhile_cons]
    split
    · next hc =>
      rw [if_pos hc] at h
      obtain ⟨htake, hdrop⟩ := span_shortened h
      exact ⟨congrArg (c :: ·) htake, hdrop⟩
    · exact ⟨rfl, rfl⟩

theorem name?_shortened {u name left : Text} (h : name? (u ++ tail) = some (name, left))
    (hleft : tail.length ≤ left.length) : ∃ l, left = l ++ tail ∧ name? u = some (name, l) := by
  cases u with
  | nil =>
    obtain ⟨happ, hne⟩ := name?_append h
    exact absurd (nil_of_append_eq happ hleft).1 hne
  | cons c u =>
    simp only [name?, List.cons_append] at h ⊢
    split at h
    · next hc =>
      cases h
      obtain ⟨htake, hdrop⟩ := span_shortened hleft
      exact ⟨_, hdrop, by rw [if_pos hc, htake]⟩
    · cases h

theorem length_le_of_labelTail {inSubscript : Bool} {text taken left : Text}
    (h : labelTail inSubscript text = .ok (taken, left)) : left.length ≤ text.length := by
  have hlength := congrArg List.length (labelTail_append h)
  rw [List.length_append] at hlength
  omega

theorem labelTail_shortened {inSubscript : Bool} {u taken left : Text}
    (h : labelTail inSubscript (u ++ tail) = .ok (taken, left)) (hleft : tail.length ≤ left.length) :
    ∃ l, left = l ++ tail ∧ labelTail inSubscript u = .ok (taken, l) := by
  generalize hw : u ++ tail = w at h
  fun_induction labelTail inSubscript w generalizing u taken left with
  | case1 rest t l hr ih =>
    cases h
    have hrest := hleft.trans (length_le_of_labelTail hr)
    obtain ⟨v, rfl, hv⟩ := exists_cons_of_append_eq hw (Nat.le_succ_of_le hrest)
    obtain ⟨v, rfl, rfl⟩ := exists_cons_of_append_eq hv hrest
    obtain ⟨l, rfl, hl⟩ := ih hleft rfl hr
    exact ⟨l, rfl, by rw [labelTail, hl]⟩
  | case2 => cases h
  | case3 c rest hsub hc ih =>
    obtain ⟨m, hm, rfl⟩ := extend_eq_ok h
    obtain ⟨v, rfl, rfl⟩ := exists_cons_of_append_eq hw (hleft.trans (length_le_of_labelTail hm))
    obtain ⟨l, rfl, hl⟩ := ih hleft rfl hm
    refine ⟨l, rfl, ?_⟩
    rw [labelTail, if_pos hc, hl]
    · rfl
    · rintro more he rfl
      exact hsub _ he rfl
  | case4 c rest hsub hc =>
    cases h
    refine ⟨u, hw.symm, ?_⟩
    cases u with
    | nil => rfl
    | cons d v =>
      rw [List.cons_append, List.cons.injEq] at hw
      rw [labelTail, if_neg (hw.1 ▸ hc)]
      rintro more rfl -
      exact hc (hw.1 ▸ by decide)
  | case5 =>
    cases h
    obtain ⟨rfl, rfl⟩ := List.append_eq_nil_iff.1 hw
    exact ⟨[], rfl, rfl⟩
  | case6 rest ih =>
    obtain ⟨m, hm, rfl⟩ := extend_eq_ok h
    obtain ⟨v, rfl, rfl⟩ := exists_cons_of_append_eq hw (hleft.trans (length_le_of_labelTail hm))
    obtain ⟨l, rfl, hl⟩ := ih hleft rfl hm
    exact ⟨l, rfl, by rw [labelTail, if_pos rfl, hl]; rfl⟩
  | case7 => cases h
  | case8 c rest hc hline ih =>
    obtain ⟨m, hm, rfl⟩ := extend_eq_ok h
    obtain ⟨v, rfl, rfl⟩ := exists_cons_of_append_eq hw (hleft.trans (length_le_of_labelTail hm))
    obtain ⟨l, rfl, hl⟩ := ih hleft rfl hm
    exact ⟨l, rfl, by rw [labelTail, if_neg hc, if_neg hline, hl]; rfl⟩
  | case9 => cases h

/-- A label ends with a character of a label or with a subscript, and so does what is left of one. -/
theorem last_labelTail {inSubscript : Bool} {text taken left : Text}
    (h : labelTail inSubscript text = .ok (taken, left)) :
    (inSubscript → taken ≠ []) ∧ ∀ x ∈ taken.getLast?, Text.continuesLabel x ∨ x = '}' := by
  have hcons : ∀ {c : Char} {more : Text}, (∀ x ∈ more.getLast?, Text.continuesLabel x ∨ x = '}') →
      (more = [] → Text.continuesLabel c ∨ c = '}') →
      ∀ x ∈ (c :: more).getLast?, Text.continuesLabel x ∨ x = '}' := by
    intro c more hmore hc x hx
    cases more with
    | nil => exact Option.some.inj hx ▸ hc rfl
    | cons d more => exact hmore x (by rwa [List.getLast?_cons_cons] at hx)
  have hplain : ∀ {P : Prop}, (false = true) → P := fun h => absurd h Bool.false_ne_true
  have hnone : ∀ x ∈ ([] : Text).getLast?, Text.continuesLabel x ∨ x = '}' :=
    fun x hx => absurd hx (Option.not_mem_none x)
  fun_induction labelTail inSubscript text generalizing taken left with
  | case1 rest t l hr ih =>
    cases h
    obtain ⟨hne, hlast⟩ := ih hr
    exact ⟨hplain, hcons (hcons hlast fun ht => absurd ht (hne rfl)) fun hnil => absurd hnil (List.cons_ne_nil _ _)⟩
  | case2 => cases h
  | case3 c rest _ hc ih =>
    obtain ⟨m, hm, rfl⟩ := extend_eq_ok h
    exact ⟨hplain, hcons (ih hm).2 fun _ => .inl hc⟩
  | case4 => cases h; exact ⟨hplain, hnone⟩
  | case5 => cases h; exact ⟨hplain, hnone⟩
  | case6 rest ih =>
    obtain ⟨m, hm, rfl⟩ := extend_eq_ok h
    exact ⟨fun _ => List.cons_ne_nil _ _, hcons (ih hm).2 fun _ => .inr rfl⟩
  | case7 => cases h
  | case8 c rest _ _ ih =>
    obtain ⟨m, hm, rfl⟩ := extend_eq_ok h
    exact ⟨fun _ => List.cons_ne_nil _ _, hcons (ih hm).2 fun hnil => absurd hnil ((ih hm).1 rfl)⟩
  | case9 => cases h

theorem last_label? {text taken left : Text} (h : label? text = .ok (some (taken, left))) {x : Char}
    (hx : taken.getLast? = some x) : Text.continuesLabel x ∨ x = '}' := by
  cases text with
  | nil => cases h
  | cons c rest =>
    rw [label?] at h
    split at h
    · cases hl : labelTail false (c :: rest) with
      | error halt => rw [hl] at h; cases h
      | ok p =>
        rw [hl] at h
        cases h
        exact (last_labelTail hl).2 x hx
    · cases h

/-- A label ends with no blank. -/
theorem isBlank_last_label? {text taken left : Text} (h : label? text = .ok (some (taken, left))) {x : Char}
    (hx : taken.getLast? = some x) : Text.isBlank x = false := by
  rcases last_label? h hx with hc | rfl
  · exact Text.isBlank_of_continuesLabel hc
  · decide

theorem label?_shortened {u taken left : Text} (h : label? (u ++ tail) = .ok (some (taken, left)))
    (hleft : tail.length ≤ left.length) : ∃ l, left = l ++ tail ∧ label? u = .ok (some (taken, l)) := by
  cases u with
  | nil => exact absurd (nil_of_append_eq (label?_append h) hleft).1 (label?_ne_nil h)
  | cons c u =>
    simp only [label?, List.cons_append] at h ⊢
    split at h
    · next hc =>
      cases hl : labelTail false (c :: (u ++ tail)) with
      | error halt => rw [hl] at h; cases h
      | ok p =>
        rw [hl] at h
        cases h
        obtain ⟨l, rfl, hshort⟩ := labelTail_shortened (u := c :: u) hl hleft
        exact ⟨l, rfl, by rw [if_pos hc, hshort]; rfl⟩
    · cases h

theorem raw_shortened (ht : tail.head? ≠ some '/') {stop : Char → Bool} {context : Text.Context} {u taken left : Text}
    (h : raw stop context (u ++ tail) = .ok (taken, left)) (hleft : tail.length ≤ left.length) :
    ∃ l, left = l ++ tail ∧ raw stop context u = .ok (taken, l) := by
  cases u with
  | nil =>
    obtain ⟨rfl, rfl⟩ := nil_of_append_eq (raw_append h) hleft
    have hthrough := through?_of_raw h
    cases context with
    | plain depth =>
      obtain rfl : depth = 0 := by simpa [through?] using hthrough
      exact ⟨[], rfl, rfl⟩
    | quoted depth => cases hthrough
    | escaped depth => cases hthrough
  | cons c u =>
    have hend : endsRaw stop (c :: (u ++ tail)) = endsRaw stop (c :: u) := endsRaw_append stop (joined_of_head ht)
    cases context with
    | plain depth =>
      simp only [raw, List.cons_append, hend] at h ⊢
      split at h
      · next he =>
        cases h
        exact ⟨c :: u, rfl, if_pos he⟩
      · next he =>
        rw [if_neg he]
        split at h
        · cases h
        · next hc =>
          rw [if_neg hc]
          split at h
          · next hr =>
            cases h
            obtain ⟨l, rfl, hl⟩ := raw_shortened ht hr hleft
            exact ⟨l, rfl, by rw [hl]⟩
          · cases h
    | quoted depth =>
      simp only [raw, List.cons_append] at h ⊢
      obtain ⟨m, hm, rfl⟩ := extend_eq_ok h
      obtain ⟨l, rfl, hl⟩ := raw_shortened ht hm hleft
      exact ⟨l, rfl, by rw [hl]; rfl⟩
    | escaped depth =>
      simp only [raw, List.cons_append] at h ⊢
      obtain ⟨m, hm, rfl⟩ := extend_eq_ok h
      obtain ⟨l, rfl, hl⟩ := raw_shortened ht hm hleft
      exact ⟨l, rfl, by rw [hl]; rfl⟩

end Lexeme

theorem Text.after?_shortened {tail word u left : Text} (h : Text.after? word (u ++ tail) = some left)
    (hleft : tail.length ≤ left.length) : ∃ l, left = l ++ tail ∧ Text.after? word u = some l := by
  rw [Text.after?_eq_some] at h
  rcases List.append_eq_append_iff.1 h with ⟨w, rfl, hl⟩ | ⟨w, rfl, rfl⟩
  · obtain ⟨rfl, rfl⟩ := nil_of_append_eq hl.symm hleft
    exact ⟨[], rfl, Text.after?_eq_some.2 (by rw [List.append_nil, List.append_nil])⟩
  · exact ⟨w, rfl, Text.after?_eq_some.2 rfl⟩

namespace Script

open Cursor

/-! ## Cursors -/

/-- The cursor with more text behind what is left. -/
def Cursor.followed (tail : Text) (c : Cursor) : Cursor := ⟨c.rest ++ tail, c.position⟩

section

variable {tail : Text} {c e : Cursor}

namespace Cursor

theorem size_followed : (c.followed tail).size = c.size + tail.length := List.length_append

theorem skip_followed (ht : tail.head? ≠ some '/') {passes : Char → Bool}
    (h : tail.length ≤ ((c.followed tail).skip passes).size) :
    (c.followed tail).skip passes = (c.skip passes).followed tail := by
  obtain ⟨l, hl, hblank⟩ := Lexeme.blank_shortened ht (u := c.rest) rfl h
  rw [skip, skip, hblank]
  exact congrArg (move _ _) hl

theorem skipInline_followed (ht : tail.head? ≠ some '/') (h : tail.length ≤ (c.followed tail).skipInline.size) :
    (c.followed tail).skipInline = c.skipInline.followed tail := skip_followed ht h

theorem skipSeparators_followed (ht : tail.head? ≠ some '/')
    (h : tail.length ≤ (c.followed tail).skipSeparators.size) :
    (c.followed tail).skipSeparators = c.skipSeparators.followed tail := skip_followed ht h

theorem rest_skip_of_size_le (ht : tail.head? ≠ some '/') {passes : Char → Bool}
    (h : ((c.followed tail).skip passes).size ≤ tail.length) : (c.skip passes).rest = [] :=
  Lexeme.blank_eq_nil_of_length_le ht h

theorem eat?_shortened {x : Char} (h : (c.followed tail).eat? x = some e) (he : tail.length ≤ e.size) :
    ∃ d, e = d.followed tail ∧ c.eat? x = some d := by
  have hsize := eat?_size_lt h
  rw [size_followed] at hsize
  unfold eat? at h ⊢
  cases hc : c.rest with
  | nil =>
    rw [c.size.eq_zero_of_le_zero (by rw [size, hc]; exact Nat.le_refl 0)] at hsize
    omega
  | cons y rest =>
    simp only [followed, hc, List.cons_append] at h ⊢
    split at h
    · next hy =>
      cases h
      exact ⟨c.move [y] rest, rfl, if_pos hy⟩
    · cases h

theorem eat?_eq_none_of_followed {x : Char} (h : (c.followed tail).eat? x = none) : c.eat? x = none := by
  unfold eat? at h ⊢
  cases hc : c.rest with
  | nil => rfl
  | cons y rest =>
    simp only [followed, hc, List.cons_append] at h ⊢
    split at h
    · cases h
    · next hy => exact if_neg hy

theorem expect_shortened {x : Char} {place : Place} (h : (c.followed tail).expect x place = .ok e)
    (he : tail.length ≤ e.size) : ∃ d, e = d.followed tail ∧ c.expect x place = .ok d := by
  unfold expect at h ⊢
  split at h
  · next hx =>
    cases h
    obtain ⟨d, rfl, hd⟩ := eat?_shortened hx he
    exact ⟨d, rfl, by rw [hd]⟩
  · cases h

theorem rest_eq_cons_of_size (h : tail.length < (c.followed tail).size) : ∃ x rest, c.rest = x :: rest := by
  rw [size_followed] at h
  exact List.exists_cons_of_length_pos (by rw [size] at h; omega)

theorem peek_followed (h : tail.length < (c.followed tail).size) : (c.followed tail).peek = c.peek := by
  obtain ⟨x, rest, hc⟩ := rest_eq_cons_of_size h
  rw [peek, peek, followed, hc]
  rfl

theorem atEnd_followed (h : tail.length < (c.followed tail).size) : (c.followed tail).atEnd = c.atEnd := by
  obtain ⟨x, rest, hc⟩ := rest_eq_cons_of_size h
  rw [atEnd, atEnd, followed, hc]
  rfl

theorem atLineEnd_followed (ht : tail.head? ≠ some '/') (h : tail.length < (c.followed tail).size) :
    (c.followed tail).atLineEnd = c.atLineEnd := by
  obtain ⟨x, rest, hc⟩ := rest_eq_cons_of_size h
  rw [atLineEnd, atLineEnd, followed, hc]
  exact Lexeme.endsRaw_append _ (Lexeme.joined_of_head ht)

theorem pass?_shortened {text : Text} (h : (c.followed tail).pass? text = some e) (he : tail.length ≤ e.size) :
    ∃ d, e = d.followed tail ∧ c.pass? text = some d := by
  unfold pass? at h ⊢
  obtain ⟨left, hleft, rfl⟩ := Option.map_eq_some_iff.1 h
  obtain ⟨l, rfl, hl⟩ := Text.after?_shortened hleft he
  exact ⟨c.move text l, rfl, by rw [hl]; rfl⟩

theorem pass?_eq_none_of_followed {text : Text} (h : (c.followed tail).pass? text = none) : c.pass? text = none := by
  unfold pass? at h ⊢
  rw [Option.map_eq_none_iff] at h ⊢
  cases hc : Text.after? text c.rest with
  | none => rfl
  | some left =>
    have hmore : Text.after? text (c.rest ++ tail) = some (left ++ tail) := by
      rw [Text.after?_eq_some] at hc ⊢
      rw [hc, List.append_assoc]
    exact absurd (hmore.symm.trans h) (by simp)

theorem word?_shortened {word : Text} (h : (c.followed tail).word? word = some e) (he : tail.length ≤ e.size) :
    ∃ d, e = d.followed tail ∧ c.word? word = some d := by
  unfold word? at h ⊢
  rw [Option.filter_eq_some_iff] at h
  obtain ⟨hpass, hends⟩ := h
  obtain ⟨d, rfl, hd⟩ := pass?_shortened hpass he
  refine ⟨d, rfl, Option.filter_eq_some_iff.2 ⟨hd, ?_⟩⟩
  rw [peek, followed] at hends
  rw [peek]
  cases hrest : d.rest with
  | nil => rfl
  | cons x rest => rwa [hrest] at hends

theorem name?_shortened {name : Text} (h : (c.followed tail).name? = some (name, e)) (he : tail.length ≤ e.size) :
    ∃ d, e = d.followed tail ∧ c.name? = some (name, d) := by
  unfold name? at h ⊢
  obtain ⟨⟨taken, left⟩, hleft, heq⟩ := Option.map_eq_some_iff.1 h
  obtain ⟨rfl, rfl⟩ := Prod.mk.inj heq
  obtain ⟨l, rfl, hl⟩ := Lexeme.name?_shortened hleft he
  exact ⟨c.move taken l, rfl, by rw [hl]; rfl⟩

end Cursor

/-! ## Readers -/

/-- A reader to which the text behind the place where it stops does not matter. -/
def Nearsighted {α : Type} (tail : Text) (f : Cursor → Except Fault (α × Cursor)) : Prop :=
  ∀ ⦃c : Cursor⦄ ⦃a : α⦄ ⦃e : Cursor⦄, f (c.followed tail) = .ok (a, e) → tail.length ≤ e.size →
    ∃ d, e = d.followed tail ∧ f c = .ok (a, d)

theorem label_nearsighted : Nearsighted tail Cursor.label := by
  intro c label e h he
  unfold Cursor.label at h ⊢
  split at h
  · next hl =>
    cases h
    obtain ⟨l, rfl, hshort⟩ := Lexeme.label?_shortened hl he
    exact ⟨c.move label l, rfl, by rw [hshort]⟩
  · cases h
  · cases h

variable (ht : tail.head? ≠ some '/')
include ht

theorem raw_nearsighted (stop : Char → Bool) : Nearsighted tail (Cursor.raw · stop) := by
  intro c text e h he
  simp only [Cursor.raw] at h ⊢
  split at h
  · next taken left hl =>
    cases h
    obtain ⟨l, rfl, hshort⟩ := Lexeme.raw_shortened ht hl he
    exact ⟨c.move taken l, rfl, by rw [hshort]⟩
  · cases h

omit ht in
theorem propertyName_nearsighted : Nearsighted tail propertyName := by
  intro c name e h he
  unfold propertyName at h ⊢
  split at h
  · next b hb =>
    split at h
    · next hn =>
      cases h
      have := name?_size_lt hn
      obtain ⟨b, rfl, hb'⟩ := eat?_shortened hb (by omega)
      obtain ⟨d, rfl, hd⟩ := name?_shortened hn he
      exact ⟨d, rfl, by simp only [hb', hd]⟩
    · cases h
  · next hb =>
    rw [eat?_eq_none_of_followed hb]
    split at h
    · next hn =>
      cases h
      obtain ⟨d, rfl, hd⟩ := name?_shortened hn he
      exact ⟨d, rfl, by simp only [hd]⟩
    · cases h

theorem entryValue_nearsighted : Nearsighted tail entryValue := by
  intro c value e h he
  unfold entryValue at h ⊢
  split at h
  · next b hb =>
    have := raw_size_le h
    have := skipInline_size_le b
    obtain ⟨b, rfl, hb'⟩ := eat?_shortened hb (by omega)
    rw [skipInline_followed ht (by omega)] at h
    obtain ⟨d, rfl, hd⟩ := raw_nearsighted ht _ h he
    exact ⟨d, rfl, by rw [hb']; exact hd⟩
  · next hb =>
    cases h
    exact ⟨c, rfl, by rw [eat?_eq_none_of_followed hb]⟩

theorem entry_nearsighted : Nearsighted tail entry := by
  intro c en e h he
  unfold entry at h ⊢
  split at h
  · next b hb =>
    simp only [bind_eq_ok, pure_eq_ok, Prod.exists, Prod.mk.injEq] at h
    obtain ⟨name, d, hname, rfl, rfl⟩ := h
    have := propertyName_size_lt hname
    have := skipInline_size_le b
    obtain ⟨b, rfl, hb'⟩ := eat?_shortened hb (by omega)
    rw [skipInline_followed ht (by omega)] at hname
    obtain ⟨d, rfl, hd⟩ := propertyName_nearsighted hname he
    exact ⟨d, rfl, by simp only [hb', hd]; rfl⟩
  · next hb =>
    simp only [bind_eq_ok, pure_eq_ok, Prod.exists, Prod.mk.injEq] at h
    obtain ⟨name, b, hname, value, d, hvalue, rfl, rfl⟩ := h
    have := entryValue_size_le hvalue
    have := skipInline_size_le b
    obtain ⟨b, rfl, hb'⟩ := propertyName_nearsighted hname (by omega)
    rw [skipInline_followed ht (by omega)] at hvalue
    obtain ⟨d, rfl, hd⟩ := entryValue_nearsighted ht hvalue he
    exact ⟨d, rfl, by simp only [eat?_eq_none_of_followed hb, hb', ok_bind, hd]; rfl⟩

theorem entries_nearsighted (opened : Position) : ∀ c : Cursor, ∀ ⦃es : List Entry⦄ ⦃e : Cursor⦄,
    entries opened (c.followed tail) = .ok (es, e) → tail.length ≤ e.size →
    ∃ d, e = d.followed tail ∧ entries opened c = .ok (es, d)
  | c, es, e, h, he => by
    rw [entries_eq] at h ⊢
    split at h
    · next b hb =>
      cases h
      have := eat?_size_lt hb
      rw [skipSeparators_followed ht (by omega)] at hb
      obtain ⟨b, rfl, hb'⟩ := eat?_shortened hb he
      exact ⟨b, rfl, by rw [hb']⟩
    · next hb =>
      split at h
      · cases h
      · next hend =>
        simp only [bind_eq_ok, Prod.exists] at h
        obtain ⟨en, b, hentry, h⟩ := h
        split at h
        · next hends =>
          simp only [bind_eq_ok, pure_eq_ok, Prod.exists, Prod.mk.injEq] at h
          obtain ⟨more, d, hmore, rfl, rfl⟩ := h
          have := entries_size_lt hmore
          have := skipInline_size_le b
          have := entry_size_lt hentry
          rw [skipSeparators_followed ht (by omega)] at hb hend hentry
          rw [atEnd_followed (by rw [← skipSeparators_followed ht (by omega)]; omega)] at hend
          obtain ⟨b, rfl, hb'⟩ := entry_nearsighted ht hentry (by omega)
          have hskip := skipInline_followed (c := b) ht (by omega)
          rw [hskip] at hends hmore
          rw [atLineEnd_followed ht (by rw [← hskip]; omega), peek_followed (by rw [← hskip]; omega)] at hends
          have : b.skipInline.size < c.size := by
            have := entry_size_lt hb'
            have := skipInline_size_le b
            have := skipSeparators_size_le c
            omega
          obtain ⟨d, rfl, hd⟩ := entries_nearsighted opened b.skipInline hmore he
          refine ⟨d, rfl, ?_⟩
          rw [eat?_eq_none_of_followed hb]
          simp only [if_neg hend, hb', ok_bind, if_pos hends, hd]
          rfl
        · cases h
termination_by c => c.size

theorem sheetBody_nearsighted : Nearsighted tail sheetBody := by
  intro c es e h he
  simp only [sheetBody, bind_eq_ok] at h
  obtain ⟨b, hb, h⟩ := h
  have := entries_size_lt h
  obtain ⟨b, rfl, hb'⟩ := expect_shortened hb (by omega)
  obtain ⟨d, rfl, hd⟩ := entries_nearsighted ht _ b h he
  exact ⟨d, rfl, bind_eq_ok.2 ⟨b, hb', hd⟩⟩

theorem sheetDef_nearsighted (position : Position) : Nearsighted tail (sheetDef position) := by
  intro c definition e h he
  unfold sheetDef at h ⊢
  split at h
  · cases h
  · next name b hb =>
    simp only [bind_eq_ok] at h
    obtain ⟨g, hg, h⟩ := h
    split at h
    · next hopen =>
      simp only [bind_eq_ok, pure_eq_ok, Prod.exists, Prod.mk.injEq] at h
      obtain ⟨es, d, hes, rfl, rfl⟩ := h
      have := sheetBody_size_lt hes
      have := skipInline_size_le g
      have := expect_size_lt hg
      have := skipInline_size_le b
      obtain ⟨b, rfl, hb'⟩ := name?_shortened hb (by omega)
      rw [skipInline_followed ht (by omega)] at hg
      obtain ⟨g, rfl, hg'⟩ := expect_shortened hg (by omega)
      have hskip := skipInline_followed (c := g) ht (by omega)
      rw [hskip] at hopen hes
      rw [peek_followed (by rw [← hskip]; omega)] at hopen
      obtain ⟨d, rfl, hd⟩ := sheetBody_nearsighted ht hes he
      exact ⟨d, rfl, by simp only [hb', hg', ok_bind, if_pos hopen, hd]; rfl⟩
    · cases h

theorem flags_nearsighted : ∀ (c : Cursor) (sofar : Flags), tail.length ≤ (flags sofar (c.followed tail)).2.size →
    flags sofar (c.followed tail) = ((flags sofar c).1, (flags sofar c).2.followed tail)
  | c, sofar, he => by
    have hskip : ∀ {x : Char} {b : Cursor} {shown : Flags}, (c.followed tail).eat? x = some b →
        tail.length ≤ (flags shown b.skipInline).2.size →
        ∃ d, c.eat? x = some d ∧ b.skipInline = d.skipInline.followed tail := by
      intro x b shown hb hsize
      have := flags_size_le shown b.skipInline
      have := skipInline_size_le b
      obtain ⟨d, rfl, hd⟩ := eat?_shortened hb (by omega)
      exact ⟨d, hd, skipInline_followed ht (by omega)⟩
    rw [flags_eq] at he ⊢
    rw [flags_eq sofar c]
    cases hstar : (c.followed tail).eat? '*' with
    | some b =>
      rw [hstar] at he
      obtain ⟨d, hd, hb⟩ := hskip hstar he
      have : d.skipInline.size < c.size := Nat.lt_of_le_of_lt (skipInline_size_le d) (eat?_size_lt hd)
      simp only [hd, hb] at he ⊢
      exact flags_nearsighted d.skipInline _ he
    | none =>
      rw [hstar] at he
      rw [eat?_eq_none_of_followed hstar]
      cases htilde : (c.followed tail).eat? '~' with
      | some b =>
        rw [htilde] at he
        obtain ⟨d, hd, hb⟩ := hskip htilde he
        have : d.skipInline.size < c.size := Nat.lt_of_le_of_lt (skipInline_size_le d) (eat?_size_lt hd)
        simp only [hd, hb] at he ⊢
        exact flags_nearsighted d.skipInline _ he
      | none => simp only [eat?_eq_none_of_followed htilde]
termination_by c => c.size

theorem styleRef?_shortened {c : Cursor} {style : StyleRef} {e : Cursor}
    (h : styleRef? (c.followed tail) = .ok (some (style, e))) (he : tail.length ≤ e.size) :
    ∃ d, e = d.followed tail ∧ styleRef? c = .ok (some (style, d)) := by
  unfold styleRef? at h ⊢
  split at h
  · next b hb =>
    split at h
    · next name g hn =>
      cases h
      have := name?_size_lt hn
      obtain ⟨b, rfl, hb'⟩ := eat?_shortened hb (by omega)
      obtain ⟨d, rfl, hd⟩ := name?_shortened hn he
      exact ⟨d, rfl, by simp only [hb', hd]; rfl⟩
    · cases h
  · next hb =>
    split at h
    · next hopen =>
      simp only [bind_eq_ok, pure_eq_ok, Prod.exists, Option.some.injEq, Prod.mk.injEq] at h
      obtain ⟨es, d, hes, rfl, rfl⟩ := h
      have := sheetBody_size_lt hes
      rw [peek_followed (by omega)] at hopen
      obtain ⟨d, rfl, hd⟩ := sheetBody_nearsighted ht hes he
      refine ⟨d, rfl, ?_⟩
      rw [eat?_eq_none_of_followed hb]
      simp only [if_pos hopen, hd]
      rfl
    · cases h

omit ht in
theorem styleRef?_eq_none_of_followed {c : Cursor} (h : styleRef? (c.followed tail) = .ok none) :
    styleRef? c = .ok none := by
  unfold styleRef? at h ⊢
  split at h
  · split at h <;> cases h
  · next hb =>
    split at h
    · simp only [bind_eq_ok, pure_eq_ok, Prod.exists] at h
      obtain ⟨_, _, _, hnone⟩ := h
      cases hnone
    · next hopen =>
      rw [eat?_eq_none_of_followed hb]
      refine if_neg fun hpeek => hopen ?_
      rw [peek, List.head?_eq_some_iff] at hpeek
      obtain ⟨rest, hrest⟩ := hpeek
      rw [peek, followed, hrest]
      rfl

theorem styleRefs_nearsighted : ∀ c : Cursor, ∀ ⦃styles : List StyleRef⦄ ⦃e : Cursor⦄,
    styleRefs (c.followed tail) = .ok (styles, e) → tail.length ≤ e.size →
    ∃ d, e = d.followed tail ∧ styleRefs c = .ok (styles, d)
  | c, styles, e, h, he => by
    rw [styleRefs_eq, bind_eq_ok] at h
    obtain ⟨first, hfirst, h⟩ := h
    rw [styleRefs_eq]
    cases first with
    | none =>
      cases h
      exact ⟨c, rfl, by rw [styleRef?_eq_none_of_followed hfirst]; rfl⟩
    | some p =>
      obtain ⟨style, b⟩ := p
      simp only [bind_eq_ok, pure_eq_ok, Prod.exists, Prod.mk.injEq] at h
      obtain ⟨more, d, hmore, rfl, rfl⟩ := h
      have := styleRefs_size_le hmore
      have := skipInline_size_le b
      obtain ⟨b, rfl, hb⟩ := styleRef?_shortened ht hfirst (by omega)
      rw [skipInline_followed ht (by omega)] at hmore
      have : b.skipInline.size < c.size := Nat.lt_of_le_of_lt (skipInline_size_le b) (styleRef?_size_lt hb)
      obtain ⟨d, rfl, hd⟩ := styleRefs_nearsighted b.skipInline hmore he
      exact ⟨d, rfl, by simp only [hb, ok_bind, hd]; rfl⟩
termination_by c => c.size

theorem target_nearsighted : Nearsighted tail target := by
  intro c t e h he
  simp only [target, bind_eq_ok, pure_eq_ok, Prod.exists, Prod.mk.injEq] at h
  obtain ⟨name, b, hname, styles, d, hstyles, rfl, rfl⟩ := h
  have hsize := styleRefs_size_le hstyles
  have hshown := skipInline_size_le (flags {} b.skipInline).2
  have hflags := flags_size_le {} b.skipInline
  have hblank := skipInline_size_le b
  obtain ⟨b, rfl, hb⟩ := label_nearsighted hname (by omega)
  have hskip := skipInline_followed (c := b) ht (by omega)
  rw [hskip] at hstyles hsize hshown hflags ⊢
  have hboth := flags_nearsighted ht b.skipInline {} (by omega)
  rw [hboth] at hstyles hsize hshown ⊢
  simp only at hstyles hsize hshown ⊢
  rw [skipInline_followed ht (by omega)] at hstyles
  obtain ⟨d, rfl, hd⟩ := styleRefs_nearsighted ht _ hstyles he
  exact ⟨d, rfl, by simp only [target, hb, ok_bind, hd]; rfl⟩

theorem targets_nearsighted : ∀ c : Cursor, ∀ ⦃t : List Target × List StyleRef⦄ ⦃e : Cursor⦄,
    targets (c.followed tail) = .ok (t, e) → tail.length ≤ e.size → ∃ d, e = d.followed tail ∧ targets c = .ok (t, d)
  | c, t, e, h, he => by
    rw [targets_eq] at h
    simp only [bind_eq_ok, Prod.exists] at h
    obtain ⟨first, styles, b, hfirst, h⟩ := h
    rw [targets_eq]
    split at h
    · next hcomma =>
      cases h
      obtain ⟨d, rfl, hd⟩ := target_nearsighted ht hfirst he
      exact ⟨d, rfl, by simp only [hd, ok_bind, eat?_eq_none_of_followed hcomma]; rfl⟩
    · next g hcomma =>
      simp only [bind_eq_ok, pure_eq_ok, Prod.exists, Prod.mk.injEq] at h
      obtain ⟨more, moreStyles, d, hmore, rfl, rfl⟩ := h
      have := targets_size_lt hmore
      have := skipInline_size_le g
      have := eat?_size_lt hcomma
      obtain ⟨b, rfl, hb⟩ := target_nearsighted ht hfirst (by omega)
      obtain ⟨g, rfl, hg⟩ := eat?_shortened hcomma (by omega)
      rw [skipInline_followed ht (by omega)] at hmore
      have : g.skipInline.size < c.size := by
        have := target_size_lt hb
        have := eat?_size_lt hg
        have := skipInline_size_le g
        omega
      obtain ⟨d, rfl, hd⟩ := targets_nearsighted g.skipInline hmore he
      exact ⟨d, rfl, by simp only [hb, ok_bind, hg, hd]; rfl⟩
termination_by c => c.size

theorem statement_nearsighted (position : Position) : Nearsighted tail (statement position) := by
  intro c s e h he
  simp only [statement, bind_eq_ok, Prod.exists] at h
  obtain ⟨ts, styles, b, hb, g, hg, rhs, d, hraw, h⟩ := h
  split at h
  · cases h
  · next hsome =>
    cases h
    have := raw_size_le hraw
    have := skipInline_size_le g
    have := expect_size_lt hg
    obtain ⟨b, rfl, hb'⟩ := targets_nearsighted ht c hb (by omega)
    obtain ⟨g, rfl, hg'⟩ := expect_shortened hg (by omega)
    rw [skipInline_followed ht (by omega)] at hraw
    obtain ⟨d, rfl, hd⟩ := raw_nearsighted ht _ hraw he
    exact ⟨d, rfl, by simp only [statement, hb', ok_bind, hg', hd, if_neg hsome]; rfl⟩

theorem step_nearsighted : Nearsighted tail step := by
  intro c s e h he
  unfold step at h ⊢
  split at h
  · next b hb =>
    simp only [bind_eq_ok, pure_eq_ok, Prod.exists, Prod.mk.injEq] at h
    obtain ⟨definition, d, hdef, rfl, rfl⟩ := h
    have := sheetDef_size_lt hdef
    obtain ⟨b, rfl, hb'⟩ := eat?_shortened hb (by omega)
    obtain ⟨d, rfl, hd⟩ := sheetDef_nearsighted ht _ hdef he
    exact ⟨d, rfl, by simp only [hb']; exact bind_eq_ok.2 ⟨_, hd, rfl⟩⟩
  · next hb =>
    simp only [bind_eq_ok, pure_eq_ok, Prod.exists, Prod.mk.injEq] at h
    obtain ⟨s, d, hs, rfl, rfl⟩ := h
    obtain ⟨d, rfl, hd⟩ := statement_nearsighted ht _ hs he
    exact ⟨d, rfl, by simp only [eat?_eq_none_of_followed hb]; exact bind_eq_ok.2 ⟨_, hd, rfl⟩⟩

omit ht in
/-- Where a word of the language stands no macro ends. -/
theorem goesOn_of_pass? {d : Cursor} (h : c.pass? "@@" = some d) :
    ¬ (c.atEnd || decide (c.peek = some '}')) = true := by
  obtain ⟨left, hleft, -⟩ := Option.map_eq_some_iff.1 h
  rw [atEnd, peek, Text.after?_eq_some.1 hleft]
  exact Bool.false_ne_true

theorem macroSteps_nearsighted (name : Text) : ∀ c : Cursor, ∀ ⦃ss : List Step⦄ ⦃e : Cursor⦄,
    macroSteps name (c.followed tail) = .ok (ss, e) → tail.length ≤ e.size →
    ∃ d, e = d.followed tail ∧ macroSteps name c = .ok (ss, d)
  | c, ss, e, h, he => by
    rw [macroSteps_eq] at h
    rw [macroSteps_eq]
    split at h
    · cases h
    · next hmore =>
      split at h
      · next b hpass =>
        split at h
        · next d hword =>
          cases h
          have := word?_size_le hword
          have := pass?_size_le hpass
          rw [skipSeparators_followed ht (by omega)] at hpass
          obtain ⟨b, rfl, hb⟩ := pass?_shortened hpass (by omega)
          obtain ⟨d, rfl, hd⟩ := word?_shortened hword he
          exact ⟨d, rfl, by rw [if_neg (goesOn_of_pass? hb), hb]; simp only [hd]⟩
        · split at h <;> cases h
      · next hpass =>
        simp only [bind_eq_ok, pure_eq_ok, Prod.exists, Prod.mk.injEq] at h
        obtain ⟨s, b, hstep, more, d, hrest, rfl, rfl⟩ := h
        have := macroSteps_size_le hrest
        have hsize := step_size_lt hstep
        rw [skipSeparators_followed ht (by omega)] at hmore hpass hstep hsize
        rw [atEnd_followed (by omega), peek_followed (by omega)] at hmore
        obtain ⟨b, rfl, hb⟩ := step_nearsighted ht hstep (by omega)
        have : b.size < c.size := Nat.lt_of_lt_of_le (step_size_lt hb) (skipSeparators_size_le c)
        obtain ⟨d, rfl, hd⟩ := macroSteps_nearsighted name b hrest he
        refine ⟨d, rfl, ?_⟩
        rw [if_neg hmore, pass?_eq_none_of_followed hpass]
        simp only [hb, ok_bind, hd]
        rfl
termination_by c => c.size

omit ht in
theorem exists_last_of_label {c e : Cursor} {label : Text} (h : c.label = .ok (label, e)) :
    ∃ front x, c.rest = front ++ x :: e.rest ∧ Text.isBlank x = false := by
  unfold Cursor.label at h
  split at h
  · next taken left hl =>
    cases h
    obtain ⟨x, hx⟩ := Option.ne_none_iff_exists'.1 (mt List.getLast?_eq_none_iff.1 (Lexeme.label?_ne_nil hl))
    obtain ⟨front, hfront⟩ := List.getLast?_eq_some_iff.1 hx
    refine ⟨front, x, ?_, Lexeme.isBlank_last_label? hl hx⟩
    rw [← Lexeme.label?_append hl, hfront, List.append_assoc]
    rfl
  · cases h
  · cases h

omit ht in
/-- `last` is the end of the last label that is read from `c₀`.  The reader goes on past the blanks behind it, and of
these there may be more with the text behind. -/
structure EndsAtLabel {α : Type} (tail : Text) (f : Cursor → Except Fault (α × Cursor)) (c₀ : Cursor) (a : α)
    (e last : Cursor) : Prop where
  blanks : e = last.skipInline
  label : ∃ front x, c₀.rest = front ++ x :: last.rest ∧ Text.isBlank x = false
  shortened : ∀ c : Cursor, c₀ = c.followed tail → tail.length ≤ last.size →
    ∃ d : Cursor, last = d.followed tail ∧ f c = .ok (a, d.skipInline)

omit ht in
theorem EndsAtLabel.size_lt {α : Type} {f : Cursor → Except Fault (α × Cursor)} {c₀ e last : Cursor} {a : α}
    (h : EndsAtLabel tail f c₀ a e last) : last.size < c₀.size := by
  obtain ⟨front, x, hfront, -⟩ := h.label
  have hlength := congrArg List.length hfront
  rw [List.length_append, List.length_cons] at hlength
  rw [size, size]
  omega

omit ht in
theorem Cursor.Reaches.label {c d last : Cursor} (h : c.Reaches d)
    (hlabel : ∃ front x, d.rest = front ++ x :: last.rest ∧ Text.isBlank x = false) :
    ∃ front x, c.rest = front ++ x :: last.rest ∧ Text.isBlank x = false := by
  obtain ⟨taken, htaken, -⟩ := h
  obtain ⟨front, x, hfront, hx⟩ := hlabel
  exact ⟨taken ++ front, x, by rw [htaken, hfront, List.append_assoc], hx⟩

theorem labels_shortened : ∀ c₀ : Cursor, ∀ ⦃names : List Text⦄ ⦃e : Cursor⦄, labels c₀ = .ok (names, e) →
    ∃ last, EndsAtLabel tail labels c₀ names e last
  | c₀, names, e, h => by
    rw [labels_eq] at h
    simp only [bind_eq_ok, Prod.exists] at h
    obtain ⟨name, b, hname, h⟩ := h
    split at h
    · next hcomma =>
      cases h
      refine ⟨b, rfl, exists_last_of_label hname, ?_⟩
      rintro c rfl hsize
      obtain ⟨b, rfl, hb⟩ := label_nearsighted hname hsize
      have hcomma' : b.skipInline.eat? ',' = none := by
        rcases Nat.le_total tail.length (b.followed tail).skipInline.size with hlong | hshort
        · rw [skipInline_followed ht hlong] at hcomma
          exact eat?_eq_none_of_followed hcomma
        · exact eat?_of_rest_nil (rest_skip_of_size_le ht hshort) ','
      exact ⟨b, rfl, by rw [labels_eq, hb]; simp only [ok_bind, hcomma']; rfl⟩
    · next g hcomma =>
      simp only [bind_eq_ok, pure_eq_ok, Prod.exists, Prod.mk.injEq] at h
      obtain ⟨more, d, hmore, rfl, rfl⟩ := h
      have := label_size_lt hname
      have := skipInline_size_le b
      have := eat?_size_lt hcomma
      have := skipInline_size_le g
      have : g.skipInline.size < c₀.size := by omega
      obtain ⟨last, hlast⟩ := labels_shortened g.skipInline hmore
      have hsize := hlast.size_lt
      have hreaches : c₀.Reaches g.skipInline :=
        (((label_yields inside_anywhere).of_ok hname).trans (reaches_skipInline b)).trans
          ((reaches_eat? hcomma).trans (reaches_skipInline g))
      refine ⟨last, hlast.blanks, hreaches.label hlast.label, ?_⟩
      rintro c rfl hlong
      obtain ⟨b, rfl, hb⟩ := label_nearsighted hname (by omega)
      rw [skipInline_followed ht (by omega)] at hcomma
      obtain ⟨g, rfl, hg⟩ := eat?_shortened hcomma (by omega)
      obtain ⟨d, rfl, hd⟩ := hlast.shortened g.skipInline (skipInline_followed ht (by omega)) hlong
      exact ⟨d, rfl, by rw [labels_eq, hb]; simp only [ok_bind, hg, hd]; rfl⟩
termination_by c₀ => c₀.size

theorem labelList_shortened {close : Char} {c₀ e : Cursor} {names : List Text}
    (h : labelList close c₀ = .ok (names, e)) (hne : names ≠ []) :
    ∃ last, EndsAtLabel tail (labelList close) c₀ names e last := by
  rw [labelList] at h
  split at h
  · cases h
    exact absurd rfl hne
  · next hopen =>
    obtain ⟨last, hlast⟩ := labels_shortened ht _ h
    have hsize := hlast.size_lt
    refine ⟨last, hlast.blanks, (reaches_skipInline c₀).label hlast.label, ?_⟩
    rintro c rfl hlong
    have hskip := skipInline_followed (c := c) ht (by omega)
    rw [hskip] at hopen hsize
    rw [atLineEnd_followed ht (by omega), peek_followed (by omega)] at hopen
    obtain ⟨d, rfl, hd⟩ := hlast.shortened c.skipInline hskip hlong
    exact ⟨d, rfl, by rw [labelList, if_neg hopen, hd]⟩

/-- **What is inside of a macro** is read without the text behind its last label, but for the blanks there. -/
theorem inside_shortened {name : Text} {c₀ e : Cursor} {ss : List Step} {outputs : List Text}
    (h : inside name c₀ = .ok ((ss, outputs), e)) (hne : outputs ≠ []) :
    ∃ last, EndsAtLabel tail (inside name) c₀ (ss, outputs) e last := by
  simp only [inside, bind_eq_ok, pure_eq_ok, Prod.exists, Prod.mk.injEq] at h
  obtain ⟨ss, b, hsteps, outputs, e, houtputs, ⟨rfl, rfl⟩, rfl⟩ := h
  obtain ⟨last, hlast⟩ := labelList_shortened ht houtputs hne
  have hsize := hlast.size_lt
  have := skipInline_size_le b
  have hreaches : c₀.Reaches b := ((macroSteps_yields name c₀ inside_anywhere).of_ok hsteps).2
  refine ⟨last, hlast.blanks, (hreaches.trans (reaches_skipInline b)).label hlast.label, ?_⟩
  rintro c rfl hlong
  obtain ⟨b, rfl, hb⟩ := macroSteps_nearsighted ht name c hsteps (by omega)
  obtain ⟨d, rfl, hd⟩ := hlast.shortened b.skipInline (skipInline_followed ht (by omega)) hlong
  exact ⟨d, rfl, bind_eq_ok.2 ⟨_, hb, bind_eq_ok.2 ⟨_, hd, rfl⟩⟩⟩

end

end Script
end StyleScript
