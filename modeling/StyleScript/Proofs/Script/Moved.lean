import StyleScript.Proofs.Script.Prolonged
/-!
# Items that are moved

Lines in front of a script move its items and change nothing else of them.  `moved f` is an item, or a part of one,
with every place changed by `f`; a reader of items in front of more text, at a place that `f` gives, reads the moved
item (`item_carried`).  The readers of raw text, names and sheets are dealt with before, for any relation of places;
here the relation is the one that `f` is.
-/
namespace StyleScript

/-- The failure with its place changed. -/
def Fault.moved (f : Position → Position) (fault : Fault) : Fault := ⟨fault.cause, fault.position.map f⟩

namespace Script

variable {f : Position → Position}

/-! ## Moving -/

def Entry.moved (f : Position → Position) (e : Entry) : Entry := { e with position := f e.position }

def StyleRef.moved (f : Position → Position) : StyleRef → StyleRef
  | .named name position => .named name (f position)
  | .inline es => .inline (es.map (Entry.moved f))

def SheetDef.moved (f : Position → Position) (definition : SheetDef) : SheetDef where
  name := definition.name
  entries := definition.entries.map (Entry.moved f)
  position := f definition.position

def Statement.moved (f : Position → Position) (s : Statement) : Statement where
  targets := s.targets
  styles := s.styles.map (StyleRef.moved f)
  rhs := s.rhs
  position := f s.position

def Step.moved (f : Position → Position) : Step → Step
  | .sheet definition => .sheet (definition.moved f)
  | .statement s => .statement (s.moved f)

def MacroBlock.moved (f : Position → Position) (block : MacroBlock) : MacroBlock :=
  { block with body := block.body.map (Step.moved f), position := f block.position }

def Item.moved (f : Position → Position) : Item → Item
  | .step s => .step (s.moved f)
  | .macroBlock block => .macroBlock (block.moved f)

theorem StyleRef.moved_id : StyleRef.moved id = id := by
  funext style
  cases style with
  | named name position => rfl
  | inline es => exact congrArg StyleRef.inline (List.map_id es)

theorem Step.moved_id : Step.moved id = id := by
  funext s
  cases s with
  | sheet definition =>
    have hentries : definition.entries.map (Entry.moved id) = definition.entries := List.map_id _
    rw [Step.moved, SheetDef.moved, hentries]
    rfl
  | statement s =>
    rw [Step.moved, Statement.moved, StyleRef.moved_id, List.map_id]
    rfl

theorem Item.moved_id : Item.moved id = id := by
  funext i
  cases i with
  | step s => exact congrArg Item.step (congrFun Step.moved_id s)
  | macroBlock block =>
    rw [Item.moved, MacroBlock.moved, Step.moved_id, List.map_id]
    rfl

/-- What `f` makes of the first is the second. -/
abbrev By {α β : Type} (f : α → β) (a : α) (b : β) : Prop := b = f a

theorem stepping_by (hf : ∀ p c, f (p.next c) = (f p).next c) : Stepping (By f) := by
  rintro p _ c rfl
  exact (hf p c).symm

theorem map_moved_of_alike : ∀ {es es' : List Entry}, List.Forall₂ (Entry.Alike (By f)) es es' →
    es' = es.map (Entry.moved f)
  | [], _, .nil => rfl
  | e :: es, _, .cons h hmore => by
    obtain ⟨hname, haction, hposition⟩ := h
    rw [List.map_cons, ← map_moved_of_alike hmore, Entry.moved, ← hname, ← haction, ← hposition]

/-! ## Labels and words in front of more text -/

section

variable {ρ : Position → Position → Prop} {tail : Text} {c d : Cursor}

theorem Prolonged.pass? (hρ : Stepping ρ) (ht : EndsLine tail) (h : Prolonged ρ tail c d) (word : Text)
    (hword : '\n' ∉ word) : Option.Rel (Prolonged ρ tail) (c.pass? word) (d.pass? word) := by
  unfold Cursor.pass?
  rw [h.rest, after?_append_of_head fun x hx => ht.head hx ▸ hword]
  cases Text.after? word c.rest with
  | none => exact .none
  | some left => exact .some (h.move hρ word left)

theorem Prolonged.peek_any (ht : EndsLine tail) (h : Prolonged ρ tail c d) {p : Char → Bool} (hp : p '\n' = false) :
    d.peek.any p = c.peek.any p := by
  rw [Cursor.peek, Cursor.peek, h.rest]
  cases c.rest with
  | cons x rest => rfl
  | nil =>
    rcases ht with rfl | ⟨more, rfl⟩
    · rfl
    · exact hp

theorem Prolonged.word? (hρ : Stepping ρ) (ht : EndsLine tail) (h : Prolonged ρ tail c d) (word : Text)
    (hword : '\n' ∉ word) : Option.Rel (Prolonged ρ tail) (c.word? word) (d.word? word) := by
  have hp := h.pass? hρ ht word hword
  unfold Cursor.word?
  generalize c.pass? word = a at hp
  generalize d.pass? word = b at hp
  cases hp with
  | none => exact .none
  | some hab =>
    rw [Option.filter_some, Option.filter_some, hab.peek_any ht rfl]
    split
    · exact .some hab
    · exact .none

theorem Prolonged.label (hρ : Stepping ρ) (ht : EndsLine tail) (h : Prolonged ρ tail c d) :
    Carried ρ tail (Behind ρ tail Eq) c.label d.label := by
  unfold Cursor.label
  cases hl : Lexeme.label? c.rest with
  | ok o =>
    cases o with
    | some p =>
      have hleaves : LeavesLabel tail := fun x hx => by rw [ht.head hx]; exact ⟨rfl, by decide⟩
      rw [h.rest, label?_append_of_head hleaves hl]
      exact .ok ⟨rfl, h.move hρ p.1 p.2⟩
    | none =>
      intro hnil
      rw [h.rest, hnil, List.append_nil, hl, h.peek_eq hnil]
      exact ⟨_, rfl, h.sameFault _⟩
  | error halt =>
    intro hnil
    rw [h.rest, hnil, List.append_nil, hl]
    exact ⟨_, rfl, rfl, .some (hρ.past _ h.position)⟩

theorem labels_carried (hρ : Stepping ρ) (ht : EndsLine tail) (c d : Cursor) (h : Prolonged ρ tail c d) :
    Carried ρ tail (Behind ρ tail Eq) (labels c) (labels d) := by
  rw [labels_eq, labels_eq]
  refine (h.label hρ ht).bind ?_
  rintro ⟨name, a⟩ ⟨_, b⟩ ha - ⟨rfl, hab⟩
  have hab' := hab.skipInline hρ ht
  have he := hab'.eat? hρ ht (x := ',') (by decide)
  simp only
  generalize hx : a.skipInline.eat? ',' = x at he
  generalize b.skipInline.eat? ',' = y at he
  cases he with
  | none => exact .ok ⟨rfl, hab'⟩
  | some hxy =>
    rename_i x y
    have : x.skipInline.size < c.size := by
      have := Cursor.label_size_lt ha
      have := Cursor.skipInline_size_le a
      have := Cursor.eat?_size_lt hx
      have := Cursor.skipInline_size_le x
      omega
    refine (labels_carried hρ ht x.skipInline y.skipInline (hxy.skipInline hρ ht)).bind ?_
    rintro ⟨more, a⟩ ⟨_, b⟩ - - ⟨rfl, hab⟩
    exact .ok ⟨rfl, hab⟩
termination_by c.size

theorem labelList_carried (hρ : Stepping ρ) (ht : EndsLine tail) (h : Prolonged ρ tail c d) {close : Char}
    (hclose : close ≠ '\n') : Carried ρ tail (Behind ρ tail Eq) (labelList close c) (labelList close d) := by
  have hs := h.skipInline hρ ht
  have hpeek : decide (d.skipInline.peek = some close) = decide (c.skipInline.peek = some close) :=
    decide_eq_decide.2 (hs.peek_iff ht hclose)
  unfold labelList
  rw [hs.atLineEnd_eq ht, hpeek]
  split
  · exact .ok ⟨rfl, hs⟩
  · exact labels_carried hρ ht _ _ hs

theorem flags_carried (hρ : Stepping ρ) (ht : EndsLine tail) (sofar : Flags) (c d : Cursor)
    (h : Prolonged ρ tail c d) : Behind ρ tail Eq (flags sofar c) (flags sofar d) := by
  rw [flags_eq sofar c, flags_eq sofar d]
  have hstar := h.eat? hρ ht (x := '*') (by decide)
  have htilde := h.eat? hρ ht (x := '~') (by decide)
  generalize hx : c.eat? '*' = x at hstar
  generalize d.eat? '*' = y at hstar
  generalize hx' : c.eat? '~' = x' at htilde
  generalize d.eat? '~' = y' at htilde
  cases hstar with
  | some hab =>
    rename_i a b
    have : a.skipInline.size < c.size := Nat.lt_of_le_of_lt (Cursor.skipInline_size_le a) (Cursor.eat?_size_lt hx)
    exact flags_carried hρ ht _ _ _ (hab.skipInline hρ ht)
  | none =>
    cases htilde with
    | some hab =>
      rename_i a b
      have : a.skipInline.size < c.size := Nat.lt_of_le_of_lt (Cursor.skipInline_size_le a) (Cursor.eat?_size_lt hx')
      exact flags_carried hρ ht _ _ _ (hab.skipInline hρ ht)
    | none => exact ⟨rfl, h⟩
termination_by c.size

end

/-! ## Sheets and statements -/

section

variable (hf : ∀ p c, f (p.next c) = (f p).next c) {tail : Text} (ht : EndsLine tail)
include hf ht

theorem sheetBody_moved {c d : Cursor} (h : Prolonged (By f) tail c d) :
    Carried (By f) tail (Behind (By f) tail (By (List.map (Entry.moved f)))) (sheetBody c) (sheetBody d) := by
  have hbody := sheetBody_carried (stepping_by hf) ht h
  cases hc : sheetBody c with
  | error fault => rw [hc] at hbody; exact hbody
  | ok p =>
    rw [hc] at hbody
    obtain ⟨q, hq, halike, hab⟩ := hbody
    exact ⟨q, hq, map_moved_of_alike halike, hab⟩

theorem sheetDef_moved {p : Position} {c d : Cursor} (h : Prolonged (By f) tail c d) :
    Carried (By f) tail (Behind (By f) tail (By (SheetDef.moved f))) (sheetDef p c) (sheetDef (f p) d) := by
  have hρ := stepping_by hf
  have hn := h.name? hρ ht
  unfold sheetDef
  generalize c.name? = x at hn
  generalize d.name? = y at hn
  cases hn with
  | none => exact .error fun _ => h.sameFault _
  | @some x y hxy =>
    obtain ⟨name, a⟩ := x
    obtain ⟨_, b⟩ := y
    obtain ⟨rfl, hab⟩ := hxy
    refine ((hab.skipInline hρ ht).expect hρ ht (by decide) _).bind ?_
    rintro a b - - hab
    have hab' := hab.skipInline hρ ht
    by_cases hopen : a.skipInline.peek = some '{'
    · rw [if_pos hopen, if_pos ((hab'.peek_iff ht (by decide)).2 hopen)]
      refine (sheetBody_moved hf ht hab').bind ?_
      rintro ⟨es, a⟩ ⟨_, b⟩ - - ⟨rfl, hab⟩
      exact .ok ⟨rfl, hab⟩
    · rw [if_neg hopen, if_neg (mt (hab'.peek_iff ht (by decide)).1 hopen)]
      exact .error fun hnil => by rw [hab'.peek_eq hnil]; exact hab'.sameFault _

theorem styleRef?_moved {c d : Cursor} (h : Prolonged (By f) tail c d) :
    Carried (By f) tail (Option.Rel (Behind (By f) tail (By (StyleRef.moved f)))) (styleRef? c) (styleRef? d) := by
  have hρ := stepping_by hf
  have he := h.eat? hρ ht (x := '@') (by decide)
  unfold styleRef?
  generalize c.eat? '@' = x at he
  generalize d.eat? '@' = y at he
  cases he with
  | @some a b hab =>
    have hn := hab.name? hρ ht
    simp only
    generalize a.name? = x at hn
    generalize b.name? = y at hn
    cases hn with
    | none => exact .error fun _ => hab.sameFault _
    | @some x y hxy =>
      obtain ⟨name, a⟩ := x
      obtain ⟨_, b⟩ := y
      obtain ⟨rfl, hab⟩ := hxy
      exact .ok (.some ⟨congrArg _ h.position, hab⟩)
  | none =>
    by_cases hopen : c.peek = some '{'
    · simp only [if_pos hopen, if_pos ((h.peek_iff ht (by decide)).2 hopen)]
      refine (sheetBody_moved hf ht h).bind ?_
      rintro ⟨es, a⟩ ⟨_, b⟩ - - ⟨rfl, hab⟩
      exact .ok (.some ⟨rfl, hab⟩)
    · simp only [if_neg hopen, if_neg (mt (h.peek_iff ht (by decide)).1 hopen)]
      exact .ok .none

theorem styleRefs_moved (c d : Cursor) (h : Prolonged (By f) tail c d) :
    Carried (By f) tail (Behind (By f) tail (By (List.map (StyleRef.moved f)))) (styleRefs c) (styleRefs d) := by
  rw [styleRefs_eq, styleRefs_eq]
  refine (styleRef?_moved hf ht h).bind ?_
  rintro x y hx - hxy
  cases hxy with
  | none => exact .ok ⟨rfl, h⟩
  | @some x y hxy =>
    obtain ⟨style, a⟩ := x
    obtain ⟨_, b⟩ := y
    obtain ⟨rfl, hab⟩ := hxy
    have : a.skipInline.size < c.size := Nat.lt_of_le_of_lt (Cursor.skipInline_size_le a) (styleRef?_size_lt hx)
    refine (styleRefs_moved a.skipInline b.skipInline (hab.skipInline (stepping_by hf) ht)).bind ?_
    rintro ⟨more, a⟩ ⟨_, b⟩ - - ⟨rfl, hab⟩
    exact .ok ⟨rfl, hab⟩
termination_by c.size

/-- The labels of a statement stay as they are, and its styles are moved. -/
def movedStyles {α : Type} (f : Position → Position) (t : α × List StyleRef) : α × List StyleRef :=
  (t.1, t.2.map (StyleRef.moved f))

theorem target_moved {c d : Cursor} (h : Prolonged (By f) tail c d) :
    Carried (By f) tail (Behind (By f) tail (By (movedStyles f))) (target c) (target d) := by
  have hρ := stepping_by hf
  refine (h.label hρ ht).bind ?_
  rintro ⟨name, a⟩ ⟨_, b⟩ - - ⟨rfl, hab⟩
  obtain ⟨hshown, hflags⟩ := flags_carried hρ ht {} _ _ (hab.skipInline hρ ht)
  refine (styleRefs_moved hf ht _ _ (hflags.skipInline hρ ht)).bind ?_
  rintro ⟨styles, a'⟩ ⟨_, b'⟩ - - ⟨rfl, hab⟩
  exact .ok ⟨by rw [hshown]; rfl, hab⟩

theorem targets_moved (c d : Cursor) (h : Prolonged (By f) tail c d) :
    Carried (By f) tail (Behind (By f) tail (By (movedStyles f))) (targets c) (targets d) := by
  have hρ := stepping_by hf
  rw [targets_eq, targets_eq]
  refine (target_moved hf ht h).bind ?_
  rintro ⟨⟨t, styles⟩, a⟩ ⟨_, b⟩ ha - ⟨rfl, hab⟩
  have he := hab.eat? hρ ht (x := ',') (by decide)
  simp only [movedStyles]
  generalize hx : a.eat? ',' = x at he
  generalize b.eat? ',' = y at he
  cases he with
  | none => exact .ok ⟨rfl, hab⟩
  | @some x y hxy =>
    have : x.skipInline.size < c.size := by
      have := target_size_lt ha
      have := Cursor.eat?_size_lt hx
      have := Cursor.skipInline_size_le x
      omega
    refine (targets_moved x.skipInline y.skipInline (hxy.skipInline hρ ht)).bind ?_
    rintro ⟨⟨more, moreStyles⟩, a⟩ ⟨_, b⟩ - - ⟨rfl, hab⟩
    exact .ok ⟨congrArg (Prod.mk (t :: more)) List.map_append.symm, hab⟩
termination_by c.size

theorem statement_moved {p : Position} {c d : Cursor} (h : Prolonged (By f) tail c d) :
    Carried (By f) tail (Behind (By f) tail (By (Statement.moved f))) (statement p c) (statement (f p) d) := by
  have hρ := stepping_by hf
  refine (targets_moved hf ht c d h).bind ?_
  rintro ⟨⟨ts, styles⟩, a⟩ ⟨_, b⟩ - - ⟨rfl, hab⟩
  refine (hab.expect hρ ht (by decide) _).bind ?_
  rintro a b - - hab
  have hab' := hab.skipInline hρ ht
  refine (hab'.raw hρ ht _).bind ?_
  rintro ⟨rhs, a'⟩ ⟨_, b'⟩ - - ⟨rfl, hab⟩
  simp only
  split
  · exact .error fun _ => hab'.sameFault _
  · exact .ok ⟨rfl, hab⟩

theorem step_moved {c d : Cursor} (h : Prolonged (By f) tail c d) :
    Carried (By f) tail (Behind (By f) tail (By (Step.moved f))) (step c) (step d) := by
  have he := h.eat? (stepping_by hf) ht (x := '@') (by decide)
  have hposition : d.position = f c.position := h.position
  unfold step
  rw [hposition]
  generalize c.eat? '@' = x at he
  generalize d.eat? '@' = y at he
  cases he with
  | some hab =>
    refine (sheetDef_moved hf ht hab).bind ?_
    rintro ⟨definition, a⟩ ⟨_, b⟩ - - ⟨rfl, hab⟩
    exact .ok ⟨rfl, hab⟩
  | none =>
    refine (statement_moved hf ht h).bind ?_
    rintro ⟨s, a⟩ ⟨_, b⟩ - - ⟨rfl, hab⟩
    exact .ok ⟨rfl, hab⟩

/-! ## Macros and items -/

theorem macroSteps_moved (name : Text) (c d : Cursor) (h : Prolonged (By f) tail c d) :
    Carried (By f) tail (Behind (By f) tail (By (List.map (Step.moved f)))) (macroSteps name c)
      (macroSteps name d) := by
  have hρ := stepping_by hf
  rw [macroSteps_eq name c]
  rcases h.skip_or hρ ht Lexeme.isSeparator with
    ⟨(hnil : c.skipSeparators.rest = []), hne⟩ |
    ⟨(hs : Prolonged (By f) tail c.skipSeparators d.skipSeparators),
      (hend : d.skipSeparators.atEnd = c.skipSeparators.atEnd)⟩
  · rw [if_pos (by rw [Cursor.atEnd, hnil]; rfl)]
    exact .error_of_ne _ hne
  · have hpass := hs.pass? hρ ht "@@" (by decide)
    have hpeek : decide (d.skipSeparators.peek = some '}') = decide (c.skipSeparators.peek = some '}') :=
      decide_eq_decide.2 (hs.peek_iff ht (by decide))
    rw [macroSteps_eq name d, hend, hpeek]
    split
    · exact .error fun _ => hs.sameFault _
    · generalize c.skipSeparators.pass? "@@" = x at hpass
      generalize d.skipSeparators.pass? "@@" = y at hpass
      cases hpass with
      | @some a b hab =>
        have hreturn := hab.word? hρ ht "return" (by decide)
        have hmacro := hab.word? hρ ht "macro" (by decide)
        simp only
        generalize a.word? "return" = x at hreturn
        generalize b.word? "return" = y at hreturn
        cases hreturn with
        | some hab => exact .ok ⟨rfl, hab⟩
        | none =>
          generalize a.word? "macro" = x at hmacro
          generalize b.word? "macro" = y at hmacro
          cases hmacro with
          | some _ => exact .error fun _ => hs.sameFault _
          | none => exact .error fun _ => hab.sameFault _
      | none =>
        refine (step_moved hf ht hs).bind ?_
        rintro ⟨s, a⟩ ⟨_, b⟩ hstep - ⟨rfl, hab⟩
        have : a.size < c.size := Nat.lt_of_lt_of_le (step_size_lt hstep) (Cursor.skipSeparators_size_le c)
        refine (macroSteps_moved name a b hab).bind ?_
        rintro ⟨more, a⟩ ⟨_, b⟩ - - ⟨rfl, hab⟩
        exact .ok ⟨rfl, hab⟩
termination_by c.size

theorem inside_moved (name : Text) {c d : Cursor} (h : Prolonged (By f) tail c d) :
    Carried (By f) tail (Behind (By f) tail (By (Prod.map (List.map (Step.moved f)) id))) (inside name c)
      (inside name d) := by
  have hρ := stepping_by hf
  refine (macroSteps_moved hf ht name _ _ h).bind ?_
  rintro ⟨steps, a⟩ ⟨_, b⟩ - - ⟨rfl, hab⟩
  refine (labelList_carried hρ ht (hab.skipInline hρ ht) (by decide)).bind ?_
  rintro ⟨outputs, a⟩ ⟨_, b⟩ - - ⟨rfl, hab⟩
  exact .ok ⟨rfl, hab⟩

omit hf ht in
theorem Prolonged.upTo_eq {ρ : Position → Position → Prop} {c d c' d' : Cursor} (h : Prolonged ρ tail c d)
    (h' : Prolonged ρ tail c' d') : d.upTo d' = c.upTo c' := by
  have hsize : d.size - d'.size = c.size - c'.size := by
    rw [Cursor.size, Cursor.size, Cursor.size, Cursor.size, h.rest, h'.rest, List.length_append, List.length_append]
    omega
  rw [Cursor.upTo, Cursor.upTo, hsize, h.rest]
  exact List.take_append_of_le_length (Nat.sub_le ..)

theorem expectBlank_moved {c d : Cursor} (h : Prolonged (By f) tail c d) {x : Char} (hx : x ≠ '\n') (place : Place) :
    Carried (By f) tail (Prolonged (By f) tail) (c.skipBlank.expect x place) (d.skipBlank.expect x place) := by
  rcases h.skip_or (stepping_by hf) ht Text.isBlank with
    ⟨(hnil : c.skipBlank.rest = []), hne⟩ | ⟨(hs : Prolonged (By f) tail c.skipBlank d.skipBlank), -⟩
  · rw [Cursor.expect, eat?_of_rest_nil hnil]
    exact .error_of_ne _ hne
  · exact hs.expect (stepping_by hf) ht hx place

theorem macroBlock_moved {p : Position} {c d : Cursor} (h : Prolonged (By f) tail c d) :
    Carried (By f) tail (Behind (By f) tail (By (MacroBlock.moved f))) (macroBlock p c) (macroBlock (f p) d) := by
  have hρ := stepping_by hf
  have hs := h.skipInline hρ ht
  have hn := hs.name? hρ ht
  rw [macroBlock_eq, macroBlock_eq]
  generalize c.skipInline.name? = x at hn
  generalize d.skipInline.name? = y at hn
  cases hn with
  | none => exact .error fun _ => hs.sameFault _
  | @some x y hxy =>
    obtain ⟨name, a⟩ := x
    obtain ⟨_, b⟩ := y
    obtain ⟨rfl, hab⟩ := hxy
    refine ((hab.skipInline hρ ht).expect hρ ht (by decide) _).bind ?_
    rintro a b - - hab
    refine (labelList_carried hρ ht hab (by decide)).bind ?_
    rintro ⟨inputs, a⟩ ⟨_, b⟩ - - ⟨rfl, hab⟩
    refine (hab.expect hρ ht (by decide) _).bind ?_
    rintro a b - - hab
    refine (expectBlank_moved hf ht hab (by decide) _).bind ?_
    rintro opened opened' - - hopened
    refine (inside_moved hf ht name hopened).bind ?_
    rintro ⟨⟨body, outputs⟩, ended⟩ ⟨_, ended'⟩ - - ⟨rfl, hended⟩
    simp only [Prod.map, id]
    split
    · exact .error fun _ => hended.sameFault _
    · rcases hended.skip_or hρ ht Lexeme.isSeparator with
        ⟨(hnil : ended.skipSeparators.rest = []), hne⟩ |
        ⟨(hlast : Prolonged (By f) tail ended.skipSeparators ended'.skipSeparators), -⟩
      · rw [eat?_of_rest_nil hnil]
        exact .error_of_ne _ hne
      · have he := hlast.eat? hρ ht (x := '}') (by decide)
        rw [hopened.upTo_eq hended]
        generalize ended.skipSeparators.eat? '}' = x at he
        generalize ended'.skipSeparators.eat? '}' = y at he
        cases he with
        | some hab => exact .ok ⟨rfl, hab⟩
        | none => exact .error fun hnil => by rw [hlast.peek_eq hnil]; exact hlast.sameFault _

theorem item_moved {c d : Cursor} (h : Prolonged (By f) tail c d) :
    Carried (By f) tail (Behind (By f) tail (By (Item.moved f))) (item c) (item d) := by
  have hρ := stepping_by hf
  have hpass := h.pass? hρ ht "@@" (by decide)
  have hposition : d.position = f c.position := h.position
  unfold item
  rw [hposition]
  generalize c.pass? "@@" = x at hpass
  generalize d.pass? "@@" = y at hpass
  cases hpass with
  | @some a b hab =>
    have hreturn := hab.word? hρ ht "return" (by decide)
    have hmacro := hab.word? hρ ht "macro" (by decide)
    simp only
    generalize a.word? "macro" = x at hmacro
    generalize b.word? "macro" = y at hmacro
    cases hmacro with
    | some hab =>
      refine (macroBlock_moved hf ht hab).bind ?_
      rintro ⟨block, a⟩ ⟨_, b⟩ - - ⟨rfl, hab⟩
      exact .ok ⟨rfl, hab⟩
    | none =>
      generalize a.word? "return" = x at hreturn
      generalize b.word? "return" = y at hreturn
      cases hreturn with
      | some _ => exact .error fun _ => h.sameFault _
      | none => exact .error fun _ => hab.sameFault _
  | none =>
    refine (step_moved hf ht h).bind ?_
    rintro ⟨s, a⟩ ⟨_, b⟩ - - ⟨rfl, hab⟩
    exact .ok ⟨rfl, hab⟩

end

end Script
end StyleScript
