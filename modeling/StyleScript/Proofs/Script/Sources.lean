import StyleScript.Proofs.Script.Joined
import StyleScript.Proofs.Script.Shortened
import StyleScript.Proofs.Script.Statements
/-!
# The source of a macro

What is inside of a macro is read from its source as well, wherever that stands.  It is cut out at both ends: blanks in
front of the first step do not count, and behind the last label nothing is read but blanks and a comment
(`inside_source`).  At the end of a line more text does not matter either, and another place moves the steps and no
more (`exists_plain`).  So the source between its braces again, with the name and the inputs in front, is read as a
macro that says the same (`read_macroScript`).
-/
namespace StyleScript

/-- The place that is `p`, with lines and columns counted from 0, of a text that begins at `start`. -/
def Position.shift (start p : Position) : Position :=
  if p.line = 0 then ⟨start.line, start.column + p.column⟩ else ⟨start.line + p.line, p.column⟩

theorem Position.shift_zero (start : Position) : start.shift ⟨0, 0⟩ = start := rfl

theorem Position.shift_next (start p : Position) (c : Char) : start.shift (p.next c) = (start.shift p).next c := by
  by_cases hc : c = '\n'
  · rw [next, next, if_pos hc, if_pos hc, shift, shift, if_neg (Nat.succ_ne_zero _)]
    split
    · next hline => rw [hline]
    · rfl
  · rw [next, next, if_neg hc, if_neg hc, shift, shift]
    split
    · rfl
    · rfl

namespace Script

open Cursor

/-! ## Names and labels -/

theorem isName_of_name? {text name left : Text} (h : Lexeme.name? text = some (name, left)) : IsName name := by
  rw [← (Lexeme.name?_append h).1] at h
  obtain ⟨l, hl, hname⟩ := Lexeme.name?_shortened h (Nat.le_refl _)
  rwa [List.self_eq_append_left.1 hl] at hname

theorem isLabel_of_label? {text label left : Text} (h : Lexeme.label? text = .ok (some (label, left))) :
    IsLabel label := by
  rw [← Lexeme.label?_append h] at h
  obtain ⟨l, hl, hlabel⟩ := Lexeme.label?_shortened h (Nat.le_refl _)
  rwa [List.self_eq_append_left.1 hl] at hlabel

theorem isLabel_of_labels : ∀ (c : Cursor) {names : List Text} {d : Cursor}, labels c = .ok (names, d) →
    ∀ name ∈ names, IsLabel name
  | c, names, d, h => by
    rw [labels_eq] at h
    simp only [bind_eq_ok, Prod.exists] at h
    obtain ⟨name, b, hname, h⟩ := h
    have hlabel : IsLabel name := by
      unfold Cursor.label at hname
      split at hname
      · next hl =>
        cases hname
        exact isLabel_of_label? hl
      · cases hname
      · cases hname
    split at h
    · cases h
      exact List.forall_mem_singleton.2 hlabel
    · next e hcomma =>
      simp only [bind_eq_ok, pure_eq_ok, Prod.exists, Prod.mk.injEq] at h
      obtain ⟨more, d, hmore, rfl, rfl⟩ := h
      have : e.skipInline.size < c.size := by
        have := label_size_lt hname
        have := skipInline_size_le b
        have := eat?_size_lt hcomma
        have := skipInline_size_le e
        omega
      exact List.forall_mem_cons.2 ⟨hlabel, isLabel_of_labels e.skipInline hmore⟩
termination_by c => c.size

theorem isLabel_of_labelList {close : Char} {c d : Cursor} {names : List Text}
    (h : labelList close c = .ok (names, d)) : ∀ name ∈ names, IsLabel name := by
  unfold labelList at h
  split at h
  · cases h
    exact fun _ hname => nomatch hname
  · exact isLabel_of_labels _ h

/-! ## Cut out -/

section

variable {name : Text} {c d e : Cursor} {ss : List Step} {outputs : List Text}

theorem inside_eq_of_skipSeparators (h : c.skipSeparators = d.skipSeparators) : inside name c = inside name d := by
  unfold inside
  rw [macroSteps_eq name c, macroSteps_eq name d, h]

section

variable (h : inside name c = .ok ((ss, outputs), e)) (hne : outputs ≠ [])
include h

theorem reaches_inside : c.Reaches e := ((inside_yields name inside_anywhere).of_ok h).2

include hne

theorem endsBlank_inside : EndsBlank Lexeme.isInlineBlank e.rest := by
  obtain ⟨last, hlast⟩ := @inside_shortened [] (by simp) _ _ _ _ _ h hne
  rw [hlast.blanks]
  exact endsBlank_blank _ _ _

/-- Behind the outputs of a macro stands no slash, whatever blanks are left there. -/
theorem head?_behind_inside (hclosed : e.skipSeparators.eat? '}' = some d) {trail : Text}
    (htrail : ∀ x ∈ trail, Text.isBlank x) : (trail ++ e.rest).head? ≠ some '/' := by
  intro hslash
  cases trail with
  -- a slash is no blank, and one that begins no comment would stand where the brace is
  | cons x trail =>
    have hblank := htrail x List.mem_cons_self
    rw [Option.some.inj hslash] at hblank
    cases hblank
  | nil =>
    have hends : EndsBlank Lexeme.isSeparator e.rest := by
      refine ⟨fun x hx => ?_, (endsBlank_inside h hne).2⟩
      rw [← Option.some.inj (hslash.symm.trans hx)]
      rfl
    have hrest : e.skipSeparators.rest = e.rest := @rest_skipSeparators e [] _ (List.forall_mem_nil _) hends rfl
    rw [eat?_eq_none] at hclosed
    · cases hclosed
    · intro x hx
      rw [hrest] at hx
      rw [← Option.some.inj (hslash.symm.trans hx)]
      decide

end

/-- A character that is no blank stands in front of the blanks that a text ends with. -/
theorem length_le_of_blanks {front left b trail r : Text} {x : Char} (h : front ++ x :: left = b ++ (trail ++ r))
    (hx : Text.isBlank x = false) (htrail : ∀ y ∈ trail, Text.isBlank y) (hr : r.length ≤ left.length) :
    (trail ++ r).length ≤ left.length := by
  by_contra hlong
  obtain ⟨beyond, hb, hbeyond⟩ : ∃ beyond, front ++ [x] = b ++ beyond ∧ trail ++ r = beyond ++ left := by
    rw [← List.singleton_append, ← List.append_assoc, List.append_eq_append_iff] at h
    rcases h with ⟨u, -, hu⟩ | h
    · exact (hlong (hu ▸ (List.suffix_append u _).length_le)).elim
    · exact h
  have hne : beyond ≠ [] := by
    rintro rfl
    rw [hbeyond] at hlong
    exact hlong (Nat.le_refl _)
  have hlast : beyond.getLast? = some x := by
    rw [← List.getLast?_append_of_ne_nil b hne, ← hb, List.getLast?_append_of_ne_nil front (List.cons_ne_nil x [])]
    rfl
  have hbegins : beyond <+: trail := by
    refine List.prefix_of_prefix_length_le ⟨left, hbeyond.symm⟩ ⟨r, rfl⟩ ?_
    have := congrArg List.length hbeyond
    rw [List.length_append, List.length_append] at this
    omega
  rw [htrail x (hbegins.subset (List.mem_of_getLast? hlast))] at hx
  cases hx

/-- **What is inside of a macro is read from its source alone.** -/
theorem inside_source (h : inside name c = .ok ((ss, outputs), e)) (hne : outputs ≠ [])
    (hclosed : e.skipSeparators.eat? '}' = some d) :
    ∃ p last, inside name ⟨Text.trim (c.upTo e), p⟩ = .ok ((ss, outputs), last) ∧ last.rest = [] := by
  obtain ⟨lead, trail, hgaps, hlead, htrail⟩ := Text.exists_gaps (c.upTo e)
  have hrest : c.rest = (lead ++ Text.trim (c.upTo e)) ++ (trail ++ e.rest) := by
    rw [← List.append_assoc, ← hgaps]
    exact (reaches_inside h).rest_eq
  have htail := head?_behind_inside h hne hclosed htrail
  obtain ⟨last, hlast⟩ := inside_shortened htail h hne
  obtain ⟨front, x, hfront, hx⟩ := hlast.label
  have hsize : e.size ≤ last.size := by
    rw [hlast.blanks]
    exact skipInline_size_le last
  -- the blanks that are trimmed stand behind the last label, though the reader went on into them
  have hlong := length_le_of_blanks (hfront.symm.trans hrest) hx htrail hsize
  obtain ⟨b, hb, hshort⟩ := hlast.shortened ⟨lead ++ Text.trim (c.upTo e), c.position⟩
    (by rw [followed, ← hrest]) hlong
  have hlead := skipSeparators_gap (fun x hx => isSeparator_of_isBlank (hlead x hx)) (Text.trim (c.upTo e)) c.position
  rw [inside_eq_of_skipSeparators hlead] at hshort
  refine ⟨_, _, hshort, rest_skip_of_size_le htail ?_⟩
  show (b.followed (trail ++ e.rest)).skipInline.size ≤ _
  rw [← hb, ← hlast.blanks, List.length_append]
  exact Nat.le_add_left ..

end

/-! ## At another place -/

/-- At the end of a line the source is read as these steps and outputs, with places counted from where it begins. -/
def ReadAnywhere (name source : Text) (plain : List Step) (outputs : List Text) : Prop :=
  ∀ (c : Cursor) (tail : Text), EndsLine tail → c.rest = source ++ tail →
    ∃ e, inside name c = .ok ((plain.map (Step.moved c.position.shift), outputs), e) ∧ e.rest = tail

/-- **A source that is read at one place is read anywhere**, as the same steps but for their places. -/
theorem exists_plain {name source : Text} {p : Position} {ss : List Step} {outputs : List Text} {last : Cursor}
    (h : inside name ⟨source, p⟩ = .ok ((ss, outputs), last)) (hlast : last.rest = []) :
    ∃ plain, ss = plain.map (Step.moved p.shift) ∧ ReadAnywhere name source plain outputs := by
  -- both readings are moved ones of the reading at line 0 and column 0, from where every place can be reached
  have hhere : Prolonged (By p.shift) [] ⟨source, ⟨0, 0⟩⟩ ⟨source, p⟩ :=
    ⟨(List.append_nil source).symm, p.shift_zero.symm⟩
  have hmoved := inside_moved p.shift_next (.inl rfl) name hhere
  cases hplain : inside name ⟨source, ⟨0, 0⟩⟩ with
  | error fault =>
    rw [hplain] at hmoved
    obtain ⟨fault', hfault, -⟩ := hmoved rfl
    rw [h] at hfault
    cases hfault
  | ok read =>
    obtain ⟨⟨plain, labels⟩, stop⟩ := read
    rw [hplain, h] at hmoved
    obtain ⟨_, hb, heq, hbehind⟩ := hmoved
    cases hb
    obtain ⟨rfl, rfl⟩ := Prod.mk.inj heq
    have hstop : stop.rest = [] := by rw [← hlast, hbehind.rest, List.append_nil]
    refine ⟨plain, rfl, fun c tail ht hc => ?_⟩
    have hthere : Prolonged (By c.position.shift) tail ⟨source, ⟨0, 0⟩⟩ c := ⟨hc, c.position.shift_zero.symm⟩
    have hagain := inside_moved c.position.shift_next ht name hthere
    rw [hplain] at hagain
    obtain ⟨⟨_, e⟩, he, rfl, hbehind⟩ := hagain
    exact ⟨e, he, by rw [hbehind.rest, hstop, List.nil_append]⟩

/-! ## Written again -/

/-- A macro with this name, these inputs and this source, written on lines of its own. -/
def macroScript (name : Text) (inputs : List Text) (source : Text) : Text :=
  "@@macro " ++ name ++ "(" ++ Text.join ", " inputs ++ ") \x7b\n" ++ source ++ "\n\x7d"

theorem macroScript_eq (name : Text) (inputs : List Text) (source : Text) : macroScript name inputs source =
    "@@macro" ++ (' ' :: (name ++ ('(' :: (Text.join ", " inputs ++
      (')' :: ' ' :: '{' :: '\n' :: (source ++ ['\n', '}'])))))) := by
  unfold macroScript
  simp only [show "@@macro ".toList = "@@macro".toList ++ [' '] from rfl, show "(".toList = ['('] from rfl,
    show ") \x7b\n".toList = [')', ' ', '{', '\n'] from rfl, show "\n\x7d".toList = ['\n', '}'] from rfl,
    List.append_assoc, List.cons_append, List.nil_append]

/-- Two macros that say the same, each at places of its own. -/
structure MacroBlock.Alike (block again : MacroBlock) : Prop where
  name : again.name = block.name
  inputs : again.inputs = block.inputs
  outputs : again.outputs = block.outputs
  source : again.source = block.source
  body : ∃ (plain : List Step) (f g : Position → Position), block.body = plain.map (Step.moved f) ∧
    again.body = plain.map (Step.moved g)

/-- What is inside of the braces when the source is written again. -/
theorem inside_of_source {name source : Text} {outputs : List Text} {plain : List Step} (hsource : Text.Trimmed source)
    (hplain : ReadAnywhere name source plain outputs) {b : Cursor}
    (hb : b.rest = '\n' :: (source ++ ['\n', '}'])) :
    ∃ ss ended d, inside name b = .ok ((ss, outputs), ended) ∧
      ((∃ g, ss = plain.map (Step.moved g)) ∧ Text.trim (b.upTo ended) = source) ∧
      ended.skipSeparators.eat? '}' = some d ∧ d.rest = [] := by
  obtain ⟨rest, p⟩ := b
  subst hb
  obtain ⟨ended, hinside, hended⟩ := hplain ⟨source ++ ['\n', '}'], p.past ['\n']⟩ _ (.inr ⟨['}'], rfl⟩) rfl
  have hbreak := @skipSeparators_gap ['\n'] (List.all_eq_true.1 rfl) (source ++ ['\n', '}']) p
  rw [← inside_eq_of_skipSeparators hbreak] at hinside
  have hclosed : ended.skipSeparators.rest = ['}'] :=
    @rest_skipSeparators ended ['\n'] _ (List.all_eq_true.1 rfl) (endsBlank_cons rfl (by decide)) hended
  have hsourced : Text.trim ((⟨['\n'] ++ (source ++ ['\n', '}']), p⟩ : Cursor).upTo ended) = source := by
    have hupTo : ['\n'] ++ source ++ ['\n', '}'] = _ ++ ended.rest := (reaches_inside hinside).rest_eq
    rw [hended] at hupTo
    rw [← List.append_cancel_right hupTo]
    exact (show Text.trim ('\n' :: source) = Text.trim source from rfl).trans (Text.trim_eq_self hsource)
  exact ⟨_, ended, _, hinside, ⟨⟨_, rfl⟩, hsourced⟩, eat?_of_rest hclosed, rfl⟩

/-- **A macro that is written again from its source** is read as a macro that says the same. -/
theorem read_macroScript {text : Text} {block : MacroBlock} (h : HasMacro text block) :
    ∃ again, read (macroScript block.name block.inputs block.source) = .ok [.macroBlock again] ∧ block.Alike again := by
  obtain ⟨position, c, d, hblock⟩ := h.macroBlock
  obtain ⟨named, inner, listed, closed, opened, ended, hname, -, hinputs, -, -, hinside, hne, hclosed, hsource, -⟩ :=
    macroBlock_eq_ok hblock
  have hisName : IsName block.name := by
    simp only [Cursor.name?, Option.map_eq_some_iff, Prod.exists, Prod.mk.injEq] at hname
    obtain ⟨_, _, hname, rfl, -⟩ := hname
    exact isName_of_name? hname
  obtain ⟨p, last, hread, hlast⟩ := inside_source hinside hne hclosed
  rw [← hsource] at hread
  have htrimmed : Text.Trimmed block.source := hsource ▸ Text.trimmed_trim _
  obtain ⟨plain, hbody, hplain⟩ := exists_plain hread hlast
  have hmacro : ∃ again e, item (.start (macroScript block.name block.inputs block.source)) = .ok (.macroBlock again, e) ∧
      (again.name = block.name ∧ again.inputs = block.inputs ∧ again.outputs = block.outputs ∧
        (∃ g, again.body = plain.map (Step.moved g)) ∧ again.source = block.source) ∧ e.rest = [] :=
    item_of_macroBlock (macroScript_eq ..) fun b hb =>
      macroBlock_of_inside (Q := fun ss source => (∃ g, ss = plain.map (Step.moved g)) ∧ source = block.source)
        hisName (isLabel_of_labelList hinputs) hne (fun b hb => inside_of_source htrimmed hplain hb) _ hb
  obtain ⟨again, e, hitem, ⟨hname, hins, houts, ⟨g, hagain⟩, hsrc⟩, he⟩ := hmacro
  refine ⟨again, ?_, hname, hins, houts, hsrc, plain, _, g, hbody, hagain⟩
  rw [macroScript_eq] at hitem ⊢
  exact read_of_item hitem he

end Script
end StyleScript
