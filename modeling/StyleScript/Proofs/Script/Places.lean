import StyleScript.Proofs.Script.Equations
/-!
# Places inside of a text

A reader only moves on: the cursor behind what it read is *reached* from the one it began at, by passing the text
between the two.  So its position is the one behind a beginning of the script, and the same holds of whatever a
reader keeps the place of, the items of a script as well as its failures (`read_places`).

`Yields` is the law that each reader has: a condition on what it reads and on where it leaves, and a place for every
failure.  `Q` is the condition on places, which is to hold of all cursors that can be reached.
-/
namespace StyleScript

/-- The failure has a place, and it is one of these. -/
def Fault.In (Q : Position → Prop) (fault : Fault) : Prop := ∃ p, fault.position = some p ∧ Q p

/-- A success of this kind, or a failure at one of these places. -/
def Yields {α : Type} (Q : Position → Prop) (P : α → Prop) : Except Fault α → Prop
  | .ok a => P a
  | .error fault => fault.In Q

section

variable {α β : Type} {Q : Position → Prop} {P : α → Prop} {R : β → Prop}

theorem Yields.bind {x : Except Fault α} {f : α → Except Fault β} (hx : Yields Q P x)
    (hf : ∀ a, P a → Yields Q R (f a)) : Yields Q R (x >>= f) := by
  cases x with
  | ok a => exact hf a hx
  | error fault => exact hx

theorem Yields.of_ok {x : Except Fault α} {a : α} (hx : Yields Q P x) (h : x = .ok a) : P a := by
  rw [h] at hx
  exact hx

theorem Yields.mono {P' : α → Prop} {x : Except Fault α} (hx : Yields Q P x) (h : ∀ a, P a → P' a) :
    Yields Q P' x := by
  cases x with
  | ok a => exact h a hx
  | error fault => exact hx

end

namespace Lexeme

open Text (Context)

/-! ## Failures inside a text -/

/-- What was read before a failure is a beginning of the text. -/
def Halt.Within (text : Text) (halt : Halt) : Prop := ∃ left, text = halt.before.getD [] ++ left

theorem Halt.Within.behind {text : Text} {halt : Halt} (h : halt.Within text) (taken : Text) :
    (halt.behind taken).Within (taken ++ text) := by
  obtain ⟨left, hleft⟩ := h
  cases hb : halt.before with
  | none => exact ⟨taken ++ text, by rw [Halt.behind, hb]; rfl⟩
  | some before =>
    refine ⟨left, ?_⟩
    rw [hb] at hleft
    rw [Halt.behind, hb, hleft]
    exact (List.append_assoc ..).symm

theorem Halt.Within.opened {text : Text} {halt : Halt} (h : halt.Within text) (taken : Text) :
    (halt.opened taken).Within (taken ++ text) := by
  obtain ⟨left, hleft⟩ := h.behind taken
  exact ⟨left, hleft⟩

theorem Halt.Within.of_extend {taken text : Text} {result : Except Halt (Text × Text)} {halt : Halt}
    (hresult : ∀ halt, result = .error halt → halt.Within text) (h : extend taken result = .error halt) :
    halt.Within (taken ++ text) := by
  cases result with
  | ok p => cases h
  | error halt' =>
    cases h
    exact (hresult halt' rfl).behind taken

theorem raw_within {stop : Char → Bool} {context : Context} {text : Text} {halt : Halt}
    (h : raw stop context text = .error halt) : halt.Within text := by
  fun_induction raw stop context text generalizing halt with
  | case1 => cases h
  | case2 => cases h; exact ⟨[], rfl⟩
  | case3 => cases h
  | case4 depth c rest => cases h; exact ⟨c :: rest, rfl⟩
  | case5 => cases h
  | case6 depth c rest _ _ halt' hr ih =>
    cases h
    split
    · exact (ih hr).opened [c]
    · exact (ih hr).behind [c]
  | case7 => cases h; exact ⟨[], rfl⟩
  | case8 context c rest _ ih => exact .of_extend (fun halt hr => ih hr) h

theorem labelTail_within {inSubscript : Bool} {text : Text} {halt : Halt}
    (h : labelTail inSubscript text = .error halt) : halt.Within text := by
  fun_induction labelTail inSubscript text generalizing halt with
  | case1 => cases h
  | case2 rest halt' hr ih =>
    cases h
    exact (ih hr).opened ['_', '{']
  | case3 c rest _ _ ih => exact .of_extend (fun halt hr => ih hr) h
  | case4 => cases h
  | case5 => cases h
  | case6 rest ih => exact .of_extend (fun halt hr => ih hr) h
  | case7 rest => cases h; exact ⟨'\n' :: rest, rfl⟩
  | case8 c rest _ _ ih => exact .of_extend (fun halt hr => ih hr) h
  | case9 => cases h; exact ⟨[], rfl⟩

end Lexeme

namespace Script

namespace Cursor

/-! ## Reaching -/

/-- `d` is `c` moved on over a part of its text. -/
def Reaches (c d : Cursor) : Prop := ∃ taken, c.rest = taken ++ d.rest ∧ d.position = c.position.past taken

/-- All places from the cursor on to the end of its text are of this kind. -/
def Inside (Q : Position → Prop) (c : Cursor) : Prop := ∀ d, c.Reaches d → Q d.position

variable {Q : Position → Prop} {c d e : Cursor}

theorem Reaches.refl (c : Cursor) : c.Reaches c := ⟨[], rfl, rfl⟩

theorem Reaches.trans (h : c.Reaches d) (k : d.Reaches e) : c.Reaches e := by
  obtain ⟨taken, hrest, hpos⟩ := h
  obtain ⟨more, hrest', hpos'⟩ := k
  exact ⟨taken ++ more, by rw [hrest, hrest', List.append_assoc], by rw [hpos', hpos, Position.past_append]⟩

theorem reaches_move {taken left : Text} (h : taken ++ left = c.rest) : c.Reaches (c.move taken left) :=
  ⟨taken, h.symm, rfl⟩

theorem Reaches.past (h : c.Reaches d) : d.position.past d.rest = c.position.past c.rest := by
  obtain ⟨taken, hrest, hpos⟩ := h
  rw [hrest, hpos, Position.past_append]

theorem Reaches.rest_eq (h : c.Reaches d) : c.rest = c.upTo d ++ d.rest := by
  obtain ⟨taken, hrest, -⟩ := h
  rw [upTo, size, size, hrest, List.length_append, Nat.add_sub_cancel, List.take_left]

theorem Inside.on (h : c.Inside Q) (k : c.Reaches d) : d.Inside Q := fun e he => h e (k.trans he)

theorem Inside.here (h : c.Inside Q) : Q c.position := h c (.refl c)

/-- With no condition on places every cursor meets it. -/
theorem inside_anywhere : c.Inside fun _ => True := fun _ _ => trivial

theorem Inside.fault (h : c.Inside Q) (cause : Cause) : (c.fault cause).In Q := ⟨c.position, rfl, h.here⟩

theorem Inside.haltFault (h : c.Inside Q) {halt : Lexeme.Halt} (hhalt : halt.Within c.rest) :
    (c.haltFault halt).In Q := by
  obtain ⟨left, hleft⟩ := hhalt
  exact ⟨_, rfl, h (c.move _ left) (reaches_move hleft.symm)⟩

/-! ## Single shapes -/

theorem reaches_skip (passes : Char → Bool) (c : Cursor) : c.Reaches (c.skip passes) :=
  reaches_move (Lexeme.blank_append ..)

theorem reaches_skipInline (c : Cursor) : c.Reaches c.skipInline := reaches_skip ..

theorem reaches_skipBlank (c : Cursor) : c.Reaches c.skipBlank := reaches_skip ..

theorem reaches_skipSeparators (c : Cursor) : c.Reaches c.skipSeparators := reaches_skip ..

theorem reaches_eat? {x : Char} (h : c.eat? x = some d) : c.Reaches d := by
  unfold eat? at h
  split at h
  · cases h
  · next y left hc =>
    split at h
    · exact Option.some.inj h ▸ reaches_move hc.symm
    · cases h

theorem reaches_pass? {text : Text} (h : c.pass? text = some d) : c.Reaches d := by
  simp only [pass?, Option.map_eq_some_iff, Text.after?_eq_some] at h
  obtain ⟨left, hl, rfl⟩ := h
  exact reaches_move hl.symm

theorem reaches_word? {word : Text} (h : c.word? word = some d) : c.Reaches d := by
  simp only [word?, Option.filter_eq_some_iff] at h
  exact reaches_pass? h.1

theorem reaches_name? {name : Text} (h : c.name? = some (name, d)) : c.Reaches d := by
  simp only [name?, Option.map_eq_some_iff] at h
  obtain ⟨⟨taken, left⟩, hl, heq⟩ := h
  cases heq
  exact reaches_move (Lexeme.name?_append hl).1

theorem expect_yields (h : c.Inside Q) (x : Char) (place : Place) : Yields Q c.Reaches (c.expect x place) := by
  unfold expect
  split
  · next hd => exact reaches_eat? hd
  · exact h.fault _

theorem label_yields (h : c.Inside Q) : Yields Q (fun p => c.Reaches p.2) c.label := by
  unfold label
  split
  · next hl => exact reaches_move (Lexeme.label?_append hl)
  · exact h.fault _
  · next halt hl =>
    refine h.haltFault ?_
    cases hc : c.rest with
    | nil => rw [hc] at hl; cases hl
    | cons x rest =>
      rw [hc, Lexeme.label?] at hl
      split at hl
      · cases ht : Lexeme.labelTail false (x :: rest) with
        | ok p => rw [ht] at hl; cases hl
        | error halt' =>
          rw [ht] at hl
          cases hl
          exact Lexeme.labelTail_within ht
      · cases hl

theorem raw_yields (h : c.Inside Q) (stop : Char → Bool) : Yields Q (fun p => c.Reaches p.2) (c.raw stop) := by
  unfold raw
  split
  · next hr => exact reaches_move (Lexeme.raw_append hr)
  · next hr => exact h.haltFault (Lexeme.raw_within hr)

end Cursor

/-! ## Items with their places -/

def StyleRef.Placed (Q : Position → Prop) : StyleRef → Prop
  | .named _ position => Q position
  | .inline es => ∀ e ∈ es, Q e.position

structure SheetDef.Placed (Q : Position → Prop) (definition : SheetDef) : Prop where
  position : Q definition.position
  entries : ∀ e ∈ definition.entries, Q e.position

structure Statement.Placed (Q : Position → Prop) (s : Statement) : Prop where
  position : Q s.position
  styles : ∀ style ∈ s.styles, style.Placed Q

def Step.Placed (Q : Position → Prop) : Step → Prop
  | .sheet definition => definition.Placed Q
  | .statement s => s.Placed Q

structure MacroBlock.Placed (Q : Position → Prop) (block : MacroBlock) : Prop where
  position : Q block.position
  body : ∀ s ∈ block.body, s.Placed Q

def Item.Placed (Q : Position → Prop) : Item → Prop
  | .step s => s.Placed Q
  | .macroBlock block => block.Placed Q

open Cursor

variable {Q : Position → Prop} {c : Cursor}

/-! ## Style sheets -/

theorem propertyName_yields (h : c.Inside Q) : Yields Q (fun p => c.Reaches p.2) (propertyName c) := by
  unfold propertyName
  split
  · next b hb =>
    have hcb := reaches_eat? hb
    split
    · next hn => exact hcb.trans (reaches_name? hn)
    · exact (h.on hcb).fault _
  · split
    · next hn => exact reaches_name? hn
    · exact h.fault _

theorem entryValue_yields (h : c.Inside Q) : Yields Q (fun p => c.Reaches p.2) (entryValue c) := by
  unfold entryValue
  split
  · next b hb =>
    have hcb := (reaches_eat? hb).trans (reaches_skipInline b)
    exact (raw_yields (h.on hcb) _).mono fun p hp => hcb.trans hp
  · exact .refl c

theorem entry_yields (h : c.Inside Q) : Yields Q (fun p => Q p.1.position ∧ c.Reaches p.2) (entry c) := by
  unfold entry
  split
  · next b hb =>
    have hcb := (reaches_eat? hb).trans (reaches_skipInline b)
    exact (propertyName_yields (h.on hcb)).bind fun p hp => ⟨h.here, hcb.trans hp⟩
  · refine (propertyName_yields h).bind fun p hp => ?_
    have hcb := hp.trans (reaches_skipInline p.2)
    exact (entryValue_yields (h.on hcb)).bind fun q hq => ⟨h.here, hcb.trans hq⟩

theorem entries_yields {opened : Position} (hopened : Q opened) (c : Cursor) (h : c.Inside Q) :
    Yields Q (fun p => (∀ e ∈ p.1, Q e.position) ∧ c.Reaches p.2) (entries opened c) := by
  have hs := reaches_skipSeparators c
  rw [entries_eq]
  split
  · next d hd => exact ⟨List.forall_mem_nil _, hs.trans (reaches_eat? hd)⟩
  · split
    · exact ⟨opened, rfl, hopened⟩
    · cases he : entry c.skipSeparators with
      | error fault =>
        have hfault := entry_yields (h.on hs)
        rw [he] at hfault
        exact hfault
      | ok p =>
        have hp := entry_yields (h.on hs)
        rw [he] at hp
        have hcd := (hs.trans hp.2).trans (reaches_skipInline p.2)
        have : p.2.skipInline.size < c.size := by
          have := entry_size_lt he
          have := skipInline_size_le p.2
          have := skipSeparators_size_le c
          omega
        simp only [bind, Except.bind]
        split
        · refine (entries_yields hopened p.2.skipInline (h.on hcd)).bind fun q hq => ⟨?_, hcd.trans hq.2⟩
          exact List.forall_mem_cons.2 ⟨hp.1, hq.1⟩
        · exact (h.on hcd).fault _
termination_by c.size

theorem sheetBody_yields (h : c.Inside Q) :
    Yields Q (fun p => (∀ e ∈ p.1, Q e.position) ∧ c.Reaches p.2) (sheetBody c) := by
  refine (expect_yields h _ _).bind fun d hd => ?_
  exact (entries_yields h.here d (h.on hd)).mono fun p hp => ⟨hp.1, hd.trans hp.2⟩

theorem sheetDef_yields {position : Position} (hposition : Q position) (h : c.Inside Q) :
    Yields Q (fun p => p.1.Placed Q ∧ c.Reaches p.2) (sheetDef position c) := by
  unfold sheetDef
  split
  · exact h.fault _
  · next name b hb =>
    have hcb := (reaches_name? hb).trans (reaches_skipInline b)
    refine (expect_yields (h.on hcb) _ _).bind fun d hd => ?_
    have hcd := (hcb.trans hd).trans (reaches_skipInline d)
    split
    · exact (sheetBody_yields (h.on hcd)).bind fun p hp => ⟨⟨hposition, hp.1⟩, hcd.trans hp.2⟩
    · exact (h.on hcd).fault _

/-! ## Statements -/

theorem reaches_flags (sofar : Flags) (c : Cursor) : c.Reaches (flags sofar c).2 := by
  fun_induction flags sofar c with
  | case1 sofar c d h ih => exact ((reaches_eat? h).trans (reaches_skipInline d)).trans ih
  | case2 sofar c _ d h ih => exact ((reaches_eat? h).trans (reaches_skipInline d)).trans ih
  | case3 sofar c => exact .refl c

theorem styleRef?_yields (h : c.Inside Q) :
    Yields Q (fun o => ∀ p ∈ o, p.1.Placed Q ∧ c.Reaches p.2) (styleRef? c) := by
  unfold styleRef?
  split
  · next b hb =>
    have hcb := reaches_eat? hb
    split
    · next name d hn =>
      rintro _ ⟨⟩
      exact ⟨h.here, hcb.trans (reaches_name? hn)⟩
    · exact (h.on hcb).fault _
  · split
    · refine (sheetBody_yields h).bind fun p hp => ?_
      rintro _ ⟨⟩
      exact hp
    · exact fun p hp => absurd hp (Option.not_mem_none p)

theorem styleRefs_yields (c : Cursor) (h : c.Inside Q) :
    Yields Q (fun p => (∀ style ∈ p.1, style.Placed Q) ∧ c.Reaches p.2) (styleRefs c) := by
  have hone := styleRef?_yields h
  rw [styleRefs_eq]
  cases hs : styleRef? c with
  | error fault => rw [hs] at hone; exact hone
  | ok o =>
    rw [hs] at hone
    cases o with
    | none => exact ⟨List.forall_mem_nil _, .refl c⟩
    | some p =>
      obtain ⟨hplaced, hcd⟩ := hone p rfl
      have hcd := hcd.trans (reaches_skipInline p.2)
      have : p.2.skipInline.size < c.size := Nat.lt_of_le_of_lt (skipInline_size_le p.2) (styleRef?_size_lt hs)
      refine (styleRefs_yields p.2.skipInline (h.on hcd)).bind fun q hq => ⟨?_, hcd.trans hq.2⟩
      exact List.forall_mem_cons.2 ⟨hplaced, hq.1⟩
termination_by c.size

theorem target_yields (h : c.Inside Q) :
    Yields Q (fun p => (∀ style ∈ p.1.2, style.Placed Q) ∧ c.Reaches p.2) (target c) := by
  refine (label_yields h).bind fun p hp => ?_
  have hflags := ((hp.trans (reaches_skipInline p.2)).trans (reaches_flags {} p.2.skipInline)).trans
    (reaches_skipInline _)
  exact (styleRefs_yields _ (h.on hflags)).bind fun q hq => ⟨hq.1, hflags.trans hq.2⟩

theorem targets_yields (c : Cursor) (h : c.Inside Q) :
    Yields Q (fun p => (∀ style ∈ p.1.2, style.Placed Q) ∧ c.Reaches p.2) (targets c) := by
  have hone := target_yields h
  rw [targets_eq]
  cases ht : target c with
  | error fault => rw [ht] at hone; exact hone
  | ok p =>
    rw [ht] at hone
    simp only [bind, Except.bind]
    split
    · exact hone
    · next e he =>
      have hce := (hone.2.trans (reaches_eat? he)).trans (reaches_skipInline e)
      have : e.skipInline.size < c.size := by
        have := target_size_lt ht
        have := eat?_size_lt he
        have := skipInline_size_le e
        omega
      refine (targets_yields e.skipInline (h.on hce)).bind fun q hq => ⟨?_, hce.trans hq.2⟩
      exact List.forall_mem_append.2 ⟨hone.1, hq.1⟩
termination_by c.size

theorem statement_yields {position : Position} (hposition : Q position) (h : c.Inside Q) :
    Yields Q (fun p => p.1.Placed Q ∧ c.Reaches p.2) (statement position c) := by
  refine (targets_yields c h).bind fun p hp => ?_
  refine (expect_yields (h.on hp.2) _ _).bind fun d hd => ?_
  have hcd := (hp.2.trans hd).trans (reaches_skipInline d)
  refine (raw_yields (h.on hcd) _).bind fun q hq => ?_
  simp only
  split
  · exact (h.on hcd).fault _
  · exact ⟨⟨hposition, hp.1⟩, hcd.trans hq⟩

/-! ## Macros -/

theorem step_yields (h : c.Inside Q) : Yields Q (fun p => p.1.Placed Q ∧ c.Reaches p.2) (step c) := by
  unfold step
  split
  · next d hd =>
    have hcd := reaches_eat? hd
    exact (sheetDef_yields h.here (h.on hcd)).bind fun p hp => ⟨hp.1, hcd.trans hp.2⟩
  · exact (statement_yields h.here h).bind fun p hp => hp

theorem labels_yields (c : Cursor) (h : c.Inside Q) : Yields Q (fun p => c.Reaches p.2) (labels c) := by
  have hone := label_yields h
  rw [labels_eq]
  cases hl : c.label with
  | error fault => rw [hl] at hone; exact hone
  | ok p =>
    rw [hl] at hone
    have hcd := hone.trans (reaches_skipInline p.2)
    simp only [bind, Except.bind]
    split
    · exact hcd
    · next e he =>
      have hce := (hcd.trans (reaches_eat? he)).trans (reaches_skipInline e)
      have : e.skipInline.size < c.size := by
        have := label_size_lt hl
        have := skipInline_size_le p.2
        have := eat?_size_lt he
        have := skipInline_size_le e
        omega
      exact (labels_yields e.skipInline (h.on hce)).bind fun q hq => hce.trans hq
termination_by c.size

theorem labelList_yields (close : Char) (h : c.Inside Q) :
    Yields Q (fun p => c.Reaches p.2) (labelList close c) := by
  have hs := reaches_skipInline c
  unfold labelList
  split
  · exact hs
  · exact (labels_yields _ (h.on hs)).mono fun p hp => hs.trans hp

theorem macroSteps_yields (name : Text) (c : Cursor) (h : c.Inside Q) :
    Yields Q (fun p => (∀ s ∈ p.1, s.Placed Q) ∧ c.Reaches p.2) (macroSteps name c) := by
  have hs := reaches_skipSeparators c
  rw [macroSteps_eq]
  split
  · exact (h.on hs).fault _
  · split
    · next d hd =>
      have hcd := hs.trans (reaches_pass? hd)
      split
      · next e he => exact ⟨List.forall_mem_nil _, hcd.trans (reaches_word? he)⟩
      · split
        · exact (h.on hs).fault _
        · exact (h.on hcd).fault _
    · cases hstep : step c.skipSeparators with
      | error fault =>
        have hfault := step_yields (h.on hs)
        rw [hstep] at hfault
        exact hfault
      | ok p =>
        have hp := step_yields (h.on hs)
        rw [hstep] at hp
        have hcd := hs.trans hp.2
        have : p.2.size < c.size := Nat.lt_of_lt_of_le (step_size_lt hstep) (skipSeparators_size_le c)
        refine (macroSteps_yields name p.2 (h.on hcd)).bind fun q hq => ⟨?_, hcd.trans hq.2⟩
        exact List.forall_mem_cons.2 ⟨hp.1, hq.1⟩
termination_by c.size

theorem inside_yields (name : Text) (h : c.Inside Q) :
    Yields Q (fun p => (∀ s ∈ p.1.1, s.Placed Q) ∧ c.Reaches p.2) (inside name c) := by
  refine (macroSteps_yields name c h).bind fun p hp => ?_
  have hcp := hp.2.trans (reaches_skipInline p.2)
  exact (labelList_yields _ (h.on hcp)).bind fun q hq => ⟨hp.1, hcp.trans hq⟩

theorem macroBlock_yields {position : Position} (hposition : Q position) (h : c.Inside Q) :
    Yields Q (fun p => p.1.Placed Q ∧ c.Reaches p.2) (macroBlock position c) := by
  have hs := reaches_skipInline c
  rw [macroBlock_eq]
  split
  · exact (h.on hs).fault _
  · next name b hb =>
    have hcb := (hs.trans (reaches_name? hb)).trans (reaches_skipInline b)
    refine (expect_yields (h.on hcb) _ _).bind fun opened ho => ?_
    have hco := hcb.trans ho
    refine (labelList_yields _ (h.on hco)).bind fun inputs hi => ?_
    have hci := hco.trans hi
    refine (expect_yields (h.on hci) _ _).bind fun d hd => ?_
    have hcd := (hci.trans hd).trans (reaches_skipBlank d)
    refine (expect_yields (h.on hcd) _ _).bind fun opened ho => ?_
    have hco := hcd.trans ho
    refine (inside_yields name (h.on hco)).bind fun p hp => ?_
    have hcp := hco.trans hp.2
    have hcend := hcp.trans (reaches_skipSeparators p.2)
    simp only
    split
    · exact (h.on hcp).fault _
    · split
      · next e he => exact ⟨⟨hposition, hp.1⟩, hcend.trans (reaches_eat? he)⟩
      · exact (h.on hcend).fault _

/-! ## Whole scripts -/

theorem item_yields (h : c.Inside Q) : Yields Q (fun p => p.1.Placed Q ∧ c.Reaches p.2) (item c) := by
  unfold item
  split
  · next d hd =>
    have hcd := reaches_pass? hd
    split
    · next e he =>
      have hce := hcd.trans (reaches_word? he)
      exact (macroBlock_yields h.here (h.on hce)).bind fun p hp => ⟨hp.1, hce.trans hp.2⟩
    · split
      · exact h.fault _
      · exact (h.on hcd).fault _
  · exact (step_yields h).bind fun p hp => hp

theorem items_yields (c : Cursor) (h : c.Inside Q) : Yields Q (fun is => ∀ i ∈ is, i.Placed Q) (items c) := by
  have hs := reaches_skipSeparators c
  rw [items_eq]
  split
  · exact List.forall_mem_nil _
  · split
    · exact (h.on hs).fault _
    · cases hitem : item c.skipSeparators with
      | error fault =>
        have hfault := item_yields (h.on hs)
        rw [hitem] at hfault
        exact hfault
      | ok p =>
        have hp := item_yields (h.on hs)
        rw [hitem] at hp
        have : p.2.size < c.size := Nat.lt_of_lt_of_le (item_size_lt hitem) (skipSeparators_size_le c)
        exact (items_yields p.2 (h.on (hs.trans hp.2))).bind fun is his => List.forall_mem_cons.2 ⟨hp.1, his⟩
termination_by c.size

/-- The position behind a beginning of the text. -/
def InText (text : Text) (p : Position) : Prop := ∃ taken left, text = taken ++ left ∧ p = Position.start.past taken

/-- **Everything read from a script has a place in it**, and so has the failure to read it. -/
theorem read_places (text : Text) :
    Yields (InText text) (fun is => ∀ i ∈ is, i.Placed (InText text)) (read text) :=
  items_yields _ fun d ⟨taken, hrest, hposition⟩ => ⟨taken, d.rest, hrest, hposition⟩

end Script
end StyleScript
