import Mathlib.Data.List.DropRight
import StyleScript.Proofs.Script.Places
import StyleScript.Proofs.Session.Failure
/-!
# Every failure of a script has a place in it

Faults arise without a place as well as with one: a format refuses a value, the host an element, a definition its own
labels.  Whoever passes such a fault on knows the entry, the statement or the block it belongs to and gives it that
place, so that a script never fails without one.  The places are those of the items that were read, and these lie in
the text (`read_places`).

A place is counted in the text itself: one line more than the line breaks before it, one column more than the
characters behind the last of them (`past_start`).
-/
namespace StyleScript

/-- **The position behind a text**, counted in the text. -/
theorem Position.past_start (text : Text) :
    start.past text = ⟨1 + text.count '\n', 1 + (text.rtakeWhile (· ≠ '\n')).length⟩ := by
  induction text using List.reverseRecOn with
  | nil => rfl
  | append_singleton text c ih =>
    rw [past_append, ih, past_cons, past_nil, next, List.count_append, List.rtakeWhile_concat]
    by_cases hc : c = '\n'
    · simp [hc]
      omega
    · simp [hc]
      omega

namespace Session

open Script (Entry StyleRef Statement SheetDef Step MacroBlock Item InText)

/-- If it fails, it fails at one of these places. -/
abbrev FailsIn {α : Type} (Q : Position → Prop) (x : Except Fault α) : Prop := Yields Q (fun _ => True) x

/-- If it stops, its fault is at one of these places. -/
def StopsIn {α : Type} (Q : Position → Prop) (x : Except Halted α) : Prop :=
  ∀ stopped, x = .error stopped → stopped.fault.In Q

variable {Q : Position → Prop}

theorem located_in {p : Position} (h : Q p) (cause : Cause) : (Fault.located cause p).In Q := ⟨p, rfl, h⟩

theorem failsIn_foldlM {α β : Type} {f : β → α → Except Fault β} {as : List α}
    (hf : ∀ b, ∀ a ∈ as, FailsIn Q (f b a)) (b : β) : FailsIn Q (as.foldlM f b) := by
  cases h : as.foldlM f b with
  | ok _ => trivial
  | error fault =>
    obtain ⟨done, a, rest, mid, rfl, -, ha⟩ := foldlM_eq_error h
    have hfault := hf mid a (List.mem_append_right _ List.mem_cons_self)
    rwa [ha] at hfault

/-! ## Sheets and macros -/

section

variable (session : Session)

theorem formatAt_failsIn (name : Text) {p : Position} (h : Q p) : FailsIn Q (session.formatAt name p) := by
  unfold formatAt
  split
  · trivial
  · split
    · exact located_in h _
    · trivial

theorem entry_failsIn (sheet : StyleSheet) {e : Entry} (h : Q e.position) : FailsIn Q (session.entry sheet e) := by
  refine (session.formatAt_failsIn e.name h).bind fun format _ => ?_
  cases e.action with
  | reset => trivial
  | set value =>
    simp only
    split
    · trivial
    · trivial
    · exact located_in h _

theorem sheetOf_failsIn (name : Text) {es : List Entry} (h : ∀ e ∈ es, Q e.position) :
    FailsIn Q (session.sheetOf name es) :=
  failsIn_foldlM (fun sheet e he => session.entry_failsIn sheet (h e he)) _

theorem resolve_failsIn (scope : Scope) {style : StyleRef} (h : style.Placed Q) :
    FailsIn Q (session.resolve scope style) := by
  unfold resolve
  cases style with
  | named name position =>
    simp only
    split
    · trivial
    · exact located_in h _
  | inline es => exact session.sheetOf_failsIn [] h

theorem styleOf_failsIn (scope : Scope) {styles : List StyleRef} (h : ∀ style ∈ styles, style.Placed Q) :
    FailsIn Q (session.styleOf scope styles) := by
  unfold styleOf
  split
  · trivial
  · refine (failsIn_foldlM (fun merged style hstyle => ?_) _).bind fun _ _ => trivial
    exact (session.resolve_failsIn scope (h style hstyle)).bind fun _ _ => trivial

theorem define_failsIn (scope : Scope) {definition : SheetDef} (h : definition.Placed Q) :
    FailsIn Q (session.define scope definition) :=
  (session.sheetOf_failsIn definition.name h.entries).bind fun _ _ => trivial

theorem bodyStep_failsIn (body : Body) {s : Step} (h : s.Placed Q) : FailsIn Q (session.bodyStep body s) := by
  cases s with
  | sheet definition => exact (session.define_failsIn body.1 h).bind fun _ _ => trivial
  | statement s => exact (session.styleOf_failsIn body.1 h.styles).bind fun _ _ => trivial

/-- A definition that is refused for its labels is refused at its block. -/
theorem macroDef_failsIn {block : MacroBlock} (h : block.Placed Q) : FailsIn Q (session.macroDef block) := by
  refine (failsIn_foldlM (fun body s hs => session.bodyStep_failsIn body (h.body s hs)) _).bind fun body _ => ?_
  simp only
  split
  · trivial
  · exact located_in h.position _

end

/-! ## Items -/

variable {session : Session}

theorem StopsIn.bind {α β : Type} {x : Except Halted α} {f : α → Except Halted β} (hx : StopsIn Q x)
    (hf : ∀ a, StopsIn Q (f a)) : StopsIn Q (x >>= f) := by
  cases x with
  | ok a => exact hf a
  | error stopped =>
    rintro _ ⟨⟩
    exact hx stopped rfl

theorem stopsIn_ok {α : Type} (a : α) : StopsIn Q (.ok a : Except Halted α) := fun _ h => nomatch h

theorem stopsIn_error {α : Type} {stopped : Halted} (h : stopped.fault.In Q) :
    StopsIn Q (.error stopped : Except Halted α) := by
  rintro _ ⟨⟩
  exact h

theorem stopsIn_halted {α : Type} {world : World} {x : Except Fault α} (h : FailsIn Q x) :
    StopsIn Q (halted world x) := by
  intro stopped hstopped
  rw [(eq_of_halted_eq_error hstopped).1] at h
  exact h

theorem orLocated_in (fault : Fault) {p : Position} (hfault : fault.position = none) (h : Q p) :
    (fault.orLocated p).In Q :=
  ⟨p, by rw [Fault.orLocated, hfault]; rfl, h⟩

/-- A delivery fails without a place, and its statement gives it one. -/
theorem statement_stopsIn (run : Run) {s : Statement} (h : s.Placed Q) : StopsIn Q (session.statement run s) := by
  refine (stopsIn_halted (session.styleOf_failsIn run.scope h.styles)).bind fun style => ?_
  split
  · exact stopsIn_error (located_in h.position _)
  · simp only
    split
    · exact stopsIn_ok _
    · next stopped hdelivery =>
      refine stopsIn_error (orLocated_in stopped.fault ?_ h.position)
      cases style with
      | none => cases hdelivery
      | some sheet =>
        obtain ⟨-, -, -, -, -, -, -, reason, hfault⟩ := Delivery.sheet_eq_error hdelivery
        rw [hfault]
        rfl

theorem macroBlock_stopsIn (run : Run) {block : MacroBlock} (h : block.Placed Q) :
    StopsIn Q (session.macroBlock run block) := by
  unfold macroBlock
  split
  · exact stopsIn_error (located_in h.position _)
  · refine (stopsIn_halted (session.macroDef_failsIn h)).bind fun definition => ?_
    split
    · exact stopsIn_ok _
    · exact stopsIn_error (located_in h.position _)

/-- **An item fails at one of its own places.** -/
theorem item_stopsIn (run : Run) {i : Item} (h : i.Placed Q) : StopsIn Q (session.item run i) := by
  match i with
  | .step (.sheet definition) =>
    exact (stopsIn_halted (session.define_failsIn run.scope h)).bind fun _ => stopsIn_ok _
  | .step (.statement s) => exact statement_stopsIn run h
  | .macroBlock block => exact macroBlock_stopsIn run h

/-! ## Scripts -/

theorem resume_in (world : World) {text : Text} {fault : Fault}
    (h : (session.resume world text).result = .error fault) : fault.In (InText text) := by
  have hplaces := Script.read_places text
  obtain ⟨-, hstops⟩ := stops_of_resume h
  generalize (session.resume world text).world = left at hstops
  cases hstops with
  | unread hread => rwa [hread] at hplaces
  | failed hread _ hfails _ =>
    have hitem := hplaces.of_ok hread _ (List.mem_append_right _ List.mem_cons_self)
    exact item_stopsIn _ hitem _ hfails

/-- **Every failure of a script points into its text.**  Whatever the session knows and however the host answers, a
failure has a position, and that is the one behind a beginning of the text: one line more than it has line breaks, and
one column more than it has characters behind the last of them. -/
theorem fault_in_text (session : Session) (world : World) (text : Text) (fault : Fault)
    (h : (session.resume world text).result = .error fault ∨ (session.run world text).result = .error fault) :
    ∃ before, before <+: text ∧
      fault.position = some ⟨1 + before.count '\n', 1 + (before.rtakeWhile (· ≠ '\n')).length⟩ := by
  have hin : fault.In (InText text) := h.elim (resume_in world) (resume_in world)
  obtain ⟨position, hposition, before, left, htext, hbehind⟩ := hin
  refine ⟨before, ⟨left, htext.symm⟩, ?_⟩
  rw [hposition, hbehind, Position.past_start]

/-- The host refuses an element, without a place; the failure has that of its statement, behind the first line and two
blanks. -/
theorem fault_in_text_of_refusedNote :
    let text : Text := "A = x\n  B \x7b note \x7d = y"
    let fault : Fault := .located (.deliveryFailed "unsupported element <note>") ⟨2, 3⟩
    (Session.resume {} withoutNotes text).result = .error fault ∧
      ∃ before, before <+: text ∧
        fault.position = some ⟨1 + before.count '\n', 1 + (before.rtakeWhile (· ≠ '\n')).length⟩ := by
  intro text fault
  have hfails : (Session.resume {} withoutNotes text).result = .error fault := by decide +kernel
  exact ⟨hfails, fault_in_text {} withoutNotes text fault (.inl hfails)⟩

end Session
end StyleScript
