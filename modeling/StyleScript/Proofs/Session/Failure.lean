import StyleScript.Session
import StyleScript.Proofs.Delivery.Told
/-!
# What a failing script leaves behind

A script is read as a whole before any of it runs, so that a text that cannot be read changes nothing.  Its items
then run until one fails.  Sheets, macros and creations fail before the host is told anything of them; only the
delivery of a style fails when the objects of its statement are already there (`item_eq_error`).

`Stops` lists these three ends of a script, and `stops_of_resume` says that there are no others.  The two last are
told apart by their cause: `OfScript` are the results that never fail for the cause of a delivery.
-/
namespace StyleScript

/-! ## Causes of a script and causes of a delivery -/

def Cause.isDelivery : Cause → Bool
  | .deliveryFailed _ => true
  | _ => false

/-- A failure that is not one of a delivery, if it is a failure at all. -/
def OfScript {α : Type} (x : Except Fault α) : Prop := ∀ fault, x = .error fault → fault.cause.isDelivery = false

section

variable {α β : Type}

theorem ofScript_ok (a : α) : OfScript (.ok a) := fun _ h => nomatch h

theorem ofScript_error {fault : Fault} (h : fault.cause.isDelivery = false) :
    OfScript (.error fault : Except Fault α) := by
  rintro _ ⟨⟩
  exact h

theorem OfScript.bind {x : Except Fault α} {f : α → Except Fault β} (hx : OfScript x) (hf : ∀ a, OfScript (f a)) :
    OfScript (x >>= f) := by
  cases x with
  | ok a => exact hf a
  | error fault =>
    rintro _ ⟨⟩
    exact hx fault rfl

theorem ofScript_foldlM {f : β → α → Except Fault β} (hf : ∀ b a, OfScript (f b a)) (as : List α) (b : β) :
    OfScript (as.foldlM f b) := by
  intro fault h
  obtain ⟨_, a, _, mid, _, _, ha⟩ := foldlM_eq_error h
  exact hf mid a fault ha

end

namespace Session

open Script (Entry StyleRef Statement SheetDef Step MacroBlock Item)

section

variable (session : Session)

theorem formatAt_ofScript (name : Text) (position : Position) : OfScript (session.formatAt name position) := by
  unfold formatAt
  split
  · exact ofScript_ok _
  · split
    · exact ofScript_error rfl
    · exact ofScript_ok _

theorem entry_ofScript (sheet : StyleSheet) (e : Entry) : OfScript (session.entry sheet e) := by
  refine (session.formatAt_ofScript e.name e.position).bind fun format => ?_
  cases e.action with
  | reset => exact ofScript_ok _
  | set value =>
    simp only
    split
    · exact ofScript_ok _
    · exact ofScript_ok _
    · exact ofScript_error rfl

theorem sheetOf_ofScript (name : Text) (es : List Entry) : OfScript (session.sheetOf name es) :=
  ofScript_foldlM session.entry_ofScript es _

theorem resolve_ofScript (scope : Scope) (ref : StyleRef) : OfScript (session.resolve scope ref) := by
  unfold resolve
  cases ref with
  | named name position =>
    simp only
    split
    · exact ofScript_ok _
    · exact ofScript_error rfl
  | inline es => exact session.sheetOf_ofScript [] es

theorem styleOf_ofScript (scope : Scope) (styles : List StyleRef) : OfScript (session.styleOf scope styles) := by
  unfold styleOf
  split
  · exact ofScript_ok _
  · refine (ofScript_foldlM (fun merged ref => ?_) styles _).bind fun merged => ofScript_ok _
    exact (session.resolve_ofScript scope ref).bind fun sheet => ofScript_ok _

theorem define_ofScript (scope : Scope) (definition : SheetDef) : OfScript (session.define scope definition) :=
  (session.sheetOf_ofScript definition.name definition.entries).bind fun _ => ofScript_ok _

theorem bodyStep_ofScript (body : Body) (s : Step) : OfScript (session.bodyStep body s) := by
  cases s with
  | sheet definition => exact (session.define_ofScript body.1 definition).bind fun _ => ofScript_ok _
  | statement s => exact (session.styleOf_ofScript body.1 s.styles).bind fun _ => ofScript_ok _

theorem macroDef_ofScript (block : MacroBlock) : OfScript (session.macroDef block) := by
  refine (ofScript_foldlM session.bodyStep_ofScript block.body _).bind fun body => ?_
  simp only
  split
  · exact ofScript_ok _
  · next cause h =>
    refine ofScript_error ?_
    unfold MacroDef.validate at h
    split at h
    · cases h; rfl
    · split at h
      · cases h; rfl
      · cases h

end
end Session

/-! ## Creations -/

namespace Host

/-- The object that is created for a label. -/
def objectOf (settings : HostSettings) (rhs : Text) (target : Target) : HostObject where
  label := if settings.unlabeled then none else some target.name
  typeName := (typeOf rhs).1
  rhs := rhs
  flags := target.flags
  number := (typeOf rhs).2.1
  boolean := (typeOf rhs).2.2

theorem foldl_createOne (rhs : Text) : ∀ (targets : List Target) (host : Host),
    targets.foldl (createOne rhs) host =
      { host with
        objects := host.objects ++ targets.map (objectOf host.settings rhs)
        events := host.events ++ targets.map fun target => .created target.name }
  | [], host => by simp only [List.foldl_nil, List.map_nil, List.append_nil]
  | target :: targets, host => by
    rw [List.foldl_cons, foldl_createOne rhs targets]
    simp only [createOne, record, List.map_cons, List.append_assoc, List.singleton_append]
    rfl

theorem create_eq_ok {host after : Host} {creation : Creation} {handles : List Nat}
    (h : host.create creation = .ok (after, handles)) :
    after = { host with
      objects := host.objects ++ creation.targets.map (objectOf host.settings creation.rhs)
      events := host.events ++ creation.targets.map fun target => .created target.name } ∧
    handles = List.range' host.objects.length creation.targets.length := by
  unfold create at h
  split at h
  · cases h
  · rw [foldl_createOne] at h
    simp only [Except.ok.injEq, Prod.mk.injEq] at h
    exact ⟨h.1.symm, h.2.symm⟩

end Host

/-! ## Statements whose delivery failed -/

/-- The objects of a creation stand behind those of before, perhaps with scripts and flags of a style.  After they
were created the host was told of them alone; it neither computed anew nor followed the trace. -/
structure HalfDelivered (creation : Creation) (before after : Host) : Prop where
  settings : after.settings = before.settings
  macros : after.macros = before.macros
  left : ∃ own told, after.objects = before.objects ++ own ∧
    own.map HostObject.unstyled = creation.targets.map (Host.objectOf before.settings creation.rhs) ∧
    after.events = before.events ++ (creation.targets.map fun target => .created target.name) ++ told ∧
    ∀ e ∈ told, ∃ object ∈ own, e.about? = some (object.label.getD [])

theorem Host.Told.halfDelivered {creation : Creation} {host created after : Host} {handles : List Nat}
    (hcreate : host.create creation = .ok (created, handles)) (h : Host.Told HostEvent.about? handles created after) :
    HalfDelivered creation host after := by
  obtain ⟨rfl, rfl⟩ := Host.create_eq_ok hcreate
  obtain ⟨told, hevents, habout⟩ := h.events
  have hold : after.objects.take host.objects.length = host.objects := by
    refine List.ext_getElem? fun i => ?_
    rw [List.getElem?_take]
    split
    · next hi =>
      rw [h.others i fun hmem => by rw [List.mem_range'_1] at hmem; omega]
      exact List.getElem?_append_left hi
    · next hi => rw [List.getElem?_eq_none (by omega)]
  have hobjects : after.objects = host.objects ++ after.objects.drop host.objects.length := by
    rw [← congrArg (· ++ after.objects.drop host.objects.length) hold]
    exact (List.take_append_drop ..).symm
  have hown : (after.objects.drop host.objects.length).map HostObject.unstyled =
      creation.targets.map (Host.objectOf host.settings creation.rhs) := by
    rw [List.map_drop, h.objects, ← List.map_drop, List.drop_left, List.map_map]
    rfl
  refine ⟨h.settings, h.macros, _, told, hobjects, hown, hevents, fun e he => ?_⟩
  obtain ⟨handle, hmem, hlabel⟩ := habout e he
  rw [List.mem_range'_1] at hmem
  have hlength : after.objects.length = host.objects.length + creation.targets.length := by
    have := congrArg List.length h.objects
    rwa [List.length_map, List.length_map, List.length_append, List.length_map] at this
  have hlt : handle < after.objects.length := by omega
  refine ⟨after.objects[handle], ?_, ?_⟩
  · rw [List.mem_drop_iff_getElem]
    exact ⟨handle - host.objects.length, by omega, by congr 1; omega⟩
  · rw [hlabel, ← Host.labelOf_eq h.objects, Host.labelOf, List.getElem?_eq_getElem hlt]
    rfl

namespace Session

open Script (Statement Item MacroBlock)

variable {session : Session}

/-! ## Items -/

/-- What is left of an item that failed: nothing, or what was delivered of a statement. -/
inductive Spoils (run : Run) : Item → Halted → Prop
  | nothing {i : Item} {fault : Fault} (ofScript : fault.cause.isDelivery = false) : Spoils run i ⟨fault, run.world⟩
  | delivered {s : Statement} {reason : Text} {after : World}
      (half : HalfDelivered s.creation run.world.host after.host) :
    Spoils run (.step (.statement s)) ⟨.located (.deliveryFailed reason) s.position, after⟩

theorem eq_of_halted_eq_error {α : Type} {world : World} {x : Except Fault α} {stopped : Halted}
    (h : halted world x = .error stopped) : x = .error stopped.fault ∧ stopped.world = world := by
  cases x with
  | ok a => cases h
  | error fault => cases h; exact ⟨rfl, rfl⟩

theorem eq_ok_of_halted {α : Type} {world : World} {x : Except Fault α} {a : α} (h : halted world x = .ok a) :
    x = .ok a :=
  mapError_eq_ok.1 h

theorem spoils_of_ofScript {α : Type} {run : Run} {i : Item} {x : Except Fault α} {stopped : Halted} (hx : OfScript x)
    (h : halted run.world x = .error stopped) : Spoils run i stopped := by
  obtain ⟨hfault, hworld⟩ := eq_of_halted_eq_error h
  obtain ⟨fault, world⟩ := stopped
  subst hworld
  exact .nothing (hx fault hfault)

theorem spoils_of_statement {run : Run} {s : Statement} {stopped : Halted}
    (h : session.statement run s = .error stopped) : Spoils run (.step (.statement s)) stopped := by
  unfold statement at h
  cases hstyle : halted run.world (session.styleOf run.scope s.styles) with
  | error e =>
    rw [hstyle] at h
    cases h
    exact spoils_of_ofScript (session.styleOf_ofScript run.scope s.styles) hstyle
  | ok style =>
    rw [hstyle] at h
    simp only [bind, Except.bind] at h
    split at h
    · cases h
      exact .nothing rfl
    · next host handles hcreate =>
      split at h
      · cases h
      · next stopped hdelivery =>
        cases h
        cases style with
        | none => cases hdelivery
        | some style =>
          obtain ⟨-, -, -, -, -, -, -, reason, hfault⟩ := Delivery.sheet_eq_error hdelivery
          rw [hfault]
          exact .delivered ((Delivery.told_of_sheet_eq_error hdelivery).halfDelivered hcreate)

theorem spoils_of_macroBlock {run : Run} {block : MacroBlock} {stopped : Halted}
    (h : session.macroBlock run block = .error stopped) : Spoils run (.macroBlock block) stopped := by
  unfold macroBlock at h
  split at h
  · cases h
    exact .nothing rfl
  · cases hdef : halted run.world (session.macroDef block) with
    | error e =>
      rw [hdef] at h
      cases h
      exact spoils_of_ofScript (session.macroDef_ofScript block) hdef
    | ok definition =>
      rw [hdef] at h
      simp only [bind, Except.bind] at h
      split at h
      · cases h
      · next refusal hregister =>
        cases h
        exact .nothing (by cases refusal <;> rfl)

/-- **An item that fails leaves nothing**, unless it is a statement whose delivery failed. -/
theorem spoils_of_item {run : Run} {i : Item} {stopped : Halted} (h : session.item run i = .error stopped) :
    Spoils run i stopped := by
  unfold item at h
  match i with
  | .step (.sheet definition) =>
    simp only at h
    cases hscope : halted run.world (session.define run.scope definition) with
    | error e =>
      rw [hscope] at h
      cases h
      exact spoils_of_ofScript (session.define_ofScript run.scope definition) hscope
    | ok scope => rw [hscope] at h; cases h
  | .step (.statement s) => exact spoils_of_statement h
  | .macroBlock block => exact spoils_of_macroBlock h

/-! ## Scripts -/

/-- A script that ends with this failure in this world: it cannot be read; or some items ran, and the next one failed
and left nothing, or what was delivered of it. -/
inductive Stops (session : Session) (world : World) (text : Text) : Fault → World → Prop
  | unread {fault : Fault} (read : Script.read text = .error fault) : Stops session world text fault world
  | failed {done rest : List Item} {i : Item} {run : Run} {stopped : Halted}
    (read : Script.read text = .ok (done ++ i :: rest))
    (ran : done.foldlM session.item (session.start world) = .ok run)
    (fails : session.item run i = .error stopped) (spoils : Spoils run i stopped) :
    Stops session world text stopped.fault stopped.world

theorem stops_of_runItems {world : World} {text : Text} {stopped : Halted}
    (h : session.runItems world text = .error stopped) : Stops session world text stopped.fault stopped.world := by
  unfold runItems at h
  cases hread : Script.read text with
  | error fault =>
    rw [hread] at h
    cases h
    exact .unread hread
  | ok items =>
    rw [hread] at h
    obtain ⟨done, i, rest, run, rfl, ran, fails⟩ := foldlM_eq_error h
    exact .failed hread ran fails (spoils_of_item fails)

theorem stops_of_resume {world : World} {text : Text} {fault : Fault}
    (h : (session.resume world text).result = .error fault) :
    (session.resume world text).session = session ∧
      Stops session world text fault (session.resume world text).world := by
  unfold resume at h ⊢
  cases hrun : session.runItems world text with
  | ok run => rw [hrun] at h; cases h
  | error stopped =>
    rw [hrun] at h
    cases h
    exact ⟨rfl, stops_of_runItems hrun⟩

/-- **A failing script leaves no half-made trace.**  The session keeps its sheets and macros, or is left without any if
the script was to start anew; the world is that of the items before the failing one, up to what was delivered of a
statement. -/
theorem failure_leaves (session : Session) (world : World) (text : Text) (fault : Fault) :
    ((session.resume world text).result = .error fault →
      (session.resume world text).session = session ∧
      Stops session world text fault (session.resume world text).world) ∧
    ((session.run world text).result = .error fault →
      (session.run world text).session = { session with sheets := OrderedMap.empty, macros := [] } ∧
      Stops session.cleared world text fault (session.run world text).world) :=
  ⟨stops_of_resume, stops_of_resume⟩

/-- A host that takes captions but no notes. -/
def withoutNotes : World := { host := { settings := { refusedElement := some "note" } } }

/-- The second statement fails at its note, when its object is there and its caption was told. -/
theorem failure_leaves_of_refusedNote :
    let text : Text := "A = x\nB \x7b caption: b; note \x7d = y"
    let fault : Fault := .located (.deliveryFailed "unsupported element <note>") ⟨2, 1⟩
    (Session.resume {} withoutNotes text).session = {} ∧
      Stops {} withoutNotes text fault (Session.resume {} withoutNotes text).world ∧
      (Session.run { macros := ["M"] } withoutNotes text).session = {} ∧
      Stops {} withoutNotes text fault (Session.run { macros := ["M"] } withoutNotes text).world ∧
      (Session.resume {} withoutNotes text).world.host.events =
        [.created "A", .created "B", .element "B" "caption" (.table [("val", "b")])] := by
  intro text fault
  obtain ⟨hresume, hevents⟩ : (Session.resume {} withoutNotes text).result = .error fault ∧
      (Session.resume {} withoutNotes text).world.host.events =
        [.created "A", .created "B", .element "B" "caption" (.table [("val", "b")])] := by decide +kernel
  have hrun : (Session.run { macros := ["M"] } withoutNotes text).result = .error fault := hresume
  obtain ⟨hsame, hstops⟩ := (failure_leaves {} withoutNotes text fault).1 hresume
  obtain ⟨hclear, hstops'⟩ := (failure_leaves { macros := ["M"] } withoutNotes text fault).2 hrun
  exact ⟨hsame, hstops, hclear, hstops', hevents⟩

end Session
end StyleScript
