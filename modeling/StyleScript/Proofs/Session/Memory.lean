import Mathlib.Logic.Function.Basic
import StyleScript.Proofs.Delivery.Moments
import StyleScript.Proofs.Session.Failure
/-!
# The memory for default styles

Sessions that share a host may share what is remembered of its default styles.  Nobody can tell from outside: whatever
is asked of them, in which order and with which failures, the answers and the host are those of an applier that asks
for a default style each time it needs one (`memory_transparent`).  The memory only spares requests: every type is
asked for once at most, and at each moment there were as many requests as there are known types.

A script runs here with the look-up of its deliveries as a parameter, as these do (`resumeBy`).
-/
namespace StyleScript

open World (Alike Asks Learns)

/-! ## Creations and macros -/

namespace Host

theorem quiet_create (creation : Creation) :
    Quiet fun host => creation.targets.foldl (createOne creation.rhs) host := by
  have heq := funext (foldl_createOne creation.rhs creation.targets)
  rw [heq]
  exact ⟨fun _ => rfl, fun _ => rfl, fun _ => rfl⟩

theorem quiet_register (definition : MacroDef) : Quiet fun host =>
    Host.record { host with macros := host.macros ++ [definition] } (.macroTaken definition.name) :=
  ⟨fun _ => rfl, fun _ => rfl, fun _ => rfl⟩

end Host

namespace Session

open Script (Statement Item MacroBlock)
open Delivery (Lookup LooksAlike askedAttributes defaultAttributes)

/-! ## Scripts by a look-up -/

/-- `statement` with another look-up. -/
def statementBy (look : Lookup) (session : Session) (run : Run) (s : Statement) : Except Halted Run := do
  let style ← halted run.world (session.styleOf run.scope s.styles)
  match run.world.host.create s.creation with
  | .error reason =>
    .error ⟨.located (.creationFailed s.creation.labelList reason) s.position, run.world⟩
  | .ok (host, handles) =>
    let world := { run.world with host }
    match (style.map (Delivery.sheetBy look session.catalog world handles)).getD (.ok world) with
    | .ok world => return { run with world, created := run.created ++ handles }
    | .error halted => .error ⟨halted.fault.orLocated s.position, halted.world⟩

/-- `item` with another look-up. -/
def itemBy (look : Lookup) (session : Session) (run : Run) : Item → Except Halted Run
  | .step (.sheet definition) => do
    return { run with scope := ← halted run.world (session.define run.scope definition) }
  | .step (.statement s) => session.statementBy look run s
  | .macroBlock block => session.macroBlock run block

/-- `runItems` with another look-up. -/
def runItemsBy (look : Lookup) (session : Session) (world : World) (text : Text) : Except Halted Run := do
  let items ← halted world (Script.read text)
  items.foldlM (session.itemBy look) (session.start world)

/-- `resume` with another look-up. -/
def resumeBy (look : Lookup) (session : Session) (world : World) (text : Text) : Outcome :=
  match session.runItemsBy look world text with
  | .ok run => ⟨.ok run.created, { session with sheets := run.scope, macros := run.macros }, run.world⟩
  | .error halted => ⟨.error halted.fault, session, halted.world⟩

theorem itemBy_defaultAttributes (session : Session) : session.itemBy defaultAttributes = session.item := by
  funext run i
  cases i with
  | step s => cases s <;> rfl
  | macroBlock block => rfl

theorem resumeBy_defaultAttributes : resumeBy defaultAttributes = resume := by
  funext session world text
  unfold resumeBy runItemsBy
  rw [itemBy_defaultAttributes]
  rfl

/-- Two runs that differ in nothing but worlds that are alike. -/
structure RunsAlike (start : World) (run other : Run) : Prop where
  world : Alike start run.world other.world
  scope : run.scope = other.scope
  macros : run.macros = other.macros
  created : run.created = other.created

variable {start a b : World} {look other : Lookup} {session : Session}

theorem agree_halted {α : Type} (h : Alike start a b) (x : Except Fault α) :
    Agree start Eq (halted a x) (halted b x) := by
  cases x with
  | ok value => exact .ok rfl
  | error fault => exact .error h

/-- Hosts that look the same create the same objects, or refuse to for the same reason. -/
theorem create_alike (h : Alike start a b) (creation : Creation) :
    (∃ reason, a.host.create creation = .error reason ∧ b.host.create creation = .error reason) ∨
      ∃ f handles, Host.Quiet f ∧ a.host.create creation = .ok (f a.host, handles) ∧
        b.host.create creation = .ok (f b.host, handles) := by
  have hobjects : a.host.objects = b.host.objects := congrArg (·.host.objects) h.shown
  unfold Host.create
  rw [h.settings, hobjects]
  split
  · exact .inl ⟨_, rfl, rfl⟩
  · exact .inr ⟨_, _, Host.quiet_create creation, rfl, rfl⟩

/-- Hosts that look the same take the same macros, and refuse the others for the same reasons. -/
theorem register_alike (h : Alike start a b) (definition : MacroDef) :
    (∃ refusal, a.host.register definition = .error refusal ∧ b.host.register definition = .error refusal) ∨
      ∃ f, Host.Quiet f ∧ a.host.register definition = .ok (f a.host) ∧
        b.host.register definition = .ok (f b.host) := by
  have hmacros : a.host.macros = b.host.macros := congrArg (·.host.macros) h.shown
  unfold Host.register
  rw [h.settings, hmacros]
  cases b.host.settings.macroAnswer with
  | some refusal => exact .inl ⟨refusal, rfl, rfl⟩
  | none =>
    simp only
    split
    · exact .inl ⟨_, rfl, rfl⟩
    · exact .inr ⟨_, Host.quiet_register definition, by rw [h.settings, hmacros], rfl⟩

theorem statementBy_alike (hlook : LooksAlike start look other) {run run' : Run} (h : RunsAlike start run run')
    (s : Statement) :
    Agree start (RunsAlike start) (session.statementBy look run s) (session.statementBy other run' s) := by
  unfold statementBy
  rw [h.scope]
  refine (agree_halted h.world _).bind ?_
  rintro style _ rfl
  rcases create_alike h.world s.creation with ⟨reason, hrefused, hrefused'⟩ | ⟨f, handles, hf, hcreated, hcreated'⟩
  · rw [hrefused, hrefused']
    exact .error h.world
  · rw [hcreated, hcreated']
    have hmid := h.world.told hf
    cases style with
    | none => exact .ok ⟨hmid, rfl, h.macros, congrArg (· ++ handles) h.created⟩
    | some sheet =>
      have hagree := Delivery.sheetBy_alike hlook hmid session.catalog handles sheet
      simp only [Option.map_some, Option.getD_some]
      generalize Delivery.sheetBy look session.catalog { run.world with host := f run.world.host } handles sheet =
        delivered at hagree
      generalize Delivery.sheetBy other session.catalog { run'.world with host := f run'.world.host } handles sheet =
        delivered' at hagree
      cases hagree with
      | ok hafter => exact .ok ⟨hafter, rfl, h.macros, congrArg (· ++ handles) h.created⟩
      | error hafter => exact .error hafter

theorem macroBlock_alike {run run' : Run} (h : RunsAlike start run run') (block : MacroBlock) :
    Agree start (RunsAlike start) (session.macroBlock run block) (session.macroBlock run' block) := by
  unfold macroBlock
  rw [h.macros]
  split
  · exact .error h.world
  · refine (agree_halted h.world _).bind ?_
    rintro definition _ rfl
    rcases register_alike h.world definition with ⟨refusal, hrefused, hrefused'⟩ | ⟨f, hf, htaken, htaken'⟩
    · rw [hrefused, hrefused']
      exact .error h.world
    · rw [htaken, htaken']
      exact .ok ⟨h.world.told hf, h.scope, rfl, h.created⟩

theorem itemBy_alike (hlook : LooksAlike start look other) {run run' : Run} (h : RunsAlike start run run') (i : Item) :
    Agree start (RunsAlike start) (session.itemBy look run i) (session.itemBy other run' i) := by
  match i with
  | .step (.sheet definition) =>
    unfold itemBy
    rw [h.scope]
    refine (agree_halted h.world _).bind ?_
    rintro scope _ rfl
    exact .ok ⟨h.world, rfl, h.macros, h.created⟩
  | .step (.statement s) => exact statementBy_alike hlook h s
  | .macroBlock block => exact macroBlock_alike h block

theorem runItemsBy_alike (hlook : LooksAlike start look other) (h : Alike start a b) (session : Session) (text : Text) :
    Agree start (RunsAlike start) (session.runItemsBy look a text) (session.runItemsBy other b text) := by
  refine (agree_halted h _).bind ?_
  rintro items _ rfl
  exact agree_foldlM (fun _ _ i hmid => itemBy_alike hlook hmid i) items ⟨h, rfl, rfl, rfl⟩

theorem resumeBy_alike (hlook : LooksAlike start look other) (h : Alike start a b) (session : Session) (text : Text) :
    (session.resumeBy look a text).result = (session.resumeBy other b text).result ∧
      (session.resumeBy look a text).session = (session.resumeBy other b text).session ∧
      Alike start (session.resumeBy look a text).world (session.resumeBy other b text).world := by
  have hagree := runItemsBy_alike hlook h session text
  unfold resumeBy
  generalize session.runItemsBy look a text = ran at hagree
  generalize session.runItemsBy other b text = ran' at hagree
  cases hagree with
  | @ok run run' hrun =>
    refine ⟨congrArg Except.ok hrun.created, ?_, hrun.world⟩
    simp only [hrun.scope, hrun.macros]
  | error halted => exact ⟨rfl, rfl, halted⟩

/-! ## The moments of a script -/

/-- The moments inside of an item: those in which the style of a statement is delivered. -/
def ItemPasses (session : Session) (run : Run) : Item → World → Prop
  | .step (.statement s), w =>
    ∃ sheet host handles, session.styleOf run.scope s.styles = .ok (some sheet) ∧
      run.world.host.create s.creation = .ok (host, handles) ∧
      Delivery.SheetPasses session.catalog { run.world with host } handles sheet w
  | _, _ => False

def ScriptPasses (session : Session) (world : World) (text : Text) (w : World) : Prop :=
  ∃ items, Script.read text = .ok items ∧
    Passes session.item session.ItemPasses (·.world) (session.start world) items w

theorem learns_of_itemPasses (hstart : start.Faithful) {run : Run} {i : Item} {w : World}
    (h : Learns start run.world) (hw : session.ItemPasses run i w) : Learns start w := by
  match i with
  | .step (.statement s) =>
    obtain ⟨sheet, host, handles, -, hcreate, hpasses⟩ := hw
    have hself : Alike start run.world run.world := ⟨rfl, h⟩
    rcases create_alike hself s.creation with ⟨reason, hrefused, -⟩ | ⟨f, _, hf, hcreated, -⟩
    · cases hrefused.symm.trans hcreate
    · cases hcreated.symm.trans hcreate
      exact Delivery.learns_of_sheetPasses hstart (hself.told hf).learns hpasses
  | .step (.sheet _) => exact hw.elim
  | .macroBlock _ => exact hw.elim

theorem learns_of_scriptPasses (hstart : start.Faithful) {text : Text} {w : World} (h : Learns start a)
    (hw : session.ScriptPasses a text w) : Learns start w := by
  obtain ⟨items, -, hpasses⟩ := hw
  refine hpasses.keeps
    (fun _ _ _ hs hmoment => learns_of_itemPasses hstart hs hmoment) (fun run i next hs hitem => ?_) h
  have hself : RunsAlike start run run := ⟨⟨rfl, hs⟩, rfl, rfl, rfl⟩
  have hagree : Agree start (RunsAlike start) (session.itemBy defaultAttributes run i)
      (session.itemBy askedAttributes run i) := itemBy_alike (Delivery.looksAlike hstart) hself i
  rw [itemBy_defaultAttributes, hitem] at hagree
  generalize session.itemBy askedAttributes run i = other at hagree
  cases hagree with
  | ok hnext => exact hnext.world.learns

end Session

/-! ## Errands -/

/-- A way to run scripts and to deliver sheets. -/
structure Applier where
  resume : Session → World → Text → Session.Outcome
  deliver : Catalog → World → List Nat → StyleSheet → Except Halted World

namespace Applier

/-- Remembers the default styles. -/
def remembering : Applier := ⟨Session.resume, Delivery.sheet⟩

/-- Asks for a default style and reads it anew each time it is needed. -/
def asking : Applier := ⟨Session.resumeBy Delivery.askedAttributes, Delivery.sheetBy Delivery.askedAttributes⟩

end Applier

/-- Something that is asked of the sessions of a host: to run a script or to go on with one, or to deliver a sheet. -/
inductive Errand where
  | run (who : Nat) (text : Text)
  | resume (who : Nat) (text : Text)
  | deliver (catalog : Catalog) (handles : List Nat) (sheet : StyleSheet)

/-- Sessions that share a world: a host, and what is remembered of its default styles. -/
structure Shared where
  sessions : Nat → Session
  world : World

namespace Shared

open World (Alike Asks Learns)

/-- What comes of a script of one of the sessions. -/
def after (state : Shared) (who : Nat) (outcome : Session.Outcome) : Except Fault (List Nat) × Shared :=
  (outcome.result, ⟨Function.update state.sessions who outcome.session, outcome.world⟩)

/-- The answer to an errand, created objects or a failure, and what is left behind. -/
def answer (applier : Applier) (state : Shared) : Errand → Except Fault (List Nat) × Shared
  | .run who text => state.after who (applier.resume (state.sessions who).cleared state.world text)
  | .resume who text => state.after who (applier.resume (state.sessions who) state.world text)
  | .deliver catalog handles sheet =>
    match applier.deliver catalog state.world handles sheet with
    | .ok world => (.ok [], { state with world })
    | .error halted => (.error halted.fault, { state with world := halted.world })

/-- The answers to errands that are done one after the other, whether they fail or not. -/
def answers (applier : Applier) : Shared → List Errand → List (Except Fault (List Nat)) × Shared
  | state, [] => ([], state)
  | state, errand :: errands =>
    let (answer, next) := state.answer applier errand
    let (more, last) := answers applier next errands
    (answer :: more, last)

/-- The moments inside of an errand. -/
def ErrandPasses (state : Shared) : Errand → World → Prop
  | .run who text => (state.sessions who).cleared.ScriptPasses state.world text
  | .resume who text => (state.sessions who).ScriptPasses state.world text
  | .deliver catalog handles sheet => Delivery.SheetPasses catalog state.world handles sheet

/-- The moments of errands that are done one after the other. -/
def AllPasses (state : Shared) (errands : List Errand) (w : World) : Prop :=
  Passes (fun state errand => (Except.ok (state.answer .remembering errand).2 : Except Fault Shared)) ErrandPasses
    (·.world) state errands w

/-- Two states that differ in nothing but worlds that are alike. -/
structure SharedAlike (start : World) (state other : Shared) : Prop where
  sessions : state.sessions = other.sessions
  world : Alike start state.world other.world

variable {start : World} {state other : Shared}

theorem answer_alike (hstart : start.Faithful) (h : SharedAlike start state other) (errand : Errand) :
    (state.answer .remembering errand).1 = (other.answer .asking errand).1 ∧
      SharedAlike start (state.answer .remembering errand).2 (other.answer .asking errand).2 := by
  have hlook : Delivery.LooksAlike start Delivery.defaultAttributes Delivery.askedAttributes :=
    Delivery.looksAlike hstart
  have hresume : ∀ who session text,
      (state.after who (Session.resume session state.world text)).1 =
        (other.after who (Session.resumeBy Delivery.askedAttributes session other.world text)).1 ∧
      SharedAlike start (state.after who (Session.resume session state.world text)).2
        (other.after who (Session.resumeBy Delivery.askedAttributes session other.world text)).2 := by
    intro who session text
    obtain ⟨hresult, hsession, hworld⟩ := Session.resumeBy_alike hlook h.world session text
    rw [Session.resumeBy_defaultAttributes] at hresult hsession hworld
    exact ⟨hresult, by rw [after, after, h.sessions, hsession], hworld⟩
  cases errand with
  | run who text =>
    unfold answer
    rw [h.sessions]
    exact hresume who _ text
  | resume who text =>
    unfold answer
    rw [h.sessions]
    exact hresume who _ text
  | deliver catalog handles sheet =>
    have hagree := Delivery.sheetBy_alike hlook h.world catalog handles sheet
    rw [Delivery.sheetBy_defaultAttributes] at hagree
    unfold answer Applier.remembering Applier.asking
    simp only
    generalize Delivery.sheet catalog state.world handles sheet = delivered at hagree
    generalize Delivery.sheetBy Delivery.askedAttributes catalog other.world handles sheet = delivered' at hagree
    cases hagree with
    | ok hworld => exact ⟨rfl, h.sessions, hworld⟩
    | error hworld => exact ⟨rfl, h.sessions, hworld⟩

theorem answers_alike (hstart : start.Faithful) : ∀ (errands : List Errand) {state other : Shared},
    SharedAlike start state other →
      (state.answers .remembering errands).1 = (other.answers .asking errands).1 ∧
        SharedAlike start (state.answers .remembering errands).2 (other.answers .asking errands).2
  | [], _, _, h => ⟨rfl, h⟩
  | errand :: errands, state, other, h => by
    obtain ⟨hanswer, hnext⟩ := answer_alike hstart h errand
    obtain ⟨hmore, hlast⟩ := answers_alike hstart errands hnext
    exact ⟨congrArg₂ List.cons hanswer hmore, hlast⟩

theorem learns_of_allPasses (hstart : start.Faithful) {errands : List Errand} {w : World}
    (h : Learns start state.world) (hw : state.AllPasses errands w) : Learns start w := by
  refine Passes.keeps (fun state errand w hs hmoment => ?_)
    (fun state errand next hs hstep => ?_) hw h
  · cases errand with
    | run who text => exact Session.learns_of_scriptPasses hstart hs hmoment
    | resume who text => exact Session.learns_of_scriptPasses hstart hs hmoment
    | deliver catalog handles sheet => exact Delivery.learns_of_sheetPasses hstart hs hmoment
  · have hself : SharedAlike start state state := ⟨rfl, rfl, hs⟩
    obtain ⟨-, hnext⟩ := answer_alike hstart hself errand
    cases hstep
    exact hnext.world.learns

/-- **Nobody can tell that default styles are remembered.**  Whatever is asked of sessions that share a host, the
answers, the sessions and the host are those of an applier that asks anew each time.  At every moment the host was
asked for the types that are known, for each of them once. -/
theorem memory_transparent (sessions : Nat → Session) (host : Host) (errands : List Errand) :
    let start : Shared := ⟨sessions, { host }⟩
    let (answers, last) := start.answers .remembering errands
    let (answers', last') := start.answers .asking errands
    answers = answers' ∧ last.sessions = last'.sessions ∧ last.world.shown = last'.world.shown ∧
      ∀ w, start.AllPasses errands w → ∃ asked : List Int, Asks { host } asked w ∧ asked.Nodup ∧
        OrderedMap.keys w.styles = asked ∧
        w.host.styleRequests = host.styleRequests + OrderedMap.size w.styles := by
  intro start
  have hstart := World.faithful_fresh host
  have hasks : Learns { host } start.world := .refl _
  have hself : SharedAlike { host } start start := ⟨rfl, rfl, hasks⟩
  obtain ⟨hanswers, hlast⟩ := answers_alike hstart errands hself
  refine ⟨hanswers, hlast.sessions, hlast.world.shown, fun w hw => ?_⟩
  obtain ⟨asked, hasked⟩ := learns_of_allPasses hstart hasks hw
  have hkeys : OrderedMap.keys w.styles = asked := hasked.keys
  refine ⟨asked, hasked, hkeys ▸ OrderedMap.keys_nodup w.styles, hkeys, ?_⟩
  rw [hasked.requests, ← hkeys, OrderedMap.keys, List.length_map]
  rfl

/-- Two marks on an object of a type without markup: the second one finds what the first one has learned. -/
example :
    let host : Host := { settings := { defaultTypes := .ofList [("command", 7)] } }
    let start : Shared := ⟨fun _ => { catalog := .empty }, { host }⟩
    let errands := [.run 0 "A \x7b ~caption; ~note \x7d = x", .resume 1 "B \x7b ~note \x7d = y"]
    (start.answers .remembering errands).2.world.host.styleRequests = 1 ∧
      (start.answers .asking errands).2.world.host.styleRequests = 3 := by
  decide +kernel

end Shared
end StyleScript
