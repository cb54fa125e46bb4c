import StyleScript.Proofs.Session.Joined
import StyleScript.Proofs.Session.Macros
/-!
# What macros have to do with the rest

A host remembers the events it was told and the macros it took, but nothing it does for a sheet or a statement depends
on them.  A `Recast` changes these memories and lets every new event come behind the old ones as before; what is not
about macros goes the same way in a recast world (`item_recast`).  Two of them are enough: to put events in front, and
to leave out what macros told (`items_apart`).

A block in its turn depends on nothing but itself, the catalog, the strictness, the names that are taken and the
answer of the host (`macroBlock_eq`).
-/
namespace StyleScript

open Script (StyleRef Statement SheetDef Step MacroBlock Item)

def HostEvent.isMacroTaken : HostEvent → Bool
  | .macroTaken _ => true
  | _ => false

def Script.Item.isStep : Item → Bool
  | .step _ => true
  | .macroBlock _ => false

/-- A change of what is remembered of events and macros, by which new events still come last. -/
structure Recast where
  events : List HostEvent → List HostEvent
  macros : List MacroDef → List MacroDef
  known : List Text → List Text
  last : ∀ (told : List HostEvent) (event : HostEvent), event.isMacroTaken = false →
    events (told ++ [event]) = events told ++ [event]

namespace Recast

/-- These events were told before. -/
def behind (earlier : List HostEvent) : Recast where
  events := (earlier ++ ·)
  macros := id
  known := id
  last told event _ := (List.append_assoc earlier told [event]).symm

/-- No macro was taken but these. -/
def apart (macros : List MacroDef) (known : List Text) : Recast where
  events := List.filter (!·.isMacroTaken)
  macros _ := macros
  known _ := known
  last told event h := by
    rw [List.filter_append, List.filter_cons_of_pos (by rw [h]; rfl), List.filter_nil]

end Recast

def Host.recast (r : Recast) (host : Host) : Host :=
  { host with events := r.events host.events, macros := r.macros host.macros }

def World.recast (r : Recast) (world : World) : World := { world with host := world.host.recast r }

def Halted.recast (r : Recast) (stopped : Halted) : Halted := { stopped with world := stopped.world.recast r }

variable {r : Recast}

/-! ## Messages to the host -/

namespace Host

@[simp] theorem settings_recast (host : Host) : (host.recast r).settings = host.settings := rfl
@[simp] theorem objects_recast (host : Host) : (host.recast r).objects = host.objects := rfl
@[simp] theorem labelOf_recast (host : Host) (handle : Nat) : (host.recast r).labelOf handle = host.labelOf handle := rfl

theorem record_recast (host : Host) {event : HostEvent} (h : event.isMacroTaken = false) :
    (host.recast r).record event = (host.record event).recast r := by
  simp only [record, recast, r.last _ _ h]

theorem kept_recast (host : Host) (handle : Nat) (f : HostObject → HostObject) {event : HostEvent}
    (h : event.isMacroTaken = false) :
    ((host.recast r).change handle f).record event = ((host.change handle f).record event).recast r :=
  record_recast (host.change handle f) h

theorem element_recast (host : Host) (handle : Nat) (name : Text) (attrs : Attributes) :
    (host.recast r).element handle name attrs = (host.element handle name attrs).map (recast r) := by
  unfold element
  rw [settings_recast, labelOf_recast, kept_recast host handle _ rfl]
  split <;> rfl

theorem setScript_recast (host : Host) (handle : Nat) (slot : ScriptSlot) (text : Text) :
    (host.recast r).setScript handle slot text = (host.setScript handle slot text).recast r :=
  kept_recast host handle (fun object => { object with scripts := object.scripts.set slot text }) rfl

theorem setRandom_recast (host : Host) (handle : Nat) (flag : Bool) :
    (host.recast r).setRandom handle flag = (host.setRandom handle flag).recast r :=
  kept_recast host handle (fun object => { object with random := flag }) rfl

theorem finish_recast (host : Host) (handle : Nat) : (host.recast r).finish handle = (host.finish handle).recast r :=
  record_recast host rfl

theorem clear?_recast (host : Host) (handle : Nat) (property : Resettable) :
    (host.recast r).clear? handle property = (host.clear? handle property).map (recast r) := by
  unfold clear?
  rw [settings_recast, labelOf_recast, record_recast host rfl]
  split <;> rfl

theorem createOne_recast (rhs : Text) (host : Host) (target : Target) :
    createOne rhs (host.recast r) target = (createOne rhs host target).recast r :=
  @record_recast _ { host with objects := _ } (.created target.name) rfl

theorem foldl_createOne_recast (rhs : Text) : ∀ (targets : List Target) (host : Host),
    targets.foldl (createOne rhs) (host.recast r) = (targets.foldl (createOne rhs) host).recast r
  | [], _ => rfl
  | target :: targets, host => by
    rw [List.foldl_cons, createOne_recast, foldl_createOne_recast rhs targets, List.foldl_cons]

theorem create_recast (host : Host) (creation : Creation) :
    (host.recast r).create creation = (host.create creation).map fun (host, handles) => (host.recast r, handles) := by
  unfold create
  rw [foldl_createOne_recast, settings_recast, objects_recast]
  split <;> rfl

end Host

/-! ## Deliveries -/

namespace Delivery

theorem defaultStyle_recast (world : World) (type : Int) :
    defaultStyle (world.recast r) type = ((defaultStyle world type).1, (defaultStyle world type).2.recast r) := by
  unfold defaultStyle
  have hstyles : (world.recast r).styles = world.styles := rfl
  rw [hstyles]
  split <;> rfl

theorem defaultAttributes_recast (world : World) (info : ObjectInfo) (element : Text) :
    defaultAttributes (world.recast r) info element =
      ((defaultAttributes world info element).1, (defaultAttributes world info element).2.recast r) := by
  unfold defaultAttributes
  cases info.defaultType with
  | none => rfl
  | some type => simp only [defaultStyle_recast]

theorem afterReset_recast (world : World) (handle : Nat) (info : ObjectInfo) (format : PropertyFormat)
    (attrs : Attributes) :
    afterReset (world.recast r) handle info format attrs =
      ((afterReset world handle info format attrs).1, (afterReset world handle info format attrs).2.recast r) := by
  have hclear : format.reset.bind ((world.recast r).host.clear? handle) =
      (format.reset.bind (world.host.clear? handle)).map (Host.recast r) := by
    cases format.reset with
    | none => rfl
    | some property => exact Host.clear?_recast world.host handle property
  unfold afterReset
  simp only [hclear, defaultAttributes_recast]
  split
  · cases format.reset.bind (world.host.clear? handle) with
    | some host => rfl
    | none =>
      simp only [Option.map_none]
      generalize defaultAttributes world info format.element = asked
      obtain ⟨defaults, left⟩ := asked
      cases defaults <;> rfl
  · rfl

/-- A step of a delivery that goes the same way in a recast world. -/
def Unaware {α : Type} (f : World → α → Except Halted World) : Prop :=
  ∀ (r : Recast) world a, f (world.recast r) a = ((f world a).map (World.recast r)).mapError (Halted.recast r)

theorem Unaware.foldlM {α : Type} {f : World → α → Except Halted World} (h : Unaware f) (as : List α) (world : World) :
    as.foldlM f (world.recast r) =
      ((as.foldlM f world).map (World.recast r)).mapError (Halted.recast r) := by
  have hall := foldlM_of_hom (a := id) (fun world a => h r world a) as world
  rwa [List.map_id] at hall

theorem unaware_route (handle : Nat) (info : ObjectInfo) : Unaware (route handle info) := by
  intro r world route
  unfold Delivery.route
  cases route with
  | element name attrs =>
    simp only [World.recast, Host.element_recast]
    cases world.host.element handle name (Required.fill name attrs info) <;> rfl
  | script slot text =>
    simp only [World.recast, Host.setScript_recast]
    rfl
  | random flag =>
    simp only [World.recast, Host.setRandom_recast]
    rfl

theorem unaware_property (catalog : Catalog) (handle : Nat) (info : ObjectInfo) :
    Unaware (property catalog handle info) := by
  intro r world entry
  unfold property
  simp only [afterReset_recast]
  generalize afterReset world handle info (catalog.formatOf entry.1) entry.2 = done
  obtain ⟨attrs, left⟩ := done
  cases attrs with
  | none => rfl
  | some attrs => exact (unaware_route handle info).foldlM _ left

theorem unaware_object (catalog : Catalog) (sheet : StyleSheet) : Unaware (object catalog sheet) := by
  intro r world handle
  have hinfo : (world.recast r).host.info handle = world.host.info handle := rfl
  unfold object
  simp only [hinfo]
  split
  · rfl
  · rw [(unaware_property catalog handle (world.host.info handle)).foldlM]
    cases sheet.properties.pairs.foldlM (property catalog handle (world.host.info handle)) world with
    | error stopped => rfl
    | ok left =>
      simp only [Except.map, Except.mapError, ok_bind, World.recast, Host.finish_recast]
      rfl

theorem conclude_recast (sheet : StyleSheet) (world : World) :
    conclude sheet (world.recast r) = (conclude sheet world).recast r := by
  have hrecompute : (world.host.recast r).recompute = world.host.recompute.recast r := Host.record_recast _ rfl
  have hsync : (world.host.recompute.recast r).syncTrace = world.host.recompute.syncTrace.recast r :=
    Host.record_recast _ rfl
  unfold conclude
  simp only [World.recast, hrecompute, hsync]
  split <;> rfl

/-- **A delivery goes the same way in a recast world.** -/
theorem unaware_sheet (catalog : Catalog) (handles : List Nat) :
    Unaware fun world sheet => Delivery.sheet catalog world handles sheet := by
  intro r world sheet
  simp only [Delivery.sheet]
  split
  · rfl
  · rw [(unaware_object catalog sheet).foldlM]
    cases handles.foldlM (object catalog sheet) world with
    | error stopped => rfl
    | ok left => exact congrArg Except.ok (conclude_recast sheet left)

end Delivery

/-! ## Items -/

namespace Session

def Run.recast (r : Recast) (run : Run) : Run :=
  { run with world := run.world.recast r, macros := r.known run.macros }

variable (session : Session)

theorem halted_recast {α : Type} (world : World) (x : Except Fault α) :
    halted (world.recast r) x = (halted world x).mapError (Halted.recast r) := by
  cases x <;> rfl

theorem statement_recast (run : Run) (s : Statement) :
    session.statement (run.recast r) s =
      ((session.statement run s).map (Run.recast r)).mapError (Halted.recast r) := by
  unfold statement
  have hstyle : halted (run.recast r).world (session.styleOf (run.recast r).scope s.styles) =
      (halted run.world (session.styleOf run.scope s.styles)).mapError (Halted.recast r) := halted_recast ..
  have hcreate : (run.recast r).world.host.create s.creation = _ := Host.create_recast run.world.host s.creation
  rw [hstyle]
  cases halted run.world (session.styleOf run.scope s.styles) with
  | error stopped => rfl
  | ok style =>
    simp only [Except.mapError, ok_bind, hcreate]
    cases run.world.host.create s.creation with
    | error reason => rfl
    | ok created =>
      obtain ⟨host, handles⟩ := created
      simp only [Except.map]
      cases style with
      | none => rfl
      | some sheet =>
        have hdelivery : Delivery.sheet session.catalog { (run.recast r).world with host := host.recast r } handles sheet =
            _ := Delivery.unaware_sheet session.catalog handles r { run.world with host } sheet
        simp only [Option.map_some, Option.getD_some, hdelivery]
        cases Delivery.sheet session.catalog { run.world with host } handles sheet <;> rfl

/-- **What is not a macro goes the same way in a recast world.** -/
theorem item_recast (run : Run) (s : Step) :
    session.item (run.recast r) (.step s) =
      ((session.item run (.step s)).map (Run.recast r)).mapError (Halted.recast r) := by
  cases s with
  | sheet definition =>
    show (halted (run.world.recast r) (session.define run.scope definition) >>= fun scope =>
      pure { run.recast r with scope }) = _
    rw [halted_recast]
    simp only [item]
    cases session.define run.scope definition <;> rfl
  | statement s => exact session.statement_recast run s

/-! ## Blocks -/

/-- The definition that is handed to the host for a block, or why there is none. -/
def offered (run : Run) (block : MacroBlock) : Except Fault MacroDef :=
  if run.macros.contains block.name then .error (.located (.macroExists block.name) block.position)
  else session.macroDef block

/-- The definition that is taken for a block, or why none is. -/
def verdict (run : Run) (block : MacroBlock) : Except Fault MacroDef := do
  let definition ← session.offered run block
  ((run.world.host.register definition).map fun _ => definition).mapError fun refusal =>
    .located (refusalCause block.name refusal) block.position

/-- What comes of a verdict: the host has one more macro and was told so, or the run stops and nothing has changed. -/
def Run.taking (run : Run) : Except Fault MacroDef → Except Halted Run
  | .error fault => .error ⟨fault, run.world⟩
  | .ok definition =>
    let host := { run.world.host with macros := run.world.host.macros ++ [definition] }
    .ok { run with
      world := { run.world with host := host.record (.macroTaken definition.name) }
      macros := definition.name :: run.macros }

theorem register_eq_ok {host after : Host} {definition : MacroDef} (h : host.register definition = .ok after) :
    after = Host.record { host with macros := host.macros ++ [definition] } (.macroTaken definition.name) := by
  unfold Host.register at h
  split at h
  · cases h
  · split at h
    · cases h
    · exact (Except.ok.inj h).symm

theorem macroBlock_eq (run : Run) (block : MacroBlock) :
    session.macroBlock run block = run.taking (session.verdict run block) := by
  unfold macroBlock verdict offered
  split
  · rfl
  · cases hdefinition : session.macroDef block with
    | error fault => rfl
    | ok definition =>
      have hname : definition.name = block.name := by
        obtain ⟨_, -, rfl, -⟩ := macroDef_eq_ok.1 hdefinition
        rfl
      simp only [halted, Except.mapError, ok_bind]
      cases hregister : run.world.host.register definition with
      | error refusal => rfl
      | ok host =>
        rw [register_eq_ok hregister, ← hname]
        rfl

/-- Two runs in which the same names are taken by macros, with hosts that answer macros alike. -/
structure SameNames (run other : Run) : Prop where
  known : ∀ name, name ∈ run.macros ↔ name ∈ other.macros
  taken : ∀ name, name ∈ run.world.host.macros.map (·.name) ↔ name ∈ other.world.host.macros.map (·.name)
  answer : run.world.host.settings.macroAnswer = other.world.host.settings.macroAnswer

theorem register_congr {host other : Host} (htaken : ∀ name, name ∈ host.macros.map (·.name) ↔
    name ∈ other.macros.map (·.name)) (hanswer : host.settings.macroAnswer = other.settings.macroAnswer)
    (definition : MacroDef) :
    (host.register definition).map (fun _ => definition) = (other.register definition).map fun _ => definition := by
  have hany : host.macros.any (·.name = definition.name) = other.macros.any (·.name = definition.name) := by
    rw [Bool.eq_iff_iff, any_name_iff, any_name_iff]
    exact htaken definition.name
  unfold Host.register
  rw [hanswer, hany]
  cases other.settings.macroAnswer with
  | some refusal => rfl
  | none =>
    simp only
    split <;> rfl

variable {session} {run other next : Run}

/-- **What is made of a block depends on names and answers alone**, as far as runs and hosts are concerned; as far as
sessions are, on the catalog and the strictness. -/
theorem verdict_congr {later : Session} (hcatalog : session.catalog = later.catalog)
    (hstrict : session.strict = later.strict) (h : SameNames run other) (block : MacroBlock) :
    session.offered run block = later.offered other block ∧
      session.verdict run block = later.verdict other block := by
  have hoffered : session.offered run block = later.offered other block := by
    have hcontains : run.macros.contains block.name = other.macros.contains block.name := by
      rw [Bool.eq_iff_iff, List.contains_iff_mem, List.contains_iff_mem]
      exact h.known block.name
    rw [offered, offered, hcontains, macroDef_congr hcatalog hstrict]
  refine ⟨hoffered, ?_⟩
  unfold verdict
  simp only [hoffered, register_congr h.taken h.answer]

/-! ## Scripts with and without their macros -/

theorem item_behind (earlier : List HostEvent) (run : Run) (i : Item) :
    session.item (run.recast (.behind earlier)) i =
      ((session.item run i).map (Run.recast (.behind earlier))).mapError (Halted.recast (.behind earlier)) := by
  cases i with
  | step s => exact session.item_recast run s
  | macroBlock block =>
    show session.macroBlock _ block = ((session.macroBlock run block).map _).mapError _
    have hnames : SameNames (run.recast (.behind earlier)) run := ⟨fun _ => Iff.rfl, fun _ => Iff.rfl, rfl⟩
    rw [macroBlock_eq, macroBlock_eq, (verdict_congr rfl rfl hnames block).2]
    cases session.verdict run block with
    | error fault => rfl
    | ok definition =>
      simp only [Run.taking, Run.recast, World.recast, Host.recast, Host.record, Recast.behind, Except.map,
        Except.mapError, List.append_assoc, id]

theorem items_behind (earlier : List HostEvent) (is : List Item) (run : Run) :
    is.foldlM session.item (run.recast (.behind earlier)) =
      ((is.foldlM session.item run).map (Run.recast (.behind earlier))).mapError
        (Halted.recast (.behind earlier)) := by
  have hall := foldlM_of_hom (a := id) (@item_behind session earlier) is run
  rwa [List.map_id] at hall

/-- What a block leaves is seen in the macros alone. -/
theorem macroBlock_apart (macros : List MacroDef) (known : List Text) {block : MacroBlock}
    (h : session.macroBlock run block = .ok next) :
    next.recast (.apart macros known) = run.recast (.apart macros known) := by
  rw [macroBlock_eq] at h
  cases hverdict : session.verdict run block with
  | error fault => rw [hverdict] at h; cases h
  | ok definition =>
    rw [hverdict] at h
    cases h
    simp only [Run.recast, World.recast, Host.recast, Host.record, Recast.apart, List.filter_append,
      HostEvent.isMacroTaken, List.filter_cons, List.filter_nil, Bool.not_true, Bool.false_eq_true, if_false,
      List.append_nil]

/-- **Items without the macros among them** run as before, apart from what macros leave. -/
theorem items_apart (macros : List MacroDef) (known : List Text) : ∀ {is : List Item} {run next : Run},
    is.foldlM session.item run = .ok next →
    (is.filter (·.isStep)).foldlM session.item (run.recast (.apart macros known)) =
      .ok (next.recast (.apart macros known))
  | [], run, next, h => by
    rw [List.foldlM_nil, pure_eq_ok] at h
    rw [h]
    rfl
  | i :: is, run, next, h => by
    rw [List.foldlM_cons, bind_eq_ok] at h
    obtain ⟨mid, hmid, h⟩ := h
    have hrest := items_apart macros known h
    cases i with
    | step s =>
      rw [List.filter_cons_of_pos rfl, List.foldlM_cons, item_recast, hmid]
      exact hrest
    | macroBlock block =>
      rw [List.filter_cons_of_neg Bool.false_ne_true, ← macroBlock_apart macros known hmid]
      exact hrest

/-- A run without the macros among its items: the same in all that is not about macros. -/
theorem exists_bare {world : World} {is : List Item} (h : is.foldlM session.item (session.start world) = .ok next) :
    ∃ told : List HostEvent, next.world.host.events = world.host.events ++ told ∧
      (is.filter (·.isStep)).foldlM session.item (session.start world) = .ok
        { next with
          world := { next.world with host := { next.world.host with
            macros := world.host.macros
            events := world.host.events ++ told.filter (!·.isMacroTaken) } }
          macros := session.macros } := by
  -- the run is that of a world in which nothing was told before, with the earlier events put in front
  let silent : World := { world with host := { world.host with events := [] } }
  have hstart : session.start world = (session.start silent).recast (.behind world.host.events) := by
    simp only [start, Run.recast, World.recast, Host.recast, Recast.behind, silent, List.append_nil, id]
  rw [hstart, items_behind] at h ⊢
  cases hsilent : is.foldlM session.item (session.start silent) with
  | error stopped => rw [hsilent] at h; cases h
  | ok last =>
    rw [hsilent] at h
    cases h
    refine ⟨last.world.host.events, rfl, ?_⟩
    have hapart : (session.start silent).recast (.apart world.host.macros session.macros) = session.start silent := rfl
    have hbare := items_apart world.host.macros session.macros hsilent
    rw [hapart] at hbare
    rw [hbare]
    rfl

theorem exists_run_of_resume {world : World} {text : Text} {handles : List Nat}
    (h : (session.resume world text).result = .ok handles) :
    ∃ is run, Script.read text = .ok is ∧ is.foldlM session.item (session.start world) = .ok run ∧
      session.resume world text =
        ⟨.ok handles, { session with sheets := run.scope, macros := run.macros }, run.world⟩ ∧
      run.created = handles := by
  cases hread : Script.read text with
  | error fault => rw [resume, runItems, hread] at h; cases h
  | ok is =>
    rw [resume_of_read session hread] at h ⊢
    cases hrun : is.foldlM session.item (session.start world) with
    | error stopped => rw [hrun] at h; cases h
    | ok run =>
      rw [hrun] at h
      cases h
      exact ⟨is, run, rfl, hrun, rfl, rfl⟩

/-- **Macros are isolated.**  If a script succeeds, then so do its items without the macros among them, with the same
handles, sheets and objects, and the host is told the same but for the macros.  And what is handed to the host for a
block, and whether it is taken, is the same in any two runs of sessions with one catalog and one strictness in which
the same names are taken and the hosts answer macros alike, whatever sheets and objects there are. -/
theorem macros_isolated :
    (∀ (session : Session) (world : World) (text : Text) (handles : List Nat),
      (session.resume world text).result = .ok handles →
      ∃ is bare told, Script.read text = .ok is ∧
        (is.filter (·.isStep)).foldlM session.item (session.start world) = .ok bare ∧
        bare.created = handles ∧ bare.scope = (session.resume world text).session.sheets ∧
        bare.world.host.objects = (session.resume world text).world.host.objects ∧
        (session.resume world text).world.host.events = world.host.events ++ told ∧
        bare.world.host.events = world.host.events ++ told.filter (!·.isMacroTaken)) ∧
    ∀ (session later : Session) (run other : Run) (block : MacroBlock), session.catalog = later.catalog →
      session.strict = later.strict → SameNames run other →
      session.macroBlock run block = run.taking (session.verdict run block) ∧
        later.macroBlock other block = other.taking (later.verdict other block) ∧
        session.offered run block = later.offered other block ∧
        session.verdict run block = later.verdict other block := by
  refine ⟨fun session world text handles h => ?_, fun session later run other block hcatalog hstrict hnames => ?_⟩
  · obtain ⟨is, run, hread, hrun, hresume, hhandles⟩ := exists_run_of_resume h
    obtain ⟨told, htold, hbare⟩ := exists_bare hrun
    rw [hresume]
    exact ⟨is, _, told, hread, hbare, hhandles, rfl, rfl, htold, rfl⟩
  · exact ⟨session.macroBlock_eq run block, later.macroBlock_eq other block,
      verdict_congr hcatalog hstrict hnames block⟩

/-- A macro with a sheet of its own that has the name of one outside; and a macro that uses a sheet from outside. -/
theorem macros_isolated_sameSheetName :
    let text : Text := "@s = \x7b caption: out \x7d
@@macro M() \x7b
@s = \x7b caption: in \x7d
A @s = x
@@return A
\x7d
B @s = y"
    let told : List HostEvent := [.macroTaken "M", .created "B", .element "B" "caption" (.table [("val", "out")]),
      .finished "B", .recomputed]
    let scope : Scope := OrderedMap.ofList [("s", StyleSheet.named "s")]
    let block : MacroBlock := ⟨"M", [], ["A"], [.statement ⟨[⟨"A", {}⟩], [.named "s" ⟨2, 3⟩], "x", ⟨2, 1⟩⟩],
      "A @s = x
@@return A", ⟨1, 1⟩⟩
    (Session.resume {} {} text).result = .ok [0] ∧ (Session.resume {} {} text).world.host.events = told ∧
      (∃ is bare, Script.read text = .ok is ∧
        (is.filter (·.isStep)).foldlM (Session.item {}) (Session.start {} {}) = .ok bare ∧
        bare.world.host.events = told.tail) ∧
      Session.verdict { sheets := scope } (Session.start { sheets := scope } {}) block =
        .error (.located (.undefinedSheet "s") ⟨2, 3⟩) := by
  intro text told scope block
  obtain ⟨hresult, htold⟩ : (Session.resume {} {} text).result = .ok [0] ∧
      (Session.resume {} {} text).world.host.events = told := by decide +kernel
  obtain ⟨is, bare, more, hread, hbare, -, -, -, hmore, hevents⟩ := macros_isolated.1 {} {} text [0] hresult
  have hsame : SameNames (Session.start {} {}) (Session.start { sheets := scope } {}) :=
    ⟨fun _ => Iff.rfl, fun _ => Iff.rfl, rfl⟩
  obtain ⟨-, -, -, hverdict⟩ := macros_isolated.2 {} { sheets := scope } _ _ block rfl rfl hsame
  refine ⟨hresult, htold, ⟨is, bare, hread, hbare, ?_⟩, ?_⟩
  · have hmore : more = told := hmore.symm.trans htold
    rw [hevents, hmore]
    decide +kernel
  · rw [← hverdict]
    decide +kernel

end Session
end StyleScript
