import StyleScript.Proofs.Script.Macros
import StyleScript.Proofs.Session.Failure
import StyleScript.Proofs.StyleSheet.History
/-!
# The macros a host has taken

A body is followed step by step in a scope of its own, so that what a style means there depends on the steps before
it and on nothing else (`Means`, `bodyOf_foldlM`).  An item gives the host at most one definition, that of its block
under a name that is new to the host (`macros_of_item`).  A script therefore only adds to the macros, be it read or
not and wherever it stops (`grows_of_resume`), and so does every row of requests; a session forgets names and never
learns one that the host does not have (`macros_permanent`).
-/
namespace StyleScript

namespace Session

open Script (Entry StyleRef Statement SheetDef Step MacroBlock Item HasMacro)

/-! ## Bodies -/

section

variable (session : Session)

/-- What a style means behind some steps: the last sheet of its name that they define, or what its entries say. -/
inductive Means (before : List Step) : StyleRef → StyleSheet → Prop
  | named {name : Text} {position : Position} {earlier later : List Step} {definition : SheetDef} {sheet : StyleSheet}
    (split : before = earlier ++ .sheet definition :: later) (called : definition.name = name)
    (last : ∀ d, Step.sheet d ∈ later → d.name ≠ name)
    (reads : session.sheetOf name definition.entries = .ok sheet) : Means before (.named name position) sheet
  | inline {es : List Entry} {sheet : StyleSheet} (reads : session.sheetOf [] es = .ok sheet) :
    Means before (.inline es) sheet

/-- A statement of a body as its macro keeps it, with a style if it has styles: what these mean behind the steps
before it, merged from left to right. -/
structure Keeps (before : List Step) (s : Statement) (kept : MacroStatement) : Prop where
  creation : kept.creation = s.creation
  style : s.styles = [] ∧ kept.style = none ∨ s.styles ≠ [] ∧
    ∃ sheets, List.Forall₂ (session.Means before) s.styles sheets ∧ kept.style = some (StyleSheet.merged sheets)

/-- What is known of a body behind some of its steps. -/
structure BodyOf (done : List Step) (body : Body) : Prop where
  scope : ∀ {name sheet}, OrderedMap.get? body.1 name = some sheet →
    ∀ position, session.Means done (.named name position) sheet
  statements : ∀ kept ∈ body.2, ∃ before s after, done = before ++ .statement s :: after ∧ session.Keeps before s kept

variable {session} {done : List Step} {body next : Body}

theorem Means.concat {name : Text} {position : Position} {sheet : StyleSheet}
    (h : session.Means done (.named name position) sheet) {s : Step} (hs : ∀ d, s = .sheet d → d.name ≠ name) :
    session.Means (done ++ [s]) (.named name position) sheet := by
  cases h with
  | @named _ _ earlier later definition _ split called last reads =>
    have hsplit : done ++ [s] = earlier ++ .sheet definition :: (later ++ [s]) := by
      rw [split, List.append_assoc, List.cons_append]
    refine .named hsplit called (fun d hd => ?_) reads
    rcases List.mem_append.1 hd with hd | hd
    · exact last d hd
    · exact hs d (List.mem_singleton.1 hd).symm

theorem BodyOf.means (h : session.BodyOf done body) {style : StyleRef} {sheet : StyleSheet}
    (hsheet : session.resolve body.1 style = .ok sheet) : session.Means done style sheet := by
  unfold resolve at hsheet
  cases style with
  | named name position =>
    simp only at hsheet
    split at hsheet
    · next hget =>
      cases hsheet
      exact h.scope hget position
    · cases hsheet
  | inline es => exact .inline hsheet

theorem BodyOf.keeps (h : session.BodyOf done body) {s : Statement} {style : Option StyleSheet}
    (hstyle : session.styleOf body.1 s.styles = .ok style) : session.Keeps done s ⟨s.creation, style⟩ := by
  refine ⟨rfl, ?_⟩
  rw [styleOf_eq] at hstyle
  split at hstyle
  · next hnone =>
    cases hstyle
    exact .inl ⟨List.isEmpty_iff.1 hnone, rfl⟩
  · next hsome =>
    obtain ⟨sheets, hsheets, rfl⟩ := map_eq_ok.1 hstyle
    exact .inr ⟨mt List.isEmpty_iff.2 hsome, sheets, (mapM_eq_ok_iff.1 hsheets).imp fun _ _ => h.means, rfl⟩

theorem bodyOf_step (h : session.BodyOf done body) {s : Step} (hnext : session.bodyStep body s = .ok next) :
    session.BodyOf (done ++ [s]) next := by
  have hkept : ∀ kept ∈ body.2, ∃ before t after, done ++ [s] = before ++ .statement t :: after ∧
      session.Keeps before t kept := by
    intro kept hmem
    obtain ⟨before, t, after, rfl, hkeeps⟩ := h.statements kept hmem
    exact ⟨before, t, after ++ [s], by rw [List.append_assoc, List.cons_append], hkeeps⟩
  cases s with
  | sheet definition =>
    simp only [bodyStep, define, bind_eq_ok, pure_eq_ok] at hnext
    obtain ⟨_, ⟨sheet, hsheet, rfl⟩, rfl⟩ := hnext
    refine ⟨fun {name found} hget position => ?_, hkept⟩
    rw [OrderedMap.get?_set] at hget
    split at hget
    · next hname =>
      cases hget
      subst hname
      exact @Means.named _ _ _ _ done [] _ _ rfl rfl (fun _ hd => absurd hd List.not_mem_nil) hsheet
    · next hname =>
      exact (h.scope hget position).concat fun d hd => Step.sheet.inj hd ▸ hname
  | statement s =>
    simp only [bodyStep, bind_eq_ok, pure_eq_ok] at hnext
    obtain ⟨style, hstyle, rfl⟩ := hnext
    refine ⟨fun hget position => (h.scope hget position).concat (fun d hd => by cases hd), fun kept hmem => ?_⟩
    rcases List.mem_append.1 hmem with hmem | hmem
    · exact hkept kept hmem
    · cases List.mem_singleton.1 hmem
      exact ⟨done, s, [], rfl, h.keeps hstyle⟩

theorem bodyOf_foldlM : ∀ (steps : List Step) {done : List Step} {body after : Body}, session.BodyOf done body →
    steps.foldlM session.bodyStep body = .ok after → session.BodyOf (done ++ steps) after
  | [], done, body, _, h, hafter => by
    rw [List.foldlM_nil, pure_eq_ok] at hafter
    rwa [List.append_nil, ← hafter]
  | s :: steps, done, body, _, h, hafter => by
    rw [List.foldlM_cons, bind_eq_ok] at hafter
    obtain ⟨next, hnext, hafter⟩ := hafter
    have hrest := bodyOf_foldlM steps (bodyOf_step h hnext) hafter
    rwa [List.append_assoc] at hrest

end

/-! ## Definitions -/

/-- What a host may rely on in a definition that was made of a block. -/
structure Sound (session : Session) (block : MacroBlock) (definition : MacroDef) : Prop where
  name : definition.name = block.name
  inputs : definition.inputs = block.inputs
  outputs : definition.outputs = block.outputs
  source : definition.source = block.source
  returns : definition.outputs ≠ []
  inputsAssigned : ∀ l ∈ definition.inputs, l ∈ definition.assigned
  outputsAssigned : ∀ l ∈ definition.outputs, l ∈ definition.assigned
  /-- Every style is merged from sheets that the body itself defines and from inline ones. -/
  styles : ∀ kept ∈ definition.statements, ∃ before s after, block.body = before ++ .statement s :: after ∧
    session.Keeps before s kept

theorem macroDef_eq_ok {session : Session} {block : MacroBlock} {definition : MacroDef} :
    session.macroDef block = .ok definition ↔
      ∃ body, block.body.foldlM session.bodyStep (OrderedMap.empty, []) = .ok body ∧
        definition = ⟨block.name, block.inputs, block.outputs, body.2, body.1.values, block.source⟩ ∧
        definition.validate = .ok () := by
  simp only [macroDef, bind_eq_ok]
  refine exists_congr fun body => and_congr_right fun _ => ?_
  split
  · next hvalid =>
    rw [pure_eq_ok, eq_comm]
    exact (and_iff_left_of_imp fun heq => heq ▸ hvalid).symm
  · next hinvalid =>
    refine ⟨fun h => (nomatch h), ?_⟩
    rintro ⟨rfl, hvalid⟩
    exact nomatch hinvalid.symm.trans hvalid

theorem sound_of_macroDef {session : Session} {text : Text} {block : MacroBlock} {definition : MacroDef}
    (hblock : HasMacro text block) (h : session.macroDef block = .ok definition) : session.Sound block definition := by
  obtain ⟨body, hbody, rfl, hvalid⟩ := macroDef_eq_ok.1 h
  obtain ⟨hinputs, houtputs⟩ := MacroDef.validate_eq_ok.1 hvalid
  have hnew : session.BodyOf [] (OrderedMap.empty, []) := ⟨(fun hget => nomatch hget), fun _ hmem => nomatch hmem⟩
  exact ⟨rfl, rfl, rfl, rfl, hblock.outputs_ne_nil, hinputs, houtputs, (bodyOf_foldlM _ hnew hbody).statements⟩

/-- A definition depends on the catalog and on whether unknown properties are refused, but on nothing else that a
session knows. -/
theorem macroDef_congr {a b : Session} (hcatalog : a.catalog = b.catalog) (hstrict : a.strict = b.strict)
    (block : MacroBlock) : a.macroDef block = b.macroDef block := by
  obtain ⟨catalog, strict, _, _⟩ := a
  obtain ⟨_, _, _, _⟩ := b
  cases hcatalog
  cases hstrict
  rfl

/-! ## Items -/

/-- From one row of macros to a later one definitions of some kind were added at the end, under new names. -/
structure Grows (taken : MacroDef → Prop) (before after : List MacroDef) : Prop where
  kept : before <+: after
  taken : ∀ m ∈ after, m ∈ before ∨ taken m
  unique : (before.map (·.name)).Nodup → (after.map (·.name)).Nodup

section

variable {taken : MacroDef → Prop} {a b c : List MacroDef}

theorem Grows.refl (taken : MacroDef → Prop) (a : List MacroDef) : Grows taken a a :=
  ⟨List.prefix_refl a, fun _ hm => .inl hm, id⟩

theorem Grows.trans (h : Grows taken a b) (k : Grows taken b c) : Grows taken a c :=
  ⟨h.kept.trans k.kept, fun m hm => (k.taken m hm).elim (h.taken m) .inr, k.unique ∘ h.unique⟩

theorem Grows.mono {finer : MacroDef → Prop} (h : Grows finer a b) (hfiner : ∀ m, finer m → taken m) :
    Grows taken a b :=
  ⟨h.kept, fun m hm => (h.taken m hm).imp_right (hfiner m), h.unique⟩

theorem Grows.names (h : Grows taken a b) {name : Text} (hname : name ∈ a.map (·.name)) : name ∈ b.map (·.name) :=
  (h.kept.map _).subset hname

end

theorem any_name_iff {macros : List MacroDef} {name : Text} :
    macros.any (·.name = name) ↔ name ∈ macros.map (·.name) := by
  rw [List.any_eq_true, List.mem_map]
  exact exists_congr fun m => and_congr_right fun _ => decide_eq_true_iff

theorem grows_of_register {host after : Host} {definition : MacroDef} (h : host.register definition = .ok after) :
    Grows (· = definition) host.macros after.macros ∧ definition ∈ after.macros := by
  unfold Host.register at h
  split at h
  · cases h
  · split at h
    · cases h
    · next hnew =>
      cases h
      refine ⟨⟨List.prefix_append .., fun m hm => (List.mem_append.1 hm).imp_right List.mem_singleton.1,
        fun hunique => ?_⟩, List.mem_append_right _ List.mem_cons_self⟩
      show ((host.macros ++ [definition]).map (·.name)).Nodup
      rw [List.map_append]
      refine List.nodup_append.2 ⟨hunique, List.pairwise_singleton _ _, ?_⟩
      rintro name hname _ hlast rfl
      have hlast : name = definition.name := List.mem_singleton.1 hlast
      exact hnew (any_name_iff.2 (hlast ▸ hname))

variable {session : Session}

theorem macros_of_statement {run next : Run} {s : Statement} (h : session.statement run s = .ok next) :
    next.world.host.macros = run.world.host.macros ∧ next.macros = run.macros := by
  simp only [statement, bind_eq_ok] at h
  obtain ⟨style, -, h⟩ := h
  split at h
  · cases h
  · next host handles hcreate =>
    obtain ⟨rfl, -⟩ := Host.create_eq_ok hcreate
    split at h
    · next world hworld =>
      cases pure_eq_ok.1 h
      refine ⟨?_, rfl⟩
      cases style with
      | none => cases hworld; rfl
      | some sheet => exact (Delivery.macros_of_sheet_eq_ok hworld).trans rfl
    · cases h

/-- A definition of one of these items. -/
def DefinedBy (session : Session) (is : List Item) (m : MacroDef) : Prop :=
  ∃ block, .macroBlock block ∈ is ∧ session.macroDef block = .ok m

/-- **An item gives the host its own definition, if any**, and whatever name the run then knows the host has too. -/
theorem grows_of_item {run next : Run} {i : Item} (h : session.item run i = .ok next) :
    Grows (session.DefinedBy [i]) run.world.host.macros next.world.host.macros ∧
      ∀ name ∈ next.macros, name ∈ run.macros ∨ name ∈ next.world.host.macros.map (·.name) := by
  match i with
  | .step (.sheet definition) =>
    simp only [item, bind_eq_ok, pure_eq_ok] at h
    obtain ⟨scope, -, rfl⟩ := h
    exact ⟨Grows.refl _ _, fun _ hname => .inl hname⟩
  | .step (.statement s) =>
    obtain ⟨hhost, hknown⟩ := macros_of_statement h
    rw [hhost, hknown]
    exact ⟨Grows.refl _ _, fun _ hname => .inl hname⟩
  | .macroBlock block =>
    simp only [item, macroBlock] at h
    split at h
    · cases h
    · simp only [bind_eq_ok] at h
      obtain ⟨definition, hdefinition, h⟩ := h
      have hdefinition := eq_ok_of_halted hdefinition
      split at h
      · next host hregister =>
        cases pure_eq_ok.1 h
        obtain ⟨hgrows, hmem⟩ := grows_of_register hregister
        refine ⟨hgrows.mono fun m hm => ⟨block, List.mem_cons_self, hm ▸ hdefinition⟩, fun name hname => ?_⟩
        refine (List.mem_cons.1 hname).symm.imp_right fun hname => ?_
        obtain ⟨_, -, heq, -⟩ := macroDef_eq_ok.1 hdefinition
        exact List.mem_map.2 ⟨definition, hmem, by rw [heq, hname]⟩
      · cases h

theorem grows_of_items : ∀ {is : List Item} {run next : Run}, is.foldlM session.item run = .ok next →
    Grows (session.DefinedBy is) run.world.host.macros next.world.host.macros ∧
      ∀ name ∈ next.macros, name ∈ run.macros ∨ name ∈ next.world.host.macros.map (·.name)
  | [], run, next, h => by
    rw [List.foldlM_nil, pure_eq_ok] at h
    subst h
    exact ⟨Grows.refl _ _, fun _ hname => .inl hname⟩
  | i :: is, run, next, h => by
    rw [List.foldlM_cons, bind_eq_ok] at h
    obtain ⟨mid, hmid, h⟩ := h
    obtain ⟨hone, hknown⟩ := grows_of_item hmid
    obtain ⟨hmore, hknown'⟩ := grows_of_items h
    have hfirst : ∀ m, session.DefinedBy [i] m → session.DefinedBy (i :: is) m := by
      rintro m ⟨block, hmem, hdef⟩
      exact ⟨block, List.mem_cons.2 (.inl (List.mem_singleton.1 hmem)), hdef⟩
    have hrest : ∀ m, session.DefinedBy is m → session.DefinedBy (i :: is) m := by
      rintro m ⟨block, hmem, hdef⟩
      exact ⟨block, List.mem_cons_of_mem i hmem, hdef⟩
    refine ⟨(hone.mono hfirst).trans (hmore.mono hrest), fun name hname => ?_⟩
    rcases hknown' name hname with hname | hname
    · exact (hknown name hname).imp_right hmore.names
    · exact .inr hname

/-! ## Scripts -/

/-- A definition that was made of a block of this script. -/
def DefinedIn (session : Session) (text : Text) (m : MacroDef) : Prop :=
  ∃ block, HasMacro text block ∧ session.macroDef block = .ok m

theorem macros_of_spoils {run : Run} {i : Item} {stopped : Halted} (h : Spoils run i stopped) :
    stopped.world.host.macros = run.world.host.macros := by
  cases h with
  | nothing _ => rfl
  | delivered half => exact half.macros

/-- **A script only adds to the macros, wherever it stops**, and names that it leaves known the host has. -/
theorem grows_of_resume (session : Session) (world : World) (text : Text) :
    Grows (session.DefinedIn text) world.host.macros (session.resume world text).world.host.macros ∧
      ∀ name ∈ (session.resume world text).session.macros,
        name ∈ session.macros ∨ name ∈ (session.resume world text).world.host.macros.map (·.name) := by
  have hdefined : ∀ {is more : List Item}, Script.read text = .ok (is ++ more) → ∀ m, session.DefinedBy is m →
      session.DefinedIn text m := by
    rintro is more hread m ⟨block, hmem, hdef⟩
    exact ⟨block, ⟨_, hread, List.mem_append_left _ hmem⟩, hdef⟩
  cases hresult : (session.resume world text).result with
  | error fault =>
    obtain ⟨hsession, hstops⟩ := stops_of_resume hresult
    rw [hsession]
    refine ⟨?_, fun name hname => .inl hname⟩
    generalize (session.resume world text).world = left at hstops
    cases hstops with
    | unread _ => exact Grows.refl _ _
    | failed read ran _ spoils =>
      rw [macros_of_spoils spoils]
      exact (grows_of_items ran).1.mono (hdefined read)
  | ok handles =>
    unfold resume runItems at hresult ⊢
    cases hread : Script.read text with
    | error fault => rw [hread] at hresult; cases hresult
    | ok is =>
      rw [hread] at hresult
      simp only [halted, Except.mapError, ok_bind] at hresult ⊢
      cases hrun : is.foldlM session.item (session.start world) with
      | error stopped => rw [hrun] at hresult; cases hresult
      | ok run =>
        obtain ⟨hgrows, hknown⟩ := grows_of_items hrun
        exact ⟨hgrows.mono (hdefined ((List.append_nil is).symm ▸ hread)), hknown⟩

theorem resume_settings (session : Session) (world : World) (text : Text) :
    (session.resume world text).session.catalog = session.catalog ∧
      (session.resume world text).session.strict = session.strict := by
  unfold resume
  split <;> exact ⟨rfl, rfl⟩

/-! ## Rows of requests -/

/-- What is asked of a session and its host. -/
inductive Request where
  /-- A script from the start. -/
  | run (text : Text)
  /-- A script on top of what the session knows. -/
  | resume (text : Text)
  /-- A sheet for some objects, by some catalog, with default styles of its own or those of the session. -/
  | deliver (catalog : Catalog) (styles : Option DefaultStyles) (handles : List Nat) (sheet : StyleSheet)

namespace Request

def script? : Request → Option Text
  | .run text => some text
  | .resume text => some text
  | .deliver .. => none

/-- The session and its world behind a request, whether it succeeded or not. -/
def answer (state : Session × World) : Request → Session × World
  | .run text => ((state.1.run state.2 text).session, (state.1.run state.2 text).world)
  | .resume text => ((state.1.resume state.2 text).session, (state.1.resume state.2 text).world)
  | .deliver catalog styles handles sheet =>
    let left := Delivery.left (Delivery.sheet catalog { state.2 with styles := styles.getD state.2.styles } handles sheet)
    (state.1, { left with styles := if styles.isSome then state.2.styles else left.styles })

def answers (state : Session × World) (requests : List Request) : Session × World := requests.foldl answer state

/-- A definition that was made of a block of one of the scripts. -/
def DefinedAmong (session : Session) (requests : List Request) (m : MacroDef) : Prop :=
  ∃ request ∈ requests, ∃ text ∈ request.script?, session.DefinedIn text m

/-- The session is a later one of `fresh`, and its host has the macros whose names it knows. -/
structure Follows (fresh : Session) (state : Session × World) : Prop where
  catalog : state.1.catalog = fresh.catalog
  strict : state.1.strict = fresh.strict
  known : ∀ name ∈ state.1.macros, name ∈ state.2.host.macros.map (·.name)

variable {fresh : Session} {state : Session × World}

theorem Follows.definedIn (h : Follows fresh state) {text : Text} {m : MacroDef}
    (hm : DefinedIn state.1 text m) : DefinedIn fresh text m := by
  obtain ⟨block, hblock, hdef⟩ := hm
  exact ⟨block, hblock, (macroDef_congr h.catalog h.strict block).symm.trans hdef⟩

theorem Follows.resume (h : Follows fresh state) (text : Text) :
    Grows (fresh.DefinedIn text) state.2.host.macros (state.1.resume state.2 text).world.host.macros ∧
      Follows fresh ((state.1.resume state.2 text).session, (state.1.resume state.2 text).world) := by
  obtain ⟨hgrows, hknown⟩ := grows_of_resume state.1 state.2 text
  obtain ⟨hcatalog, hstrict⟩ := resume_settings state.1 state.2 text
  refine ⟨hgrows.mono fun m hm => h.definedIn hm, hcatalog.trans h.catalog, hstrict.trans h.strict, fun name hname => ?_⟩
  exact (hknown name hname).elim (fun hname => hgrows.names (h.known name hname)) id

/-- **What one request does to the macros.** -/
theorem Follows.answer (h : Follows fresh state) (request : Request) :
    Grows (DefinedAmong fresh [request]) state.2.host.macros (request.answer state).2.host.macros ∧
      Follows fresh (request.answer state) := by
  have hscript : ∀ text ∈ request.script?, ∀ m, fresh.DefinedIn text m → DefinedAmong fresh [request] m :=
    fun text htext m hm => ⟨request, List.mem_cons_self, text, htext, hm⟩
  cases request with
  | run text =>
    have hcleared : Follows fresh (state.1.cleared, state.2) := ⟨h.catalog, h.strict, fun _ hname => nomatch hname⟩
    obtain ⟨hgrows, hfollows⟩ := hcleared.resume text
    exact ⟨hgrows.mono (hscript text rfl), hfollows⟩
  | resume text =>
    obtain ⟨hgrows, hfollows⟩ := h.resume text
    exact ⟨hgrows.mono (hscript text rfl), hfollows⟩
  | deliver catalog styles handles sheet =>
    have hmacros := Delivery.macros_of_left catalog { state.2 with styles := styles.getD state.2.styles } handles sheet
    refine ⟨?_, h.catalog, h.strict, fun name hname => ?_⟩
    · rw [Request.answer, hmacros]
      exact Grows.refl _ _
    · rw [Request.answer, hmacros]
      exact h.known name hname

theorem Follows.answers : ∀ {state : Session × World}, Follows fresh state → ∀ requests : List Request,
    Grows (DefinedAmong fresh requests) state.2.host.macros (answers state requests).2.host.macros ∧
      Follows fresh (answers state requests)
  | _, h, [] => ⟨Grows.refl _ _, h⟩
  | state, h, request :: requests => by
    obtain ⟨hone, hnext⟩ := h.answer request
    obtain ⟨hmore, hafter⟩ := hnext.answers requests
    have hfirst : ∀ m, DefinedAmong fresh [request] m → DefinedAmong fresh (request :: requests) m := by
      rintro m ⟨r, hr, hm⟩
      exact ⟨r, List.mem_cons.2 (.inl (List.mem_singleton.1 hr)), hm⟩
    have hrest : ∀ m, DefinedAmong fresh requests m → DefinedAmong fresh (request :: requests) m := by
      rintro m ⟨r, hr, hm⟩
      exact ⟨r, List.mem_cons_of_mem request hr, hm⟩
    exact ⟨(hone.mono hfirst).trans (hmore.mono hrest), hafter⟩

end Request

open Request (answers)

/-- **The macros of a host are sound, unique and permanent.**  Whatever is asked of a new session and a new host,
with success or not: the macros of the host only grow at their end, and no two have one name; each was made of a
block of one of the scripts, has outputs, assigns its inputs and outputs, and merges its styles from sheets of its own
body and inline ones; and the host has every macro whose name the session knows. -/
theorem macros_permanent (catalog : Catalog) (strict : Bool) (settings : HostSettings) (styles : DefaultStyles)
    (earlier later : List Request) :
    let fresh : Session := { catalog, strict }
    let before := answers (fresh, { host := { settings }, styles }) earlier
    let after := answers (fresh, { host := { settings }, styles }) (earlier ++ later)
    before.2.host.macros <+: after.2.host.macros ∧
      (after.2.host.macros.map (·.name)).Nodup ∧
      (∀ m ∈ after.2.host.macros, ∃ request ∈ earlier ++ later, ∃ text ∈ request.script?, ∃ block,
        HasMacro text block ∧ fresh.Sound block m) ∧
      ∀ name ∈ after.1.macros, name ∈ after.2.host.macros.map (·.name) := by
  intro fresh before after
  have hstart : Request.Follows fresh (fresh, { host := { settings }, styles }) :=
    ⟨rfl, rfl, fun _ hname => nomatch hname⟩
  obtain ⟨-, hbefore⟩ := hstart.answers earlier
  obtain ⟨hlater, -⟩ := hbefore.answers later
  obtain ⟨hgrows, hafter⟩ := hstart.answers (earlier ++ later)
  refine ⟨?_, hgrows.unique List.nodup_nil, fun m hm => ?_, hafter.known⟩
  · have happend : after = answers before later := List.foldl_append
    rw [happend]
    exact hlater.kept
  · obtain ⟨request, hrequest, text, htext, block, hblock, hdef⟩ := (hgrows.taken m hm).resolve_left (fun hm => nomatch hm)
    exact ⟨request, hrequest, text, htext, block, hblock, sound_of_macroDef hblock hdef⟩

end Session
end StyleScript
