import StyleScript.Session
import StyleScript.Proofs.Delivery.Told
import StyleScript.Proofs.Script.Joined
/-!
# Running two scripts as one

A script behind another one runs as if the session went on with it, up to the lines of its failures.  An item does
the same wherever it stands, except for the place of its failure (`item_moved`), and it only adds to the handles that
were there before; so the items of the second script behave in the run of the first as in a run of their own.  What a
delivery fails with has no place before the statement gives it one, and so moves with the statement.
-/
namespace StyleScript

/-! ## Maps of results -/

section

variable {ε ε' α α' β β' : Type}

theorem mapError_bind (e : ε → ε') (x : Except ε α) (k : α → Except ε β) :
    (x >>= k).mapError e = x.mapError e >>= fun a => (k a).mapError e := by
  cases x <;> rfl

/-- A run over changed elements from a changed state is the changed run, if each step is. -/
theorem foldlM_of_hom {f : β → α → Except ε β} {g : β' → α' → Except ε' β'} {b : β → β'} {a : α → α'} {e : ε → ε'}
    (h : ∀ s x, g (b s) (a x) = ((f s x).map b).mapError e) : ∀ (xs : List α) (s : β),
    (xs.map a).foldlM g (b s) = ((xs.foldlM f s).map b).mapError e
  | [], _ => rfl
  | x :: xs, s => by
    rw [List.map_cons, List.foldlM_cons, List.foldlM_cons, h]
    cases f s x with
    | error _ => rfl
    | ok s => exact foldlM_of_hom h xs s

theorem foldlM_mapError {f : β → α → Except ε β} {g : β → α' → Except ε' β} {a : α → α'} {e : ε → ε'}
    (h : ∀ s x, g s (a x) = (f s x).mapError e) (xs : List α) (s : β) :
    (xs.map a).foldlM g s = (xs.foldlM f s).mapError e := by
  have hid := @foldlM_of_hom _ _ _ _ _ _ f g id a e (fun s x => by rw [Except.map_id]; exact h s x) xs s
  rwa [Except.map_id] at hid

end

/-- The failure with its place changed, in the same world. -/
def Halted.moved (f : Position → Position) (stopped : Halted) : Halted := ⟨stopped.fault.moved f, stopped.world⟩

namespace Session

open Script (Entry StyleRef Statement SheetDef Step MacroBlock Item)

variable {f : Position → Position} (session : Session)

/-! ## Moved sheets and macros -/

theorem formatAt_moved (name : Text) (p : Position) :
    session.formatAt name (f p) = (session.formatAt name p).mapError (Fault.moved f) := by
  unfold formatAt
  split
  · rfl
  · split <;> rfl

theorem entry_moved (sheet : StyleSheet) (e : Entry) :
    session.entry sheet (e.moved f) = (session.entry sheet e).mapError (Fault.moved f) := by
  obtain ⟨name, action, position⟩ := e
  unfold entry
  rw [mapError_bind, ← formatAt_moved]
  refine congrArg (session.formatAt name (f position) >>= ·) (funext fun format => ?_)
  cases action with
  | reset => rfl
  | set value =>
    simp only [Entry.moved]
    split <;> rfl

theorem sheetOf_moved (name : Text) (es : List Entry) :
    session.sheetOf name (es.map (Entry.moved f)) = (session.sheetOf name es).mapError (Fault.moved f) :=
  foldlM_mapError session.entry_moved es (.named name)

theorem resolve_moved (scope : Scope) (style : StyleRef) :
    session.resolve scope (style.moved f) = (session.resolve scope style).mapError (Fault.moved f) := by
  unfold resolve
  cases style with
  | named name position =>
    simp only [StyleRef.moved]
    split <;> rfl
  | inline es => exact session.sheetOf_moved [] es

theorem styleOf_moved (scope : Scope) (styles : List StyleRef) :
    session.styleOf scope (styles.map (StyleRef.moved f)) =
      (session.styleOf scope styles).mapError (Fault.moved f) := by
  unfold styleOf
  rw [List.isEmpty_map]
  split
  · rfl
  · have hstep : ∀ (merged : StyleSheet) (style : StyleRef),
        (do return merged.merge (← session.resolve scope (style.moved f)) : Except Fault StyleSheet) =
          (do return merged.merge (← session.resolve scope style) : Except Fault StyleSheet).mapError
            (Fault.moved f) := by
      intro merged style
      rw [resolve_moved]
      cases session.resolve scope style <;> rfl
    rw [mapError_bind, foldlM_mapError hstep]
    rfl

theorem define_moved (scope : Scope) (definition : SheetDef) :
    session.define scope (definition.moved f) = (session.define scope definition).mapError (Fault.moved f) := by
  unfold define
  rw [mapError_bind, ← sheetOf_moved]
  rfl

theorem bodyStep_moved (body : Body) (s : Step) :
    session.bodyStep body (s.moved f) = (session.bodyStep body s).mapError (Fault.moved f) := by
  cases s with
  | sheet definition =>
    show (session.define body.1 (definition.moved f) >>= fun scope => pure (scope, body.2)) = _
    rw [define_moved, bodyStep, mapError_bind]
    rfl
  | statement s =>
    show (session.styleOf body.1 (s.styles.map (StyleRef.moved f)) >>= fun style =>
      pure (body.1, body.2 ++ [⟨s.creation, style⟩])) = _
    rw [styleOf_moved, bodyStep, mapError_bind]
    rfl

theorem macroDef_moved (block : MacroBlock) :
    session.macroDef (block.moved f) = (session.macroDef block).mapError (Fault.moved f) := by
  unfold macroDef
  rw [mapError_bind, ← foldlM_mapError session.bodyStep_moved]
  refine congrArg (_ >>= ·) (funext fun body => ?_)
  simp only [MacroBlock.moved]
  split <;> rfl

/-! ## Moved items, behind those of before -/

/-- The run with handles from before it. -/
def Run.behind (earlier : List Nat) (run : Run) : Run := { run with created := earlier ++ run.created }

theorem halted_mapError {α : Type} (world : World) (x : Except Fault α) :
    halted world (x.mapError (Fault.moved f)) = (halted world x).mapError (Halted.moved f) := by
  cases x <;> rfl

theorem statement_moved (earlier : List Nat) (run : Run) (s : Statement) :
    session.statement (run.behind earlier) (s.moved f) =
      ((session.statement run s).map (Run.behind earlier)).mapError (Halted.moved f) := by
  unfold statement
  have hstyle : halted run.world (session.styleOf run.scope (s.moved f).styles) =
      (halted run.world (session.styleOf run.scope s.styles)).mapError (Halted.moved f) := by
    rw [← halted_mapError, ← styleOf_moved]
    rfl
  simp only [Run.behind]
  rw [hstyle]
  cases halted run.world (session.styleOf run.scope s.styles) with
  | error stopped => rfl
  | ok style =>
    have hcreation : (s.moved f).creation = s.creation := rfl
    simp only [hcreation, bind, Except.bind, Except.mapError]
    cases run.world.host.create s.creation with
    | error reason => rfl
    | ok created =>
      obtain ⟨host, handles⟩ := created
      simp only
      cases hdelivery : (style.map (Delivery.sheet session.catalog { run.world with host } handles)).getD
          (.ok { run.world with host }) with
      | ok world => simp only [pure, Except.pure, Except.map, Run.behind, List.append_assoc]
      | error stopped =>
        cases style with
        | none => cases hdelivery
        | some style =>
          obtain ⟨-, -, -, -, -, -, -, reason, hfault⟩ := Delivery.sheet_eq_error hdelivery
          simp only [Except.map, hfault]
          rfl

theorem macroBlock_moved (earlier : List Nat) (run : Run) (block : MacroBlock) :
    session.macroBlock (run.behind earlier) (block.moved f) =
      ((session.macroBlock run block).map (Run.behind earlier)).mapError (Halted.moved f) := by
  unfold macroBlock
  have hname : (block.moved f).name = block.name := rfl
  simp only [Run.behind, hname]
  split
  · rfl
  · rw [macroDef_moved, halted_mapError]
    cases halted run.world (session.macroDef block) with
    | error stopped => rfl
    | ok definition =>
      simp only [bind, Except.bind, Except.mapError]
      cases run.world.host.register definition <;> rfl

/-- **A moved item does the same**, but for the place of its failure. -/
theorem item_moved (earlier : List Nat) (run : Run) (i : Item) :
    session.item (run.behind earlier) (i.moved f) =
      ((session.item run i).map (Run.behind earlier)).mapError (Halted.moved f) := by
  match i with
  | .step (.sheet definition) =>
    show (halted run.world (session.define run.scope (definition.moved f)) >>= fun scope =>
      pure { run.behind earlier with scope }) = ((halted run.world (session.define run.scope definition) >>=
        fun scope => pure { run with scope }).map (Run.behind earlier)).mapError (Halted.moved f)
    rw [define_moved, halted_mapError]
    cases halted run.world (session.define run.scope definition) <;> rfl
  | .step (.statement s) => exact session.statement_moved earlier run s
  | .macroBlock block => exact session.macroBlock_moved earlier run block

/-! ## Scripts -/

theorem resume_of_read {world : World} {text : Text} {is : List Item} (h : Script.read text = .ok is) :
    session.resume world text =
      match is.foldlM session.item (session.start world) with
      | .ok run => ⟨.ok run.created, { session with sheets := run.scope, macros := run.macros }, run.world⟩
      | .error stopped => ⟨.error stopped.fault, session, stopped.world⟩ := by
  rw [resume, runItems, h]
  rfl

/-- **Two scripts that are read are one script**: it has the items of the first and then those of the second, further
down; and to go on with it is to go on with the first and, if that went well, with the second.  If the second fails,
what the first defined is forgotten with it, and what the host was told stays. -/
theorem resume_joined {first second : Text} {is js : List Item} (hfirst : Script.read first = .ok is)
    (hsecond : Script.read second = .ok js) :
    Script.read (first ++ '\n' :: second) = .ok (is ++ js.map (Item.moved (·.down (Script.linesOf first)))) ∧
    ∀ (session : Session) (world : World), session.resume world (first ++ '\n' :: second) =
      match session.resume world first with
      | ⟨.error fault, after, left⟩ => ⟨.error fault, after, left⟩
      | ⟨.ok handles, between, left⟩ =>
        match between.resume left second with
        | ⟨.ok more, after, left⟩ => ⟨.ok (handles ++ more), after, left⟩
        | ⟨.error fault, _, left⟩ => ⟨.error (fault.moved (·.down (Script.linesOf first))), session, left⟩ := by
  have hjoined := Script.read_joined hfirst hsecond
  refine ⟨hjoined, fun session world => ?_⟩
  rw [resume_of_read session hjoined, resume_of_read session hfirst, List.foldlM_append]
  cases is.foldlM session.item (session.start world) with
  | error stopped => rfl
  | ok run =>
    obtain ⟨left, scope, macros, handles⟩ := run
    simp only [bind, Except.bind]
    rw [resume_of_read _ hsecond]
    have hgo := foldlM_of_hom (session.item_moved (f := (·.down (Script.linesOf first))) handles) js
      ⟨left, scope, macros, []⟩
    have hbehind : Run.behind handles ⟨left, scope, macros, []⟩ = ⟨left, scope, macros, handles⟩ := by
      rw [Run.behind, List.append_nil]
    rw [hbehind] at hgo
    rw [hgo]
    -- what the first script defined is known to the second as a run and as a session
    have hsession : js.foldlM ({ session with sheets := scope, macros := macros } : Session).item
        (Session.start { session with sheets := scope, macros := macros } left) =
        js.foldlM session.item ⟨left, scope, macros, []⟩ := rfl
    rw [hsession]
    cases js.foldlM session.item ⟨left, scope, macros, []⟩ <;> rfl

/-- The second of two scripts has its failure on its own line of the joined one, behind what the first one did. -/
theorem resume_joined_undefinedSheet :
    let joined : Text := "A = x\nB @s = y"
    Script.read joined = .ok [.step (.statement ⟨[⟨"A", {}⟩], [], "x", ⟨1, 1⟩⟩),
      .step (.statement ⟨[⟨"B", {}⟩], [.named "s" ⟨2, 3⟩], "y", ⟨2, 1⟩⟩)] ∧
    (Session.resume {} {} joined).result = .error (.located (.undefinedSheet "s") ⟨2, 3⟩) ∧
    (Session.resume {} {} joined).world.host.events = [.created "A"] := by
  intro joined
  have hfirst : Script.read "A = x" = .ok [.step (.statement ⟨[⟨"A", {}⟩], [], "x", ⟨1, 1⟩⟩)] := by decide +kernel
  have hsecond : Script.read "B @s = y" =
      .ok [.step (.statement ⟨[⟨"B", {}⟩], [.named "s" ⟨1, 3⟩], "y", ⟨1, 1⟩⟩)] := by decide +kernel
  obtain ⟨hread, hrun⟩ := resume_joined hfirst hsecond
  have hjoined : ("A = x" : Text) ++ '\n' :: ("B @s = y" : Text) = joined := by decide
  rw [hjoined] at hread hrun
  refine ⟨hread, ?_⟩
  rw [hrun {} {}]
  decide +kernel

end Session
end StyleScript
