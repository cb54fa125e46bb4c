import StyleScript.Delivery
import StyleScript.Script.Reader
/-!
# Running scripts

A session reads scripts and lets a host carry them out.  It keeps the global style sheets and the names of
the macros.  The items of a script run in order until one fails; then the session is as it was before, but
what the host was told stays.

The body of a macro runs in a scope of its own, and nothing of it reaches the host: its statements are kept
in the definition that is handed over.
-/
namespace StyleScript

/-- The sheets that a name may mean, by name. -/
abbrev Scope := OrderedMap Text StyleSheet

structure Session where
  catalog : Catalog := .standard
  /-- Unknown properties are refused. -/
  strict : Bool := false
  sheets : Scope := OrderedMap.empty
  macros : List Text := []

namespace Session

open Script (Entry StyleRef Statement SheetDef Step MacroBlock Item)

/-! ## Style sheets -/

/-- The format of a property at a place in a script. -/
def formatAt (session : Session) (name : Text) (position : Position) : Except Fault PropertyFormat :=
  match session.catalog.format? name with
  | some format => .ok format
  | none =>
    if session.strict then .error (.located (.unknownProperty name) position)
    else .ok (.unclaimed name)

def entry (session : Session) (sheet : StyleSheet) (e : Entry) : Except Fault StyleSheet := do
  let format ← session.formatAt e.name e.position
  match e.action with
  | .reset => return sheet.reset e.name
  | .set value =>
    match format.decode value with
    | .ok (some attrs) => return sheet.set e.name attrs
    | .ok none => return sheet
    | .error cause => .error (.located (.invalidValue e.name cause) e.position)

def sheetOf (session : Session) (name : Text) (entries : List Entry) : Except Fault StyleSheet :=
  entries.foldlM session.entry (.named name)

/-- The sheet that a style of a statement stands for. -/
def resolve (session : Session) (scope : Scope) : StyleRef → Except Fault StyleSheet
  | .named name position =>
    match OrderedMap.get? scope name with
    | some sheet => .ok sheet
    | none => .error (.located (.undefinedSheet name) position)
  | .inline entries => session.sheetOf [] entries

/-- The merged style of a statement, if it has styles. -/
def styleOf (session : Session) (scope : Scope) (styles : List StyleRef) :
    Except Fault (Option StyleSheet) :=
  if styles.isEmpty then .ok none
  else do
    let merged ← styles.foldlM
      (fun (merged : StyleSheet) ref => do return merged.merge (← session.resolve scope ref)) .inline
    return some merged

def define (session : Session) (scope : Scope) (definition : SheetDef) : Except Fault Scope := do
  return OrderedMap.set scope definition.name (← session.sheetOf definition.name definition.entries)

/-! ## Macros -/

/-- A scope, and the statements kept so far. -/
abbrev Body := Scope × List MacroStatement

def bodyStep (session : Session) (body : Body) : Step → Except Fault Body
  | .sheet definition => do return (← session.define body.1 definition, body.2)
  | .statement s => do return (body.1, body.2 ++ [⟨s.creation, ← session.styleOf body.1 s.styles⟩])

def macroDef (session : Session) (block : MacroBlock) : Except Fault MacroDef := do
  let (scope, statements) ← block.body.foldlM session.bodyStep (OrderedMap.empty, [])
  let definition : MacroDef :=
    ⟨block.name, block.inputs, block.outputs, statements, scope.values, block.source⟩
  match definition.validate with
  | .ok () => return definition
  | .error cause => .error (.located cause block.position)

def refusalCause (name : Text) : Refusal → Cause
  | .exists _ => .macroExists name
  | .rejected reason => .macroRefused name reason

/-! ## Items -/

structure Run where
  world : World
  scope : Scope
  macros : List Text
  created : List Nat := []

def halted {α : Type} (world : World) : Except Fault α → Except Halted α :=
  Except.mapError fun fault => ⟨fault, world⟩

/-- Runs a statement: creates its objects and delivers its style to them. -/
def statement (session : Session) (run : Run) (s : Statement) : Except Halted Run := do
  let style ← halted run.world (session.styleOf run.scope s.styles)
  match run.world.host.create s.creation with
  | .error reason =>
    .error ⟨.located (.creationFailed s.creation.labelList reason) s.position, run.world⟩
  | .ok (host, handles) =>
    let world := { run.world with host }
    match (style.map (Delivery.sheet session.catalog world handles)).getD (.ok world) with
    | .ok world => return { run with world, created := run.created ++ handles }
    | .error halted => .error ⟨halted.fault.orLocated s.position, halted.world⟩

/-- Runs a macro: hands its definition to the host. -/
def macroBlock (session : Session) (run : Run) (block : MacroBlock) : Except Halted Run := do
  if run.macros.contains block.name then
    .error ⟨.located (.macroExists block.name) block.position, run.world⟩
  else
    let definition ← halted run.world (session.macroDef block)
    match run.world.host.register definition with
    | .ok host => return { run with world := { run.world with host }, macros := block.name :: run.macros }
    | .error refusal =>
      .error ⟨.located (refusalCause block.name refusal) block.position, run.world⟩

def item (session : Session) (run : Run) : Item → Except Halted Run
  | .step (.sheet definition) => do
    return { run with scope := ← halted run.world (session.define run.scope definition) }
  | .step (.statement s) => session.statement run s
  | .macroBlock block => session.macroBlock run block

/-! ## Scripts -/

/-- The start of a script that goes on from what the session knows. -/
def start (session : Session) (world : World) : Run := ⟨world, session.sheets, session.macros, []⟩

/-- Runs a script on top of what the session knows. -/
def runItems (session : Session) (world : World) (text : Text) : Except Halted Run := do
  let items ← halted world (Script.read text)
  items.foldlM session.item (session.start world)

/-- What comes of a script: the handles of the objects it created or the failure, the session and the world
after it. -/
structure Outcome where
  result : Except Fault (List Nat)
  session : Session
  world : World

/-- Goes on with a script.  After a failure the session is what it was. -/
def resume (session : Session) (world : World) (text : Text) : Outcome :=
  match session.runItems world text with
  | .ok run => ⟨.ok run.created, { session with sheets := run.scope, macros := run.macros }, run.world⟩
  | .error halted => ⟨.error halted.fault, session, halted.world⟩

def cleared (session : Session) : Session := { session with sheets := OrderedMap.empty, macros := [] }

def run (session : Session) (world : World) (text : Text) : Outcome := session.cleared.resume world text

end Session
end StyleScript
