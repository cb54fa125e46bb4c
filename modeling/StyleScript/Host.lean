import StyleScript.MacroDef
import StyleScript.Required
import StyleScript.Property.Basic
/-!
# The host

The host owns the objects.  It creates them from right-hand sides, takes their styles element by element and
keeps the macros.  Here it is a value that records what it is told, in order, so that what a script does to
a host is the list of its events.

An object is known by its handle, the number of objects created before it.
-/
namespace StyleScript

inductive HostEvent where
  | created (label : Text)
  | element (label name : Text) (attrs : Attributes)
  | script (label : Text) (slot : ScriptSlot) (text : Text)
  | random (label : Text) (flag : Bool)
  | cleared (label : Text) (property : Resettable)
  | finished (label : Text)
  | recomputed
  | traceSynced
  | macroTaken (name : Text)
  deriving DecidableEq

structure HostObject where
  label : Option Text
  typeName : Text
  rhs : Text
  flags : Flags
  number : Option Binary64
  boolean : Option Bool
  /-- The elements that the object was told, with their attributes. -/
  elements : List (Text × Attributes) := []
  scripts : OrderedMap ScriptSlot Text := ∅
  random : Bool := false

structure HostSettings where
  /-- The number of the default style of a type of objects. -/
  defaultTypes : OrderedMap Text Int := ∅
  /-- The markup of a default style. -/
  defaultMarkup : OrderedMap Int Text := ∅
  /-- A right-hand side that holds this text cannot be evaluated. -/
  failingText : Option Text := none
  /-- The element that is refused. -/
  refusedElement : Option Text := none
  /-- The answer to every macro. -/
  macroAnswer : Option Refusal := none
  /-- Objects get no labels. -/
  unlabeled : Bool := false
  /-- No property can be cleared. -/
  clearsNothing : Bool := false

structure Host where
  settings : HostSettings := {}
  objects : List HostObject := []
  events : List HostEvent := []
  macros : List MacroDef := []
  /-- How often a default style was asked for. -/
  styleRequests : Nat := 0

namespace Host

def record (host : Host) (event : HostEvent) : Host := { host with events := host.events ++ [event] }

/-- The label of an object; an unknown one has the empty label. -/
def labelOf (host : Host) (handle : Nat) : Text :=
  ((host.objects[handle]?).bind (·.label)).getD []

def change (host : Host) (handle : Nat) (f : HostObject → HostObject) : Host :=
  { host with objects := host.objects.modify handle f }

/-! ## Creating -/

/-- The type of an object by its right-hand side, and its value if it is a number or a truth value. -/
def typeOf (rhs : Text) : Text × Option Binary64 × Option Bool :=
  let rhs := Text.trim rhs
  match Text.float? rhs with
  | some n => ("numeric", some n, none)
  | none =>
    if rhs = "true" then ("boolean", none, some true)
    else if rhs = "false" then ("boolean", none, some false)
    else if rhs.head? = some '(' && rhs.getLast? = some ')' then ("point", none, none)
    else ("command", none, none)

def createOne (rhs : Text) (host : Host) (target : Target) : Host :=
  let (typeName, number, boolean) := typeOf rhs
  let label := if host.settings.unlabeled then none else some target.name
  let object : HostObject := { label, typeName, rhs, flags := target.flags, number, boolean }
  Host.record { host with objects := host.objects ++ [object] } (.created target.name)

/-- Creates an object for every label, and answers their handles; or says why it cannot. -/
def create (host : Host) (creation : Creation) : Except Text (Host × List Nat) :=
  if host.settings.failingText.any (Text.holds · creation.rhs) then
    .error ("cannot evaluate " ++ creation.rhs)
  else
    .ok (creation.targets.foldl (createOne creation.rhs) host,
      List.range' host.objects.length creation.targets.length)

def info (host : Host) (handle : Nat) : ObjectInfo :=
  match host.objects[handle]? with
  | none => {}
  | some object =>
    { label := object.label
      defaultType := host.settings.defaultTypes.get? object.typeName
      number := object.number
      boolean := object.boolean }

/-! ## Styling -/

def element (host : Host) (handle : Nat) (name : Text) (attrs : Attributes) : Except Text Host :=
  if host.settings.refusedElement = some name then .error ("unsupported element <" ++ name ++ ">")
  else
    .ok ((host.change handle fun object => { object with elements := object.elements ++ [(name, attrs)] }).record
      (.element (host.labelOf handle) name attrs))

def finish (host : Host) (handle : Nat) : Host := host.record (.finished (host.labelOf handle))

def clear? (host : Host) (handle : Nat) (property : Resettable) : Option Host :=
  if host.settings.clearsNothing then none
  else some (host.record (.cleared (host.labelOf handle) property))

def defaultMarkup (host : Host) (type : Int) : Option Text × Host :=
  (host.settings.defaultMarkup.get? type, { host with styleRequests := host.styleRequests + 1 })

def setScript (host : Host) (handle : Nat) (slot : ScriptSlot) (text : Text) : Host :=
  (host.change handle fun object => { object with scripts := object.scripts.set slot text }).record
    (.script (host.labelOf handle) slot text)

def setRandom (host : Host) (handle : Nat) (flag : Bool) : Host :=
  (host.change handle fun object => { object with random := flag }).record
    (.random (host.labelOf handle) flag)

def recompute (host : Host) : Host := host.record .recomputed

def syncTrace (host : Host) : Host := host.record .traceSynced

/-! ## Macros -/

def register (host : Host) (definition : MacroDef) : Except Refusal Host :=
  match host.settings.macroAnswer with
  | some refusal => .error refusal
  | none =>
    if host.macros.any (·.name = definition.name) then .error (.exists definition.name)
    else .ok (Host.record { host with macros := host.macros ++ [definition] } (.macroTaken definition.name))

end Host
end StyleScript
