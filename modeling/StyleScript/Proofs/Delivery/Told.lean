import StyleScript.Delivery
/-!
# What a delivery tells the host

A delivery talks of the objects it is for and of nothing else: it records events about them, may keep scripts and
flags in them, and leaves every other object, the macros and the settings as they are.  `Told` is this relation
between two states of the host.  It holds of each message, is reflexive and transitive, and so holds of a whole
delivery, of one that stops half-way as well.

A stopped delivery has finished some objects and not the one it stopped at (`sheet_eq_error`).
-/
namespace StyleScript

/-! ## What events are about -/

/-- The label of the object whose style an event tells. -/
def HostEvent.styled? : HostEvent → Option Text
  | .element label _ _ => some label
  | .script label _ _ => some label
  | .random label _ => some label
  | .cleared label _ => some label
  | _ => none

/-- The label of the object whose style or whose finish an event tells. -/
def HostEvent.about? : HostEvent → Option Text
  | .finished label => some label
  | event => event.styled?

theorem HostEvent.about?_of_styled? {event : HostEvent} {label : Text} (h : event.styled? = some label) :
    event.about? = some label := by
  cases event with
  | finished => cases h
  | _ => exact h

/-- An object without what a delivery may change in it. -/
def HostObject.unstyled (object : HostObject) : HostObject :=
  { object with elements := [], scripts := ∅, random := false }

namespace Host

/-! ## States between which some objects were talked of -/

/-- From the first state to the second the host was told of the objects with these handles, in events of the given
kind. -/
structure Told (about? : HostEvent → Option Text) (handles : List Nat) (before after : Host) : Prop where
  settings : after.settings = before.settings
  macros : after.macros = before.macros
  others : ∀ i, i ∉ handles → after.objects[i]? = before.objects[i]?
  objects : after.objects.map HostObject.unstyled = before.objects.map HostObject.unstyled
  events : ∃ told, after.events = before.events ++ told ∧
    ∀ e ∈ told, ∃ handle ∈ handles, about? e = some (before.labelOf handle)

theorem labelOf_eq {before after : Host}
    (h : after.objects.map HostObject.unstyled = before.objects.map HostObject.unstyled) (handle : Nat) :
    after.labelOf handle = before.labelOf handle := by
  have hlabel : ∀ host : Host, host.labelOf handle =
      ((((host.objects.map HostObject.unstyled)[handle]?).bind (·.label)).getD []) := by
    intro host
    rw [List.getElem?_map, labelOf]
    cases host.objects[handle]? <;> rfl
  rw [hlabel after, hlabel before, h]

theorem info_eq {before after : Host} (hsettings : after.settings = before.settings)
    (h : after.objects.map HostObject.unstyled = before.objects.map HostObject.unstyled) (handle : Nat) :
    after.info handle = before.info handle := by
  have hunstyled : ∀ host : Host,
      Host.info { host with objects := host.objects.map HostObject.unstyled } handle = host.info handle := by
    intro host
    unfold info
    rw [List.getElem?_map]
    cases host.objects[handle]? <;> rfl
  rw [← hunstyled after, ← hunstyled before, h]
  unfold info
  rw [hsettings]

namespace Told

variable {about? : HostEvent → Option Text} {handles : List Nat} {a b c : Host}

theorem refl (about? : HostEvent → Option Text) (handles : List Nat) (host : Host) : Told about? handles host host :=
  ⟨rfl, rfl, fun _ _ => rfl, rfl, [], (List.append_nil _).symm, fun _ he => nomatch he⟩

theorem trans (h : Told about? handles a b) (k : Told about? handles b c) : Told about? handles a c where
  settings := k.settings.trans h.settings
  macros := k.macros.trans h.macros
  others i hi := (k.others i hi).trans (h.others i hi)
  objects := k.objects.trans h.objects
  events := by
    obtain ⟨told, hevents, hall⟩ := h.events
    obtain ⟨more, hmore, hall'⟩ := k.events
    refine ⟨told ++ more, by rw [hmore, hevents, List.append_assoc], fun e he => ?_⟩
    rcases List.mem_append.1 he with he | he
    · exact hall e he
    · obtain ⟨handle, hmem, hlabel⟩ := hall' e he
      exact ⟨handle, hmem, hlabel.trans (congrArg some (labelOf_eq h.objects handle))⟩

theorem mono {finer : HostEvent → Option Text} {fewer : List Nat} (h : Told finer fewer a b)
    (hfiner : ∀ {e label}, finer e = some label → about? e = some label) (hfewer : fewer ⊆ handles) :
    Told about? handles a b where
  settings := h.settings
  macros := h.macros
  others i hi := h.others i fun hmem => hi (hfewer hmem)
  objects := h.objects
  events := by
    obtain ⟨told, hevents, hall⟩ := h.events
    refine ⟨told, hevents, fun e he => ?_⟩
    obtain ⟨handle, hmem, hlabel⟩ := hall e he
    exact ⟨handle, hfewer hmem, hfiner hlabel⟩

end Told

/-! ## Single messages -/

variable {about? : HostEvent → Option Text} {handle : Nat}

theorem told_record (host : Host) {event : HostEvent} (h : about? event = some (host.labelOf handle)) :
    Told about? [handle] host (host.record event) :=
  ⟨rfl, rfl, fun _ _ => rfl, rfl, [event], rfl, fun e he =>
    ⟨handle, List.mem_singleton_self handle, by rw [List.mem_singleton.1 he, h]⟩⟩

theorem told_change (host : Host) {f : HostObject → HostObject} (hf : ∀ object, (f object).unstyled = object.unstyled) :
    Told about? [handle] host (host.change handle f) where
  settings := rfl
  macros := rfl
  others i hi := List.getElem?_modify_ne _ _ fun he => hi (List.mem_singleton.2 he.symm)
  objects := by
    refine List.ext_getElem? fun i => ?_
    rw [List.getElem?_map, List.getElem?_map]
    show ((host.objects.modify handle f)[i]?).map _ = _
    rw [List.getElem?_modify]
    cases host.objects[i]? with
    | none => rfl
    | some object =>
      by_cases hi : handle = i
      · simp [hi, hf]
      · simp [hi]
  events := ⟨[], (List.append_nil _).symm, fun _ he => nomatch he⟩

theorem told_defaultMarkup (host : Host) (type : Int) : Told about? [handle] host (host.defaultMarkup type).2 :=
  ⟨rfl, rfl, fun _ _ => rfl, rfl, [], (List.append_nil _).symm, fun _ he => nomatch he⟩

theorem told_clear? {host after : Host} {property : Resettable} (h : host.clear? handle property = some after) :
    Told HostEvent.styled? [handle] host after := by
  unfold clear? at h
  split at h
  · cases h
  · exact Option.some.inj h ▸ told_record host rfl

/-- What is kept in an object is kept before the event that tells of it. -/
theorem told_kept (host : Host) {f : HostObject → HostObject} (hf : ∀ object, (f object).unstyled = object.unstyled)
    {event : HostEvent} (h : about? event = some (host.labelOf handle)) :
    Told about? [handle] host ((host.change handle f).record event) := by
  have hkept : Told about? [handle] host (host.change handle f) := told_change host hf
  exact hkept.trans (told_record _ (h.trans (congrArg some (labelOf_eq hkept.objects handle).symm)))

theorem told_element {host after : Host} {name : Text} {attrs : Attributes}
    (h : host.element handle name attrs = .ok after) : Told HostEvent.styled? [handle] host after := by
  unfold element at h
  split at h
  · cases h
  · exact Except.ok.inj h ▸ told_kept host
      (f := fun object => { object with elements := object.elements ++ [(name, attrs)] }) (fun _ => rfl) rfl

theorem told_setScript (host : Host) (slot : ScriptSlot) (text : Text) :
    Told HostEvent.styled? [handle] host (host.setScript handle slot text) :=
  told_kept host (f := fun object => { object with scripts := object.scripts.set slot text }) (fun _ => rfl) rfl

theorem told_setRandom (host : Host) (flag : Bool) :
    Told HostEvent.styled? [handle] host (host.setRandom handle flag) :=
  told_kept host (f := fun object => { object with random := flag }) (fun _ => rfl) rfl

theorem told_finish (host : Host) : Told HostEvent.about? [handle] host (host.finish handle) := told_record host rfl

end Host

/-! ## One object -/

namespace Delivery

open Host (Told)

variable {catalog : Catalog} {handle : Nat}

/-- Whether it succeeds or is stopped, a step of a delivery leaves a world of this kind; and it is stopped by the
host alone, with no place in a script. -/
def Leaves (P : World → Prop) : Except Halted World → Prop
  | .ok world => P world
  | .error halted => (∃ reason, halted.fault = .bare (.deliveryFailed reason)) ∧ P halted.world

/-- The host was told of the style of one object. -/
def Styled (handle : Nat) (before after : World) : Prop :=
  Told HostEvent.styled? [handle] before.host after.host

theorem leaves_foldlM {α : Type} {f : World → α → Except Halted World}
    (hf : ∀ world a, Leaves (Styled handle world) (f world a)) : ∀ (as : List α) (world : World),
    Leaves (Styled handle world) (as.foldlM f world)
  | [], world => Told.refl _ _ world.host
  | a :: as, world => by
    have hhead := hf world a
    rw [List.foldlM_cons]
    cases hstep : f world a with
    | error halted =>
      rw [hstep] at hhead
      exact hhead
    | ok mid =>
      rw [hstep] at hhead
      have hrest := leaves_foldlM hf as mid
      show Leaves _ (as.foldlM f mid)
      cases hall : as.foldlM f mid with
      | ok after => rw [hall] at hrest; exact Told.trans hhead hrest
      | error halted => rw [hall] at hrest; exact ⟨hrest.1, Told.trans hhead hrest.2⟩

theorem leaves_route (handle : Nat) (info : ObjectInfo) (world : World) (r : Route) :
    Leaves (Styled handle world) (route handle info world r) := by
  unfold route
  cases r with
  | element name attrs =>
    simp only
    cases htold : world.host.element handle name (Required.fill name attrs info) with
    | ok host => exact Host.told_element htold
    | error reason => exact ⟨⟨reason, rfl⟩, Told.refl _ _ world.host⟩
  | script slot text => exact Host.told_setScript world.host slot text
  | random flag => exact Host.told_setRandom world.host flag

theorem styled_defaultAttributes (handle : Nat) (info : ObjectInfo) (world : World) (element : Text) :
    Styled handle world (defaultAttributes world info element).2 := by
  unfold defaultAttributes
  cases info.defaultType with
  | none => exact Told.refl _ _ world.host
  | some type =>
    show Styled handle world (defaultStyle world type).2
    unfold defaultStyle
    split
    · exact Told.refl _ _ world.host
    · exact Host.told_defaultMarkup world.host type

theorem styled_afterReset (handle : Nat) (info : ObjectInfo) (world : World) (format : PropertyFormat)
    (attrs : Attributes) :
    Styled handle world (afterReset world handle info format attrs).2 := by
  have hasked := styled_defaultAttributes handle info world format.element
  unfold afterReset
  simp only
  split
  · split
    · next host hclear =>
      obtain ⟨property, -, hclear⟩ := Option.bind_eq_some_iff.1 hclear
      exact Host.told_clear? hclear
    · split <;> next hdefault => rw [hdefault] at hasked; exact hasked
  · exact Told.refl _ _ world.host

theorem leaves_property (catalog : Catalog) (handle : Nat) (info : ObjectInfo) (world : World)
    (entry : Text × Attributes) :
    Leaves (Styled handle world) (property catalog handle info world entry) := by
  have hreset := styled_afterReset handle info world (catalog.formatOf entry.1) entry.2
  unfold property
  simp only
  split
  · next attrs mid hmid =>
    rw [hmid] at hreset
    have hroutes := leaves_foldlM (leaves_route handle info) ((catalog.formatOf entry.1).routes attrs) mid
    cases hall : ((catalog.formatOf entry.1).routes attrs).foldlM (route handle info) mid with
    | ok after => rw [hall] at hroutes; exact Told.trans hreset hroutes
    | error halted => rw [hall] at hroutes; exact ⟨hroutes.1, Told.trans hreset hroutes.2⟩
  · next mid hmid =>
    rw [hmid] at hreset
    exact hreset

/-- An object that was dealt with was styled and then finished. -/
theorem object_eq_ok {sheet : StyleSheet} {world after : World} (h : object catalog sheet world handle = .ok after) :
    ∃ mid, Styled handle world mid ∧ after.host = mid.host.finish handle := by
  unfold object at h
  simp only at h
  split at h
  · cases h
  · rw [bind_eq_ok] at h
    obtain ⟨mid, hmid, h⟩ := h
    have hleft := leaves_foldlM (leaves_property catalog handle (world.host.info handle)) sheet.properties.pairs world
    rw [hmid] at hleft
    exact ⟨mid, hleft, by rw [← pure_eq_ok.1 h]⟩

/-- An object at which a delivery stopped was perhaps styled, but not finished. -/
theorem object_eq_error {sheet : StyleSheet} {world : World} {halted : Halted}
    (h : object catalog sheet world handle = .error halted) :
    (∃ reason, halted.fault = .bare (.deliveryFailed reason)) ∧ Styled handle world halted.world := by
  unfold object at h
  simp only at h
  split at h
  · cases h
    exact ⟨⟨_, rfl⟩, Told.refl _ _ world.host⟩
  · have hleft := leaves_foldlM (leaves_property catalog handle (world.host.info handle)) sheet.properties.pairs world
    cases hall : sheet.properties.pairs.foldlM (property catalog handle (world.host.info handle)) world with
    | ok mid => rw [hall] at h; cases h
    | error stopped =>
      rw [hall] at h hleft
      cases h
      exact hleft

/-! ## Several objects -/

/-- The host was told of all these objects in turn, each up to its finish. -/
inductive Served : List Nat → World → World → Prop
  | nil (world : World) : Served [] world world
  | cons {handle : Nat} {handles : List Nat} {world mid next after : World} (styled : Styled handle world mid)
    (finished : next.host = mid.host.finish handle) (more : Served handles next after) :
    Served (handle :: handles) world after

theorem Styled.told {handles : List Nat} {before after : World} (h : Styled handle before after)
    (hmem : handle ∈ handles) : Told HostEvent.about? handles before.host after.host :=
  Told.mono h HostEvent.about?_of_styled? (List.cons_subset.2 ⟨hmem, List.nil_subset _⟩)

theorem Served.told {handles : List Nat} {before after : World} (h : Served handles before after) :
    Told HostEvent.about? handles before.host after.host := by
  induction h with
  | nil world => exact Told.refl _ _ world.host
  | @cons handle handles world mid next after styled finished _ ih =>
    have hrest : Told HostEvent.about? (handle :: handles) next.host after.host :=
      ih.mono id (List.subset_cons_self ..)
    rw [finished] at hrest
    exact ((styled.told List.mem_cons_self).trans
      ((Host.told_finish _).mono id (List.cons_subset.2 ⟨List.mem_cons_self, List.nil_subset _⟩))).trans hrest

theorem served_of_foldlM {sheet : StyleSheet} : ∀ {handles : List Nat} {world after : World},
    handles.foldlM (object catalog sheet) world = .ok after → Served handles world after
  | [], world, _, h => pure_eq_ok.1 h ▸ .nil world
  | handle :: handles, _, _, h => by
    rw [List.foldlM_cons, bind_eq_ok] at h
    obtain ⟨next, hone, h⟩ := h
    obtain ⟨mid, hstyled, hfinish⟩ := object_eq_ok hone
    exact .cons hstyled hfinish (served_of_foldlM h)

/-- **A delivery to several objects stops inside of one of them**: those before it are finished, and those behind it
untouched. -/
theorem sheet_eq_error {sheet : StyleSheet} {handles : List Nat} {world : World} {halted : Halted}
    (h : Delivery.sheet catalog world handles sheet = .error halted) :
    ∃ done handle rest mid, handles = done ++ handle :: rest ∧ Served done world mid ∧
      Styled handle mid halted.world ∧ ∃ reason, halted.fault = .bare (.deliveryFailed reason) := by
  unfold Delivery.sheet at h
  split at h
  · cases h
  · cases hall : handles.foldlM (object catalog sheet) world with
    | ok mid => rw [hall] at h; cases h
    | error stopped =>
      rw [hall] at h
      cases h
      obtain ⟨done, handle, rest, mid, hsplit, hdone, hone⟩ := foldlM_eq_error hall
      obtain ⟨hfault, hstyled⟩ := object_eq_error hone
      exact ⟨done, handle, rest, mid, hsplit, served_of_foldlM hdone, hstyled, hfault⟩

theorem told_of_sheet_eq_error {sheet : StyleSheet} {handles : List Nat} {world : World} {halted : Halted}
    (h : Delivery.sheet catalog world handles sheet = .error halted) :
    Told HostEvent.about? handles world.host halted.world.host := by
  obtain ⟨done, handle, rest, mid, rfl, hserved, hstyled, -⟩ := sheet_eq_error h
  exact (hserved.told.mono id (List.subset_append_left ..)).trans
    (hstyled.told (List.mem_append_right _ List.mem_cons_self))

theorem macros_of_sheet_eq_ok {sheet : StyleSheet} {handles : List Nat} {world after : World}
    (h : Delivery.sheet catalog world handles sheet = .ok after) : after.host.macros = world.host.macros := by
  unfold Delivery.sheet at h
  split at h
  · cases h
    rfl
  · simp only [bind_eq_ok, pure_eq_ok] at h
    obtain ⟨mid, hmid, rfl⟩ := h
    have hconclude : (conclude sheet mid).host.macros = mid.host.macros := by
      unfold conclude
      simp only
      split <;> rfl
    exact hconclude.trans (served_of_foldlM hmid).told.macros

/-- The world as a delivery left it, whether it went through or was stopped. -/
def left : Except Halted World → World
  | .ok world => world
  | .error halted => halted.world

theorem macros_of_left (catalog : Catalog) (world : World) (handles : List Nat) (sheet : StyleSheet) :
    (left (Delivery.sheet catalog world handles sheet)).host.macros = world.host.macros := by
  cases h : Delivery.sheet catalog world handles sheet with
  | ok after => exact macros_of_sheet_eq_ok h
  | error halted => exact (told_of_sheet_eq_error h).macros

end Delivery
end StyleScript
