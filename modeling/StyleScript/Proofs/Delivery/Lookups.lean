import StyleScript.Proofs.Property.Tables
import StyleScript.Delivery
/-!
# Default styles asked for once, and asked for anew

Behind a reset mark a delivery may need the default style of an object's type.  It asks the host for it once and
remembers the answer; it could as well ask every time.  The deliveries here have this look-up as a parameter: with
`defaultAttributes` they are the deliveries as they run, with `askedAttributes` those that remember nothing.

From one world to a later one, `Asks` lists the types that the host was asked for.  A type is asked for only while it
is unknown, and is known from then on, so that no type is listed twice and there are as many requests as known types
(`Asks.keys`, `Asks.requests`).  What is known of a type is what the host would still answer, as long as it was so at
the beginning (`Asks.faithful`); so both look-ups find the same (`looksAlike`), and with them the two deliveries tell
the host the same (`sheetBy_alike`).
-/
namespace StyleScript

/-! ## What is remembered -/

namespace World

/-- What is remembered of the default styles is what the host tells of them. -/
def Faithful (world : World) : Prop :=
  ∀ type style, OrderedMap.get? world.styles type = some style →
    style = DefaultStyles.ofMarkup (world.host.settings.defaultMarkup.get? type)

/-- The host is asked for the default style of a type, and its answer is remembered. -/
def ask (world : World) (type : Int) : World where
  host := (world.host.defaultMarkup type).2
  styles := world.styles.remember type (world.host.defaultMarkup type).1

theorem get?_styles_ask (world : World) (type other : Int) :
    OrderedMap.get? (world.ask type).styles other = if type = other then
      some (DefaultStyles.ofMarkup (world.host.settings.defaultMarkup.get? type))
    else OrderedMap.get? world.styles other :=
  OrderedMap.get?_set ..

theorem faithful_fresh (host : Host) : World.Faithful { host } := fun _ _ h => nomatch h

/-- From one world to another the host was asked for the default styles of these types, in this order. -/
inductive Asks : World → List Int → World → Prop
  /-- The host heard of something else, or of nothing. -/
  | told {a b : World} (settings : b.host.settings = a.host.settings) (styles : b.styles = a.styles)
    (requests : b.host.styleRequests = a.host.styleRequests) : Asks a [] b
  | asked {a : World} {type : Int} (unknown : type ∉ OrderedMap.keys a.styles) : Asks a [type] (a.ask type)
  | trans {a b c : World} {types more : List Int} (first : Asks a types b) (then_ : Asks b more c) :
    Asks a (types ++ more) c

namespace Asks

variable {a b c : World} {types more : List Int}

theorem refl (a : World) : Asks a [] a := .told rfl rfl rfl

/-- **The types that were asked for are those that are known since.** -/
theorem keys (h : Asks a types b) : OrderedMap.keys b.styles = OrderedMap.keys a.styles ++ types := by
  induction h with
  | told _ styles _ => rw [styles, List.append_nil]
  | @asked a type unknown => exact (OrderedMap.keys_set ..).trans (if_neg unknown)
  | trans _ _ ih ih' => rw [ih', ih, List.append_assoc]

theorem requests (h : Asks a types b) : b.host.styleRequests = a.host.styleRequests + types.length := by
  induction h with
  | told _ _ requests => exact requests
  | asked _ => rfl
  | trans _ _ ih ih' => rw [ih', ih, List.length_append, Nat.add_assoc]

theorem faithful (h : Asks a types b) (ha : a.Faithful) : b.Faithful := by
  induction h with
  | told settings styles _ =>
    unfold Faithful
    rwa [settings, styles]
  | @asked a type _ =>
    intro other style hstyle
    rw [get?_styles_ask] at hstyle
    split at hstyle
    · next heq =>
      subst heq
      exact (Option.some.inj hstyle).symm
    · exact ha other style hstyle
  | trans _ _ ih ih' => exact ih' (ih ha)

end Asks

/-- The world as it looks from outside: without what is remembered of default styles and how often they were asked
for. -/
def shown (world : World) : World := { host := { world.host with styleRequests := 0 } }

/-- The later world came about by asking for types that were unknown. -/
def Learns (start later : World) : Prop := ∃ types, Asks start types later

theorem Learns.refl (world : World) : Learns world world := ⟨[], .refl world⟩

theorem Learns.faithful {start later : World} (h : Learns start later) (hstart : start.Faithful) : later.Faithful := by
  obtain ⟨types, hasks⟩ := h
  exact hasks.faithful hstart

/-- Two worlds that look the same, the first one with what was learned since `start`. -/
structure Alike (start a b : World) : Prop where
  shown : a.shown = b.shown
  learns : Learns start a

end World

/-! ## Messages that are no requests -/

namespace Host

/-- A message to the host that is no request for a default style and does not depend on those that were made. -/
structure Quiet (f : Host → Host) : Prop where
  requests : ∀ host, (f host).styleRequests = host.styleRequests
  settings : ∀ host, (f host).settings = host.settings
  shown : ∀ host, f { host with styleRequests := 0 } = { f host with styleRequests := 0 }

theorem quiet_element (handle : Nat) (name : Text) (attrs : Attributes) :
    Quiet fun host => (host.change handle fun object =>
      { object with elements := object.elements ++ [(name, attrs)] }).record
        (.element (host.labelOf handle) name attrs) :=
  ⟨fun _ => rfl, fun _ => rfl, fun _ => rfl⟩

theorem quiet_setScript (handle : Nat) (slot : ScriptSlot) (text : Text) : Quiet (·.setScript handle slot text) :=
  ⟨fun _ => rfl, fun _ => rfl, fun _ => rfl⟩

theorem quiet_setRandom (handle : Nat) (flag : Bool) : Quiet (·.setRandom handle flag) :=
  ⟨fun _ => rfl, fun _ => rfl, fun _ => rfl⟩

theorem quiet_clear (handle : Nat) (property : Resettable) :
    Quiet fun host => host.record (.cleared (host.labelOf handle) property) :=
  ⟨fun _ => rfl, fun _ => rfl, fun _ => rfl⟩

theorem quiet_finish (handle : Nat) : Quiet (·.finish handle) := ⟨fun _ => rfl, fun _ => rfl, fun _ => rfl⟩

theorem quiet_recompute : Quiet recompute := ⟨fun _ => rfl, fun _ => rfl, fun _ => rfl⟩

theorem quiet_syncTrace : Quiet syncTrace := ⟨fun _ => rfl, fun _ => rfl, fun _ => rfl⟩

end Host

namespace World.Alike

variable {start a b : World}

theorem settings (h : Alike start a b) : a.host.settings = b.host.settings :=
  congrArg (·.host.settings) h.shown

theorem info (h : Alike start a b) (handle : Nat) : a.host.info handle = b.host.info handle :=
  congrArg (·.host.info handle) h.shown

theorem told (h : Alike start a b) {f : Host → Host} (hf : Host.Quiet f) :
    Alike start { a with host := f a.host } { b with host := f b.host } where
  shown := by
    have hshown : ∀ world : World, World.shown { world with host := f world.host } = { host := f world.shown.host } :=
      fun world => congrArg (fun host => ({ host } : World)) (hf.shown world.host).symm
    rw [hshown, hshown, h.shown]
  learns := by
    obtain ⟨types, hasks⟩ := h.learns
    exact ⟨types ++ [], hasks.trans (.told (hf.settings a.host) rfl (hf.requests a.host))⟩

end World.Alike

/-! ## Results that agree -/

open World (Alike Asks)

/-- Both went through, to related ends, or both stopped for the same reason in worlds that are alike. -/
inductive Agree {σ τ : Type} (start : World) (Related : σ → τ → Prop) : Except Halted σ → Except Halted τ → Prop
  | ok {s : σ} {t : τ} (related : Related s t) : Agree start Related (.ok s) (.ok t)
  | error {fault : Fault} {a b : World} (alike : Alike start a b) :
    Agree start Related (.error ⟨fault, a⟩) (.error ⟨fault, b⟩)

section

variable {σ τ σ' τ' : Type} {start : World} {Related : σ → τ → Prop} {Related' : σ' → τ' → Prop}

theorem Agree.bind {x : Except Halted σ} {y : Except Halted τ} {f : σ → Except Halted σ'} {g : τ → Except Halted τ'}
    (h : Agree start Related x y) (hfg : ∀ s t, Related s t → Agree start Related' (f s) (g t)) :
    Agree start Related' (x >>= f) (y >>= g) := by
  cases h with
  | ok related => exact hfg _ _ related
  | error alike => exact .error alike

theorem agree_foldlM {α : Type} {f : σ → α → Except Halted σ} {g : τ → α → Except Halted τ}
    (hfg : ∀ s t a, Related s t → Agree start Related (f s a) (g t a)) : ∀ (as : List α) {s : σ} {t : τ},
    Related s t → Agree start Related (as.foldlM f s) (as.foldlM g t)
  | [], _, _, h => .ok h
  | a :: as, s, t, h => by
    rw [List.foldlM_cons, List.foldlM_cons]
    exact (hfg s t a h).bind fun _ _ => agree_foldlM hfg as

end

namespace Delivery

/-! ## Two look-ups -/

/-- A way to come by the default attributes of an element for an object. -/
abbrev Lookup := World → ObjectInfo → Text → Option Attributes × World

/-- The default attributes, from markup that the host is asked for and that is read anew, each time. -/
def askedAttributes : Lookup := fun world info element =>
  match info.defaultType with
  | none => (none, world)
  | some type =>
    ((DefaultStyles.something (DefaultStyles.ofMarkup (world.host.defaultMarkup type).1)).bind (·.get? element),
      { world with host := (world.host.defaultMarkup type).2 })

/-- Two look-ups find the same in worlds that are alike, and leave them so. -/
def LooksAlike (start : World) (look other : Lookup) : Prop :=
  ∀ {a b : World}, Alike start a b → ∀ (info : ObjectInfo) (element : Text),
    (look a info element).1 = (other b info element).1 ∧
      Alike start (look a info element).2 (other b info element).2

theorem defaultStyle_of_unknown {world : World} {type : Int} (h : type ∉ OrderedMap.keys world.styles) :
    defaultStyle world type =
      (DefaultStyles.something (DefaultStyles.ofMarkup (world.host.settings.defaultMarkup.get? type)), world.ask type) := by
  have hcontains : ¬ OrderedMap.contains world.styles type := mt OrderedMap.contains_iff.1 h
  unfold defaultStyle DefaultStyles.load
  rw [if_neg hcontains, OrderedMap.get?_eq_none.2 h]
  rfl

theorem defaultStyle_of_known {world : World} {type : Int} {style : StyleMap}
    (h : OrderedMap.get? world.styles type = some style) :
    defaultStyle world type = (DefaultStyles.something style, world) := by
  have hcontains : OrderedMap.contains world.styles type := by rw [OrderedMap.contains, h]; rfl
  unfold defaultStyle DefaultStyles.load
  rw [if_pos hcontains, h]

/-- **To remember is to find the same as to ask anew.** -/
theorem looksAlike {start : World} (hstart : start.Faithful) : LooksAlike start defaultAttributes askedAttributes := by
  intro a b h info element
  obtain ⟨types, hasks⟩ := h.learns
  unfold defaultAttributes askedAttributes
  cases info.defaultType with
  | none => exact ⟨rfl, h⟩
  | some type =>
    have hmarkup : (b.host.defaultMarkup type).1 = a.host.settings.defaultMarkup.get? type :=
      congrArg (·.defaultMarkup.get? type) h.settings.symm
    simp only [hmarkup]
    cases hknown : OrderedMap.get? a.styles type with
    | some style =>
      rw [defaultStyle_of_known hknown, hasks.faithful hstart type style hknown]
      exact ⟨rfl, h.shown, types, hasks⟩
    | none =>
      have hunknown := OrderedMap.get?_eq_none.1 hknown
      rw [defaultStyle_of_unknown hunknown]
      exact ⟨rfl, h.shown, types ++ [type], hasks.trans (.asked hunknown)⟩

/-! ## Deliveries by a look-up -/

/-- `afterReset` with another look-up. -/
def afterResetBy (look : Lookup) (world : World) (handle : Nat) (info : ObjectInfo) (format : PropertyFormat)
    (attrs : Attributes) : Option Attributes × World :=
  let normal := attrs.withoutReset
  if attrs.hasReset then
    match format.reset.bind (world.host.clear? handle) with
    | some host => (remaining normal, { world with host })
    | none =>
      match look world info format.element with
      | (some defaults, world) => (remaining (Attributes.overlaid defaults normal), world)
      | (none, world) => (remaining normal, world)
  else (some normal, world)

/-- `property` with another look-up. -/
def propertyBy (look : Lookup) (catalog : Catalog) (handle : Nat) (info : ObjectInfo) (world : World)
    (entry : Text × Attributes) : Except Halted World :=
  let format := catalog.formatOf entry.1
  match afterResetBy look world handle info format entry.2 with
  | (some attrs, world) => (format.routes attrs).foldlM (route handle info) world
  | (none, world) => .ok world

/-- `object` with another look-up. -/
def objectBy (look : Lookup) (catalog : Catalog) (sheet : StyleSheet) (world : World) (handle : Nat) :
    Except Halted World :=
  let info := world.host.info handle
  if info.label.isNone then .error (halt world "object must have a label to apply styles")
  else do
    let world ← sheet.properties.pairs.foldlM (propertyBy look catalog handle info) world
    return { world with host := world.host.finish handle }

/-- `sheet` with another look-up. -/
def sheetBy (look : Lookup) (catalog : Catalog) (world : World) (handles : List Nat) (sheet : StyleSheet) :
    Except Halted World :=
  if sheet.isEmpty || handles.isEmpty then .ok world
  else do
    let world ← handles.foldlM (objectBy look catalog sheet) world
    return conclude sheet world

theorem propertyBy_defaultAttributes : propertyBy defaultAttributes = property := rfl

theorem objectBy_defaultAttributes : objectBy defaultAttributes = object := rfl

theorem sheetBy_defaultAttributes : sheetBy defaultAttributes = sheet := rfl

variable {start a b : World} {look other : Lookup}

/-- Both hosts clear a property, or neither does. -/
theorem clear_alike (h : Alike start a b) (handle : Nat) (property : Option Resettable) :
    property.bind (a.host.clear? handle) = none ∧ property.bind (b.host.clear? handle) = none ∨
      ∃ f, Host.Quiet f ∧ property.bind (a.host.clear? handle) = some (f a.host) ∧
        property.bind (b.host.clear? handle) = some (f b.host) := by
  cases property with
  | none => exact .inl ⟨rfl, rfl⟩
  | some property =>
    simp only [Option.bind_some, Host.clear?, h.settings]
    split
    · exact .inl ⟨rfl, rfl⟩
    · exact .inr ⟨_, Host.quiet_clear handle property, rfl, rfl⟩

/-- Behind a reset the same is left to deliver. -/
theorem afterResetBy_alike (hlook : LooksAlike start look other) (h : Alike start a b) (handle : Nat)
    (info : ObjectInfo) (format : PropertyFormat) (attrs : Attributes) :
    (afterResetBy look a handle info format attrs).1 = (afterResetBy other b handle info format attrs).1 ∧
      Alike start (afterResetBy look a handle info format attrs).2
        (afterResetBy other b handle info format attrs).2 := by
  have hfound := hlook h info format.element
  unfold afterResetBy
  simp only
  split
  · rcases clear_alike h handle format.reset with ⟨hnone, hnone'⟩ | ⟨f, hf, hsome, hsome'⟩
    · rw [hnone, hnone']
      generalize look a info format.element = found at hfound
      generalize other b info format.element = found' at hfound
      obtain ⟨defaults, left⟩ := found
      obtain ⟨_, left'⟩ := found'
      obtain ⟨rfl, hleft⟩ := hfound
      cases defaults <;> exact ⟨rfl, hleft⟩
    · rw [hsome, hsome']
      exact ⟨rfl, h.told hf⟩
  · exact ⟨rfl, h⟩

theorem route_alike (h : Alike start a b) (handle : Nat) (info : ObjectInfo) (r : Route) :
    Agree start (Alike start) (route handle info a r) (route handle info b r) := by
  unfold route
  cases r with
  | element name attrs =>
    simp only [Host.element, h.settings]
    by_cases hrefused : b.host.settings.refusedElement = some name
    · simp only [if_pos hrefused]
      exact .error h
    · simp only [if_neg hrefused]
      exact .ok (h.told (Host.quiet_element handle name _))
  | script slot text => exact .ok (h.told (Host.quiet_setScript handle slot text))
  | random flag => exact .ok (h.told (Host.quiet_setRandom handle flag))

theorem propertyBy_alike (hlook : LooksAlike start look other) (h : Alike start a b) (catalog : Catalog) (handle : Nat)
    (info : ObjectInfo) (entry : Text × Attributes) :
    Agree start (Alike start) (propertyBy look catalog handle info a entry)
      (propertyBy other catalog handle info b entry) := by
  obtain ⟨hsame, hleft⟩ := afterResetBy_alike hlook h handle info (catalog.formatOf entry.1) entry.2
  unfold propertyBy
  simp only
  generalize afterResetBy look a handle info (catalog.formatOf entry.1) entry.2 = done at hsame hleft
  generalize afterResetBy other b handle info (catalog.formatOf entry.1) entry.2 = done' at hsame hleft
  obtain ⟨attrs, left⟩ := done
  obtain ⟨_, left'⟩ := done'
  cases hsame
  cases attrs with
  | none => exact .ok hleft
  | some attrs => exact agree_foldlM (fun _ _ r hleft => route_alike hleft handle info r) _ hleft

theorem objectBy_alike (hlook : LooksAlike start look other) (h : Alike start a b) (catalog : Catalog)
    (sheet : StyleSheet) (handle : Nat) :
    Agree start (Alike start) (objectBy look catalog sheet a handle) (objectBy other catalog sheet b handle) := by
  unfold objectBy
  simp only [h.info]
  split
  · exact .error h
  · refine (agree_foldlM (fun _ _ entry hmid => propertyBy_alike hlook hmid catalog handle _ entry) _ h).bind ?_
    exact fun _ _ hmid => .ok (hmid.told (Host.quiet_finish handle))

theorem conclude_alike (h : Alike start a b) (sheet : StyleSheet) :
    Alike start (conclude sheet a) (conclude sheet b) := by
  have hcomputed := h.told Host.quiet_recompute
  unfold conclude
  simp only
  split
  · exact hcomputed.told Host.quiet_syncTrace
  · exact hcomputed

/-- **Two look-ups that find the same lead to the same delivery.** -/
theorem sheetBy_alike (hlook : LooksAlike start look other) (h : Alike start a b) (catalog : Catalog)
    (handles : List Nat) (sheet : StyleSheet) :
    Agree start (Alike start) (sheetBy look catalog a handles sheet) (sheetBy other catalog b handles sheet) := by
  unfold sheetBy
  split
  · exact .ok h
  · refine (agree_foldlM (fun _ _ handle hmid => objectBy_alike hlook hmid catalog sheet handle) _ h).bind ?_
    exact fun _ _ hmid => .ok (conclude_alike hmid sheet)

end Delivery
end StyleScript
