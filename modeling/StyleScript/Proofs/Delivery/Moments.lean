import StyleScript.Proofs.Delivery.Lookups
/-!
# The moments of a delivery

A law that holds at every moment holds inside of a delivery as well: between two messages to the host, and wherever it
stops.  `Passes` are the worlds of a checked run over a list, those between its steps and those inside of them; routes,
properties, objects and sheets are such runs, one inside of the other.  At each moment the host was asked for types
that were unknown, and for nothing else (`learns_of_sheetPasses`).
-/
namespace StyleScript

/-- The worlds in which a checked run over a list finds itself: between its steps, or inside of one. -/
inductive Passes {σ α ε : Type} (f : σ → α → Except ε σ) (inside : σ → α → World → Prop) (seen : σ → World) :
    σ → List α → World → Prop
  | between (s : σ) (as : List α) : Passes f inside seen s as (seen s)
  | within {s : σ} {a : α} {as : List α} {w : World} (moment : inside s a w) : Passes f inside seen s (a :: as) w
  | later {s t : σ} {a : α} {as : List α} {w : World} (step : f s a = .ok t) (more : Passes f inside seen t as w) :
    Passes f inside seen s (a :: as) w

namespace Passes

variable {σ α ε : Type} {f : σ → α → Except ε σ} {inside : σ → α → World → Prop} {seen : σ → World} {w : World}

/-- What every step keeps up to each of its moments holds at every moment of the run. -/
theorem keeps {P : World → Prop} (hinside : ∀ s a w, P (seen s) → inside s a w → P w)
    (hstep : ∀ s a t, P (seen s) → f s a = .ok t → P (seen t)) {s : σ} {as : List α}
    (h : Passes f inside seen s as w) (hs : P (seen s)) : P w := by
  induction h with
  | between s as => exact hs
  | within moment => exact hinside _ _ _ hs moment
  | later step _ ih => exact ih (hstep _ _ _ hs step)

end Passes

namespace Delivery

open World (Alike Learns)

/-- The moments in which a property is told, behind its reset. -/
def PropertyPasses (catalog : Catalog) (handle : Nat) (info : ObjectInfo) (world : World) (entry : Text × Attributes)
    (w : World) : Prop :=
  let format := catalog.formatOf entry.1
  let done := afterReset world handle info format entry.2
  ∃ attrs ∈ done.1, Passes (route handle info) (fun _ _ _ => False) id done.2 (format.routes attrs) w

def ObjectPasses (catalog : Catalog) (sheet : StyleSheet) (world : World) (handle : Nat) (w : World) : Prop :=
  let info := world.host.info handle
  info.label.isSome ∧
    Passes (property catalog handle info) (PropertyPasses catalog handle info) id world sheet.properties.pairs w

def SheetPasses (catalog : Catalog) (world : World) (handles : List Nat) (sheet : StyleSheet) (w : World) : Prop :=
  (sheet.isEmpty || handles.isEmpty) = false ∧
    Passes (object catalog sheet) (ObjectPasses catalog sheet) id world handles w

variable {start a w : World}

/-- A world is like itself, so what the deliveries by two look-ups agree on holds of one of them. -/
theorem learns_of_agree {y : Except Halted World} (h : Agree start (Alike start) (.ok a) y) : Learns start a := by
  cases h with
  | ok alike => exact alike.learns

theorem learns_of_propertyPasses (hstart : start.Faithful) {catalog : Catalog} {handle : Nat} {info : ObjectInfo}
    {entry : Text × Attributes} (h : Learns start a) (hw : PropertyPasses catalog handle info a entry w) :
    Learns start w := by
  obtain ⟨-, hreset⟩ := afterResetBy_alike (looksAlike hstart) ⟨rfl, h⟩ handle info (catalog.formatOf entry.1) entry.2
  obtain ⟨attrs, -, hpasses⟩ := hw
  refine hpasses.keeps (fun _ _ _ _ hnever => hnever.elim) (fun s r t hs hroute => ?_) hreset.learns
  have hself : Alike start s s := ⟨rfl, hs⟩
  have hagree := route_alike hself handle info r
  rw [hroute] at hagree
  exact learns_of_agree hagree

theorem learns_of_property (hstart : start.Faithful) {catalog : Catalog} {handle : Nat} {info : ObjectInfo}
    {entry : Text × Attributes} (h : Learns start a) (hw : property catalog handle info a entry = .ok w) :
    Learns start w := by
  have hagree := propertyBy_alike (looksAlike hstart) ⟨rfl, h⟩ catalog handle info entry
  rw [propertyBy_defaultAttributes, hw] at hagree
  exact learns_of_agree hagree

theorem learns_of_objectPasses (hstart : start.Faithful) {catalog : Catalog} {sheet : StyleSheet} {handle : Nat}
    (h : Learns start a) (hw : ObjectPasses catalog sheet a handle w) : Learns start w :=
  hw.2.keeps (fun _ _ _ hs hmoment => learns_of_propertyPasses hstart hs hmoment)
    (fun _ _ _ hs hproperty => learns_of_property hstart hs hproperty) h

theorem learns_of_object (hstart : start.Faithful) {catalog : Catalog} {sheet : StyleSheet} {handle : Nat}
    (h : Learns start a) (hw : object catalog sheet a handle = .ok w) : Learns start w := by
  have hagree := objectBy_alike (looksAlike hstart) ⟨rfl, h⟩ catalog sheet handle
  rw [objectBy_defaultAttributes, hw] at hagree
  exact learns_of_agree hagree

/-- **At every moment of a delivery** the host was asked for types that were unknown, and for no others. -/
theorem learns_of_sheetPasses (hstart : start.Faithful) {catalog : Catalog} {handles : List Nat} {sheet : StyleSheet}
    (h : Learns start a) (hw : SheetPasses catalog a handles sheet w) : Learns start w :=
  hw.2.keeps (fun _ _ _ hs hmoment => learns_of_objectPasses hstart hs hmoment)
    (fun _ _ _ hs hobject => learns_of_object hstart hs hobject) h

end Delivery
end StyleScript
