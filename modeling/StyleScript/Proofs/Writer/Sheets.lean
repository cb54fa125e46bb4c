import StyleScript.Proofs.Property.Marks
import StyleScript.Proofs.Session.Sheets
import StyleScript.Proofs.Writer.Entries
/-!
# A sheet that is written and read again

A property of a sheet is written as up to two entries, its reset and its value, and the reader puts the two
together again.  So what comes back (`kept?`) is told property by property: the reset mark, and behind it what
the format reads of the value it wrote.  A property with neither is lost, and the others keep their order.

The induction is on the properties.  What the value does to a property depends on the mark having come first, so
one property is followed through all its entries, from where the sheet does not hold it to where it stands last
(`foldlM_of_property`).
-/
namespace StyleScript

open Script (Action Entry Legible IsName IsPropertyName)

/-! ## The last key -/

namespace OrderedMap

variable {κ β : Type} [DecidableEq κ]

end OrderedMap

/-! ## Marked attributes -/

namespace Attributes

/-- The reset mark and nothing else. -/
def markAlone : Attributes := OrderedMap.set ∅ resetMark []

/-- Attributes behind a reset mark, if there is to be one. -/
def behindMark (marked : Bool) (attrs : Attributes) : Attributes :=
  if marked then markAlone.overlaid attrs else attrs

end Attributes

/-! ## What comes back of a property -/

namespace Catalog

/-- The value that a property is written with, if anything is written but its reset. -/
def valueOf? (catalog : Catalog) (p : Text × Attributes) : Option Text :=
  if p.2.withoutReset.isEmpty then none else (catalog.formatOf p.1).encode p.2.withoutReset

/-- What the format reads of the value it wrote. -/
def reread? (catalog : Catalog) (p : Text × Attributes) : Option Attributes :=
  (catalog.valueOf? p).bind fun value =>
    match (catalog.formatOf p.1).decode value with
    | .ok read => read
    | .error _ => none

/-- The property as it comes back: behind its reset mark, if it has one, what is read of its value. -/
def kept? (catalog : Catalog) (p : Text × Attributes) : Option (Text × Attributes) :=
  if p.2.hasReset || (catalog.reread? p).isSome then
    some (p.1, ((catalog.reread? p).getD ∅).behindMark p.2.hasReset)
  else none

/-- A value that raw text in a sheet takes whole in front of a line break. -/
def SelfDelimiting (value : Text) : Prop :=
  value ≠ [] ∧ ∃ d, (Script.Cursor.start (value ++ ['\n'])).raw (· = '}') = .ok (value, d)

/-- What a property needs to be written so that it can be read: a name, a format of that name, and a value that
ends where it ends and is not refused. -/
structure Rereadable (catalog : Catalog) (p : Text × Attributes) : Prop where
  name : IsPropertyName p.1
  named : (catalog.formatOf p.1).name = p.1
  value : ∀ value, catalog.valueOf? p = some value → value ≠ [] → SelfDelimiting value
  decodes : ∀ value, catalog.valueOf? p = some value → ∃ read, (catalog.formatOf p.1).decode value = .ok read

/-- What the entries of a property say. -/
def propertySaid (catalog : Catalog) (p : Text × Attributes) : List (Text × Action) :=
  (if p.2.hasReset then [(p.1, .reset)] else []) ++ ((catalog.valueOf? p).map fun v => (p.1, .set v)).toList

variable {catalog : Catalog} {p : Text × Attributes}

theorem Rereadable.legible (h : catalog.Rereadable p) {e : Text × Action} (he : e ∈ catalog.propertySaid p) :
    Legible e.1 e.2 := by
  rw [propertySaid, List.mem_append] at he
  rcases he with he | he
  · split at he
    · rw [List.mem_singleton.1 he]
      exact ⟨h.name, fun _ hv => nomatch hv⟩
    · cases he
  · obtain ⟨value, hvalue, rfl⟩ := Option.map_eq_some_iff.1 (Option.mem_toList.1 he)
    refine ⟨h.name, fun v hv => Action.set.inj hv ▸ ?_⟩
    by_cases hne : value = []
    · rw [hne]
      exact Lexeme.closed_nil
    · exact Lexeme.closed_iff.2 (h.value value hvalue hne).2

end Catalog

/-! ## One property through its entries -/

namespace Session

variable {session : Session} (hlenient : session.strict = false)
include hlenient

end Session

/-! ## Whole sheets -/

namespace SheetWriter

section

variable {writer : SheetWriter} (hlenient : writer.strict = false)
include hlenient

end

/-- A format of another make may put a mark where there was none. -/
example :
    let format : PropertyFormat :=
      { name := "note", decode := fun _ => .ok (some Attributes.markAlone), encode := fun _ => some "x" }
    (Catalog.empty.enter format).kept? ("note", .table [("val", "1")]) =
      some ("note".toList, Attributes.markAlone) := by
  decide +kernel

end SheetWriter

end StyleScript
