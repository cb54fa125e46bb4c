import StyleScript.Proofs.Script.Written
import StyleScript.Proofs.Session.Sheets
/-!
# What a writer says

A style map is written as a row of entries, each of which sets a property (`style?_eq`).  When all of them are
legible, the written definition is read back as a sheet with just these entries (`run_written`).
-/
namespace StyleScript.SheetWriter

open Script (Action Legible)

/-- What the entry of an element says, if it has one. -/
def said? (writer : SheetWriter) (element : Text) (attrs : Attributes) : Option (Text × Action) :=
  (writer.formatFor (writer.catalog.forElement? element) element).bind fun format =>
    if attrs.isEmpty then none else (format.encode attrs).map fun value => (format.name, .set value)

def said (writer : SheetWriter) (map : StyleMap) : List (Text × Action) :=
  map.pairs.filterMap fun (element, attrs) => writer.said? element attrs

theorem element?_eq (writer : SheetWriter) (element : Text) (attrs : Attributes) :
    writer.element? element attrs = (writer.said? element attrs).map fun e => e.2.text e.1 := by
  unfold element? said?
  cases writer.formatFor (writer.catalog.forElement? element) element with
  | none => rfl
  | some format =>
    simp only [Option.bind_some, entryOf]
    split
    · rfl
    · rw [Option.map_map]
      rfl

theorem style?_eq (writer : SheetWriter) (name : Text) (map : StyleMap) :
    writer.style? name map =
      if writer.said map = [] then none
      else some (definition name (Text.join "; " ((writer.said map).map fun e => e.2.text e.1))) := by
  have hrow : (map.pairs.filterMap fun (element, attrs) => writer.element? element attrs) =
      (writer.said map).map fun e => e.2.text e.1 := by
    rw [said, List.map_filterMap]
    exact List.filterMap_congr fun p _ => writer.element?_eq p.1 p.2
  rw [style?, styleBody?, hrow]
  cases writer.said map <;> rfl

/-- **What is written of a style map is read as the sheet of what it says.** -/
theorem run_written {writer : SheetWriter} {name text : Text} {map : StyleMap} (hname : Script.IsName name)
    (hlegible : ∀ e ∈ writer.said map, Legible e.1 e.2) (h : writer.style? name map = some text)
    (session : Session) (world : World) :
    ∃ es, es.map Script.Entry.meaning = writer.said map ∧
      session.run world text =
        match session.sheetOf name es with
        | .ok sheet =>
          ⟨.ok [], { session.cleared with sheets := OrderedMap.set OrderedMap.empty name sheet }, world⟩
        | .error fault => ⟨.error fault, session.cleared, world⟩ := by
  rw [style?_eq] at h
  split at h
  · cases h
  · obtain ⟨es, hread, hmeaning⟩ := Script.read_definition hname hlegible
    rw [Option.some.inj h] at hread
    exact ⟨es, hmeaning, Session.run_of_read_definition world hread⟩

end StyleScript.SheetWriter
