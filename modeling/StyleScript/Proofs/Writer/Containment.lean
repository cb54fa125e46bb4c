import StyleScript.Proofs.Property.Catalog
import StyleScript.Proofs.Property.Closed
import StyleScript.Proofs.Writer.Entries
/-!
# What a written style map can bring into a session

A definition is meant to bring one sheet, with the properties of the elements it was made of.  It does so when
every value is closed (`contained_of_closed`).  A format that writes what was kept as a number without another
look lets the text end its entry and begin another one: for each bare element there is a map that smuggles in a
script (`leaks_hold`).  So the elements that can be trusted with any text are those that are not bare, and no
others (`trusted_iff`).
-/
namespace StyleScript

open Script (Action Legible IsName IsPropertyName)

/-- The outcome has one sheet of the given name, whose properties stand for elements of the map, and nothing
else has happened. -/
structure Contained (name : Text) (map : StyleMap) (world : World) (outcome : Session.Outcome) : Prop where
  result : outcome.result = .ok []
  world : outcome.world = world
  macros : outcome.session.macros = []
  sheets : ∃ sheet : StyleSheet, outcome.session.sheets = OrderedMap.ofList [(name, sheet)] ∧ sheet.name = name ∧
    ∀ property ∈ sheet.properties.keys, ∃ element ∈ map.keys, ∃ format,
      Catalog.standard.forElement? element = some format ∧ format.name = property

/-! ## Closed values are contained -/

theorem isPropertyName_of_mem_builtIn : ∀ format ∈ Catalog.builtIn, IsPropertyName format.name := by decide +kernel

section

variable {writer : SheetWriter} {map : StyleMap} (hcatalog : writer.catalog = .standard)
  (hknown : ∀ element ∈ map.keys, (Catalog.standard.forElement? element).isSome)
include hcatalog hknown

theorem format_of_mem_said {e : Text × Action} (he : e ∈ writer.said map) :
    ∃ element attrs format value, (element, attrs) ∈ map.pairs ∧
      Catalog.standard.forElement? element = some format ∧ format.encode attrs = some value ∧
      e = (format.name, .set value) := by
  obtain ⟨⟨element, attrs⟩, hmem, hsaid⟩ := List.mem_filterMap.1 he
  obtain ⟨format, hformat⟩ := Option.isSome_iff_exists.1 (hknown element (List.mem_map_of_mem hmem))
  simp only [SheetWriter.said?, hcatalog, hformat, SheetWriter.formatFor, Option.bind_some] at hsaid
  split at hsaid
  · cases hsaid
  · obtain ⟨value, hvalue, heq⟩ := Option.map_eq_some_iff.1 hsaid
    exact ⟨element, attrs, format, value, hmem, hformat, hvalue, heq.symm⟩

/-- **A style map of closed values is contained.** -/
theorem contained_of_closed
    (hclosed : ∀ element attrs format value, (element, attrs) ∈ map.pairs →
      Catalog.standard.forElement? element = some format → format.encode attrs = some value →
      Lexeme.Closed (· = '}') value)
    {name text : Text} (hname : IsName name) (hwritten : writer.style? name map = some text)
    {session : Session} {world : World} (haccepted : ∃ created, (session.run world text).result = .ok created) :
    Contained name map world (session.run world text) := by
  have hlegible : ∀ e ∈ writer.said map, Legible e.1 e.2 := by
    intro e he
    obtain ⟨element, attrs, format, value, hmem, hformat, hvalue, rfl⟩ := format_of_mem_said hcatalog hknown he
    refine ⟨isPropertyName_of_mem_builtIn format (Catalog.mem_of_forElement? hformat).1, fun v hv => ?_⟩
    exact Action.set.inj hv ▸ hclosed element attrs format value hmem hformat hvalue
  obtain ⟨es, hmeaning, hrun⟩ := SheetWriter.run_written hname hlegible hwritten session world
  cases hsheet : session.sheetOf name es with
  | error fault =>
    rw [hrun, hsheet] at haccepted
    obtain ⟨created, hcreated⟩ := haccepted
    cases hcreated
  | ok sheet =>
    obtain ⟨hsname, hkeys⟩ := Session.sheetOf_keys hsheet
    rw [hrun, hsheet]
    refine ⟨rfl, rfl, rfl, sheet, rfl, hsname, fun property hproperty => ?_⟩
    obtain ⟨entry, hentry, rfl⟩ := List.mem_map.1 (hkeys property hproperty)
    have hsaid : entry.meaning ∈ writer.said map := hmeaning ▸ List.mem_map_of_mem hentry
    obtain ⟨element, attrs, format, value, hmem, hformat, -, heq⟩ := format_of_mem_said hcatalog hknown hsaid
    exact ⟨element, List.mem_map_of_mem hmem, format, hformat, (congrArg Prod.fst heq).symm⟩

end

/-! ## Bare values leak -/

/-- A script on a click, behind a value that it ends. -/
def smuggled : Text := "; jsClick: x"

/-- For each bare element, attributes that smuggle in a script, and what is left of the value. -/
def leaks : List (String × List (String × String) × String) :=
  [("lineStyle", [("thickness", "7; jsClick: x")], "thickness=7"),
   ("coords", [("x", "1"), ("y", "2; jsClick: x")], "1 2"),
   ("spreadsheetTrace", [("traceColumn1", "1; jsClick: x")], "column=1"),
   ("tableview", [("column", "1; jsClick: x")], "1"),
   ("startPoint", [("0.x", "1"), ("0.y", "2; jsClick: x")], "1 2"),
   ("labelOffset", [("x", "1"), ("y", "2; jsClick: x")], "1 2"),
   ("absoluteScreenLocation", [("x", "1"), ("y", "2; jsClick: x")], "1 2"),
   ("eqnStyle", [("style", "implicit; jsClick: x")], "implicit"),
   ("font", [("sizeM", "2; jsClick: x")], "*2"),
   ("boundingBox", [("width", "1; jsClick: x")], "width=1"),
   ("contentSize", [("width", "1; jsClick: x")], "width=1"),
   ("cropBox", [("width", "1; jsClick: x")], "width=1"),
   ("dimensions", [("width", "1; jsClick: x")], "width=1"),
   ("arcSize", [("val", "7; jsClick: x")], "7"),
   ("decimals", [("val", "7; jsClick: x")], "7"),
   ("layer", [("val", "7; jsClick: x")], "7"),
   ("length", [("val", "7; jsClick: x")], "7"),
   ("selectedIndex", [("val", "7; jsClick: x")], "7"),
   ("significantfigures", [("val", "7; jsClick: x")], "7"),
   ("slopeTriangleSize", [("val", "7; jsClick: x")], "7"),
   ("fading", [("val", "7; jsClick: x")], "7"),
   ("ordering", [("val", "7; jsClick: x")], "7"),
   ("pointSize", [("val", "7; jsClick: x")], "7")]

/-- The format writes the value with the script behind it, and reads the value alone. -/
structure Leaks (format : PropertyFormat) (attrs : Attributes) (value : Text) : Prop where
  given : attrs.isEmpty = false
  written : format.encode attrs = some (value ++ smuggled)
  closed : Lexeme.Closed (· = '}') value
  nonempty : value ≠ []
  read : (format.decode value).isOk
  other : format.name ≠ "jsClick"

instance (format : PropertyFormat) (attrs : Attributes) (value : Text) : Decidable (Leaks format attrs value) :=
  decidable_of_iff (attrs.isEmpty = false ∧ format.encode attrs = some (value ++ smuggled) ∧
      Lexeme.Closed (· = '}') value ∧ value ≠ [] ∧ (format.decode value).isOk ∧ format.name ≠ "jsClick")
    ⟨fun ⟨h1, h2, h3, h4, h5, h6⟩ => ⟨h1, h2, h3, h4, h5, h6⟩,
      fun ⟨h1, h2, h3, h4, h5, h6⟩ => ⟨h1, h2, h3, h4, h5, h6⟩⟩

theorem leaks_cover : leaks.map (·.1.toList) = bareElements := by decide +kernel

theorem leaks_hold : ∀ leak ∈ leaks, ∃ format ∈ Catalog.builtIn.find? (·.element = leak.1.toList),
    Leaks format (.table leak.2.1) leak.2.2 := by decide +kernel

theorem format?_jsClick : Catalog.standard.format? "jsClick" = some (ScriptProperty.click "jsClick").format := by
  have hmem : (ScriptProperty.click "jsClick").format ∈ Catalog.builtIn := by simp [Catalog.builtIn]
  have hfound := Catalog.format?_of_mem hmem
  exact hfound

theorem style?_of_leaks {element : Text} {format : PropertyFormat} {attrs : Attributes} {value : Text}
    (hformat : Catalog.standard.forElement? element = some format) (h : Leaks format attrs value) :
    ({} : SheetWriter).style? "s" (OrderedMap.ofList [(element, attrs)]) =
      some (SheetWriter.definition "s" (Text.join "; "
        ([(format.name, Action.set value), ("jsClick".toList, Action.set "x")].map fun e => e.2.text e.1))) := by
  have hsaid : ({} : SheetWriter).said (OrderedMap.ofList [(element, attrs)]) =
      [(format.name, .set (value ++ smuggled))] := by
    show List.filterMap _ [(element, attrs)] = _
    simp only [List.filterMap_cons, List.filterMap_nil, SheetWriter.said?, hformat, SheetWriter.formatFor,
      Option.bind_some, h.given, Bool.false_eq_true, if_false, h.written, Option.map_some]
  have htext : ∀ {v : Text}, v ≠ [] → (Action.set v).text format.name = format.name ++ (':' :: ' ' :: v) := by
    intro v hv
    rw [Action.text_set, if_neg (by rwa [List.isEmpty_iff])]
  have hrow : Text.join "; " ([(format.name, Action.set (value ++ smuggled))].map fun e => e.2.text e.1) =
      Text.join "; "
        ([(format.name, Action.set value), ("jsClick".toList, Action.set "x")].map fun e => e.2.text e.1) := by
    show (Action.set (value ++ smuggled)).text format.name =
      (Action.set value).text format.name ++ "; " ++ "jsClick: x"
    rw [htext h.nonempty, htext (List.append_ne_nil_of_left_ne_nil h.nonempty _), List.append_assoc,
      List.append_assoc]
    rfl
  rw [SheetWriter.style?_eq, hsaid, if_neg (List.cons_ne_nil _ _), hrow]

theorem sheetOf_of_leaks {format : PropertyFormat} {attrs : Attributes} {value : Text}
    (hmem : format ∈ Catalog.builtIn) (h : Leaks format attrs value) {es : List Script.Entry}
    (hes : es.map Script.Entry.meaning = [(format.name, .set value), ("jsClick".toList, .set "x")]) :
    ∃ sheet : StyleSheet, Session.sheetOf {} "s" es = .ok sheet ∧ "jsClick".toList ∈ sheet.properties.keys := by
  obtain ⟨first, es, rfl, hfirst, hes⟩ := List.map_eq_cons_iff.1 hes
  obtain ⟨second, es, rfl, hsecond, hnil⟩ := List.map_eq_cons_iff.1 hes
  rw [List.map_eq_nil_iff] at hnil
  subst hnil
  obtain ⟨name, action, position⟩ := first
  obtain ⟨rfl, rfl⟩ := Prod.mk.inj hfirst
  obtain ⟨name, action, position'⟩ := second
  obtain ⟨rfl, rfl⟩ := Prod.mk.inj hsecond
  have hformat : ∀ {name : Text} {format : PropertyFormat} (position : Position),
      Catalog.standard.format? name = some format → Session.formatAt {} name position = .ok format := by
    intro name format position hfound
    rw [Session.formatAt, hfound]
  obtain ⟨read, hread⟩ : ∃ read, format.decode value = .ok read := by
    have := h.read
    cases hdecode : format.decode value with
    | ok read => exact ⟨read, rfl⟩
    | error cause => rw [hdecode] at this; cases this
  have hscript : (ScriptProperty.click "jsClick").format.decode "x" = .ok (some (.table [("val", "x")])) := rfl
  refine ⟨(read.elim (.named "s") ((StyleSheet.named "s").set format.name)).set "jsClick" (.table [("val", "x")]),
    ?_, ?_⟩
  · rw [Session.sheetOf, List.foldlM_cons,
      Session.entry_of_decode _ (hformat position (Catalog.format?_of_mem hmem)) hread]
    simp only [bind, Except.bind, List.foldlM_cons, List.foldlM_nil]
    rw [Session.entry_of_decode _ (hformat position' format?_jsClick) hscript]
    rfl
  · simp only [StyleSheet.set, OrderedMap.alter]
    rw [OrderedMap.keys_set]
    split
    · assumption
    · exact List.mem_append_right _ (List.mem_singleton_self _)

/-- **A map of one bare element can bring in a script.**  The writer gives a text, the session accepts it, and
its sheet has a property that stands for no element of the map. -/
theorem exists_leak {element : Text} (h : element ∈ bareElements) :
    ∃ (map : StyleMap) (text : Text), map.keys = [element] ∧ ({} : SheetWriter).style? "s" map = some text ∧
      (∃ created, (Session.run {} {} text).result = .ok created) ∧
      ¬ Contained "s" map {} (Session.run {} {} text) := by
  rw [← leaks_cover] at h
  obtain ⟨leak, hleak, rfl⟩ := List.mem_map.1 h
  obtain ⟨format, hfind, hleaks⟩ := leaks_hold leak hleak
  have hformat : Catalog.standard.forElement? leak.1 = some format := by
    rw [Catalog.forElement?_standard]
    exact hfind
  obtain ⟨hmem, -⟩ := Catalog.mem_of_forElement? hformat
  have hlegible : ∀ e ∈ [(format.name, Action.set leak.2.2), ("jsClick".toList, Action.set "x")],
      Legible e.1 e.2 := by
    intro e he
    rcases List.mem_cons.1 he with rfl | he
    · exact ⟨isPropertyName_of_mem_builtIn format hmem, fun v hv => Action.set.inj hv ▸ hleaks.closed⟩
    · rw [List.mem_singleton.1 he]
      exact ⟨by decide, fun v hv => Action.set.inj hv ▸ by decide⟩
  obtain ⟨es, hread, hmeaning⟩ := Script.read_definition (show IsName "s" by decide) hlegible
  obtain ⟨sheet, hsheet, hscript⟩ := sheetOf_of_leaks hmem hleaks hmeaning
  have hrun := @Session.run_of_read_definition {} _ _ _ _ {} hread
  rw [hsheet] at hrun
  refine ⟨OrderedMap.ofList [(leak.1.toList, .table leak.2.1)], _, rfl, style?_of_leaks hformat hleaks, ?_, ?_⟩
  · rw [hrun]
    exact ⟨[], rfl⟩
  · intro hcontained
    obtain ⟨only, hsheets, -, hproperties⟩ := hcontained.sheets
    rw [hrun] at hsheets
    -- the sheet is the one that has the script
    have honly : sheet = only := congrArg Prod.snd (List.head_eq_of_cons_eq (congrArg OrderedMap.pairs hsheets))
    obtain ⟨element, helement, other, hother, hname⟩ := hproperties _ (honly ▸ hscript)
    rw [List.mem_singleton.1 helement, hformat] at hother
    exact hleaks.other (Option.some.inj hother ▸ hname)

/-- Whatever the attributes of these elements hold, a definition that is written of them and accepted is
contained. -/
def Trusted (elements : List Text) : Prop :=
  ∀ (writer : SheetWriter) (session : Session) (world : World) (map : StyleMap) (name text : Text),
    writer.catalog = .standard → session.catalog = .standard → (∀ element ∈ map.keys, element ∈ elements) →
    IsName name → writer.style? name map = some text →
    (∃ created, (session.run world text).result = .ok created) →
    Contained name map world (session.run world text)

/-- **Elements of the catalog may hold any text if and only if none of them is bare.** -/
theorem trusted_iff {elements : List Text}
    (hknown : ∀ element ∈ elements, (Catalog.standard.forElement? element).isSome) :
    Trusted elements ↔ ∀ element ∈ elements, element ∉ bareElements := by
  constructor
  · intro h element helement hbare
    obtain ⟨map, text, hkeys, hwritten, haccepted, hleak⟩ := exists_leak hbare
    refine hleak (h {} {} {} map "s" text rfl rfl (fun k hk => ?_) (by decide) hwritten haccepted)
    rw [hkeys] at hk
    exact List.mem_singleton.1 hk ▸ helement
  · intro h writer session world map name text hcatalog _ hkeys hname hwritten haccepted
    refine contained_of_closed hcatalog (fun element he => hknown element (hkeys element he)) ?_ hname hwritten
      haccepted
    intro element attrs format value hmem hformat hvalue
    obtain ⟨hbuiltIn, helement⟩ := Catalog.mem_of_forElement? hformat
    refine closed_of_mem_builtIn format hbuiltIn ?_ hvalue
    rw [helement]
    exact h element (hkeys element (List.mem_map_of_mem hmem))

theorem trusted_caption_not_pointSize : Trusted ["caption", "objColor"] ∧ ¬ Trusted ["caption", "pointSize"] := by
  refine ⟨(trusted_iff ?_).2 (by decide), fun h => (trusted_iff ?_).1 h "pointSize" (by decide) (by decide)⟩
  · simp only [Catalog.forElement?_standard]
    decide +kernel
  · simp only [Catalog.forElement?_standard]
    decide +kernel

end StyleScript
