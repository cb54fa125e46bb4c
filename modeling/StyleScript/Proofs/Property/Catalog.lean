import Mathlib.Data.List.Induction
import Mathlib.Data.List.Nodup
import StyleScript.Property.Catalog
/-!
# What a catalog answers

A catalog that formats were entered into answers by the first of them for an element (`forElement?_enterAll`)
and by the last of them for a name (`format?_enterAll`).  The names of the built-in formats are distinct, so
in the standard catalog every built-in format is found by its own name.

The two directions agree as long as no format of an element is replaced: an element stays with the first format
even when another one has taken its name (`canonical_reads_iff`).  The list of names is kept apart from both tables
and follows the rule by which the keys of the first one come (`names_enterAll`).
-/
namespace StyleScript.Catalog

theorem forElement?_enter (catalog : Catalog) (format : PropertyFormat) (element : Text) :
    (catalog.enter format).forElement? element =
      (catalog.forElement? element).or (if format.element = element then some format else none) := by
  unfold enter forElement?
  simp only
  by_cases hknown : catalog.byElement.contains format.element
  · rw [if_pos hknown]
    split
    · next he =>
      rw [OrderedMap.contains, he] at hknown
      obtain ⟨f, hf⟩ := Option.isSome_iff_exists.1 hknown
      rw [hf]
      rfl
    · rw [Option.or_none]
  · rw [if_neg hknown, OrderedMap.get?_set]
    split
    · next he =>
      rw [OrderedMap.contains, Option.not_isSome_iff_eq_none, he] at hknown
      rw [hknown]
      rfl
    · rw [Option.or_none]

theorem forElement?_enterAll (element : Text) : ∀ (formats : List PropertyFormat) (catalog : Catalog),
    (catalog.enterAll formats).forElement? element =
      (catalog.forElement? element).or (formats.find? (·.element = element))
  | [], catalog => (Option.or_none ..).symm
  | format :: formats, catalog => by
    have ih := forElement?_enterAll element formats (catalog.enter format)
    rw [forElement?_enter, Option.or_assoc] at ih
    refine ih.trans (congrArg _ ?_)
    by_cases he : format.element = element
    · rw [if_pos he, List.find?_cons_of_pos (by simp [he])]
      rfl
    · rw [if_neg he, List.find?_cons_of_neg (by simp [he])]
      rfl

theorem format?_enter (catalog : Catalog) (format : PropertyFormat) (name : Text) :
    (catalog.enter format).format? name = if format.name = name then some format else catalog.format? name :=
  OrderedMap.get?_set ..

theorem format?_enterAll (name : Text) : ∀ (formats : List PropertyFormat) (catalog : Catalog),
    (catalog.enterAll formats).format? name =
      (formats.reverse.find? (·.name = name)).or (catalog.format? name)
  | [], _ => rfl
  | format :: formats, catalog => by
    have ih := format?_enterAll name formats (catalog.enter format)
    rw [format?_enter] at ih
    refine ih.trans ?_
    rw [List.reverse_cons, List.find?_append, Option.or_assoc]
    refine congrArg _ ?_
    by_cases hn : format.name = name
    · rw [if_pos hn, List.find?_cons_of_pos (by simp [hn])]
      rfl
    · rw [if_neg hn, List.find?_cons_of_neg (by simp [hn])]
      rfl

/-! ## The standard catalog -/

theorem forElement?_standard (element : Text) :
    standard.forElement? element = builtIn.find? (·.element = element) :=
  forElement?_enterAll element builtIn empty

theorem format?_standard (name : Text) : standard.format? name = builtIn.reverse.find? (·.name = name) :=
  (format?_enterAll name builtIn empty).trans (Option.or_none ..)

theorem names_builtIn_nodup : (builtIn.map (·.name)).Nodup := by decide +kernel

/-- **A built-in format is found by its name.** -/
theorem format?_of_mem {format : PropertyFormat} (h : format ∈ builtIn) :
    standard.format? format.name = some format := by
  rw [format?_standard]
  obtain ⟨found, hfound⟩ : ∃ found, builtIn.reverse.find? (·.name = format.name) = some found := by
    rw [← Option.isSome_iff_exists, List.find?_isSome]
    exact ⟨format, List.mem_reverse.2 h, by simp⟩
  have hmem := List.mem_reverse.1 (List.mem_of_find?_eq_some hfound)
  have hname : found.name = format.name := by simpa using List.find?_some hfound
  rw [hfound, List.inj_on_of_nodup_map names_builtIn_nodup hmem h hname]

theorem mem_of_format? {name : Text} {format : PropertyFormat} (h : standard.format? name = some format) :
    format ∈ builtIn ∧ format.name = name := by
  rw [format?_standard] at h
  exact ⟨List.mem_reverse.1 (List.mem_of_find?_eq_some h), by simpa using List.find?_some h⟩

theorem mem_of_forElement? {element : Text} {format : PropertyFormat}
    (h : standard.forElement? element = some format) : format ∈ builtIn ∧ format.element = element := by
  rw [forElement?_standard] at h
  exact ⟨List.mem_of_find?_eq_some h, by simpa using List.find?_some h⟩

/-! ## Names -/

theorem names_enter {catalog : Catalog} (h : catalog.names = catalog.byName.keys) (format : PropertyFormat) :
    (catalog.enter format).names = (catalog.enter format).byName.keys := by
  unfold enter
  simp only
  rw [OrderedMap.keys_set, h]
  by_cases hknown : format.name ∈ catalog.byName.keys
  · rw [if_pos (OrderedMap.contains_iff.2 hknown), if_pos hknown]
  · rw [if_neg (mt OrderedMap.contains_iff.1 hknown), if_neg hknown]

theorem names_eq_keys : ∀ (formats : List PropertyFormat) {catalog : Catalog},
    catalog.names = catalog.byName.keys →
    (catalog.enterAll formats).names = (catalog.enterAll formats).byName.keys
  | [], _, h => h
  | format :: formats, _, h => names_eq_keys formats (names_enter h format)

theorem enterAll_append (catalog : Catalog) (formats more : List PropertyFormat) :
    catalog.enterAll (formats ++ more) = (catalog.enterAll formats).enterAll more :=
  List.foldl_append

/-- **Each name stands once, where it was first entered.** -/
theorem names_enterAll (formats : List PropertyFormat) :
    (empty.enterAll formats).names = (formats.map (·.name)).eraseDups := by
  induction formats using List.reverseRecOn with
  | nil => rfl
  | append_singleton formats format ih =>
    have hkeys : (empty.enterAll formats).names = (empty.enterAll formats).byName.keys := names_eq_keys formats rfl
    have hmem : format.name ∈ (empty.enterAll formats).byName.keys ↔ format.name ∈ formats.map (·.name) := by
      rw [← hkeys, ih, List.mem_eraseDups]
    rw [enterAll_append, List.map_append, List.eraseDups_append, ← ih]
    show (if (empty.enterAll formats).byName.contains format.name then (empty.enterAll formats).names
      else (empty.enterAll formats).names ++ [format.name]) = _
    by_cases hknown : format.name ∈ formats.map (·.name)
    · rw [if_pos (OrderedMap.contains_iff.2 (hmem.2 hknown)), List.removeAll, List.map_singleton,
        List.filter_cons_of_neg (by simpa using hknown), List.filter_nil, List.eraseDups_nil, List.append_nil]
    · rw [if_neg (mt (hmem.1 ∘ OrderedMap.contains_iff.1) hknown), List.removeAll, List.map_singleton,
        List.filter_cons_of_pos (by simpa using hknown), List.filter_nil, List.eraseDups_cons, List.filter_nil,
        List.eraseDups_nil]

/-! ## Both directions -/

/-- The format was the first to be entered for its element. -/
def FirstOfElement (entered : List PropertyFormat) (format : PropertyFormat) : Prop :=
  ∃ before after, entered = before ++ format :: after ∧ ∀ other ∈ before, other.element ≠ format.element

/-- The format was the last to be entered under its name. -/
def LastOfName (entered : List PropertyFormat) (format : PropertyFormat) : Prop :=
  ∃ before after, entered = before ++ format :: after ∧ ∀ other ∈ after, other.name ≠ format.name

variable {entered : List PropertyFormat} {format : PropertyFormat}

theorem forElement?_empty_iff {element : Text} :
    (empty.enterAll entered).forElement? element = some format ↔
      format.element = element ∧ FirstOfElement entered format := by
  rw [forElement?_enterAll]
  show entered.find? (·.element = element) = some format ↔ _
  rw [List.find?_eq_some_iff_append, decide_eq_true_eq, FirstOfElement]
  refine and_congr_right fun helement => ?_
  simp only [helement, Bool.not_eq_true', decide_eq_false_iff_not, ne_eq]

theorem format?_empty_iff {name : Text} :
    (empty.enterAll entered).format? name = some format ↔ format.name = name ∧ LastOfName entered format := by
  rw [format?_enterAll]
  show (entered.reverse.find? (·.name = name)).or none = some format ↔ _
  rw [Option.or_none, List.find?_eq_some_iff_append, decide_eq_true_eq]
  refine and_congr_right fun hname => ?_
  simp only [Bool.not_eq_true', decide_eq_false_iff_not]
  constructor
  · rintro ⟨after, before, hentered, hafter⟩
    refine ⟨before.reverse, after.reverse, ?_, fun other h => hname ▸ hafter other (List.mem_reverse.1 h)⟩
    rw [← List.reverse_reverse entered, hentered, List.reverse_append, List.reverse_cons, List.append_assoc,
      List.singleton_append]
  · rintro ⟨before, after, rfl, hafter⟩
    refine ⟨after.reverse, before.reverse, ?_, fun other h => hname ▸ hafter other (List.mem_reverse.1 h)⟩
    rw [List.reverse_append, List.reverse_cons, List.append_assoc, List.singleton_append]

/-- **The format of an element reads its property, unless another one took its name.**  Whatever is entered into an
empty catalog or into the standard one, the names stand once each in the order of their first occurrence; an element
is answered by the first format that was entered for it, and that one is found by its name if and only if it was the
last to be entered under it. -/
theorem canonical_reads_iff {start : Catalog} {known : List PropertyFormat}
    (hstart : start = empty ∧ known = [] ∨ start = standard ∧ known = builtIn) (formats : List PropertyFormat) :
    let catalog := start.enterAll formats
    let entered := known ++ formats
    (catalog.names = (entered.map (·.name)).eraseDups ∧ catalog.names.Nodup ∧ catalog.names.length = catalog.size) ∧
      ∀ element format, catalog.forElement? element = some format →
        (format.element = element ∧ FirstOfElement entered format) ∧
        (catalog.format? format.name = some format ↔ LastOfName entered format) := by
  intro catalog entered
  have hcatalog : catalog = empty.enterAll entered := by
    rcases hstart with ⟨rfl, rfl⟩ | ⟨rfl, rfl⟩
    · rfl
    · exact (enterAll_append empty builtIn formats).symm
  have hkeys : catalog.names = catalog.byName.keys := by
    rw [hcatalog]
    exact names_eq_keys entered rfl
  refine ⟨⟨?_, ?_, ?_⟩, fun element format helement => ?_⟩
  · rw [hcatalog, names_enterAll]
  · rw [hkeys]
    exact catalog.byName.keys_nodup
  · rw [hkeys]
    exact List.length_map ..
  · rw [hcatalog] at helement ⊢
    refine ⟨forElement?_empty_iff.1 helement, ?_⟩
    rw [format?_empty_iff]
    exact and_iff_right rfl

/-- A text property `note` with a default of its own. -/
def noteFormat (default : Text) : PropertyFormat :=
  SingleValue.format { name := "note", kind := .text default [] }

/-- The element `note` stays with the first of two formats when the second one has taken its name. -/
theorem canonical_not_reads_of_replaced :
    let catalog := empty.enterAll [noteFormat "a", noteFormat "b"]
    catalog.names = ["note".toList] ∧ catalog.forElement? "note" = some (noteFormat "a") ∧
      catalog.format? "note" ≠ some (noteFormat "a") := by
  intro catalog
  have hne : noteFormat "b" ≠ noteFormat "a" := fun h =>
    absurd (congrArg PropertyFormat.defaults h) (by decide)
  obtain ⟨⟨hnames, -, -⟩, hreads⟩ :=
    canonical_reads_iff (.inl ⟨rfl, rfl⟩) [noteFormat "a", noteFormat "b"]
  have helement : catalog.forElement? "note" = some (noteFormat "a") := rfl
  refine ⟨hnames.trans (by decide), helement, fun hname => ?_⟩
  obtain ⟨before, after, hentered, hafter⟩ := (hreads _ _ helement).2.1 hname
  -- nothing can stand in front of the first format, and behind it stands one of its name
  cases before with
  | nil =>
    obtain ⟨-, rfl⟩ := List.cons.inj hentered
    exact hafter _ List.mem_cons_self rfl
  | cons first before =>
    obtain ⟨-, hentered⟩ := List.cons.inj hentered
    cases before with
    | nil => exact hne (List.cons.inj hentered).1
    | cons second before => cases before <;> cases (List.cons.inj hentered).2

end StyleScript.Catalog
