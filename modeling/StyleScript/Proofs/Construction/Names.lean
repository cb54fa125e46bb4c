import StyleScript.Proofs.Construction.Lines
import StyleScript.Proofs.Script.Written
/-!
# Which sheet names can be read

A sheet is named by a label with an ending, or by a lead with a number.  Numbered names are names as soon as
their lead is.  A label is more than a name may be: it can hold `'`, `$` and subscripts, and then its sheet
cannot be read again.  So all written names are readable exactly when every label that names a sheet is itself
a name (`sheetNames_isName_iff`).
-/
namespace StyleScript.Construction

open Script (IsName IsLabel isName_iff)

/-! ## The shapes of names -/

theorem continuesName_of_isDigit {c : Char} (h : c.isDigit) : Text.continuesName c :=
  Text.forall_isDigit (P := fun c => Text.continuesName c) (by decide) h

/-- An ending of characters that go on a name makes a name of a name, and of nothing else. -/
theorem isName_append_iff {label ending : Text} (hlabel : label ≠ [])
    (hending : ∀ c ∈ ending, Text.continuesName c) : IsName (label ++ ending) ↔ IsName label := by
  obtain ⟨c, rest, rfl⟩ := List.exists_cons_of_ne_nil hlabel
  rw [isName_iff, isName_iff]
  constructor
  · rintro ⟨d, more, heq, hd, hmore⟩
    obtain ⟨rfl, rfl⟩ := List.cons.inj heq
    exact ⟨c, rest, rfl, hd, fun x hx => hmore x (List.mem_append_left _ hx)⟩
  · rintro ⟨d, more, heq, hd, hmore⟩
    obtain ⟨rfl, rfl⟩ := List.cons.inj heq
    refine ⟨c, rest ++ ending, rfl, hd, fun x hx => ?_⟩
    rcases List.mem_append.1 hx with hx | hx
    · exact hmore x hx
    · exact hending x hx

theorem isName_numbered {names : SheetNames} (h : IsName names.lead) (n : Nat) : IsName (names.numbered n) :=
  (isName_append_iff h.ne_nil fun _ hc => continuesName_of_isDigit (Text.isDigit_of_mem_ofNat hc)).2 h

/-! ## Names are readable where labels are -/

/-- The page hands out readable names, and has written no others. -/
structure HandsOutNames (settings : Settings) (page : Page) : Prop where
  lead : page.names.lead = settings.sheetLead
  sheets : ∀ body name, page.sheets.get? body = some name → IsName name

/-- An object that does not share its sheet has a label that is a name. -/
def NamesItsSheet (plan : Plan) (p : Prepared) : Prop :=
  ∀ body, p.body = some body → plan.shares body = false → IsName (p.object.labels.headD [])

theorem lead_newSheet (plan : Plan) (page : Page) (label body : Text) :
    (newSheet plan page label body).2.lead = page.names.lead := by
  unfold newSheet SheetNames.claim
  split
  · rfl
  · split <;> rfl

section

variable {plan : Plan} (hlead : IsName plan.settings.sheetLead)
  (hending : ∀ c ∈ plan.settings.labelSheetEnding, Text.continuesName c)
include hlead hending

theorem isName_newSheet {page : Page} (h : HandsOutNames plan.settings page) {label body : Text}
    (hlabel : plan.shares body = false → IsName label) : IsName (newSheet plan page label body).1 := by
  have hnext : IsName page.names.next.1 := isName_numbered (h.lead ▸ hlead) _
  unfold newSheet
  split
  · exact hnext
  · next hshares =>
    have hlabel := hlabel (Bool.not_eq_true _ ▸ hshares)
    unfold SheetNames.claim
    split
    · exact hnext
    · exact (isName_append_iff hlabel.ne_nil hending).2 hlabel

theorem HandsOutNames.writeObject {page : Page} (h : HandsOutNames plan.settings page) (indent : Text)
    {p : Prepared} (hp : NamesItsSheet plan p) : HandsOutNames plan.settings (writeObject plan indent page p) ∧
      ∀ line ∈ linesFor plan page p, ∀ name, line.sheet? = some name → IsName name := by
  obtain ⟨-, hlines, hpage⟩ | ⟨body, name, -, hshared, hlines, hpage⟩ |
    ⟨body, name, names, hbody, -, hnew, hlines, hpage⟩ := writeObject_cases plan indent page p
  · rw [hlines, hpage]
    refine ⟨⟨h.lead, h.sheets⟩, fun line hline name hname => ?_⟩
    rw [List.mem_singleton.1 hline] at hname
    cases hname
  · rw [hlines, hpage]
    refine ⟨⟨h.lead, h.sheets⟩, fun line hline name hname => ?_⟩
    rw [List.mem_singleton.1 hline] at hname
    exact Option.some.inj hname ▸ h.sheets body _ (Option.filter_eq_some_iff.1 hshared).1
  · have hname := isName_newSheet hlead hending h (hp body hbody)
    have hsame := lead_newSheet plan page (p.object.labels.headD []) body
    rw [hnew] at hname hsame
    rw [hlines, hpage]
    refine ⟨⟨hsame.trans h.lead, fun other used hother => ?_⟩, fun line hline written hwritten => ?_⟩
    · have hother : (page.sheets.set body name).get? other = some used := hother
      rw [OrderedMap.get?_set] at hother
      split at hother
      · exact Option.some.inj hother ▸ hname
      · exact h.sheets other used hother
    · rcases List.mem_cons.1 hline with rfl | hline
      · exact Option.some.inj hwritten ▸ hname
      · rw [List.mem_singleton.1 hline] at hwritten
        exact Option.some.inj hwritten ▸ hname

theorem isName_of_namesItsSheet (indent : Text) : ∀ {ps : List Prepared} {page : Page},
    HandsOutNames plan.settings page → (∀ p ∈ ps, NamesItsSheet plan p) →
    ∀ line ∈ linesFrom plan indent page ps, ∀ name, line.sheet? = some name → IsName name
  | [], _, _, _, _, hline, _, _ => nomatch hline
  | p :: ps, page, h, hps, line, hline, name, hname => by
    obtain ⟨hnext, hlines⟩ := h.writeObject hlead hending indent (hps p List.mem_cons_self)
    rcases List.mem_append.1 hline with hline | hline
    · exact hlines line hline name hname
    · have hrest : ∀ q ∈ ps, NamesItsSheet plan q := fun q hq => hps q (List.mem_cons_of_mem p hq)
      exact isName_of_namesItsSheet indent hnext hrest line hline name hname

end

theorem isName_of_labels {settings : Settings} {objects : List Object} (hlead : IsName settings.sheetLead)
    (hending : ∀ c ∈ settings.labelSheetEnding, Text.continuesName c)
    (hlabels : ∀ o ∈ objects, ∀ label ∈ o.labels, IsName label) (indent : Text) :
    ∀ line ∈ linesOf settings indent (preparedOf settings objects), ∀ name, line.sheet? = some name →
      IsName name := by
  refine isName_of_namesItsSheet hlead hending indent ⟨rfl, fun _ _ h => nomatch h⟩ fun p hp body _ _ => ?_
  obtain ⟨hobject, hsome⟩ := mem_of_mem_preparedOf ((arranged_perm settings _).mem_iff.1 hp)
  obtain ⟨label, rest, hcons⟩ := List.exists_cons_of_ne_nil hsome
  refine hlabels _ hobject _ ?_
  rw [hcons]
  exact List.mem_cons_self

/-! ## Labels are names where all names are readable -/

/-- A body that no two objects have is not shared. -/
theorem shared?_eq_none {settings : Settings} {indent : Text} {prepared before after : List Prepared}
    {p : Prepared} {body : Text} (harranged : arranged settings prepared = before ++ p :: after)
    (hbody : p.body = some body)
    (hshares : (planOf settings prepared).shares body = false) :
    shared? (planOf settings prepared)
      (before.foldl (writeObject (planOf settings prepared) indent) (blankPage settings)) body = none := by
  cases hshared : shared? (planOf settings prepared)
      (before.foldl (writeObject (planOf settings prepared) indent) (blankPage settings)) body with
  | none => rfl
  | some name =>
    obtain ⟨hget, hmerge⟩ := Option.filter_eq_some_iff.1 hshared
    have hknows := (knows_start settings.sheetLead).foldl (planOf settings prepared) indent before
    have hwrites := writes_linesFrom (planOf settings prepared) indent before (knows_start settings.sheetLead)
    obtain ⟨q, hq, hqbody⟩ := hwrites.exists_body (hknows.sheets body name hget)
    -- the body counts once for that object and once more for this one
    have hcount : (prepared.filterMap (·.body)).count body =
        ((arranged settings prepared).filterMap (·.body)).count body :=
      (((arranged_perm settings prepared).filterMap (·.body)).count_eq body).symm
    have hbefore : 0 < (before.filterMap (·.body)).count body :=
      List.count_pos_iff.2 (List.mem_filterMap.2 ⟨q, hq, hqbody⟩)
    rw [harranged, List.filterMap_append, List.filterMap_cons, hbody, List.count_append,
      List.count_cons_self] at hcount
    have hmerge : settings.mergeStyleSheets = true := hmerge
    have hshares : (settings.mergeStyleSheets && decide (1 < (prepared.filterMap (·.body)).count body)) = false :=
      hshares
    rw [hmerge, Bool.true_and, decide_eq_false_iff_not] at hshares
    omega

/-- A sheet of one object has the name that its label gives it, or another sheet has this name already. -/
theorem exists_line_of_not_shares (settings : Settings) (indent : Text) {prepared : List Prepared} {p : Prepared}
    (hp : p ∈ prepared) {body : Text} (hbody : p.body = some body)
    (hshares : (planOf settings prepared).shares body = false) :
    ∃ line ∈ linesOf settings indent prepared,
      line.sheet? = some (p.object.labels.headD [] ++ settings.labelSheetEnding) := by
  obtain ⟨before, after, harranged⟩ := List.append_of_mem ((arranged_perm settings prepared).mem_iff.2 hp)
  have hnone := @shared?_eq_none _ indent _ _ _ _ _ harranged hbody hshares
  have hknows := (knows_start settings.sheetLead).foldl (planOf settings prepared) indent before
  generalize hwanted : p.object.labels.headD [] ++ settings.labelSheetEnding = wanted
  rw [linesOf, harranged, linesFrom_append]
  change Knows (before.foldl (writeObject (planOf settings prepared) indent) (blankPage settings)) _ at hknows
  generalize before.foldl (writeObject (planOf settings prepared) indent) (blankPage settings) = page
    at hnone hknows ⊢
  by_cases hused : wanted ∈ page.names.used
  · -- the name is taken, so that a line before defines it
    obtain ⟨line, hline, hdefined⟩ := List.mem_filterMap.1 ((hknows.used wanted).1 hused)
    refine ⟨line, List.mem_append_left _ hline, ?_⟩
    cases line with
    | definition name body => exact hdefined
    | statement p sheet => cases hdefined
  · refine ⟨.definition wanted body, List.mem_append_right _ (List.mem_append_left _ ?_), rfl⟩
    have hnew : (newSheet (planOf settings prepared) page (p.object.labels.headD []) body).1 = wanted := by
      rw [newSheet, hshares]
      simp only [Bool.false_eq_true, if_false]
      rw [show (planOf settings prepared).settings = settings from rfl, hwanted, SheetNames.claim,
        if_neg (by rwa [List.contains_iff_mem])]
    rw [linesFor, hbody]
    simp only [hnone, hnew]
    exact List.mem_cons_self

/-- **The written sheet names are readable exactly when every label that names a sheet is a name.**  The names are
those in the lines of a construction, which are what is written of it. -/
theorem sheetNames_isName_iff (settings : Settings) (indent : Text) (objects : List Object)
    (hlead : IsName settings.sheetLead) (hending : ∀ c ∈ settings.labelSheetEnding, Text.continuesName c)
    (hlabels : ∀ o ∈ objects, ∀ label ∈ o.labels, IsLabel label) :
    lines settings indent objects = render indent (linesOf settings indent (preparedOf settings objects)) ∧
    ((∀ line ∈ linesOf settings indent (preparedOf settings objects), ∀ name, line.sheet? = some name →
        IsName name) ↔
      ∀ p ∈ preparedOf settings objects, NamesItsSheet (planOf settings (preparedOf settings objects)) p) := by
  refine ⟨lines_eq settings indent objects, fun hnames p hp body hbody hshares => ?_, fun hall => ?_⟩
  · obtain ⟨hobject, hsome⟩ := mem_of_mem_preparedOf hp
    have hlabel : p.object.labels.headD [] ≠ [] := by
      obtain ⟨label, rest, hcons⟩ := List.exists_cons_of_ne_nil hsome
      have := hlabels _ hobject label (by rw [hcons]; exact List.mem_cons_self)
      rw [hcons]
      exact this.ne_nil
    obtain ⟨line, hline, hsheet⟩ := exists_line_of_not_shares settings indent hp hbody hshares
    exact (isName_append_iff hlabel hending).1 (hnames line hline _ hsheet)
  · refine isName_of_namesItsSheet hlead hending indent ⟨rfl, fun _ _ h => nomatch h⟩ fun p hp => ?_
    exact hall p ((arranged_perm settings _).mem_iff.1 hp)

/-- A point whose label is no name, with a style of its own. -/
def primed : Object where
  labels := ["A'"]
  typeName := "point"
  rhs := "(1, 2)"
  style := OrderedMap.ofList
    [("show", .table [("object", "true"), ("label", "true")]), ("pointSize", .table [("val", "9")])]

theorem not_isName_of_primed :
    ¬ ∀ line ∈ linesOf {} [] (preparedOf {} [primed]), ∀ name, line.sheet? = some name → IsName name := by
  intro h
  have hnames := (sheetNames_isName_iff {} [] [primed] (by decide) (List.all_eq_true.1 rfl) (by decide)).2.1 h
  have hbody : (prepare {} primed).body = some "pointSize: 9".toList := by decide +kernel
  have hshares : (planOf {} [prepare {} primed]).shares "pointSize: 9".toList = false := by
    rw [planOf, List.filterMap_cons_some hbody]
    rfl
  exact absurd (hnames _ (List.mem_singleton_self _) _ hbody hshares) (by decide)

end StyleScript.Construction
