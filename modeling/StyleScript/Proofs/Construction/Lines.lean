import StyleScript.Proofs.Construction.Order
import StyleScript.Proofs.Number.Decimals
/-!
# The lines of a construction

What is written of a construction is a row of lines: statements, and before them the definitions of their
sheets (`lines_eq`).  A name is handed out once, so no definition takes the place of another one, and a
statement that names a sheet stands behind the definition of this sheet with its own body (`writes_linesFrom`).

Of the numbered names that are tried one more than can be taken are distinct, and so one of them is free.
-/
namespace StyleScript.Construction

/-! ## Free names -/

namespace SheetNames

theorem numbered_injective (names : SheetNames) {m n : Nat} (h : names.numbered m = names.numbered n) : m = n :=
  Text.ofNat_injective (List.append_cancel_left h)

/-- **The next name is free.** -/
theorem next_not_mem (names : SheetNames) : names.next.1 ∉ names.used := by
  -- otherwise all the names tried, which are distinct, are taken
  by_contra hused
  have hall : ∀ n ∈ List.range' (names.counter + 1) (names.used.length + 1), names.numbered n ∈ names.used := by
    intro n hn
    by_contra hfree
    cases hfind : (List.range' (names.counter + 1) (names.used.length + 1)).find? fun n =>
        !names.used.contains (names.numbered n) with
    | none =>
      have := List.find?_eq_none.1 hfind n hn
      simp [hfree] at this
    | some m =>
      have hm := List.find?_some hfind
      simp only [next, nextNumber, hfind, Option.getD_some] at hused
      simp [hused] at hm
  have hnodup : ((List.range' (names.counter + 1) (names.used.length + 1)).map names.numbered).Nodup :=
    List.Nodup.map (fun _ _ h => names.numbered_injective h) List.nodup_range'
  have hsubset : (List.range' (names.counter + 1) (names.used.length + 1)).map names.numbered ⊆ names.used := by
    intro name hname
    obtain ⟨n, hn, rfl⟩ := List.mem_map.1 hname
    exact hall n hn
  have hlength := hnodup.length_le_of_subset hsubset
  simp only [List.length_map, List.length_range'] at hlength
  omega

theorem used_next (names : SheetNames) : names.next.2.used = names.next.1 :: names.used := rfl

theorem claim_not_mem (names : SheetNames) (wanted : Text) : (names.claim wanted).1 ∉ names.used := by
  unfold claim
  split
  · exact names.next_not_mem
  · next h => simpa using h

theorem used_claim (names : SheetNames) (wanted : Text) :
    (names.claim wanted).2.used = (names.claim wanted).1 :: names.used := by
  unfold claim
  split <;> rfl

end SheetNames

/-! ## Lines -/

inductive Line where
  | definition (name body : Text)
  | statement (p : Prepared) (sheet : Option Text)

def Line.text : Line → Text
  | definition name body => SheetWriter.definition name body
  | statement p sheet => Construction.statement p sheet

def Line.sheet? : Line → Option Text
  | definition name _ => some name
  | statement _ sheet => sheet

def Line.defined? : Line → Option Text
  | definition name _ => some name
  | statement _ _ => none

/-- The object whose statement the line is. -/
def Line.object? : Line → Option Prepared
  | definition _ _ => none
  | statement p _ => some p

/-- The names of the sheets that lines define. -/
def definedIn (lines : List Line) : List Text := lines.filterMap Line.defined?

theorem definedIn_statement (before : List Line) (p : Prepared) (sheet : Option Text) :
    definedIn (before ++ [.statement p sheet]) = definedIn before :=
  (List.filterMap_append ..).trans (List.append_nil _)

theorem definedIn_definition (before : List Line) (name body : Text) :
    definedIn (before ++ [.definition name body]) = definedIn before ++ [name] :=
  List.filterMap_append ..

def render (indent : Text) (lines : List Line) : Text := lines.flatMap fun line => indent ++ line.text ++ ['\n']

theorem render_append (indent : Text) (a b : List Line) :
    render indent (a ++ b) = render indent a ++ render indent b := List.flatMap_append ..

section

variable (plan : Plan) (indent : Text)

/-- The name for a sheet that is not written yet. -/
def newSheet (page : Page) (label body : Text) : Text × SheetNames :=
  if plan.shares body then page.names.next else page.names.claim (label ++ plan.settings.labelSheetEnding)

/-- The sheet that is written already and is to be shared. -/
def shared? (page : Page) (body : Text) : Option Text :=
  (page.sheets.get? body).filter fun _ => plan.settings.mergeStyleSheets

def linesFor (page : Page) (p : Prepared) : List Line :=
  match p.body with
  | none => [.statement p none]
  | some body =>
    match shared? plan page body with
    | some name => [.statement p (some name)]
    | none =>
      let name := (newSheet plan page (p.object.labels.headD []) body).1
      [.definition name body, .statement p (some name)]

def linesFrom : Page → List Prepared → List Line
  | _, [] => []
  | page, p :: ps => linesFor plan page p ++ linesFrom (writeObject plan indent page p) ps

theorem sheetFor_of_shared {page : Page} {body name : Text} (label : Text)
    (h : shared? plan page body = some name) : sheetFor plan indent page label body = (name, page) := by
  have h : (page.sheets.get? body).filter (fun _ => plan.settings.mergeStyleSheets) = some name := h
  rw [sheetFor, h]

theorem sheetFor_of_new {page : Page} {body : Text} (label : Text) (h : shared? plan page body = none) :
    sheetFor plan indent page label body =
      ((newSheet plan page label body).1,
        { page with
          names := (newSheet plan page label body).2,
          sheets := page.sheets.set body (newSheet plan page label body).1,
          text := page.text ++ indent ++ SheetWriter.definition (newSheet plan page label body).1 body ++ ['\n'] }) := by
  have h : (page.sheets.get? body).filter (fun _ => plan.settings.mergeStyleSheets) = none := h
  rw [sheetFor, h]
  rfl

/-- **What writing an object does.**  It adds its statement, and in front of it a new sheet unless the object has no
body or shares a sheet that is written already. -/
theorem writeObject_cases (page : Page) (p : Prepared) :
    (p.body = none ∧ linesFor plan page p = [.statement p none] ∧
      writeObject plan indent page p = page.line indent (Line.statement p none).text) ∨
    (∃ body name, p.body = some body ∧ shared? plan page body = some name ∧
      linesFor plan page p = [.statement p (some name)] ∧
      writeObject plan indent page p = page.line indent (Line.statement p (some name)).text) ∨
    ∃ body name names, p.body = some body ∧ shared? plan page body = none ∧
      newSheet plan page (p.object.labels.headD []) body = (name, names) ∧
      linesFor plan page p = [.definition name body, .statement p (some name)] ∧
      writeObject plan indent page p =
        (({ page with names, sheets := page.sheets.set body name } : Page).line indent
          (Line.definition name body).text).line indent (Line.statement p (some name)).text := by
  unfold writeObject linesFor
  cases hbody : p.body with
  | none => exact .inl ⟨rfl, rfl, rfl⟩
  | some body =>
    cases hshared : shared? plan page body with
    | some name =>
      simp only [sheetFor_of_shared plan indent _ hshared, hshared]
      exact .inr (.inl ⟨body, name, rfl, hshared, rfl, rfl⟩)
    | none =>
      simp only [sheetFor_of_new plan indent _ hshared, hshared]
      exact .inr (.inr ⟨body, _, _, rfl, hshared, rfl, rfl, rfl⟩)

theorem text_line (page : Page) (line : Line) :
    (page.line indent line.text).text = page.text ++ render indent [line] := by
  simp [Page.line, render]

theorem text_writeObject (page : Page) (p : Prepared) :
    (writeObject plan indent page p).text = page.text ++ render indent (linesFor plan page p) := by
  obtain ⟨-, hlines, hpage⟩ | ⟨body, name, -, -, hlines, hpage⟩ | ⟨body, name, names, -, -, -, hlines, hpage⟩ :=
    writeObject_cases plan indent page p
  · rw [hlines, hpage, text_line]
  · rw [hlines, hpage, text_line]
  · rw [hlines, hpage, text_line, text_line, List.append_assoc, ← render_append]
    rfl

theorem text_foldl_writeObject : ∀ (ps : List Prepared) (page : Page),
    (ps.foldl (writeObject plan indent) page).text = page.text ++ render indent (linesFrom plan indent page ps)
  | [], page => by simp [linesFrom, render]
  | p :: ps, page => by
    rw [List.foldl_cons, text_foldl_writeObject ps, text_writeObject, linesFrom, render_append, List.append_assoc]

theorem linesFrom_append : ∀ (a b : List Prepared) (page : Page),
    linesFrom plan indent page (a ++ b) =
      linesFrom plan indent page a ++ linesFrom plan indent (a.foldl (writeObject plan indent) page) b
  | [], _, _ => rfl
  | p :: a, b, page => by
    rw [List.cons_append, linesFrom, linesFrom, linesFrom_append a b, List.append_assoc]
    rfl

/-- An object is written as its statement, behind a definition or none. -/
theorem exists_linesFor (page : Page) (p : Prepared) : ∃ own sheet,
    linesFor plan page p = own ++ [.statement p sheet] ∧ own.filterMap Line.object? = [] := by
  obtain ⟨-, hlines, -⟩ | ⟨body, name, -, -, hlines, -⟩ | ⟨body, name, names, -, -, -, hlines, -⟩ :=
    writeObject_cases plan [] page p
  · exact ⟨[], none, hlines, rfl⟩
  · exact ⟨[], some name, hlines, rfl⟩
  · exact ⟨[.definition name body], some name, hlines, rfl⟩

/-- **Every object is stated once**, in the order in which they are written. -/
theorem objects_linesFrom : ∀ (ps : List Prepared) (page : Page),
    (linesFrom plan indent page ps).filterMap Line.object? = ps
  | [], _ => rfl
  | p :: ps, page => by
    obtain ⟨own, sheet, hlines, hown⟩ := exists_linesFor plan page p
    rw [linesFrom, List.filterMap_append, objects_linesFrom ps, hlines, List.filterMap_append, hown]
    rfl

/-! ## What a page knows -/

/-- The page knows the lines written so far: which names are used, that each is defined once, and which sheet has
which body. -/
structure Knows (page : Page) (before : List Line) : Prop where
  used : ∀ name, name ∈ page.names.used ↔ name ∈ definedIn before
  once : (definedIn before).Nodup
  sheets : ∀ body name, page.sheets.get? body = some name → .definition name body ∈ before

theorem knows_start (lead : Text) : Knows { names := { lead := lead } } [] where
  used _ := Iff.rfl
  once := List.nodup_nil
  sheets _ _ h := nomatch h

theorem Knows.statement {page : Page} {before : List Line} (h : Knows page before) (p : Prepared)
    (sheet : Option Text) (indent line : Text) : Knows (page.line indent line) (before ++ [.statement p sheet]) where
  used name := by
    rw [definedIn_statement]
    exact h.used name
  once := by
    rw [definedIn_statement]
    exact h.once
  sheets body name hb := List.mem_append_left _ (h.sheets body name hb)

theorem newSheet_spec (page : Page) (label body : Text) :
    (newSheet plan page label body).1 ∉ page.names.used ∧
      (newSheet plan page label body).2.used = (newSheet plan page label body).1 :: page.names.used := by
  unfold newSheet
  split
  · exact ⟨page.names.next_not_mem, page.names.used_next⟩
  · exact ⟨page.names.claim_not_mem _, page.names.used_claim _⟩

theorem Knows.definition {page : Page} {before : List Line} (h : Knows page before) {names : SheetNames}
    {name : Text} (hfree : name ∉ page.names.used) (hused : names.used = name :: page.names.used) (body : Text) :
    Knows { page with names, sheets := page.sheets.set body name } (before ++ [.definition name body]) where
  used other := by
    show other ∈ names.used ↔ _
    rw [hused, List.mem_cons, definedIn_definition, List.mem_append, List.mem_singleton, h.used other, or_comm]
  once := by
    rw [definedIn_definition, List.nodup_append]
    refine ⟨h.once, List.pairwise_singleton .., fun a ha b hb hab => hfree ((h.used name).2 ?_)⟩
    rw [← List.mem_singleton.1 hb, ← hab]
    exact ha
  sheets body' name' hb := by
    have hb : (page.sheets.set body name).get? body' = some name' := hb
    rw [OrderedMap.get?_set] at hb
    split at hb
    · next heq =>
      rw [← Option.some.inj hb, heq]
      exact List.mem_append_right _ (List.mem_singleton_self _)
    · exact List.mem_append_left _ (h.sheets body' name' hb)

theorem Knows.line {page : Page} {before : List Line} (h : Knows page before) (line : Text) :
    Knows (page.line indent line) before := ⟨h.used, h.once, h.sheets⟩

theorem Knows.writeObject {page : Page} {before : List Line} (h : Knows page before) (p : Prepared) :
    Knows (writeObject plan indent page p) (before ++ linesFor plan page p) := by
  obtain ⟨-, hlines, hpage⟩ | ⟨body, name, -, -, hlines, hpage⟩ | ⟨body, name, names, -, -, hnew, hlines, hpage⟩ :=
    writeObject_cases plan indent page p
  · rw [hlines, hpage]
    exact h.statement p none indent _
  · rw [hlines, hpage]
    exact h.statement p (some name) indent _
  · obtain ⟨hfree, hused⟩ := newSheet_spec plan page (p.object.labels.headD []) body
    rw [hnew] at hfree hused
    have hdef := (h.definition hfree hused body).line indent (Line.definition name body).text
    have := hdef.statement p (some name) indent (Line.statement p (some name)).text
    rw [hlines, hpage]
    rwa [List.append_assoc] at this

theorem Knows.foldl : ∀ (ps : List Prepared) {page : Page} {before : List Line}, Knows page before →
    Knows (ps.foldl (Construction.writeObject plan indent) page) (before ++ linesFrom plan indent page ps)
  | [], page, before, h => by rwa [linesFrom, List.append_nil]
  | p :: ps, page, before, h => by
    rw [linesFrom, ← List.append_assoc]
    exact Knows.foldl ps (h.writeObject plan indent p)

/-! ## Statements stand behind their sheets -/

/-- The sheet that a statement names is defined before with the body of its object; without a body it names
none. -/
def Sheeted (before : List Line) (p : Prepared) (sheet : Option Text) : Prop :=
  match p.body with
  | none => sheet = none
  | some body => ∃ name, sheet = some name ∧ .definition name body ∈ before

/-- Lines that write some objects: for each its statement, and in front of it at most one definition. -/
inductive Writes : List Line → List Prepared → List Line → Prop where
  | nil (before : List Line) : Writes before [] []
  | cons {before own lines : List Line} {p : Prepared} {ps : List Prepared} {sheet : Option Text}
      (single : own = [] ∨ ∃ name body, own = [.definition name body] ∧ p.body = some body)
      (sheeted : Sheeted (before ++ own) p sheet)
      (rest : Writes (before ++ own ++ [.statement p sheet]) ps lines) :
      Writes before (p :: ps) (own ++ .statement p sheet :: lines)

theorem linesFor_spec {page : Page} {before : List Line} (h : Knows page before) (p : Prepared) :
    ∃ own sheet, linesFor plan page p = own ++ [.statement p sheet] ∧
      (own = [] ∨ ∃ name body, own = [.definition name body] ∧ p.body = some body) ∧
      Sheeted (before ++ own) p sheet := by
  unfold Sheeted
  obtain ⟨hbody, hlines, -⟩ | ⟨body, name, hbody, hshared, hlines, -⟩ | ⟨body, name, names, hbody, -, -, hlines, -⟩ :=
    writeObject_cases plan [] page p
  · exact ⟨[], none, hlines, .inl rfl, by rw [hbody]⟩
  · have hdefined := h.sheets body name (Option.filter_eq_some_iff.1 hshared).1
    refine ⟨[], some name, hlines, .inl rfl, ?_⟩
    rw [hbody]
    exact ⟨name, rfl, List.mem_append_left _ hdefined⟩
  · refine ⟨[.definition name body], some name, hlines, .inr ⟨name, body, rfl, hbody⟩, ?_⟩
    rw [hbody]
    exact ⟨name, rfl, List.mem_append_right _ (List.mem_singleton_self _)⟩

/-- **Every object is written as one statement behind the definition of its sheet.** -/
theorem writes_linesFrom : ∀ (ps : List Prepared) {page : Page} {before : List Line}, Knows page before →
    Writes before ps (linesFrom plan indent page ps)
  | [], _, before, _ => .nil before
  | p :: ps, page, before, h => by
    have hnext := writes_linesFrom ps (h.writeObject plan indent p)
    obtain ⟨own, sheet, hlines, hsingle, hsheeted⟩ := linesFor_spec plan h p
    rw [linesFrom, hlines, List.append_assoc, List.singleton_append]
    rw [hlines, ← List.append_assoc] at hnext
    exact .cons hsingle hsheeted hnext

end

theorem Writes.exists_body {before lines : List Line} {ps : List Prepared} (h : Writes before ps lines)
    {name body : Text} (hmem : .definition name body ∈ lines) : ∃ p ∈ ps, p.body = some body := by
  induction h with
  | nil => cases hmem
  | @cons before own lines p ps sheet single sheeted rest ih =>
    rcases List.mem_append.1 hmem with hown | hlater
    · rcases single with rfl | ⟨name', body', rfl, hbody⟩
      · cases hown
      · obtain ⟨-, rfl⟩ := Line.definition.inj (List.mem_singleton.1 hown)
        exact ⟨p, List.mem_cons_self, hbody⟩
    · rcases List.mem_cons.1 hlater with hstatement | hlater
      · cases hstatement
      · obtain ⟨q, hq, hbody⟩ := ih hlater
        exact ⟨q, List.mem_cons_of_mem p hq, hbody⟩

theorem Writes.mem_of_statement {before lines : List Line} {ps : List Prepared} (h : Writes before ps lines)
    {p : Prepared} {sheet : Option Text} (hmem : .statement p sheet ∈ lines) : p ∈ ps := by
  induction h with
  | nil => cases hmem
  | @cons before own lines q ps _ single _ _ ih =>
    rcases List.mem_append.1 hmem with hown | hlater
    · rcases single with rfl | ⟨name, body, rfl, -⟩
      · cases hown
      · cases List.mem_singleton.1 hown
    · rcases List.mem_cons.1 hlater with hstatement | hlater
      · rw [(Line.statement.inj hstatement).1]
        exact List.mem_cons_self
      · exact List.mem_cons_of_mem q (ih hlater)

def planOf (settings : Settings) (prepared : List Prepared) : Plan := ⟨settings, prepared.filterMap (·.body)⟩

def blankPage (settings : Settings) : Page := { names := { lead := settings.sheetLead } }

def linesOf (settings : Settings) (indent : Text) (prepared : List Prepared) : List Line :=
  linesFrom (planOf settings prepared) indent (blankPage settings) (arranged settings prepared)

/-- **What is written of a construction are its lines.** -/
theorem lines_eq (settings : Settings) (indent : Text) (objects : List Object) :
    lines settings indent objects = render indent (linesOf settings indent (preparedOf settings objects)) :=
  text_foldl_writeObject ..

end StyleScript.Construction
