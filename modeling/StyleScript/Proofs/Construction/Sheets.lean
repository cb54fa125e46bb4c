import Mathlib.Data.List.Dedup
import StyleScript.Proofs.Construction.Lines
/-!
# The sheets of a construction

The lines of a construction define each name once, and every statement stands behind the sheet with the body of its
object (`WellSheeted`).  If equal styles are merged, a body is defined only if no sheet has it (`Merged`), so that each
body has one sheet, and objects have the same sheet exactly if they have the same body.  Otherwise every object with a
body has a sheet of its own.

The next name is the first free one behind the counter: as long as names are taken the attempts go on, and as they are
distinct, not more than are used can be (`SheetNames.tries_next`).
-/
namespace StyleScript.Construction

/-! ## Attempts -/

namespace SheetNames

/-- Attempts at a numbered name: each counts on, and the first name that is free is handed out. -/
inductive Tries : SheetNames → (attempts : Nat) → Text × SheetNames → Prop where
  | free {names : SheetNames} (h : names.numbered (names.counter + 1) ∉ names.used) :
      Tries names 1 (names.numbered (names.counter + 1),
        { names with
          counter := names.counter + 1,
          used := names.numbered (names.counter + 1) :: names.used })
  | taken {names : SheetNames} {n : Nat} {result : Text × SheetNames}
      (h : names.numbered (names.counter + 1) ∈ names.used)
      (more : Tries { names with counter := names.counter + 1 } n result) : Tries names (n + 1) result

theorem nextNumber_spec (names : SheetNames) : names.counter < names.nextNumber ∧
    ∀ n, names.counter < n → n < names.nextNumber → names.numbered n ∈ names.used := by
  have hfree : names.numbered names.nextNumber ∉ names.used := names.next_not_mem
  unfold nextNumber at hfree ⊢
  cases hfind : (List.range' (names.counter + 1) (names.used.length + 1)).find? fun n =>
      !names.used.contains (names.numbered n) with
  | none =>
    have htaken := List.find?_eq_none.1 hfind (names.counter + names.used.length + 1)
    rw [hfind] at hfree
    refine absurd ?_ hfree
    simpa using htaken (List.mem_range'_1.2 (by omega))
  | some m =>
    obtain ⟨-, hm, hbelow⟩ := List.find?_range'_eq_some.1 hfind
    refine ⟨(List.mem_range'_1.1 hm).1, fun n hlow hhigh => ?_⟩
    simpa using hbelow n hlow hhigh

theorem tries_of_taken (k : Nat) (names : SheetNames)
    (htaken : ∀ i < k, names.numbered (names.counter + 1 + i) ∈ names.used)
    (hfree : names.numbered (names.counter + 1 + k) ∉ names.used) :
    Tries names (k + 1) (names.numbered (names.counter + 1 + k),
      { names with
        counter := names.counter + 1 + k,
        used := names.numbered (names.counter + 1 + k) :: names.used }) := by
  induction k generalizing names with
  | zero => exact .free hfree
  | succ k ih =>
    have hnext : ∀ i, names.counter + 1 + (i + 1) = names.counter + 1 + 1 + i := fun i => by omega
    refine .taken (htaken 0 (Nat.succ_pos k)) ?_
    rw [hnext] at hfree ⊢
    refine ih { names with counter := names.counter + 1 } (fun i hi => ?_) hfree
    exact hnext i ▸ htaken (i + 1) (Nat.succ_lt_succ hi)

/-- **The next name is handed out** after at most one more attempt than names are used. -/
theorem tries_next (names : SheetNames) : ∃ n ≤ names.used.dedup.length + 1, Tries names n names.next := by
  obtain ⟨hlt, htaken⟩ := names.nextNumber_spec
  obtain ⟨k, hk⟩ := Nat.exists_eq_add_of_lt hlt
  have hk : names.nextNumber = names.counter + 1 + k := by omega
  have hall : ∀ i < k, names.numbered (names.counter + 1 + i) ∈ names.used :=
    fun i hi => htaken _ (by omega) (by omega)
  have hfree : names.numbered (names.counter + 1 + k) ∉ names.used := hk ▸ names.next_not_mem
  refine ⟨k + 1, Nat.succ_le_succ ?_, ?_⟩
  · -- the names that were tried in vain are distinct
    have hnodup : ((List.range k).map fun i => names.numbered (names.counter + 1 + i)).Nodup :=
      List.nodup_range.map fun a b h => Nat.add_left_cancel (names.numbered_injective h)
    have hsubset : ((List.range k).map fun i => names.numbered (names.counter + 1 + i)) ⊆ names.used.dedup := by
      intro name hname
      obtain ⟨i, hi, rfl⟩ := List.mem_map.1 hname
      exact List.mem_dedup.2 (hall i (List.mem_range.1 hi))
    have hlength := hnodup.length_le_of_subset hsubset
    rwa [List.length_map, List.length_range] at hlength
  · have htries := tries_of_taken k names hall hfree
    rwa [← hk] at htries

end SheetNames

/-! ## Definitions -/

def Line.definition? : Line → Option (Text × Text)
  | definition name body => some (name, body)
  | statement _ _ => none

/-- The sheets that lines define, names and bodies. -/
def definitions (lines : List Line) : List (Text × Text) := lines.filterMap Line.definition?

section

variable {before lines : List Line} {ps : List Prepared} {p : Prepared} {sheet : Option Text} {name body : Text}

theorem definedIn_eq (lines : List Line) : definedIn lines = (definitions lines).map Prod.fst := by
  rw [definitions, List.map_filterMap]
  refine List.filterMap_congr fun line _ => ?_
  cases line <;> rfl

theorem mem_definitions : (name, body) ∈ definitions lines ↔ .definition name body ∈ lines := by
  rw [definitions, List.mem_filterMap]
  constructor
  · rintro ⟨line, hline, heq⟩
    cases line with
    | definition n b =>
      cases heq
      exact hline
    | statement => cases heq
  · exact fun h => ⟨_, h, rfl⟩

theorem definitions_append (a b : List Line) : definitions (a ++ b) = definitions a ++ definitions b :=
  List.filterMap_append ..

theorem definitions_statement (p : Prepared) (sheet : Option Text) (rest : List Line) :
    definitions (.statement p sheet :: rest) = definitions rest := rfl

/-- Every statement of the lines stands behind its sheet. -/
theorem Writes.sheeted (h : Writes before ps lines) {above below : List Line}
    (heq : lines = above ++ .statement p sheet :: below) : Sheeted (before ++ above) p sheet := by
  induction h generalizing above with
  | nil => cases above <;> cases heq
  | @cons before own lines q ps other single sheeted rest ih =>
    rcases List.append_eq_append_iff.1 heq with ⟨more, rfl, hmore⟩ | ⟨more, rfl, hmore⟩
    · cases more with
      | nil =>
        cases hmore
        rwa [List.append_nil]
      | cons line more =>
        obtain ⟨rfl, htail⟩ := List.cons.inj hmore
        have := ih htail
        rwa [List.append_assoc, List.append_assoc, List.singleton_append] at this
    · cases more with
      | nil =>
        cases hmore
        rwa [List.append_nil] at sheeted
      | cons line more =>
        -- in front of its statement an object has no other one
        obtain ⟨rfl, -⟩ := List.cons.inj hmore
        rcases single with hown | ⟨name, body, hown, -⟩
        · cases above <;> cases hown
        · have hmem : Line.statement p sheet ∈ [Line.definition name body] := by
            rw [← hown]
            exact List.mem_append_right _ List.mem_cons_self
          cases List.mem_singleton.1 hmem

/-! ## Merging -/

section

variable (plan : Plan) (indent : Text)

/-- The page knows which bodies are defined, and each is once. -/
structure Merged (page : Page) (before : List Line) : Prop where
  known : ∀ body, page.sheets.get? body = none → body ∉ (definitions before).map Prod.snd
  once : ((definitions before).map Prod.snd).Nodup

theorem merged_start (settings : Settings) : Merged (blankPage settings) [] where
  known _ _ h := nomatch h
  once := List.nodup_nil

theorem Merged.statement {page : Page} (h : Merged page before) (p : Prepared) (sheet : Option Text) (line : Text) :
    Merged (page.line indent line) (before ++ [.statement p sheet]) := by
  have heq : definitions (before ++ [.statement p sheet]) = definitions before := by
    rw [definitions_append, definitions_statement]
    exact List.append_nil _
  exact ⟨heq ▸ h.known, heq ▸ h.once⟩

theorem Merged.definition {page : Page} (h : Merged page before) (hnew : page.sheets.get? body = none)
    (names : SheetNames) (name : Text) :
    Merged { page with names, sheets := page.sheets.set body name } (before ++ [.definition name body]) := by
  have heq : (definitions (before ++ [.definition name body])).map Prod.snd =
      (definitions before).map Prod.snd ++ [body] := by
    rw [definitions_append, List.map_append]
    rfl
  refine ⟨fun other hother => ?_, ?_⟩
  · rw [OrderedMap.get?_set] at hother
    split at hother
    · cases hother
    · next hne =>
      rw [heq, List.mem_append, List.mem_singleton, not_or]
      exact ⟨h.known other hother, Ne.symm hne⟩
  · rw [heq, List.nodup_append]
    refine ⟨h.once, List.pairwise_singleton .., fun a ha b hb hab => h.known body hnew ?_⟩
    rw [← List.mem_singleton.1 hb, ← hab]
    exact ha

theorem Merged.line {page : Page} (h : Merged page before) (line : Text) : Merged (page.line indent line) before :=
  ⟨h.known, h.once⟩

variable {plan} in
theorem shared?_of_merge (hmerge : plan.settings.mergeStyleSheets) (page : Page) (body : Text) :
    shared? plan page body = page.sheets.get? body := by
  cases h : page.sheets.get? body <;> simp [shared?, h, hmerge]

variable {plan} in
theorem shared?_of_not_merge (hmerge : plan.settings.mergeStyleSheets = false) (page : Page) (body : Text) :
    shared? plan page body = none := by
  simp [shared?, hmerge]

theorem Merged.writeObject (hmerge : plan.settings.mergeStyleSheets) {page : Page} (h : Merged page before)
    (p : Prepared) : Merged (writeObject plan indent page p) (before ++ linesFor plan page p) := by
  obtain ⟨-, hlines, hpage⟩ | ⟨body, name, -, -, hlines, hpage⟩ | ⟨body, name, names, -, hnew, -, hlines, hpage⟩ :=
    writeObject_cases plan indent page p
  all_goals rw [hlines, hpage]
  · exact h.statement indent p none _
  · exact h.statement indent p (some name) _
  · rw [shared?_of_merge hmerge] at hnew
    have hdef := (h.definition hnew names name).line indent (Line.definition name body).text
    have := hdef.statement indent p (some name) (Line.statement p (some name)).text
    rwa [List.append_assoc] at this

theorem Merged.foldl (hmerge : plan.settings.mergeStyleSheets) : ∀ (ps : List Prepared) {page : Page}
    {before : List Line}, Merged page before →
    Merged (ps.foldl (Construction.writeObject plan indent) page) (before ++ linesFrom plan indent page ps)
  | [], page, before, h => by rwa [linesFrom, List.append_nil]
  | p :: ps, page, before, h => by
    rw [linesFrom, ← List.append_assoc]
    exact Merged.foldl hmerge ps (h.writeObject plan indent hmerge p)

/-- Without merging every body is defined again. -/
theorem bodies_linesFrom (hmerge : plan.settings.mergeStyleSheets = false) : ∀ (ps : List Prepared) (page : Page),
    (definitions (linesFrom plan indent page ps)).map Prod.snd = ps.filterMap (·.body)
  | [], _ => rfl
  | p :: ps, page => by
    rw [linesFrom, definitions_append, List.map_append, bodies_linesFrom hmerge ps]
    obtain ⟨hbody, hlines, -⟩ | ⟨body, name, -, hshared, -, -⟩ | ⟨body, name, names, hbody, -, -, hlines, -⟩ :=
      writeObject_cases plan indent page p
    · rw [hlines, List.filterMap_cons_none hbody]
      rfl
    · rw [shared?_of_not_merge hmerge] at hshared
      cases hshared
    · rw [hlines, List.filterMap_cons_some hbody]
      rfl

end

theorem exists_body_of_sheeted (h : Sheeted before p (some name)) :
    ∃ body, p.body = some body ∧ .definition name body ∈ before := by
  unfold Sheeted at h
  cases hbody : p.body with
  | none =>
    rw [hbody] at h
    cases h
  | some body =>
    rw [hbody] at h
    obtain ⟨n, hn, hdefined⟩ := h
    exact ⟨body, rfl, Option.some.inj hn ▸ hdefined⟩

end

/-! ## Constructions -/

/-- The sheets of the lines of prepared objects.  All objects are stated, each behind the sheet with its body; names
are not defined twice, and bodies are not if they are merged. -/
structure WellSheeted (settings : Settings) (prepared : List Prepared) (lines : List Line) : Prop where
  stated : lines.filterMap Line.object? = arranged settings prepared
  named : ((definitions lines).map Prod.fst).Nodup
  sheeted : ∀ before p sheet after, lines = before ++ .statement p sheet :: after → Sheeted before p sheet
  shared : settings.mergeStyleSheets → ∀ p q name other, .statement p (some name) ∈ lines →
    .statement q (some other) ∈ lines → (name = other ↔ p.body = q.body)
  bodies : ((definitions lines).map Prod.snd).Perm <|
    if settings.mergeStyleSheets then (prepared.filterMap (·.body)).dedup else prepared.filterMap (·.body)

section

variable (settings : Settings) (indent : Text) (prepared : List Prepared)

theorem named_linesOf : ((definitions (linesOf settings indent prepared)).map Prod.fst).Nodup := by
  have hknows := (knows_start settings.sheetLead).foldl (planOf settings prepared) indent (arranged settings prepared)
  rw [← definedIn_eq]
  exact hknows.once

theorem sheeted_linesOf (before : List Line) (p : Prepared) (sheet : Option Text) (after : List Line)
    (h : linesOf settings indent prepared = before ++ .statement p sheet :: after) : Sheeted before p sheet :=
  (writes_linesFrom _ indent _ (knows_start settings.sheetLead)).sheeted h

/-- The bodies that are defined are those of the objects. -/
theorem mem_bodies_linesOf {body : Text} :
    body ∈ (definitions (linesOf settings indent prepared)).map Prod.snd ↔ body ∈ prepared.filterMap (·.body) := by
  rw [List.mem_filterMap]
  constructor
  · intro h
    obtain ⟨⟨name, body⟩, hmem, rfl⟩ := List.mem_map.1 h
    have hwrites := writes_linesFrom (planOf settings prepared) indent (arranged settings prepared)
      (knows_start settings.sheetLead)
    obtain ⟨p, hp, hbody⟩ := hwrites.exists_body (mem_definitions.1 hmem)
    exact ⟨p, (arranged_perm settings prepared).mem_iff.1 hp, hbody⟩
  · rintro ⟨p, hp, hbody⟩
    have hstated : p ∈ (linesOf settings indent prepared).filterMap Line.object? := by
      rw [linesOf, objects_linesFrom]
      exact (arranged_perm settings prepared).mem_iff.2 hp
    obtain ⟨line, hline, hobject⟩ := List.mem_filterMap.1 hstated
    cases line with
    | definition => cases hobject
    | statement q sheet =>
      cases hobject
      obtain ⟨before, after, heq⟩ := List.append_of_mem hline
      have hsheeted := sheeted_linesOf settings indent prepared before p sheet after heq
      unfold Sheeted at hsheeted
      rw [hbody] at hsheeted
      obtain ⟨name, -, hdefined⟩ := hsheeted
      rw [heq]
      exact List.mem_map_of_mem (mem_definitions.2 (List.mem_append_left _ hdefined))

theorem once_linesOf (hmerge : settings.mergeStyleSheets) :
    ((definitions (linesOf settings indent prepared)).map Prod.snd).Nodup :=
  ((merged_start settings).foldl (planOf settings prepared) indent hmerge (arranged settings prepared)).once

/-- The sheet that a statement names is defined with the body of its object. -/
theorem exists_definition {settings : Settings} {indent : Text} {prepared : List Prepared} {p : Prepared} {name : Text}
    (h : .statement p (some name) ∈ linesOf settings indent prepared) :
    ∃ body, p.body = some body ∧ (name, body) ∈ definitions (linesOf settings indent prepared) := by
  obtain ⟨before, after, heq⟩ := List.append_of_mem h
  obtain ⟨body, hbody, hdefined⟩ := exists_body_of_sheeted (sheeted_linesOf _ _ _ _ _ _ _ heq)
  refine ⟨body, hbody, mem_definitions.2 ?_⟩
  rw [heq]
  exact List.mem_append_left _ hdefined

theorem wellSheeted_linesOf : WellSheeted settings prepared (linesOf settings indent prepared) := by
  have hnamed := named_linesOf settings indent prepared
  have hsheeted := sheeted_linesOf settings indent prepared
  refine ⟨objects_linesFrom .., hnamed, hsheeted, fun hmerge p q name other hp hq => ?_, ?_⟩
  · obtain ⟨a, ha, hdefa⟩ := exists_definition hp
    obtain ⟨b, hb, hdefb⟩ := exists_definition hq
    rw [ha, hb, Option.some_inj]
    constructor
    · intro heq
      exact congrArg Prod.snd (List.inj_on_of_nodup_map hnamed hdefa hdefb heq)
    · intro heq
      exact congrArg Prod.fst (List.inj_on_of_nodup_map (once_linesOf settings indent prepared hmerge) hdefa hdefb heq)
  · split
    · next hmerge =>
      refine (List.perm_ext_iff_of_nodup (once_linesOf settings indent prepared hmerge) (List.nodup_dedup _)).2 ?_
      intro body
      rw [mem_bodies_linesOf, List.mem_dedup]
    · next hmerge =>
      rw [linesOf, bodies_linesFrom _ indent (Bool.eq_false_iff.2 hmerge)]
      exact (arranged_perm settings prepared).filterMap (·.body)

end

/-- **Sheets are shared and named soundly.**  What is written of a construction are lines with sound sheets, and the
next name for a sheet is always found, with at most one more attempt than names are used. -/
theorem lines_wellSheeted (settings : Settings) (indent : Text) (objects : List Object) :
    lines settings indent objects = render indent (linesOf settings indent (preparedOf settings objects)) ∧
      WellSheeted settings (preparedOf settings objects) (linesOf settings indent (preparedOf settings objects)) ∧
      ∀ names : SheetNames, names.next.1 ∉ names.used ∧
        ∃ attempts ≤ names.used.dedup.length + 1, names.Tries attempts names.next :=
  ⟨lines_eq settings indent objects, wellSheeted_linesOf settings indent _,
    fun names => ⟨names.next_not_mem, names.tries_next⟩⟩

/-- A point whose sheet has the first numbered name, and two points of one size. -/
def sized : List Object :=
  [⟨["style"], "point", "(0, 0)", .ofList [("pointSize", .table [("val", "7")])]⟩,
    ⟨["A"], "point", "(1, 2)", .ofList [("pointSize", .table [("val", "9")])]⟩,
    ⟨["B"], "point", "(3, 4)", .ofList [("pointSize", .table [("val", "9")])]⟩]

def sizedSettings : Settings := { labelSheetEnding := "1", topologicalOrder := false }

/-- The labels that are stated, with the sheets. -/
def statedIn (lines : List Line) : List (List Text × Option Text) :=
  lines.filterMap fun line => line.object?.map fun p => (p.object.labels, line.sheet?)

theorem exists_statement {lines : List Line} {labels : List Text} {sheet : Option Text}
    (h : (labels, sheet) ∈ statedIn lines) : ∃ p, .statement p sheet ∈ lines ∧ p.object.labels = labels := by
  obtain ⟨line, hline, hstated⟩ := List.mem_filterMap.1 h
  cases line with
  | definition => cases hstated
  | statement p sheet =>
    cases hstated
    exact ⟨p, hline, rfl⟩

theorem sized_share : ∃ p q, p.object.labels = [("A" : Text)] ∧ q.object.labels = [("B" : Text)] ∧ p.body = q.body ∧
    .statement p (some "style2") ∈ linesOf sizedSettings [] (preparedOf sizedSettings sized) ∧
    .statement q (some "style2") ∈ linesOf sizedSettings [] (preparedOf sizedSettings sized) := by
  have hstated : statedIn (linesOf sizedSettings [] (preparedOf sizedSettings sized)) =
      [([("style" : Text)], some ("style1" : Text)), ([("A" : Text)], some ("style2" : Text)),
        ([("B" : Text)], some ("style2" : Text))] := by decide +kernel
  obtain ⟨p, hp, hA⟩ := exists_statement (hstated ▸ List.mem_cons_of_mem _ List.mem_cons_self)
  obtain ⟨q, hq, hB⟩ := exists_statement (hstated ▸ List.mem_cons_of_mem _ (List.mem_cons_of_mem _ List.mem_cons_self))
  have hsheets := (lines_wellSheeted sizedSettings [] sized).2.1
  exact ⟨p, q, hA, hB, (hsheets.shared rfl p q _ _ hp hq).1 rfl, hp, hq⟩

example : lines sizedSettings [] sized =
  ("@style1 = \x7b pointSize: 7 \x7d\nstyle* @style1 = (0, 0)\n" ++
    "@style2 = \x7b pointSize: 9 \x7d\nA* @style2 = (1, 2)\nB* @style2 = (3, 4)\n" : String).toList := by decide +kernel

end StyleScript.Construction
