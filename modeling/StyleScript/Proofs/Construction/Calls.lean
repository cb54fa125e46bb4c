import StyleScript.Proofs.Construction.Lines
import StyleScript.Proofs.Construction.Stable
import StyleScript.Proofs.Script.Shortened
import StyleScript.Proofs.Script.Written
/-!
# Labels that an order can see

The order of statements finds the references of a right-hand side with a scanner of its own.  It starts at no `_`, and
in a subscript it counts the braces that `_` opens, while a label ends its subscript at the first closing brace.  So it
finds the labels of a call exactly if none begins with `_` and none opens more subscripts than it closes
(`forall_mem_references_iff`): a label of the first kind is cut short, and one of the second swallows what follows it.

What is found counts for the order.  A call whose labels are found is written behind the statements that own them,
unless it reaches a cycle (`exists_before_of_cycleFree`, `exists_lines_of_order`).
-/
namespace StyleScript.Construction

open Script (IsLabel LeavesLabel)

/-! ## Subscripts -/

/-- How many braces `_` opens. -/
def openings : Text → Nat
  | c :: d :: rest => (if c = '_' ∧ d = '{' then 1 else 0) + openings (d :: rest)
  | _ => 0

/-- The label does not begin with `_`, and closes every subscript that it opens. -/
def Visible (label : Text) : Prop := label.head? ≠ some '_' ∧ openings label = label.count '}'

instance (label : Text) : Decidable (Visible label) := inferInstanceAs (Decidable (_ ∧ _))

section

variable {last c : Char} {depth : Nat} {rest text taken left label w : Text}

theorem openings_cons_of_ne (h : c ≠ '{' ∨ last ≠ '_') : openings (last :: c :: rest) = openings (c :: rest) := by
  rw [openings, if_neg, Nat.zero_add]
  rintro ⟨rfl, rfl⟩
  rcases h with h | h <;> exact h rfl

theorem openings_subscript : openings ('_' :: '{' :: rest) = openings ('{' :: rest) + 1 := by
  rw [openings, if_pos ⟨rfl, rfl⟩, Nat.add_comm]

/-! ## What the scanner takes -/

theorem continuesLabel_brace : Text.continuesLabel '}' = false := by decide

/-- One character of a reference: a brace that opens or closes a subscript, or any other that belongs to it. -/
inductive TakesChar (last : Char) : (depth : Nat) → (c : Char) → (after : Nat) → Prop where
  | opening {depth : Nat} (h : last = '_') : TakesChar last depth '{' (depth + 1)
  | closing {depth : Nat} : TakesChar last (depth + 1) '}' depth
  | other {depth : Nat} {c : Char} (hopen : c ≠ '{' ∨ last ≠ '_') (hclose : c ≠ '}')
      (h : 0 < depth ∨ Text.continuesLabel c) : TakesChar last depth c depth

theorem referenceTail_of_takes {after : Nat} (h : TakesChar last depth c after) (rest : Text) :
    referenceTail last depth (c :: rest) = (c :: (referenceTail c after rest).1, (referenceTail c after rest).2) := by
  cases h with
  | opening h => simp [referenceTail, h]
  | closing => simp [referenceTail]
  | other hopen hclose h =>
    rcases hopen with hopen | hopen <;> rcases h with h | h <;> simp [referenceTail, hopen, hclose, h]

theorem referenceTail_cons_cases (last : Char) (depth : Nat) (c : Char) (rest : Text) :
    (∃ after, TakesChar last depth c after) ∨ depth = 0 ∧ referenceTail last depth (c :: rest) = ([], c :: rest) := by
  by_cases hopen : c = '{' ∧ last = '_'
  · obtain ⟨rfl, hlast⟩ := hopen
    exact .inl ⟨_, .opening hlast⟩
  · rw [not_and_or] at hopen
    by_cases hin : 0 < depth ∨ Text.continuesLabel c
    · refine .inl ?_
      by_cases hclose : c = '}'
      · subst hclose
        cases depth with
        | zero => simp [continuesLabel_brace] at hin
        | succ depth => exact ⟨depth, .closing⟩
      · exact ⟨depth, .other hopen hclose hin⟩
    · rw [not_or, Nat.not_lt, Nat.le_zero] at hin
      refine .inr ⟨hin.1, ?_⟩
      rcases hopen with hopen | hopen <;> simp [referenceTail, hopen, hin]

/-- One character moves the depth as it counts. -/
theorem TakesChar.count {after : Nat} (h : TakesChar last depth c after) (more : Text) :
    depth + openings (last :: c :: more) + more.count '}' = after + openings (c :: more) + (c :: more).count '}' := by
  cases h with
  | opening h =>
    rw [h, openings_subscript, List.count_cons_of_ne (by decide)]
    omega
  | closing =>
    rw [openings_cons_of_ne (.inl (by decide)), List.count_cons_self]
    omega
  | other hopen hclose h => rw [openings_cons_of_ne hopen, List.count_cons_of_ne hclose]

/-- **A reference ends with its subscripts closed, or with the text.** -/
theorem count_referenceTail (last : Char) (depth : Nat) (text : Text) : ∃ after,
    after + (referenceTail last depth text).1.count '}' = depth + openings (last :: (referenceTail last depth text).1) ∧
      (after = 0 ∨ (referenceTail last depth text).2 = []) := by
  induction text generalizing last depth with
  | nil => exact ⟨depth, rfl, .inr rfl⟩
  | cons c rest ih =>
    rcases referenceTail_cons_cases last depth c rest with ⟨next, hnext⟩ | ⟨rfl, hstop⟩
    · obtain ⟨after, hcount, hend⟩ := ih c next
      have hstep := hnext.count (referenceTail c next rest).1
      rw [referenceTail_of_takes hnext]
      exact ⟨after, by dsimp only; omega, hend⟩
    · rw [hstop]
      exact ⟨0, rfl, .inl rfl⟩

/-- **The tail of a label is taken in full** if it closes the subscripts that are open and that it opens. -/
theorem referenceTail_labelTail (hw : LeavesLabel w) {inSubscript : Bool}
    (h : Lexeme.labelTail inSubscript text = .ok (text, [])) (hin : inSubscript → 0 < depth)
    (hlast : inSubscript = false → last = '_' → text.head? ≠ some '{')
    (hcount : depth + openings (last :: text) = text.count '}') :
    referenceTail last depth (text ++ w) = (text, w) := by
  have hstep : ∀ {last c : Char} {depth after : Nat} {rest : Text}, TakesChar last depth c after →
      referenceTail c after (rest ++ w) = (rest, w) →
      referenceTail last depth (c :: rest ++ w) = (c :: rest, w) := by
    intro last c depth after rest htakes hrest
    rw [List.cons_append, referenceTail_of_takes htakes, hrest]
  fun_induction Lexeme.labelTail inSubscript text generalizing last depth with
  | case1 rest t l hr ih =>
    cases h
    have hsub : TakesChar last depth '_' depth := .other (.inl (by decide)) (by decide) (.inr (by decide))
    have hfirst := hsub.count ('{' :: rest)
    have hopen : TakesChar '_' depth '{' (depth + 1) := .opening rfl
    have hsecond := hopen.count rest
    refine hstep hsub (hstep hopen (ih hr (fun _ => Nat.succ_pos depth) (fun h => absurd h.symm Bool.false_ne_true) ?_))
    omega
  | case2 => cases h
  | case3 c rest hsub hc ih =>
    obtain ⟨m, hm, heq⟩ := Lexeme.extend_eq_ok h
    obtain rfl : m = rest := (List.cons.inj heq).2.symm
    have hother : TakesChar last depth c depth := by
      refine .other ?_ (fun heq => ?_) (.inr hc)
      · by_cases hl : last = '_'
        · exact .inl fun heq => hlast rfl hl (by rw [heq]; rfl)
        · exact .inr hl
      · rw [heq, continuesLabel_brace] at hc
        cases hc
    refine hstep hother (ih hm (fun h => absurd h Bool.false_ne_true) (fun _ hc hhead => ?_) ?_)
    · obtain ⟨more, rfl⟩ := List.head?_eq_some_iff.1 hhead
      exact hsub more hc rfl
    · have := hother.count m
      omega
  | case4 => cases h
  | case5 =>
    obtain rfl : depth = 0 := hcount
    cases w with
    | nil => rfl
    | cons c w =>
      obtain ⟨hc, hopen⟩ := hw c rfl
      simp [referenceTail, hc, hopen]
  | case6 rest ih =>
    obtain ⟨m, hm, heq⟩ := Lexeme.extend_eq_ok h
    obtain rfl : m = rest := (List.cons.inj heq).2.symm
    obtain ⟨depth, rfl⟩ := Nat.exists_eq_succ_of_ne_zero (Nat.ne_of_gt (hin rfl))
    have hclosing : TakesChar last (depth + 1) '}' depth := .closing
    have hne : '}' ≠ '_' := by decide
    refine hstep hclosing (ih hm (fun h => absurd h Bool.false_ne_true) (fun _ heq => absurd heq hne) ?_)
    have := hclosing.count m
    omega
  | case7 => cases h
  | case8 c rest hclose _ ih =>
    obtain ⟨m, hm, heq⟩ := Lexeme.extend_eq_ok h
    obtain rfl : m = rest := (List.cons.inj heq).2.symm
    have hpos := hin rfl
    by_cases hopen : c = '{' ∧ last = '_'
    · obtain ⟨rfl, rfl⟩ := hopen
      have hopening : TakesChar '_' depth '{' (depth + 1) := .opening rfl
      refine hstep hopening (ih hm (fun _ => Nat.succ_pos depth) (fun h => absurd h.symm Bool.false_ne_true) ?_)
      have := hopening.count m
      omega
    · have hother : TakesChar last depth c depth := .other (not_and_or.1 hopen) hclose (.inl hpos)
      refine hstep hother (ih hm (fun _ => hpos) (fun h => absurd h.symm Bool.false_ne_true) ?_)
      have := hother.count m
      omega
  | case9 => cases h

/-! ## What is found -/

theorem ne_quote_of_startsReference (h : startsReference c) : c ≠ '"' := by
  rintro rfl
  exact absurd h (by decide)

theorem references_cons_of_starts (h : startsReference c) (rest : Text) :
    references (c :: rest) = (c :: (referenceTail c 0 rest).1) :: references (referenceTail c 0 rest).2 := by
  rw [references, if_neg (ne_quote_of_startsReference h), if_pos h]

theorem references_cons_of_not_starts (hquote : c ≠ '"') (h : startsReference c = false) (rest : Text) :
    references (c :: rest) = references rest := by
  rw [references, if_neg hquote, if_neg (by rw [h]; exact Bool.false_ne_true)]

theorem referenceTail_append (last : Char) (depth : Nat) (text : Text) :
    (referenceTail last depth text).1 ++ (referenceTail last depth text).2 = text := by
  induction text generalizing last depth with
  | nil => rfl
  | cons c rest ih =>
    rcases referenceTail_cons_cases last depth c rest with ⟨after, hafter⟩ | ⟨-, hstop⟩
    · rw [referenceTail_of_takes hafter, List.cons_append, ih]
    · rw [hstop]
      rfl

theorem afterString_suffix (text : Text) : afterString text <:+ text := by
  fun_induction afterString text with
  | case1 => exact List.suffix_refl []
  | case2 rest => exact List.suffix_cons '"' rest
  | case3 d rest ih => exact (ih.trans (List.suffix_cons d rest)).trans (List.suffix_cons _ _)
  | case4 c rest _ _ ih => exact ih.trans (List.suffix_cons c rest)

/-- What a reference is: it begins as one, and it closes its subscripts or goes on to the end of the text. -/
structure IsReference (text r : Text) : Prop where
  begins : ∃ c rest, r = c :: rest ∧ startsReference c
  ends : openings r = r.count '}' ∨ r <:+ text

theorem IsReference.of_suffix {r : Text} (h : IsReference rest r) (hrest : rest <:+ text) : IsReference text r :=
  ⟨h.begins, h.ends.imp_right fun hr => hr.trans hrest⟩

theorem isReference_of_mem (text : Text) : ∀ r ∈ references text, IsReference text r := by
  fun_induction references text with
  | case1 => exact fun r hr => absurd hr List.not_mem_nil
  | case2 rest ih =>
    exact fun r hr => (ih r hr).of_suffix ((afterString_suffix rest).trans (List.suffix_cons _ rest))
  | case3 c rest _ hc ih =>
    have happend := referenceTail_append c 0 rest
    have hleft : (referenceTail c 0 rest).2 <:+ c :: rest :=
      ⟨c :: (referenceTail c 0 rest).1, by rw [List.cons_append, happend]⟩
    refine List.forall_mem_cons.2 ⟨⟨⟨c, _, rfl, hc⟩, ?_⟩, fun r hr => (ih r hr).of_suffix hleft⟩
    obtain ⟨after, hcount, rfl | hnil⟩ := count_referenceTail c 0 rest
    · have hne : c ≠ '}' := by
        rintro rfl
        exact absurd hc (by decide)
      rw [List.count_cons_of_ne hne]
      exact .inl (by omega)
    · rw [hnil, List.append_nil] at happend
      rw [happend]
      exact .inr (List.suffix_refl _)
  | case4 c rest _ _ ih => exact fun r hr => (ih r hr).of_suffix (List.suffix_cons c rest)

/-! ## Calls -/

/-- A function of some labels. -/
def call (name : Text) (labels : List Text) : Text := name ++ '(' :: (Text.join ", " labels ++ [')'])

theorem isLabel_cons (h : IsLabel label) : ∃ c rest, label = c :: rest ∧ Text.startsLabel c ∧
    Lexeme.labelTail false (c :: rest) = .ok (c :: rest, []) := by
  obtain ⟨c, rest, rfl⟩ := List.exists_cons_of_ne_nil h.ne_nil
  have hc : Text.startsLabel c := h.head rfl
  rw [IsLabel, Lexeme.label?, if_pos hc] at h
  cases hr : Lexeme.labelTail false (c :: rest) with
  | error halt => rw [hr] at h; cases h
  | ok p =>
    rw [hr] at h
    cases h
    exact ⟨c, rest, rfl, hc, hr⟩

/-- A label that is visible is found in full. -/
theorem references_visible (hlabel : IsLabel label) (hvisible : Visible label) (hw : LeavesLabel w) :
    references (label ++ w) = label :: references w := by
  obtain ⟨c, rest, rfl, hstarts, htail⟩ := isLabel_cons hlabel
  have hne : c ≠ '_' := fun heq => hvisible.1 (congrArg some heq)
  have hc : startsReference c := by
    rw [Text.startsLabel, decide_eq_false hne, Bool.or_false] at hstarts
    exact hstarts
  have hcontinues : Text.continuesLabel c := by
    by_contra hnot
    rw [Lexeme.labelTail, if_neg hnot] at htail
    · cases htail
    · exact fun _ heq => absurd heq hne
  rw [Lexeme.labelTail, if_pos hcontinues] at htail
  · obtain ⟨m, hm, heq⟩ := Lexeme.extend_eq_ok htail
    obtain rfl : m = rest := (List.cons.inj heq).2.symm
    have hclose : c ≠ '}' := by
      rintro rfl
      exact absurd hstarts (by decide)
    have hcount := hvisible.2
    rw [List.count_cons_of_ne hclose, ← Nat.zero_add (openings _)] at hcount
    have hout : false → 0 < 0 := fun h => absurd h Bool.false_ne_true
    have htake := referenceTail_labelTail hw hm hout (fun _ heq => absurd heq hne) hcount
    rw [List.cons_append, references_cons_of_starts hc, htake]
  · exact fun _ heq => absurd heq hne

theorem continuesLabel_of_isAlphabetic (h : Text.isAlphabetic c) : Text.continuesLabel c := by
  simp [Text.continuesLabel, Text.isAlphanumeric, h]

theorem referenceTail_letters (last : Char) {name : Text} (hname : ∀ c ∈ name, Text.isAlphabetic c) (w : Text) :
    referenceTail last 0 (name ++ '(' :: w) = (name, '(' :: w) := by
  induction name generalizing last with
  | nil => simp [referenceTail, show Text.continuesLabel '(' = false by decide]
  | cons c name ih =>
    obtain ⟨hc, hname⟩ := List.forall_mem_cons.1 hname
    have hne : ∀ d, Text.isAlphabetic d = false → c ≠ d := fun d hd heq => by simp [← heq, hc] at hd
    have htakes : TakesChar last 0 c 0 :=
      .other (.inl (hne '{' (by decide))) (hne '}' (by decide)) (.inr (continuesLabel_of_isAlphabetic hc))
    rw [List.cons_append, referenceTail_of_takes htakes, ih c hname]

theorem references_name {name : Text} (hname : ∀ c ∈ name, Text.isAlphabetic c) (w : Text) :
    references w ⊆ references (name ++ '(' :: w) := by
  have hparen : references ('(' :: w) = references w := references_cons_of_not_starts (by decide) (by decide) w
  cases name with
  | nil => exact fun label h => hparen ▸ h
  | cons c name =>
    obtain ⟨hc, hname⟩ := List.forall_mem_cons.1 hname
    have hstarts : startsReference c := by rw [startsReference, hc, Bool.true_or]
    rw [List.cons_append, references_cons_of_starts hstarts, referenceTail_letters c hname, hparen]
    exact List.subset_cons_self _ _

theorem leavesLabel_cons (hc : Text.continuesLabel c = false ∧ c ≠ '{') : LeavesLabel (c :: rest) :=
  fun _ hx => Option.some.inj hx ▸ hc

theorem references_closing : references [')'] = [] := by
  rw [references_cons_of_not_starts (by decide) (by decide), references]

theorem references_arguments : ∀ {labels : List Text}, (∀ label ∈ labels, IsLabel label ∧ Visible label) →
    references (Text.join ", " labels ++ [')']) = labels
  | [], _ => references_closing
  | [label], h => by
    obtain ⟨hlabel, hvisible⟩ := h label List.mem_cons_self
    rw [Text.join, references_visible hlabel hvisible (leavesLabel_cons (by decide)), references_closing]
  | label :: next :: more, h => by
    obtain ⟨⟨hlabel, hvisible⟩, hmore⟩ := List.forall_mem_cons.1 h
    have hgap : ∀ w : Text, references (',' :: ' ' :: w) = references w := fun w => by
      rw [references_cons_of_not_starts (by decide) (by decide), references_cons_of_not_starts (by decide) (by decide)]
    have hjoin : Text.join ", " (label :: next :: more) ++ [')'] =
        label ++ ',' :: ' ' :: (Text.join ", " (next :: more) ++ [')']) := by
      simp [Text.join]
    rw [hjoin, references_visible hlabel hvisible (leavesLabel_cons (by decide)), hgap, references_arguments hmore]

/-- What is found in full in a call is visible. -/
theorem visible_of_mem {name : Text} {labels : List Text} (hlabel : IsLabel label)
    (h : label ∈ references (call name labels)) : Visible label := by
  obtain ⟨⟨c, rest, rfl, hc⟩, hends⟩ := isReference_of_mem _ label h
  refine ⟨?_, hends.resolve_right ?_⟩
  · rintro ⟨rfl⟩
    exact absurd hc (by decide)
  · -- a label does not end with the bracket that ends the call
    intro hsuffix
    have hlast : (c :: rest).getLast? = some ')' := by
      obtain ⟨front, hfront⟩ := hsuffix
      rw [← List.getLast?_append_of_ne_nil front (List.cons_ne_nil c rest), hfront, call, ← List.cons_append,
        ← List.append_assoc, List.getLast?_concat]
    rcases Lexeme.last_label? hlabel hlast with hlast | hlast
    · exact absurd hlast (by decide)
    · exact absurd hlast (by decide)

/-- **A call shows its labels exactly if all of them are visible.** -/
theorem forall_mem_references_iff {name : Text} {labels : List Text} (hname : ∀ c ∈ name, Text.isAlphabetic c)
    (hlabels : ∀ label ∈ labels, IsLabel label) :
    (∀ label ∈ labels, label ∈ references (call name labels)) ↔ ∀ label ∈ labels, Visible label := by
  constructor
  · exact fun h label hmem => visible_of_mem (hlabels label hmem) (h label hmem)
  · intro h label hmem
    refine references_name hname _ ?_
    rw [references_arguments fun label hmem => ⟨hlabels label hmem, h label hmem⟩]
    exact hmem

end

/-! ## Owners -/

section

variable {settings : Settings} {indent : Text} {objects : List Object} {i j : Nat} {p : Prepared}

/-- The statements of prepared objects. -/
def verticesOf (prepared : List Prepared) : List Vertex := prepared.map fun p => ⟨p.object.labels, p.object.rhs⟩

/-- What is written of an object whose statement comes behind others in the order stands behind what is written of
these. -/
theorem exists_lines_of_order {prepared : List Prepared} {before after : List Nat} (hp : prepared[i]? = some p)
    (horder : orderOf settings prepared = before ++ i :: after) : ∃ above sheet below,
      linesOf settings indent prepared = above ++ .statement p sheet :: below ∧
        above.filterMap Line.object? = before.filterMap (prepared[·]?) := by
  have harranged : arranged settings prepared =
      before.filterMap (prepared[·]?) ++ p :: after.filterMap (prepared[·]?) := by
    rw [arranged, horder, List.filterMap_append, List.filterMap_cons_some hp]
  rw [linesOf, harranged, linesFrom_append, linesFrom]
  obtain ⟨own, sheet, hlines, hown⟩ := exists_linesFor (planOf settings prepared) _ p
  rw [hlines, List.append_assoc, ← List.append_assoc]
  refine ⟨_, sheet, _, rfl, ?_⟩
  rw [List.filterMap_append, hown, List.append_nil, objects_linesFrom]

/-- **What a call shows counts for the order.**  A call shows its labels exactly if all of them are visible.  Then its
statement is written behind those of their owners, if statements are sorted and it reaches no cycle. -/
theorem call_behind_owners {name : Text} {labels : List Text} (hname : ∀ c ∈ name, Text.isAlphabetic c)
    (hlabels : ∀ label ∈ labels, IsLabel label) :
    ((∀ label ∈ labels, label ∈ references (call name labels)) ↔ ∀ label ∈ labels, Visible label) ∧
      ∀ (settings : Settings) (indent : Text) (objects : List Object) (i : Nat) (p : Prepared),
        settings.topologicalOrder → (preparedOf settings objects)[i]? = some p → p.object.rhs = call name labels →
        CycleFree (RefersTo (verticesOf (preparedOf settings objects))) i → (∀ label ∈ labels, Visible label) →
        ∃ before after above sheet below,
          orderOf settings (preparedOf settings objects) = before ++ i :: after ∧
          lines settings indent objects = render indent (above ++ .statement p sheet :: below) ∧
          above.filterMap Line.object? = before.filterMap ((preparedOf settings objects)[·]?) ∧
          ∀ label ∈ labels, ∀ j, j ≠ i → FirstOwner (verticesOf (preparedOf settings objects)) label j →
            j ∈ before := by
  have hfound := forall_mem_references_iff hname hlabels
  refine ⟨hfound, fun settings indent objects i p hsorted hp hrhs hfree hvisible => ?_⟩
  have hvertex : (verticesOf (preparedOf settings objects))[i]? = some ⟨p.object.labels, p.object.rhs⟩ := by
    rw [verticesOf, List.getElem?_map, hp, Option.map_some]
  obtain ⟨before, after, horder, hbefore⟩ :=
    exists_before_of_cycleFree (List.getElem?_eq_some_iff.1 hvertex).1 hfree
  have horder : orderOf settings (preparedOf settings objects) = before ++ i :: after := by
    rw [orderOf, if_pos hsorted]
    exact horder
  obtain ⟨above, sheet, below, hlines, habove⟩ := exists_lines_of_order hp horder
  refine ⟨before, after, above, sheet, below, horder, (lines_eq ..).trans (congrArg _ hlines), habove, ?_⟩
  intro label hmem j hj howner
  refine hbefore j ⟨hj, _, hvertex, label, ?_, howner⟩
  rw [hrhs]
  exact hfound.2 hvisible label hmem

end

/-- A segment in front of its ends. -/
def spanned : List Object :=
  [⟨["s"], "segment", call "Segment" ["A_\x7b1\x7d", "B'"], .empty⟩, ⟨["A_\x7b1\x7d"], "point", "(1, 2)", .empty⟩,
    ⟨["B'"], "point", "(3, 4)", .empty⟩]

theorem cycleFree_spanned : CycleFree (RefersTo (verticesOf (preparedOf {} spanned))) 0 := by
  have hlists : dependencyLists (verticesOf (preparedOf {} spanned)) = [[1, 2], [], []] := by decide +kernel
  have hnone : ∀ i ∈ [1, 2], ∀ j, ¬RefersTo (verticesOf (preparedOf {} spanned)) i j := by
    intro i hi j h
    rw [← mem_dependencyLists, hlists] at h
    rcases List.mem_pair.1 hi with rfl | rfl <;> cases h
  refine cycleFree_of_edges fun i hi => cycleFree_of_edges fun j hj => ?_
  rw [← mem_dependencyLists, hlists] at hi
  exact absurd hj (hnone i hi j)

theorem spanned_behind_ends :
    (∃ before after above sheet below, orderOf {} (preparedOf {} spanned) = before ++ 0 :: after ∧
      1 ∈ before ∧ 2 ∈ before ∧
      lines {} [] spanned = render [] (above ++ .statement ⟨spanned[0], ⟨false, true⟩, none⟩ sheet :: below) ∧
      above.filterMap Line.object? = before.filterMap ((preparedOf {} spanned)[·]?)) ∧
    ¬∀ label ∈ [("_a" : Text)], label ∈ references (call "F" ["_a"]) := by
  have hhidden := @call_behind_owners "F" ["_a"] (List.all_eq_true.1 rfl) (by decide +kernel)
  refine ⟨?_, fun h => absurd (hhidden.1.1 h) (by decide)⟩
  have hcall := @call_behind_owners "Segment" ["A_\x7b1\x7d", "B'"] (List.all_eq_true.1 rfl) (by decide +kernel)
  obtain ⟨before, after, above, sheet, below, horder, hlines, habove, howners⟩ :=
    hcall.2 {} [] spanned 0 ⟨spanned[0], ⟨false, true⟩, none⟩ rfl rfl rfl cycleFree_spanned (by decide)
  have hfirst : FirstOwner (verticesOf (preparedOf {} spanned)) "A_\x7b1\x7d" 1 := owner?_eq_some.1 (by decide +kernel)
  have hsecond : FirstOwner (verticesOf (preparedOf {} spanned)) "B'" 2 := owner?_eq_some.1 (by decide +kernel)
  exact ⟨before, after, above, sheet, below, horder, howners _ (by decide) 1 (by decide) hfirst,
    howners _ (by decide) 2 (by decide) hsecond, hlines, habove⟩

/-- What begins with `_`, and what stands behind a subscript that goes on inside of another one, does not count. -/
example : dependencyOrder [⟨["s"], "F(_a, P_\x7ba_\x7bb\x7d, c)"⟩, ⟨["_a"], "1"⟩,
    ⟨["P_\x7ba_\x7bb\x7d"], "2"⟩, ⟨["c"], "3"⟩] = [0, 1, 2, 3] := by decide +kernel

end StyleScript.Construction
