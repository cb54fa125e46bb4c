import StyleScript.Markup.Style
import StyleScript.Proofs.Markup.Elements
/-!
# Reading a style is reading a forest

Events whose tags are well nested tell a forest, and only one (`existsUnique_forest`).  The reader of a
style follows the events with a depth and the depth of the wrapper, and does with a forest what one of four lemmas says:
deeper than the children of the wrapper nothing, among these children it collects the roots, outside of a wrapper that
is behind or not to come it collects the roots at the outermost level, and before the wrapper it comes to it
(`Walk.run_deep`, `Walk.run_inside`, `Walk.run_outside`, `Walk.run_before`).

So what is read are the elements of the forest: the children of the first tag `element` in the order of the document,
and without one the roots (`Forest.elements`).
-/
namespace StyleScript.Markup

/-- Tags with what they hold, one behind the other. -/
inductive Forest where
  | nil
  | other (rest : Forest)
  | single (name : Text) (attrs : List (Text × Text)) (rest : Forest)
  | tag (name : Text) (attrs : List (Text × Text)) (children rest : Forest)

namespace Forest

/-- The events of a forest, in the order of the document. -/
def events : Forest → List Event
  | nil => []
  | other rest => .other :: rest.events
  | single name attrs rest => .single name (.ok attrs) :: rest.events
  | tag name attrs children rest => .opening name (.ok attrs) :: (children.events ++ .closing name :: rest.events)

/-- The tags that are not inside of others. -/
def roots : Forest → List Element
  | nil => []
  | other rest => rest.roots
  | single name attrs rest => (name, attrs) :: rest.roots
  | tag name attrs _ rest => (name, attrs) :: rest.roots

/-- What the first wrapper holds. -/
def wrapped? : Forest → Option Forest
  | nil => none
  | other rest => rest.wrapped?
  | single name _ rest => if name = wrapper then some nil else rest.wrapped?
  | tag name _ children rest => if name = wrapper then some children else children.wrapped?.or rest.wrapped?

/-- The elements of the style: the children of the first wrapper, or the roots if there is none. -/
def elements (forest : Forest) : List Element := (forest.wrapped?.getD forest).roots

end Forest

/-! ## Nested events -/

/-- The attributes of a tag can be read. -/
def Event.Decodable : Event → Prop
  | .opening _ attrs | .single _ attrs => ∃ pairs, attrs = .ok pairs
  | _ => True

/-- What follows a forest inside of some tags: nothing, or the end of the last of them. -/
def Ends : List Text → List Event → Prop
  | [], tail => tail = []
  | name :: names, tail => ∃ more, tail = .closing name :: more ∧ more.foldlM openAfter? names = some []

/-- **Nested events begin with a forest**, behind which a tag ends in which they stand. -/
theorem exists_forest_of_nested (names : List Text) (events : List Event) (hdecodable : ∀ e ∈ events, e.Decodable)
    (h : events.foldlM openAfter? names = some []) :
    ∃ forest tail, events = Forest.events forest ++ tail ∧ Ends names tail := by
  match events with
  | [] =>
    cases h
    exact ⟨.nil, [], rfl, rfl⟩
  | .other :: events =>
    obtain ⟨forest, tail, rfl, htail⟩ := exists_forest_of_nested names events
      (fun e he => hdecodable e (List.mem_cons_of_mem _ he)) h
    exact ⟨.other forest, tail, rfl, htail⟩
  | .single name attrs :: events =>
    obtain ⟨pairs, rfl⟩ := hdecodable _ List.mem_cons_self
    obtain ⟨forest, tail, rfl, htail⟩ := exists_forest_of_nested names events
      (fun e he => hdecodable e (List.mem_cons_of_mem _ he)) h
    exact ⟨.single name pairs forest, tail, rfl, htail⟩
  | .closing name :: events =>
    match names with
    | [] => cases h
    | last :: names =>
      rw [List.foldlM_cons, openAfter?] at h
      split at h
      · next heq =>
        subst heq
        exact ⟨.nil, _, rfl, events, rfl, h⟩
      · cases h
  | .opening name attrs :: events =>
    obtain ⟨pairs, rfl⟩ := hdecodable _ List.mem_cons_self
    have hlater : ∀ e ∈ events, e.Decodable := fun e he => hdecodable e (List.mem_cons_of_mem _ he)
    obtain ⟨children, tail, rfl, more, rfl, hmore⟩ := exists_forest_of_nested (name :: names) events hlater h
    obtain ⟨rest, tail, rfl, htail⟩ := exists_forest_of_nested names more
      (fun e he => hlater e (List.mem_append_right _ (List.mem_cons_of_mem _ he))) hmore
    refine ⟨.tag name pairs children rest, tail, ?_, htail⟩
    rw [Forest.events, List.cons_append, List.append_assoc, List.cons_append]
termination_by events.length

namespace Forest

/-- A text of events that ends, or in which a tag ends. -/
def Breaks : List Event → Prop
  | [] | .closing _ :: _ => True
  | _ => False

theorem events_append_inj {forest other : Forest} {tail more : List Event} (htail : Breaks tail) (hmore : Breaks more)
    (h : forest.events ++ tail = other.events ++ more) : forest = other ∧ tail = more := by
  induction forest generalizing other tail more with
  | nil =>
    cases other with
    | nil => exact ⟨rfl, h⟩
    | other | single | tag =>
      obtain rfl : tail = _ := h
      exact htail.elim
  | other rest ih =>
    cases other with
    | nil =>
      obtain rfl : _ = more := h
      exact hmore.elim
    | other rest' =>
      obtain ⟨rfl, rfl⟩ := ih htail hmore (List.cons.inj h).2
      exact ⟨rfl, rfl⟩
    | single | tag => cases (List.cons.inj h).1
  | single name attrs rest ih =>
    cases other with
    | nil =>
      obtain rfl : _ = more := h
      exact hmore.elim
    | single name' attrs' rest' =>
      obtain ⟨hhead, hrest⟩ := List.cons.inj h
      cases hhead
      obtain ⟨rfl, rfl⟩ := ih htail hmore hrest
      exact ⟨rfl, rfl⟩
    | other | tag => cases (List.cons.inj h).1
  | tag name attrs children rest ihchildren ihrest =>
    cases other with
    | nil =>
      obtain rfl : _ = more := h
      exact hmore.elim
    | tag name' attrs' children' rest' =>
      obtain ⟨hhead, hbehind⟩ := List.cons.inj h
      cases hhead
      rw [List.append_eq, List.append_eq, List.append_assoc, List.append_assoc] at hbehind
      have hclosed : ∀ events, Breaks (.closing name :: events) := fun _ => trivial
      obtain ⟨rfl, hclosing⟩ := ihchildren (hclosed _) (hclosed _) hbehind
      obtain ⟨rfl, rfl⟩ := ihrest htail hmore (List.cons.inj hclosing).2
      exact ⟨rfl, rfl⟩
    | other | single => cases (List.cons.inj h).1

theorem nested_events (forest : Forest) (names : List Text) :
    forest.events.foldlM openAfter? names = some names := by
  induction forest generalizing names with
  | nil => rfl
  | other rest ih => exact ih names
  | single name attrs rest ih => exact ih names
  | tag name attrs children rest ihchildren ihrest =>
    have hclosing : openAfter? (name :: names) (.closing name) = some names := if_pos rfl
    have hopening : openAfter? names (.opening name (.ok attrs)) = some (name :: names) := rfl
    rw [events, List.foldlM_cons, hopening, Option.bind_eq_bind, Option.bind_some, List.foldlM_append, ihchildren,
      Option.bind_eq_bind, Option.bind_some, List.foldlM_cons, hclosing, Option.bind_eq_bind, Option.bind_some, ihrest]

theorem decodable_events (forest : Forest) : ∀ e ∈ forest.events, e.Decodable := by
  induction forest with
  | nil => exact fun e he => nomatch he
  | other rest ih => exact List.forall_mem_cons.2 ⟨trivial, ih⟩
  | single name attrs rest ih => exact List.forall_mem_cons.2 ⟨⟨attrs, rfl⟩, ih⟩
  | tag name attrs children rest ihchildren ihrest =>
    exact List.forall_mem_cons.2 ⟨⟨attrs, rfl⟩,
      List.forall_mem_append.2 ⟨ihchildren, List.forall_mem_cons.2 ⟨trivial, ihrest⟩⟩⟩

/-- Events tell one forest at most. -/
theorem events_inj {forest other : Forest} (h : forest.events = other.events) : forest = other :=
  (@events_append_inj forest other [] [] trivial trivial (congrArg (· ++ []) h)).1

end Forest

/-- **Events whose tags are nested tell one forest.** -/
theorem existsUnique_forest {events : List Event} (hdecodable : ∀ e ∈ events, e.Decodable)
    (h : events.foldlM openAfter? [] = some []) : ∃! forest : Forest, forest.events = events := by
  obtain ⟨forest, tail, hevents, rfl⟩ := exists_forest_of_nested [] events hdecodable h
  rw [List.append_nil] at hevents
  exact ⟨forest, hevents.symm, fun other hother => Forest.events_inj (hother.trans hevents)⟩

/-! ## The reader in a forest -/

namespace Walk

/-- Inside of one more tag. -/
def deeper (w : Walk) : Walk := { w with depth := w.depth + 1 }

section

variable {w opened inside closed last : Walk} {name : Text} {attrs : List (Text × Text)} {children rest : Forest}
  {d : Nat}

/-- A tag is opened, what it holds is read, it is closed, and what stands behind it is read. -/
theorem foldlM_tag (hopen : w.step (.opening name (.ok attrs)) = .ok opened)
    (hchildren : children.events.foldlM step opened = .ok inside) (hclose : inside.step (.closing name) = .ok closed)
    (hrest : rest.events.foldlM step closed = .ok last) :
    (Forest.tag name attrs children rest).events.foldlM step w = .ok last := by
  rw [Forest.events, List.foldlM_cons, hopen, ok_bind, List.foldlM_append, hchildren, ok_bind, List.foldlM_cons, hclose,
    ok_bind, hrest]

theorem foldlM_single (hsingle : w.step (.single name (.ok attrs)) = .ok closed)
    (hrest : rest.events.foldlM step closed = .ok last) :
    (Forest.single name attrs rest).events.foldlM step w = .ok last := by
  rw [Forest.events, List.foldlM_cons, hsingle, ok_bind, hrest]

/-- Where no wrapper is met, a tag is collected. -/
theorem step_single (h : w.meetsWrapper name = false) (hcollect : w.collect name (.ok attrs) = .ok closed) :
    w.step (.single name (.ok attrs)) = .ok closed := by
  rw [step, h, if_neg Bool.false_ne_true, hcollect]

theorem step_opening (h : w.meetsWrapper name = false) (hcollect : w.collect name (.ok attrs) = .ok closed) :
    w.step (.opening name (.ok attrs)) = .ok closed.deeper := by
  rw [step, h, if_neg Bool.false_ne_true, hcollect]
  rfl

/-- The end of a tag that is not the wrapper. -/
theorem step_closing (h : w.wrapperDepth ≠ some w.depth) (name : Text) : w.deeper.step (.closing name) = .ok w := by
  have hfilter : w.wrapperDepth.filter (· ≠ w.depth) = w.wrapperDepth := by
    cases hd : w.wrapperDepth with
    | none => rfl
    | some d =>
      have hne : d ≠ w.depth := fun heq => h (hd.trans (congrArg some heq))
      simp [Option.filter, hne]
  have hclosed : w.deeper.step (.closing name) =
      .ok { w with wrapperDepth := w.wrapperDepth.filter (· ≠ w.depth) } := rfl
  rw [hclosed, hfilter]

theorem meetsWrapper_of_seen (h : w.wrapperSeen) (name : Text) : w.meetsWrapper name = false := by
  rw [meetsWrapper, h, Bool.not_true, Bool.and_false]

theorem meetsWrapper_of_ne (h : name ≠ wrapper) (w : Walk) : w.meetsWrapper name = false := by
  rw [meetsWrapper, decide_eq_false h, Bool.false_and]

theorem meetsWrapper_of_eq (hseen : w.wrapperSeen = false) (h : name = wrapper) : w.meetsWrapper name := by
  rw [meetsWrapper, decide_eq_true h, hseen]
  rfl

/-! ### Inside of the wrapper -/

theorem collect_deep (hd : w.wrapperDepth = some d) (hdeep : d + 1 < w.depth) (name : Text)
    (attrs : Except Cause (List (Text × Text))) : w.collect name attrs = .ok w := by
  have hin : w.inWrapper = false := by simp [inWrapper, hd, Nat.ne_of_gt hdeep]
  rw [collect, hin, if_neg Bool.false_ne_true, if_neg (by omega)]

/-- **Deeper than the children of the wrapper nothing counts.** -/
theorem run_deep (forest : Forest) (hseen : w.wrapperSeen) (hd : w.wrapperDepth = some d) (hdeep : d + 1 < w.depth) :
    forest.events.foldlM step w = .ok w := by
  induction forest generalizing w with
  | nil => rfl
  | other rest ih => exact ih hseen hd hdeep
  | single name attrs rest ih =>
    exact foldlM_single (step_single (meetsWrapper_of_seen hseen name) (collect_deep hd hdeep _ _)) (ih hseen hd hdeep)
  | tag name attrs children rest ihchildren ihrest =>
    have hne : w.wrapperDepth ≠ some w.depth := by
      rw [hd, Ne, Option.some_inj]
      omega
    have hopen := step_opening (meetsWrapper_of_seen hseen name) (collect_deep hd hdeep name (.ok attrs))
    have hchildren := @ihchildren w.deeper hseen hd (Nat.lt_succ_of_lt hdeep)
    exact foldlM_tag hopen hchildren (step_closing hne name) (ihrest hseen hd hdeep)

/-- The children of the wrapper are collected. -/
def inner (w : Walk) (elements : List Element) : Walk := { w with wrapped := w.wrapped.addAll elements }

theorem collect_inside (hd : w.wrapperDepth = some d) (hdepth : w.depth = d + 1) (name : Text)
    (attrs : List (Text × Text)) : w.collect name (.ok attrs) = .ok (w.inner [(name, attrs)]) := by
  have hin : w.inWrapper := by simp [inWrapper, hd, hdepth]
  rw [collect, if_pos hin]
  rfl

/-- **Among the children of the wrapper the roots are collected.** -/
theorem run_inside (forest : Forest) (hseen : w.wrapperSeen) (hd : w.wrapperDepth = some d) (hdepth : w.depth = d + 1) :
    forest.events.foldlM step w = .ok (w.inner forest.roots) := by
  induction forest generalizing w with
  | nil => rfl
  | other rest ih => exact ih hseen hd hdepth
  | single name attrs rest ih =>
    have hsingle := step_single (meetsWrapper_of_seen hseen name) (collect_inside hd hdepth name attrs)
    exact foldlM_single hsingle (@ih (w.inner [(name, attrs)]) hseen hd hdepth)
  | tag name attrs children rest _ ihrest =>
    have hne : w.wrapperDepth ≠ some w.depth := by
      rw [hd, hdepth, Ne, Option.some_inj]
      omega
    have hdeep : d + 1 < w.depth + 1 := by omega
    have hopen := step_opening (meetsWrapper_of_seen hseen name) (collect_inside hd hdepth name attrs)
    have hchildren := @run_deep (w.inner [(name, attrs)]).deeper d children hseen hd hdeep
    have hclose := @step_closing (w.inner [(name, attrs)]) hne name
    exact foldlM_tag hopen hchildren hclose (@ihrest (w.inner [(name, attrs)]) hseen hd hdepth)

/-! ### Outside of the wrapper -/

/-- What stands at the outermost level is collected. -/
def outer (w : Walk) (elements : List Element) : Walk :=
  { w with bare := if w.depth = 0 then w.bare.addAll elements else w.bare }

theorem outer_append (w : Walk) (elements more : List Element) :
    (w.outer elements).outer more = w.outer (elements ++ more) := by
  by_cases h : w.depth = 0
  · simp [outer, h, Collector.addAll]
  · simp [outer, h]

theorem collect_outside (hd : w.wrapperDepth = none) (name : Text) (attrs : List (Text × Text)) :
    w.collect name (.ok attrs) = .ok (w.outer [(name, attrs)]) := by
  have hin : w.inWrapper = false := by simp [inWrapper, hd]
  rw [collect, hin, if_neg Bool.false_ne_true, outer]
  split <;> rfl

theorem ne_of_none (hd : w.wrapperDepth = none) (n : Nat) : w.wrapperDepth ≠ some n := by
  rw [hd]
  exact fun h => nomatch h

/-- **Outside of a wrapper that is behind or not to come, the roots at the outermost level are collected.** -/
theorem run_outside (forest : Forest) (hseen : w.wrapperSeen ∨ forest.wrapped? = none) (hd : w.wrapperDepth = none) :
    forest.events.foldlM step w = .ok (w.outer forest.roots) := by
  induction forest generalizing w with
  | nil =>
    have hnil : w.outer [] = w := by
      unfold outer
      split <;> rfl
    exact congrArg _ hnil.symm
  | other rest ih => exact ih hseen hd
  | single name attrs rest ih =>
    have hmeets : w.meetsWrapper name = false ∧ (w.wrapperSeen ∨ rest.wrapped? = none) := by
      rcases hseen with hseen | hnone
      · exact ⟨meetsWrapper_of_seen hseen name, .inl hseen⟩
      · rw [Forest.wrapped?] at hnone
        split at hnone
        · cases hnone
        · next hne => exact ⟨meetsWrapper_of_ne hne w, .inr hnone⟩
    have hrest := @ih (w.outer [(name, attrs)]) hmeets.2 hd
    rw [outer_append] at hrest
    exact foldlM_single (step_single hmeets.1 (collect_outside hd name attrs)) hrest
  | tag name attrs children rest ihchildren ihrest =>
    have hmeets : w.meetsWrapper name = false ∧ (w.wrapperSeen ∨ children.wrapped? = none) ∧
        (w.wrapperSeen ∨ rest.wrapped? = none) := by
      rcases hseen with hseen | hnone
      · exact ⟨meetsWrapper_of_seen hseen name, .inl hseen, .inl hseen⟩
      · rw [Forest.wrapped?] at hnone
        split at hnone
        · cases hnone
        · next hne =>
          obtain ⟨hchildren, hrest⟩ := Option.or_eq_none_iff.1 hnone
          exact ⟨meetsWrapper_of_ne hne w, .inr hchildren, .inr hrest⟩
    have hrest := @ihrest (w.outer [(name, attrs)]) hmeets.2.2 hd
    rw [outer_append] at hrest
    exact foldlM_tag (step_opening hmeets.1 (collect_outside hd name attrs))
      (@ihchildren (w.outer [(name, attrs)]).deeper hmeets.2.1 hd)
      (@step_closing (w.outer [(name, attrs)]) (ne_of_none hd _) name) hrest

/-! ### Before the wrapper -/

/-- Behind the wrapper, which held what was collected. -/
structure After (w last : Walk) (held : Forest) : Prop where
  depth : last.depth = w.depth
  behind : last.wrapperDepth = none
  seen : last.wrapperSeen
  wrapped : last.wrapped = w.wrapped.addAll held.roots

/-- What stands behind the wrapper does not count. -/
theorem After.run {held : Forest} (h : After w last held) (rest : Forest) :
    ∃ final, rest.events.foldlM step last = .ok final ∧ After w final held :=
  ⟨_, run_outside rest (.inl h.seen) h.behind, h.depth, h.behind, h.seen, h.wrapped⟩

/-- A tag ends in which the wrapper was. -/
theorem After.step_closing {held : Forest} (h : After w.deeper last held) (name : Text) :
    ∃ closed, last.step (.closing name) = .ok closed ∧ After w closed held := by
  refine ⟨_, rfl, ?_, ?_, h.seen, h.wrapped⟩
  · show last.depth - 1 = w.depth
    rw [h.depth]
    rfl
  · show last.wrapperDepth.filter _ = none
    rw [h.behind]
    rfl

/-- The wrapper is opened, what it holds is collected, and it is closed. -/
theorem exists_after_wrapper (hseen : w.wrapperSeen = false) (hname : name = wrapper)
    (attrs : List (Text × Text)) (children : Forest) : ∃ opened inside closed,
      w.step (.opening name (.ok attrs)) = .ok opened ∧ children.events.foldlM step opened = .ok inside ∧
      inside.step (.closing name) = .ok closed ∧ After w closed children := by
  have hopen : w.step (.opening name (.ok attrs)) =
      .ok { w with wrapperSeen := true, wrapperDepth := some w.depth, depth := w.depth + 1 } := by
    rw [step, if_pos (meetsWrapper_of_eq hseen hname)]
  refine ⟨_, _, _, hopen, run_inside children rfl rfl rfl, rfl, rfl, ?_, rfl, rfl⟩
  show (some w.depth).filter (· ≠ w.depth) = none
  simp

/-- **The first wrapper is met**, what it holds is collected, and what stands behind it does not count. -/
theorem run_before {held : Forest} (forest : Forest) (hseen : w.wrapperSeen = false) (hd : w.wrapperDepth = none)
    (hwrapped : forest.wrapped? = some held) :
    ∃ last, forest.events.foldlM step w = .ok last ∧ After w last held := by
  induction forest generalizing w with
  | nil => cases hwrapped
  | other rest ih => exact ih hseen hd hwrapped
  | single name attrs rest ih =>
    rw [Forest.wrapped?] at hwrapped
    split at hwrapped
    · next heq =>
      cases hwrapped
      have hsingle : w.step (.single name (.ok attrs)) = .ok { w with wrapperSeen := true } := by
        rw [step, if_pos (meetsWrapper_of_eq hseen heq)]
      have hafter : After w { w with wrapperSeen := true } .nil := ⟨rfl, hd, rfl, rfl⟩
      obtain ⟨last, hlast, hafter⟩ := hafter.run rest
      exact ⟨last, foldlM_single hsingle hlast, hafter⟩
    · next hne =>
      obtain ⟨last, hlast, hafter⟩ := @ih (w.outer [(name, attrs)]) hseen hd hwrapped
      refine ⟨last, foldlM_single (step_single (meetsWrapper_of_ne hne w) (collect_outside hd name attrs)) hlast, ?_⟩
      exact ⟨hafter.depth, hafter.behind, hafter.seen, hafter.wrapped⟩
  | tag name attrs children rest ihchildren ihrest =>
    rw [Forest.wrapped?] at hwrapped
    split at hwrapped
    · next heq =>
      cases hwrapped
      obtain ⟨opened, inside, closed, hopen, hchildren, hclose, hafter⟩ :=
        exists_after_wrapper hseen heq attrs held
      obtain ⟨last, hlast, hafter⟩ := hafter.run rest
      exact ⟨last, foldlM_tag hopen hchildren hclose hlast, hafter⟩
    · next hne =>
      have hopen := step_opening (meetsWrapper_of_ne hne w) (collect_outside hd name attrs)
      have hkeeps : ∀ {last}, After (w.outer [(name, attrs)]) last held → After w last held := fun hafter =>
        ⟨hafter.depth, hafter.behind, hafter.seen, hafter.wrapped⟩
      cases hinside : children.wrapped? with
      | some g =>
        rw [hinside, Option.some_or] at hwrapped
        cases hwrapped
        obtain ⟨inside, hchildren, hafter⟩ := @ihchildren (w.outer [(name, attrs)]).deeper hseen hd hinside
        obtain ⟨closed, hclose, hafter⟩ := hafter.step_closing name
        obtain ⟨last, hlast, hafter⟩ := hafter.run rest
        exact ⟨last, foldlM_tag hopen hchildren hclose hlast, hkeeps hafter⟩
      | none =>
        rw [hinside, Option.none_or] at hwrapped
        obtain ⟨last, hlast, hafter⟩ := @ihrest (w.outer [(name, attrs)]) hseen hd hwrapped
        have hchildren := @run_outside (w.outer [(name, attrs)]).deeper children (.inr hinside) hd
        have hclose := @step_closing (w.outer [(name, attrs)]) (ne_of_none hd _) name
        exact ⟨last, foldlM_tag hopen hchildren hclose hlast, hkeeps hafter⟩

end

end Walk

/-! ## The style -/

/-- **The style that the events of a forest tell is collected of its elements.** -/
theorem styleOf_events (forest : Forest) : styleOf forest.events = .ok (collect forest.elements).finish := by
  cases hwrapped : forest.wrapped? with
  | none =>
    have hrun := @Walk.run_outside {} forest (.inr hwrapped) rfl
    rw [styleOf, hrun, ok_bind, Forest.elements, hwrapped]
    rfl
  | some held =>
    obtain ⟨last, hrun, hafter⟩ := @Walk.run_before {} held forest rfl rfl hwrapped
    rw [styleOf, hrun, ok_bind, Walk.finish, if_neg (not_not_intro hafter.depth), if_pos hafter.seen, hafter.wrapped,
      Forest.elements, hwrapped]
    rfl

/-- **The events of a style mean what the tree says.**  Nested events whose attributes can be read tell one forest, and
what is read of them is collected of its elements. -/
theorem style_of_forest (events : List Event) (hnested : events.foldlM openAfter? [] = some [])
    (hdecodable : ∀ e ∈ events, e.Decodable) : ∃! forest : Forest, forest.events = events ∧
      styleOf events = .ok (collect forest.elements).finish ∧
      Styles forest.elements (collect forest.elements).finish ∧
      ∀ text, Markup.events text = (events, none) → readStyle text = .ok (collect forest.elements).finish := by
  obtain ⟨forest, rfl, hunique⟩ := existsUnique_forest hdecodable hnested
  refine ⟨forest, ⟨rfl, styleOf_events forest, styles_finish forest.elements, fun text htext => ?_⟩, ?_⟩
  · rw [readStyle, htext]
    exact styleOf_events forest
  · exact fun other hother => hunique other hother.1

/-- A wrapper inside of a tag and in front of another one, which holds a tag with its own name. -/
def twoObjects : Forest :=
  .tag "construction" []
    (.single "layer" [("val", "9")]
      (.tag "element" [("label", "A")]
        (.single "show" [("object", "true")]
          (.tag "slider" [("min", "0")] (.single "layer" [("val", "8")] .nil)
            (.single "element" [("val", "2")] (.other (.single "show" [("object", "false")] .nil)))))
        (.tag "element" [("label", "B")] (.single "layer" [("val", "3")] .nil) .nil)))
    .nil

theorem style_of_twoObjects : ∃ map, styleOf twoObjects.events = .ok map ∧
    map.keys = ["show", "slider", "element"].map String.toList ∧
    map.get? "show" = some (.table [("object", "false")]) := by
  obtain ⟨forest, ⟨hevents, hstyle, -, -⟩, -⟩ :=
    style_of_forest twoObjects.events (twoObjects.nested_events []) twoObjects.decodable_events
  obtain rfl := Forest.events_inj hevents
  exact ⟨_, hstyle, by decide +kernel, by decide +kernel⟩

end StyleScript.Markup
