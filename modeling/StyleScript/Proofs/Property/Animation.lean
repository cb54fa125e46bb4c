import StyleScript.Property.Animation
import StyleScript.Proofs.Number.Spelling
import StyleScript.Proofs.Property.Aspects
/-!
# Animations survive writing and reading

A step and its direction share one token, and so they are one aspect.  A step is written as a plain number or between
quotes, so the token begins with its sign, a digit or a quote: it is never taken for a word or for a key, and what
stands behind a sign is the step and nothing else (`token_step`, `token_signed_step`).  A step that is the default is
left out, and then its sign stands alone; without a sign there is nothing to say.
-/
namespace StyleScript.Animation

open PropertyFormat (Aspect Rowed Reads Survives)
open Text (Part Same same_refl)

/-! ## The aspects of an animation -/

/-- The direction that is written by a sign, with its code. -/
def heading? (attrs : Attributes) : Option (Char × Text) :=
  (attrs.get? "type").bind fun code => directions.find? fun (_, c) => Text.sameValue c code

def courseTexts : Option (Char × Text) → Option Text → List Text
  | none, none => []
  | none, some step => [expression step]
  | some (sign, _), none => [[sign]]
  | some (sign, _), some step => [sign :: expression step]

def courseSaid : Option (Char × Text) → Option Text → List (Text × Text)
  | none, none => []
  | none, some step => [("step", step), ("type", "0")]
  | some (_, code), none => [("type", code)]
  | some (_, code), some step => [("step", step), ("type", code)]

/-- The step with its direction. -/
def course : Aspect where
  keys := ["step", "type"]
  texts attrs := courseTexts (heading? attrs) (attrs.unlessDefault? "step" "0.1")
  said attrs := courseSaid (heading? attrs) (attrs.unlessDefault? "step" "0.1")

def speed : Aspect := .single "speed" (fun v => !Text.sameValue v "1") fun v => "speed" ++ '=' :: expression v

/-- The aspects in the order in which they are written. -/
def aspects : List Aspect := [.flag "playing" "play" true, course, speed]

theorem sign_eq (attrs : Attributes) : sign attrs = ((heading? attrs).map fun d => [d.1]).getD [] := by
  rw [sign, heading?]
  cases attrs.get? "type" <;> rfl

/-- Without a step and a sign an empty text is written, which is no word. -/
theorem words_write (attrs : Attributes) :
    Text.words (write attrs) = Text.words (aspects.flatMap (·.texts attrs)) := by
  have hplay := Aspect.texts_flag_true "playing" "play" attrs
  have hspeed : speed.texts attrs =
      ((attrs.unlessDefault? "speed" "1").map fun v => "speed=" ++ expression v).toList := rfl
  simp only [aspects, List.flatMap_cons, List.flatMap_nil, List.append_nil]
  rw [hplay, hspeed, write, Text.words, Text.words]
  simp only [List.filter_append, List.append_assoc]
  refine congrArg (Text.join " ") (congrArg (_ ++ ·) (congrArg (· ++ _) ?_))
  show _ = (courseTexts (heading? attrs) (attrs.unlessDefault? "step" "0.1")).filter _
  rw [sign_eq]
  cases heading? attrs <;> cases attrs.unlessDefault? "step" "0.1" <;> rfl

theorem rowed : Rowed format token aspects where
  decode := rfl
  encode attrs := congrArg Text.nonempty? (words_write attrs)
  complete := rfl
  distinct := by decide

/-! ## What is read -/

def codes : List Text := ["0", "1", "2", "3"].map String.toList

/-- What an attribute of an animation can be: a flag, a code, or any expression. -/
def Holds (key v : Text) : Prop :=
  key = "playing" ∧ (∃ on, v = Text.ofBool on) ∨ key = "type" ∧ v ∈ codes ∨
    key ∈ (["step", "speed"] : List Text)

theorem direction_mem (t : Text) : (direction t).1 ∈ codes := by
  have hall : ∀ d ∈ directions, d.2 ∈ codes := by decide
  have hzero : ("0" : Text) ∈ codes := by decide
  unfold direction
  split
  · exact hzero
  · split
    · next hfind => exact hall _ (List.mem_of_find?_eq_some hfind)
    · exact hzero

theorem holds_of_step {t : Text} {settings : List (Text × Text)} (h : step t = .ok settings) :
    ∀ p ∈ settings, Holds p.1 p.2 := by
  have hcode := direction_mem t
  rw [step] at h
  split at h
  · next hd =>
    cases h
    rw [hd] at hcode
    exact List.forall_mem_singleton.2 (.inr (.inl ⟨rfl, hcode⟩))
  · next hd =>
    obtain ⟨v, -, h⟩ := bind_eq_ok.1 h
    cases h
    rw [hd] at hcode
    exact List.forall_mem_cons.2
      ⟨.inr (.inr (.head _)), List.forall_mem_singleton.2 (.inr (.inl ⟨rfl, hcode⟩))⟩

theorem holds_of_token {t : Text} {settings : List (Text × Text)} (h : token t = .ok settings) :
    ∀ p ∈ settings, Holds p.1 p.2 := by
  rw [token] at h
  split at h
  split at h
  · cases h
    exact List.forall_mem_singleton.2 (.inl ⟨rfl, _, rfl⟩)
  · split at h
    · split at h
      · obtain ⟨v, -, h⟩ := bind_eq_ok.1 h
        cases h
        exact List.forall_mem_singleton.2 (.inr (.inr (.tail _ (.head _))))
      · cases h
    · exact holds_of_step h

theorem holds_of_decode {value : Text} {a : Attributes} (h : format.decode value = .ok (some a)) :
    ∀ key v, a.get? key = some v → Holds key v :=
  PropertyFormat.values_of_readTokens holds_of_token h

theorem Holds.key_mem {key v : Text} (h : Holds key v) : key ∈ aspects.flatMap Aspect.keys := by
  have hexpressions : ∀ key ∈ (["step", "speed"] : List Text), key ∈ aspects.flatMap Aspect.keys := by decide
  rcases h with ⟨rfl, -⟩ | ⟨rfl, -⟩ | hkey
  · decide
  · decide
  · exact hexpressions key hkey

/-! ## What is read again -/

/-- Expressions begin with a digit or a quote. -/
theorem exists_head_expression (v : Text) : ∃ c rest, expression v = c :: rest ∧ (c.isDigit ∨ c = '"') := by
  unfold expression
  split
  · next h =>
    have hspelled := Text.spelled_of_isPlainNumber h
    obtain ⟨c, rest, rfl⟩ := List.exists_cons_of_ne_nil hspelled.ne_nil
    refine ⟨c, rest, rfl, .inl ?_⟩
    unfold Text.isPlainNumber at h
    split at h
    · rw [Bool.and_eq_true] at h
      exact List.all_eq_true.1 h.2 c List.mem_cons_self
    · next whole fraction hcut =>
      simp only [Bool.and_eq_true, Bool.not_eq_true', List.isEmpty_eq_false_iff] at h
      obtain ⟨d, more, rfl⟩ := List.exists_cons_of_ne_nil h.1.1.1
      rw [(List.cons.inj (Text.cut?_eq_some hcut).1).1]
      exact List.all_eq_true.1 h.1.1.2 d List.mem_cons_self
  · exact ⟨'"', _, rfl, .inr rfl⟩

theorem part_expression (v : Text) : Part Text.isBlank (expression v) := by
  unfold expression
  split
  · next h => exact (Text.spelled_of_isPlainNumber h).part
  · exact Text.part_quote Text.isBlank v

theorem scalar_expression (v : Text) : Text.scalar (expression v) = .ok v := by
  unfold expression
  split
  · next h =>
    have hspelled := Text.spelled_of_isPlainNumber h
    exact Text.scalar_bare hspelled.part.trimmed hspelled.ne_quote
  · exact Text.scalar_quote v

/-- A token that begins with no letter and is not negated is a step. -/
theorem token_eq_step {c : Char} (hkey : (c.isAlpha || c = '_') = false) (hnegated : c ≠ '~') (rest : Text) :
    token (c :: rest) = step (c :: rest) := by
  have hword : c :: rest ≠ "play" := fun h => by
    rw [(List.cons.inj h).1] at hkey
    exact absurd hkey (by decide)
  rw [token, Text.negation_of_ne hnegated, Text.keyValue?_of_not_startsKey hkey]
  dsimp only
  rw [if_neg hword]

theorem token_step (v : Text) : token (expression v) = .ok [("step", v), ("type", "0")] := by
  obtain ⟨c, rest, hv, hc⟩ := exists_head_expression v
  have hplain : (c.isAlpha || c = '_') = false ∧ c ≠ '~' ∧ directions.find? (·.1 = c) = none := by
    rcases hc with hdigit | rfl
    · exact Text.forall_isDigit (P := fun c => (c.isAlpha || c = '_') = false ∧ c ≠ '~' ∧
        directions.find? (·.1 = c) = none) (by decide) hdigit
    · decide
  rw [hv, token_eq_step hplain.1 hplain.2.1, step, direction, hplain.2.2]
  dsimp only
  rw [← hv, scalar_expression]
  rfl

theorem direction_signed : ∀ d ∈ directions, ∀ rest, direction (d.1 :: rest) = (d.2, rest) := by
  simp [directions, direction]

theorem token_signed {d : Char × Text} (hd : d ∈ directions) (rest : Text) :
    token (d.1 :: rest) = step (d.1 :: rest) := by
  have hplain : ∀ d ∈ directions, (d.1.isAlpha || d.1 = '_') = false ∧ d.1 ≠ '~' := by decide
  exact token_eq_step (hplain d hd).1 (hplain d hd).2 rest

theorem token_sign {d : Char × Text} (hd : d ∈ directions) : token [d.1] = .ok [("type", d.2)] := by
  rw [token_signed hd, step, direction_signed d hd]

theorem token_signed_step {d : Char × Text} (hd : d ∈ directions) (v : Text) :
    token (d.1 :: expression v) = .ok [("step", v), ("type", d.2)] := by
  obtain ⟨c, rest, hv, -⟩ := exists_head_expression v
  rw [token_signed hd, step, direction_signed d hd, hv]
  dsimp only
  rw [← hv, scalar_expression]
  rfl

theorem part_sign {d : Char × Text} (hd : d ∈ directions) : Part Text.isBlank [d.1] := by
  have hplain : ∀ d ∈ directions, Text.isPlain d.1 := by decide
  refine Text.part_of_plain (List.cons_ne_nil _ _) ?_
  rw [List.all_cons, hplain d hd]
  rfl

/-! ## Steps with their directions -/

theorem mem_of_heading? {attrs : Attributes} {d : Char × Text} (h : heading? attrs = some d) : d ∈ directions := by
  obtain ⟨code, -, hfind⟩ := Option.bind_eq_some_iff.1 h
  exact List.mem_of_find?_eq_some hfind

/-- A code that was read is the code of its sign, or it says that there is none. -/
theorem heading?_of_code {attrs : Attributes} {code : Text} (hget : attrs.get? "type" = some code)
    (hcode : code ∈ codes) : heading? attrs = none ∧ code = "0" ∨ ∃ sign, heading? attrs = some (sign, code) := by
  have hall : ∀ code ∈ codes, directions.find? (fun (_, c) => Text.sameValue c code) = none ∧ code = "0" ∨
      ∃ d ∈ directions, directions.find? (fun (_, c) => Text.sameValue c code) = some (d.1, code) := by
    decide +kernel
  rw [heading?, hget, Option.bind_some]
  exact (hall code hcode).imp_right fun ⟨d, _, hd⟩ => ⟨d.1, hd⟩

theorem reads_course (attrs : Attributes) : Reads token (course.texts attrs) (course.said attrs) := by
  show Reads token (courseTexts (heading? attrs) (attrs.unlessDefault? "step" "0.1"))
    (courseSaid (heading? attrs) (attrs.unlessDefault? "step" "0.1"))
  cases hheading : heading? attrs with
  | none =>
    cases attrs.unlessDefault? "step" "0.1" with
    | none => exact PropertyFormat.reads_nil
    | some v => exact PropertyFormat.reads_token (part_expression v) (token_step v) (List.cons_ne_nil _ _)
  | some d =>
    have hd := mem_of_heading? hheading
    cases attrs.unlessDefault? "step" "0.1" with
    | none => exact PropertyFormat.reads_token (part_sign hd) (token_sign hd) (List.cons_ne_nil _ _)
    | some v =>
      exact PropertyFormat.reads_token ((part_sign hd).append (part_expression v)) (token_signed_step hd v)
        (List.cons_ne_nil _ _)

theorem find?_step (heading : Option (Char × Text)) (step : Option Text) :
    OrderedMap.find? "step".toList (courseSaid heading step) = step := by
  cases heading <;> cases step <;> rfl

theorem find?_type (heading : Option (Char × Text)) (step : Option Text) :
    OrderedMap.find? "type".toList (courseSaid heading step) =
      (heading.map Prod.snd).or (step.map fun _ => "0".toList) := by
  cases heading <;> cases step <;> rfl

theorem own_courseSaid (heading : Option (Char × Text)) (step : Option Text) :
    ∀ p ∈ courseSaid heading step, p.1 ∈ course.keys := by
  have htype : ∀ code : Text, ∀ p ∈ [("type".toList, code)], p.1 ∈ course.keys := fun _ =>
    List.forall_mem_singleton.2 (.tail _ (.head _))
  cases heading <;> cases step
  · exact List.forall_mem_nil _
  · exact List.forall_mem_cons.2 ⟨.head _, htype _⟩
  · exact htype _
  · exact List.forall_mem_cons.2 ⟨.head _, htype _⟩

theorem distinct_courseSaid (heading : Option (Char × Text)) (step : Option Text) :
    ((courseSaid heading step).map Prod.fst).Nodup := by
  have hboth : (["step", "type"] : List Text).Nodup := by decide
  cases heading <;> cases step
  · exact List.nodup_nil
  · exact hboth
  · exact List.pairwise_singleton _ _
  · exact hboth

/-- What is said of a course has the same heading again. -/
theorem heading?_again {attrs more : Attributes}
    (htype : more.get? "type" = OrderedMap.find? "type".toList (course.said attrs)) :
    heading? more = heading? attrs := by
  have hsigns : ∀ d ∈ directions, directions.find? (fun (_, c) => Text.sameValue c d.2) = some d := by
    decide +kernel
  have hzero : directions.find? (fun (_, c) => Text.sameValue c "0") = none := by decide +kernel
  rw [heading?, htype]
  show (OrderedMap.find? _ (courseSaid (heading? attrs) (attrs.unlessDefault? "step" "0.1"))).bind _ = _
  rw [find?_type]
  cases hheading : heading? attrs with
  | none =>
    cases attrs.unlessDefault? "step" "0.1" with
    | none => rfl
    | some v =>
      rw [Option.map_none, Option.none_or, Option.map_some, Option.bind_some]
      exact hzero
  | some d =>
    rw [Option.map_some, Option.some_or, Option.bind_some]
    exact hsigns d (mem_of_heading? hheading)

theorem rereads_course (attrs : Attributes) : course.Rereads token attrs where
  reads := reads_course attrs
  own := own_courseSaid _ _
  distinct := distinct_courseSaid _ _
  again := by
    intro more hmore
    have hstep : more.unlessDefault? "step" "0.1" = attrs.unlessDefault? "step" "0.1" := by
      rw [Attributes.unlessDefault?, hmore "step" (.head _)]
      show (OrderedMap.find? _ (courseSaid (heading? attrs) (attrs.unlessDefault? "step" "0.1"))).filter _ = _
      rw [find?_step, Attributes.unlessDefault?, Option.filter_filter]
      simp only [Bool.and_self]
    show courseTexts (heading? more) (more.unlessDefault? "step" "0.1") = _
    rw [heading?_again (hmore "type" (.tail _ (.head _))), hstep]
    rfl

theorem lasts_course {a : Attributes} (h : ∀ v, a.get? "type" = some v → v ∈ codes) :
    course.Lasts token defaults a where
  toRereads := rereads_course a
  same := by
    have hstep : Same ((a.get? "step").or (defaults.get? "step"))
        ((OrderedMap.find? "step".toList (course.said a)).or (defaults.get? "step")) := by
      show Same _ ((OrderedMap.find? _ (courseSaid (heading? a) (a.unlessDefault? "step" "0.1"))).or _)
      rw [find?_step, Attributes.unlessDefault?]
      cases a.get? "step" with
      | none => exact same_refl _
      | some v =>
        rw [Option.filter_some]
        cases hsame : Text.sameValue v "0.1" with
        | true =>
          rw [show defaults.get? "step" = some ("0.1" : Text) by decide]
          exact .some hsame
        | false => exact same_refl _
    have htype : Same ((a.get? "type").or (defaults.get? "type"))
        ((OrderedMap.find? "type".toList (course.said a)).or (defaults.get? "type")) := by
      show Same _ ((OrderedMap.find? _ (courseSaid (heading? a) (a.unlessDefault? "step" "0.1"))).or _)
      rw [find?_type]
      -- without a sign the code is 0, whether a step says so or the defaults do
      have hzero : ∀ step : Option Text, (((none : Option (Char × Text)).map Prod.snd).or
          (step.map fun _ => "0".toList)).or (defaults.get? "type") = some ("0" : Text) := fun step => by
        cases step <;> rfl
      cases hget : a.get? "type" with
      | none =>
        rw [heading?, hget, Option.bind_none, hzero]
        exact same_refl _
      | some code =>
        rcases heading?_of_code hget (h code hget) with ⟨hheading, rfl⟩ | ⟨sign, hheading⟩
        · rw [hheading, hzero]
          exact same_refl _
        · rw [hheading]
          exact same_refl _
    exact List.forall_mem_cons.2 ⟨hstep, List.forall_mem_singleton.2 htype⟩

/-! ## Animations last -/

theorem token_speed (v : Text) : Part Text.isBlank ("speed" ++ '=' :: expression v) ∧
    token ("speed" ++ '=' :: expression v) = .ok [("speed", v)] := by
  have hkey : Text.isKey "speed" := by decide
  refine ⟨Text.part_keyValue hkey (part_expression v), ?_⟩
  have hword : ("speed" : Text) ++ '=' :: expression v ≠ "play" := fun h => absurd (List.cons.inj h).1 (by decide)
  rw [token, show Text.negation ("speed" ++ '=' :: expression v) = (true, "speed" ++ '=' :: expression v) from
    Text.negation_of_ne (by decide) _, Text.keyValue?_of_isKey hkey]
  dsimp only
  rw [if_neg hword, if_pos rfl, scalar_expression]
  rfl

theorem lasts {a : Attributes} (h : ∀ key v, a.get? key = some v → Holds key v) :
    ∀ aspect ∈ aspects, aspect.Lasts token format.defaults a := by
  have hplay : (Aspect.flag "playing" "play" true).Lasts token defaults a := by
    refine Aspect.lasts_flag (Text.part_of_plain (by decide) (by decide)) (by decide) (by decide) fun v hv => ?_
    rcases h _ v hv with ⟨-, hflag⟩ | ⟨hkey, -⟩ | hkey
    · exact hflag
    · exact absurd hkey (by decide)
    · exact absurd hkey (by decide)
  have hcourse : course.Lasts token defaults a := by
    refine lasts_course fun v hv => ?_
    rcases h _ v hv with ⟨hkey, -⟩ | ⟨-, hcode⟩ | hkey
    · exact absurd hkey (by decide)
    · exact hcode
    · exact absurd hkey (by decide)
  have hspeed : speed.Lasts token defaults a :=
    Aspect.lasts_single (fun v _ _ => token_speed v) fun v _ hv => ⟨"1", by decide, (Bool.not_eq_false' _).mp hv⟩
  simp only [aspects, List.forall_mem_cons, List.not_mem_nil, false_implies, implies_true, and_true]
  exact ⟨hplay, hcourse, hspeed⟩

/-- **Animations survive writing and reading**, whatever their steps and speeds look like. -/
theorem directed_step_survives {value : Text} {a : Attributes} (h : format.decode value = .ok (some a)) :
    format.Survives a := by
  have hholds := holds_of_decode h
  obtain ⟨b, hreread, hequivalent, hencode, -⟩ :=
    rowed.exists_survivor (fun key v hv => (hholds key v hv).key_mem) (lasts hholds)
  exact ⟨b, hreread, hequivalent, hencode⟩

/-- A step that looks like an attribute, overwritten in its direction, and a speed that looks like the word. -/
theorem directed_step_survives_of_keyLike : ∃ a,
    format.decode "\"speed=-2\" ~play speed=\"play\" = play" = .ok (some a) ∧ format.Survives a := by
  have hdecode : format.decode "\"speed=-2\" ~play speed=\"play\" = play" = .ok (some (.table
      [("step", "speed=-2"), ("type", "3"), ("playing", "true"), ("speed", "play")])) := by decide +kernel
  exact ⟨_, hdecode, directed_step_survives hdecode⟩

end StyleScript.Animation
