import StyleScript.Text.Tokens
/-!
# The shapes a script is made of

Blank space with comments, names, labels, and runs of raw text.  Each reader divides a text into what it
takes and what is left, by recursion on the text, and knows nothing of lines and columns: a failure says how
much was read before it.

A comment runs from `//` to the end of the line.  Raw text runs to the end of a line, a `;`, a comment or a
stop character, but not inside brackets or strings.
-/
namespace StyleScript.Lexeme

open Text (Context)

/-! ## Failures inside a text -/

/-- A failure, and the text before it; without that text, the failure stands where the present string or
subscript was opened. -/
structure Halt where
  cause : Cause
  before : Option Text
  deriving DecidableEq

def Halt.here (cause : Cause) : Halt := ⟨cause, some []⟩

/-- A failure where the present string or subscript was opened. -/
def Halt.atOpening (cause : Cause) : Halt := ⟨cause, none⟩

/-- A failure seen from before `taken`. -/
def Halt.behind (taken : Text) (halt : Halt) : Halt := { halt with before := halt.before.map (taken ++ ·) }

/-- A failure seen from before `taken`, which opens a string or a subscript. -/
def Halt.opened (taken : Text) (halt : Halt) : Halt :=
  { halt with before := some ((halt.before.map (taken ++ ·)).getD []) }

/-- What is taken grows at the front. -/
def extend (taken : Text) (result : Except Halt (Text × Text)) : Except Halt (Text × Text) :=
  match result with
  | .ok (more, rest) => .ok (taken ++ more, rest)
  | .error halt => .error (halt.behind taken)

/-! ## Blank space -/

def startsComment : Text → Bool
  | '/' :: '/' :: _ => true
  | _ => false

/-- Takes comments and the characters that `passes` admits. -/
def blank (passes : Char → Bool) : (inComment : Bool) → Text → Text × Text
  | _, [] => ([], [])
  | inComment, c :: rest =>
    let comment := (inComment && c ≠ '\n') || startsComment (c :: rest)
    if comment || passes c then
      let (taken, left) := blank passes comment rest
      (c :: taken, left)
    else ([], c :: rest)

def isInlineBlank (c : Char) : Bool := c ≠ '\n' && Text.isBlank c

def isSeparator (c : Char) : Bool := Text.isBlank c || c = ';'

/-! ## Names and labels -/

def name? : Text → Option (Text × Text)
  | [] => none
  | c :: rest =>
    if Text.startsName c then
      some (c :: rest.takeWhile Text.continuesName, rest.dropWhile Text.continuesName)
    else none

/-- Takes the rest of a label, or of a subscript in braces.  A subscript ends on its line. -/
def labelTail : (inSubscript : Bool) → Text → Except Halt (Text × Text)
  | false, '_' :: '{' :: rest =>
    match labelTail true rest with
    | .ok (taken, left) => .ok ('_' :: '{' :: taken, left)
    | .error halt => .error (halt.opened "_\x7b".toList)
  | false, c :: rest =>
    if Text.continuesLabel c then extend [c] (labelTail false rest) else .ok ([], c :: rest)
  | false, [] => .ok ([], [])
  | true, c :: rest =>
    if c = '}' then extend [c] (labelTail false rest)
    else if c = '\n' then .error (.atOpening .unterminatedSubscript)
    else extend [c] (labelTail true rest)
  | true, [] => .error (.atOpening .unterminatedSubscript)

def label? : Text → Except Halt (Option (Text × Text))
  | [] => .ok none
  | c :: rest => if Text.startsLabel c then (labelTail false (c :: rest)).map some else .ok none

/-! ## Raw text -/

/-- Whether raw text ends here, outside of brackets and strings. -/
def endsRaw (stop : Char → Bool) : Text → Bool
  | [] => true
  | c :: rest => c = '\n' || c = ';' || stop c || startsComment (c :: rest)

def raw (stop : Char → Bool) : Context → Text → Except Halt (Text × Text)
  | .plain depth, [] => if depth = 0 then .ok ([], []) else .error (.here .unclosedBracket)
  | .plain depth, c :: rest =>
    if depth = 0 && endsRaw stop (c :: rest) then .ok ([], c :: rest)
    else if depth = 0 && Text.isCloser c then .error (.here (.unbalanced c))
    else match raw stop (Context.next (.plain depth) c) rest with
      | .ok (taken, left) => .ok (c :: taken, left)
      | .error halt => .error (if c = '"' then halt.opened [c] else halt.behind [c])
  | _, [] => .error (.atOpening .unterminatedString)
  | context, c :: rest => extend [c] (raw stop (context.next c) rest)

/-! ## What is taken and what is left make up the text -/

theorem blank_append (passes : Char → Bool) (inComment : Bool) (text : Text) :
    (blank passes inComment text).1 ++ (blank passes inComment text).2 = text := by
  induction text generalizing inComment with
  | nil => simp [blank]
  | cons c rest ih =>
    simp only [blank]
    split
    · simp [ih]
    · simp

theorem name?_append {text taken left : Text} (h : name? text = some (taken, left)) :
    taken ++ left = text ∧ taken ≠ [] := by
  cases text with
  | nil => simp [name?] at h
  | cons c rest =>
    simp only [name?] at h
    split at h
    · simp only [Option.some.injEq, Prod.mk.injEq] at h
      simp [← h.1, ← h.2, List.takeWhile_append_dropWhile]
    · simp at h

theorem extend_eq_ok {taken : Text} {result : Except Halt (Text × Text)} {more left : Text}
    (h : extend taken result = .ok (more, left)) : ∃ m, result = .ok (m, left) ∧ more = taken ++ m := by
  unfold extend at h
  split at h
  · simp only [Except.ok.injEq, Prod.mk.injEq] at h
    exact ⟨_, by rw [← h.2], h.1.symm⟩
  · simp at h

theorem labelTail_append {inSubscript : Bool} {text taken left : Text}
    (h : labelTail inSubscript text = .ok (taken, left)) : taken ++ left = text := by
  fun_induction labelTail inSubscript text generalizing taken left with
  | case1 rest t l hr ih =>
    simp only [Except.ok.injEq, Prod.mk.injEq] at h
    simp [← h.1, ← h.2, ih hr]
  | case2 => simp at h
  | case3 c rest _ _ ih =>
    obtain ⟨m, hm, rfl⟩ := extend_eq_ok h
    simp [ih hm]
  | case4 =>
    simp only [Except.ok.injEq, Prod.mk.injEq] at h
    simp [← h.1, ← h.2]
  | case5 =>
    simp only [Except.ok.injEq, Prod.mk.injEq] at h
    simp [← h.1, ← h.2]
  | case6 rest ih =>
    obtain ⟨m, hm, rfl⟩ := extend_eq_ok h
    simp [ih hm]
  | case7 => simp at h
  | case8 c rest _ _ ih =>
    obtain ⟨m, hm, rfl⟩ := extend_eq_ok h
    simp [ih hm]
  | case9 => simp at h

theorem label?_append {text taken left : Text} (h : label? text = .ok (some (taken, left))) :
    taken ++ left = text := by
  cases text with
  | nil => simp [label?] at h
  | cons c rest =>
    simp only [label?] at h
    split at h
    · generalize hr : labelTail false (c :: rest) = r at h
      cases r with
      | error e => simp [Except.map] at h
      | ok p =>
        simp only [Except.map, Except.ok.injEq, Option.some.injEq] at h
        exact labelTail_append (h ▸ hr)
    · simp at h

theorem labelTail_ne_nil {c : Char} {rest taken left : Text} (hc : Text.continuesLabel c)
    (h : labelTail false (c :: rest) = .ok (taken, left)) : taken ≠ [] := by
  rintro rfl
  have := labelTail_append h
  simp only [List.nil_append] at this
  subst this
  unfold labelTail at h
  split at h
  · split at h <;> simp at h
  · next heq =>
    simp only [List.cons.injEq] at heq
    rw [← heq.1, if_pos hc] at h
    obtain ⟨m, _, h⟩ := extend_eq_ok h
    simp at h
  all_goals simp_all

theorem label?_ne_nil {text taken left : Text} (h : label? text = .ok (some (taken, left))) :
    taken ≠ [] := by
  cases text with
  | nil => simp [label?] at h
  | cons c rest =>
    simp only [label?] at h
    split at h
    · next hs =>
      generalize hr : labelTail false (c :: rest) = r at h
      cases r with
      | error e => simp [Except.map] at h
      | ok p =>
        simp only [Except.map, Except.ok.injEq, Option.some.injEq] at h
        refine labelTail_ne_nil ?_ (h ▸ hr)
        simp only [Text.startsLabel, Text.continuesLabel, Text.isAlphanumeric] at hs ⊢
        grind
    · simp at h

theorem raw_append {stop : Char → Bool} {context : Context} {text taken left : Text}
    (h : raw stop context text = .ok (taken, left)) : taken ++ left = text := by
  fun_induction raw stop context text generalizing taken left with
  | case1 => simp_all
  | case2 => simp at h
  | case3 =>
    simp only [Except.ok.injEq, Prod.mk.injEq] at h
    simp [← h.1, ← h.2]
  | case4 => simp at h
  | case5 depth c rest _ _ t l hr ih =>
    simp only [Except.ok.injEq, Prod.mk.injEq] at h
    simp [← h.1, ← h.2, ih hr]
  | case6 => simp at h
  | case7 => simp at h
  | case8 context c rest _ ih =>
    obtain ⟨m, hm, rfl⟩ := extend_eq_ok h
    simp [ih hm]

end StyleScript.Lexeme
