import StyleScript.Text.Basic
import StyleScript.Fault
/-!
# Markup

The host describes a style in XML.  A text of markup is a row of events: opening, closing and empty tags,
and others (comments, declarations, character data) that mean nothing here.  Every closing tag must name the
last open one; what is still open at the end is left to whoever follows the events.

Attributes are read with their tag but may be refused only when somebody asks for them.
-/
namespace StyleScript.Markup

def isBlank (c : Char) : Bool := c = ' ' || c = '\t' || c = '\n' || c = '\r'

/-! ## References -/

def character? (code : Nat) : Option Char :=
  if code ≠ 0 ∧ code.isValidChar then some (Char.ofNat code) else none

/-- The character behind `#` in a reference: decimal, or hexadecimal behind `x`. -/
def numbered? : Text → Option Char
  | 'x' :: digits => if digits.isEmpty then none else (Text.hexValue? 0 digits).bind character?
  | digits =>
    if digits.isEmpty || !Text.allDigits digits then none else character? (Text.digitsValue 0 digits)

def referenced? : Text → Option Char
  | '#' :: number => numbered? number
  | name =>
    if name = "lt" then some '<'
    else if name = "gt" then some '>'
    else if name = "amp" then some '&'
    else if name = "apos" then some '\''
    else if name = "quot" then some '"'
    else none

/-- The text with its references resolved; inside a reference, with the name read so far. -/
def unescape? : Option Text → Text → Option Text
  | none, [] => some []
  | some _, [] => none
  | none, c :: rest => if c = '&' then unescape? (some []) rest else (unescape? none rest).map (c :: ·)
  | some name, c :: rest =>
    if c = ';' then (referenced? name).bind fun d => (unescape? none rest).map (d :: ·)
    else if c = '&' then none
    else unescape? (some (name ++ [c])) rest

/-! ## Attributes -/

def endsKey (c : Char) : Bool := c = '=' || isBlank c

/-- The first attribute of a tag's text: its key, its value as written, and what follows.  Blanks alone hold
no attribute. -/
def firstAttribute? (text : Text) : Except Cause (Option (Text × Text × Text)) :=
  match text.dropWhile isBlank with
  | [] => .ok none
  | k :: rest =>
    match (rest.dropWhile (!endsKey ·)).dropWhile isBlank with
    | '=' :: value =>
      match value.dropWhile isBlank with
      | [] => .error .markupAttribute
      | quote :: written =>
        match if quote = '"' || quote = '\'' then Text.cut? quote written else none with
        | some (value, after) => .ok (some (k :: rest.takeWhile (!endsKey ·), value, after))
        | none => .error .markupAttribute
    | _ => .error .markupAttribute

theorem length_dropWhile_le (p : Char → Bool) (text : Text) :
    (text.dropWhile p).length ≤ text.length := by
  induction text with
  | nil => simp
  | cons c rest ih =>
    simp only [List.dropWhile_cons]
    split
    · simp only [List.length_cons]; omega
    · simp

theorem firstAttribute?_length_lt {text key value after : Text}
    (h : firstAttribute? text = .ok (some (key, value, after))) : after.length < text.length := by
  unfold firstAttribute? at h
  have h0 := length_dropWhile_le isBlank text
  split at h
  · simp at h
  · next k rest hk =>
    have h1 := length_dropWhile_le (!endsKey ·) rest
    have h2 := length_dropWhile_le isBlank (rest.dropWhile (!endsKey ·))
    split at h
    · next v hv =>
      have h3 := length_dropWhile_le isBlank v
      split at h
      · simp at h
      · next quote written hw =>
        split at h
        · next p q hc =>
          split at hc
          · simp only [Except.ok.injEq, Option.some.injEq, Prod.mk.injEq] at h
            have h4 := congrArg List.length (Text.cut?_eq_some hc).1
            rw [← h.2.2]
            rw [hk] at h0
            rw [hv] at h2
            rw [hw] at h3
            simp only [List.length_cons, List.length_append] at *
            omega
          · simp at hc
        · simp at h
    · simp at h

set_option linter.unusedVariables false in
/-- The attributes of a tag's text, none of which may have one of the keys `seen` before it. -/
def attributes (seen : List Text) (text : Text) : Except Cause (List (Text × Text)) :=
  match h : firstAttribute? text with
  | .error cause => .error cause
  | .ok none => .ok []
  | .ok (some (key, written, after)) =>
    if seen.contains key then .error .markupAttribute
    else match unescape? none written with
      | none => .error (.markupAttributeValue key)
      | some value => do return (key, value) :: (← attributes (key :: seen) after)
termination_by text.length
decreasing_by exact firstAttribute?_length_lt h

/-! ## Events -/

inductive Event where
  | opening (name : Text) (attrs : Except Cause (List (Text × Text)))
  | closing (name : Text)
  | single (name : Text) (attrs : Except Cause (List (Text × Text)))
  | other

def tagEvent (content : Text) : Event :=
  let event := fun (make : Text → Except Cause (List (Text × Text)) → Event) (content : Text) =>
    make (content.takeWhile (!isBlank ·)) (attributes [] (content.dropWhile (!isBlank ·)))
  match Text.beforeLast? '/' content with
  | some content => event .single content
  | none => event .opening content

/-- The name in a closing tag, without the blanks behind it; blanks alone stay as they are. -/
def closingName (content : Text) : Text :=
  if content.all isBlank then content else (content.reverse.dropWhile isBlank).reverse

/-- Takes the content of a tag, up to a `>` outside of quotes. -/
def tagContent? : (quote : Option Char) → Text → Option (Text × Text)
  | _, [] => none
  | some quote, c :: rest =>
    (tagContent? (if c = quote then none else some quote) rest).map fun (a, b) => (c :: a, b)
  | none, c :: rest =>
    if c = '>' then some ([], rest)
    else (tagContent? (if c = '"' || c = '\'' then some c else none) rest).map fun (a, b) => (c :: a, b)

/-- What follows the first occurrence of `mark`. -/
def afterMark? (mark : Text) : Text → Option Text
  | [] => none
  | c :: rest =>
    match Text.after? mark (c :: rest) with
    | some after => some after
    | none => afterMark? mark rest

/-- What follows a `<!` declaration with nested angle brackets. -/
def afterNested? : (depth : Nat) → Text → Option Text
  | _, [] => none
  | depth, c :: rest =>
    if c = '<' then afterNested? (depth + 1) rest
    else if c ≠ '>' then afterNested? depth rest
    else if depth = 0 then some rest
    else afterNested? (depth - 1) rest

/-- Whether a declaration, up to what follows it, is of a document type and says more than that word, which
may be in any case. -/
def namesDoctype (text after : Text) : Bool :=
  let content := text.take (text.length - after.length - 1)
  Text.lowered (content.take 7) = "doctype" && !(content.drop 7).all isBlank

/-- What follows a piece of markup that begins with `<!`. -/
def afterBang? : Text → Option Text
  | '-' :: '-' :: rest => afterMark? "-->" rest
  | '[' :: rest => (Text.after? "CDATA[" rest).bind (afterMark? "]]>")
  | text =>
    match afterNested? 0 text with
    | some after => if namesDoctype text after then some after else none
    | none => none

/-- What follows a piece of markup that begins with `<?`. -/
def afterQuestion? (text : Text) : Option Text :=
  if text.head? = some '>' then none else afterMark? "?>" text

/-- The event behind a `<`, and what follows it. -/
def event? : Text → Option (Event × Text)
  | [] => none
  | '!' :: rest => (afterBang? rest).map fun after => (.other, after)
  | '?' :: rest => (afterQuestion? rest).map fun after => (.other, after)
  | '/' :: rest => (tagContent? none rest).map fun (content, after) => (.closing (closingName content), after)
  | text => (tagContent? none text).map fun (content, after) => (tagEvent content, after)

/-! ## Every event takes some text -/

theorem tagContent?_length_le {quote : Option Char} {text content after : Text}
    (h : tagContent? quote text = some (content, after)) : after.length ≤ text.length := by
  induction text generalizing quote content after with
  | nil => simp [tagContent?] at h
  | cons c rest ih =>
    cases quote with
    | some q =>
      simp only [tagContent?, Option.map_eq_some_iff] at h
      obtain ⟨⟨a, b⟩, hab, heq⟩ := h
      have := ih hab
      simp only [Prod.mk.injEq] at heq
      simp only [List.length_cons, ← heq.2]
      omega
    | none =>
      simp only [tagContent?] at h
      split at h
      · simp only [Option.some.injEq, Prod.mk.injEq] at h
        simp [h.2]
      · simp only [Option.map_eq_some_iff] at h
        obtain ⟨⟨a, b⟩, hab, heq⟩ := h
        have := ih hab
        simp only [Prod.mk.injEq] at heq
        simp only [List.length_cons, ← heq.2]
        omega

theorem afterMark?_length_le {mark text after : Text} (h : afterMark? mark text = some after) :
    after.length ≤ text.length := by
  induction text with
  | nil => simp [afterMark?] at h
  | cons c rest ih =>
    simp only [afterMark?] at h
    split at h
    · next hm =>
      simp only [Option.some.injEq] at h
      have := congrArg List.length (Text.after?_eq_some.1 hm)
      simp only [List.length_append, h] at this
      omega
    · have := ih h
      simp only [List.length_cons]
      omega

theorem afterNested?_length_le {depth : Nat} {text after : Text} (h : afterNested? depth text = some after) :
    after.length ≤ text.length := by
  induction text generalizing depth with
  | nil => simp [afterNested?] at h
  | cons c rest ih =>
    simp only [afterNested?] at h
    simp only [List.length_cons]
    split at h
    · have := ih h; omega
    · split at h
      · have := ih h; omega
      · split at h
        · simp only [Option.some.injEq] at h
          simp [h]
        · have := ih h; omega

theorem afterBang?_length_le {text after : Text} (h : afterBang? text = some after) :
    after.length ≤ text.length := by
  unfold afterBang? at h
  split at h
  · have := afterMark?_length_le h
    simp only [List.length_cons]
    omega
  · simp only [Option.bind_eq_some_iff, Text.after?_eq_some] at h
    obtain ⟨a, rfl, h⟩ := h
    have := afterMark?_length_le h
    simp only [List.length_append, List.length_cons]
    omega
  · split at h
    · next hn =>
      split at h
      · simp only [Option.some.injEq] at h
        exact h ▸ afterNested?_length_le hn
      · simp at h
    · simp at h

theorem event?_length_le {text after : Text} {e : Event} (h : event? text = some (e, after)) :
    after.length ≤ text.length := by
  unfold event? at h
  split at h
  · simp at h
  · simp only [Option.map_eq_some_iff, Prod.mk.injEq] at h
    obtain ⟨a, ha, _, rfl⟩ := h
    have := afterBang?_length_le ha
    simp only [List.length_cons]
    omega
  · simp only [Option.map_eq_some_iff, Prod.mk.injEq] at h
    obtain ⟨a, ha, _, rfl⟩ := h
    unfold afterQuestion? at ha
    split at ha
    · simp at ha
    · have := afterMark?_length_le ha
      simp only [List.length_cons]
      omega
  · simp only [Option.map_eq_some_iff, Prod.mk.injEq, Prod.exists] at h
    obtain ⟨c, a, ha, _, rfl⟩ := h
    have := tagContent?_length_le ha
    simp only [List.length_cons]
    omega
  · simp only [Option.map_eq_some_iff, Prod.mk.injEq, Prod.exists] at h
    obtain ⟨c, a, ha, _, rfl⟩ := h
    exact tagContent?_length_le ha

/-! ## Whole texts -/

/-- The names of the open tags behind an event; absent for a closing tag that names another one. -/
def openAfter? (names : List Text) : Event → Option (List Text)
  | .opening name _ => some (name :: names)
  | .closing name =>
    match names with
    | [] => none
    | last :: others => if name = last then some others else none
  | _ => some names

set_option linter.unusedVariables false in
/-- The events of a text with the given tags open, and what is left where they break off; nothing is left
of a text that was read to its end. -/
def eventsFrom (names : List Text) (text : Text) : List Event × Text :=
  match k : text.dropWhile (· ≠ '<') with
  | [] => ([], [])
  | mark :: rest =>
    match h : event? rest with
    | none => ([], mark :: rest)
    | some (event, after) =>
      match openAfter? names event with
      | none => ([], mark :: rest)
      | some names =>
        let (events, left) := eventsFrom names after
        (event :: events, left)
termination_by text.length
decreasing_by
  have := event?_length_le h
  have hd := length_dropWhile_le (· ≠ '<') text
  rw [k, List.length_cons] at hd
  omega

/-- The events of a text, and the failure where they break off. -/
def events (text : Text) : List Event × Option Cause :=
  match eventsFrom [] text with
  | (events, []) => (events, none)
  | (events, left) => (events, some (.markup (Text.byteLength text - Text.byteLength left)))

end StyleScript.Markup
