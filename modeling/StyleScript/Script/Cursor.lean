import StyleScript.Script.Lexeme
/-!
# Cursors

What is left of a script, and where that begins.  A cursor moves only by taking some of the text in front of
it, so its position is always the one behind what was taken; and it never moves back, which is why the
readers of a script end.
-/
namespace StyleScript.Script

/-- What is left of a script, and its position. -/
structure Cursor where
  rest : Text
  position : Position
  deriving DecidableEq

namespace Cursor

def start (text : Text) : Cursor := ⟨text, .start⟩

def size (c : Cursor) : Nat := c.rest.length

def atEnd (c : Cursor) : Bool := c.rest.isEmpty

def peek (c : Cursor) : Option Char := c.rest.head?

/-- The cursor behind `taken`, where `left` remains. -/
def move (c : Cursor) (taken left : Text) : Cursor := ⟨left, c.position.past taken⟩

def fault (c : Cursor) (cause : Cause) : Fault := .located cause c.position

/-- A failure somewhere behind the cursor. -/
def haltFault (c : Cursor) (halt : Lexeme.Halt) : Fault :=
  .located halt.cause (c.position.past (halt.before.getD []))

/-! ## Blank space -/

def skip (passes : Char → Bool) (c : Cursor) : Cursor :=
  c.move (Lexeme.blank passes false c.rest).1 (Lexeme.blank passes false c.rest).2

/-- Past blanks and comments on the line. -/
def skipInline : Cursor → Cursor := skip Lexeme.isInlineBlank

/-- Past blanks, line breaks and comments. -/
def skipBlank : Cursor → Cursor := skip Text.isBlank

/-- Past blanks, line breaks, comments and `;`. -/
def skipSeparators : Cursor → Cursor := skip Lexeme.isSeparator

/-- Whether a line, statement or the script ends here. -/
def atLineEnd (c : Cursor) : Bool := Lexeme.endsRaw (fun _ => false) c.rest

/-! ## Single shapes -/

def eat? (c : Cursor) (expected : Char) : Option Cursor :=
  match c.rest with
  | [] => none
  | d :: left => if d = expected then some (c.move [d] left) else none

/-- Past one given character, which has to be there. -/
def expect (c : Cursor) (expected : Char) (place : Place) : Except Fault Cursor :=
  match c.eat? expected with
  | some c => .ok c
  | none => .error (c.fault (.expected expected place c.peek))

def pass? (c : Cursor) (text : Text) : Option Cursor := (Text.after? text c.rest).map (c.move text)

/-- Past a word that no longer name begins with. -/
def word? (c : Cursor) (word : Text) : Option Cursor :=
  (c.pass? word).filter fun d => !d.peek.any Text.continuesName

def name? (c : Cursor) : Option (Text × Cursor) :=
  (Lexeme.name? c.rest).map fun (name, left) => (name, c.move name left)

def label (c : Cursor) : Except Fault (Text × Cursor) :=
  match Lexeme.label? c.rest with
  | .ok (some (label, left)) => .ok (label, c.move label left)
  | .ok none => .error (c.fault (.labelExpected c.peek))
  | .error halt => .error (c.haltFault halt)

/-- Raw text without the blanks around it, and the cursor behind it. -/
def raw (c : Cursor) (stop : Char → Bool) : Except Fault (Text × Cursor) :=
  match Lexeme.raw stop (.plain 0) c.rest with
  | .ok (taken, left) => .ok (Text.trim taken, c.move taken left)
  | .error halt => .error (c.haltFault halt)

/-- The text from one cursor to a later one. -/
def upTo (c d : Cursor) : Text := c.rest.take (c.size - d.size)

/-! ## Cursors only move on -/

theorem skip_size_le (passes : Char → Bool) (c : Cursor) : (c.skip passes).size ≤ c.size := by
  have h := congrArg List.length (Lexeme.blank_append passes false c.rest)
  simp only [List.length_append] at h
  simp only [skip, move, size]
  omega

theorem skipInline_size_le (c : Cursor) : c.skipInline.size ≤ c.size := skip_size_le ..

theorem skipBlank_size_le (c : Cursor) : c.skipBlank.size ≤ c.size := skip_size_le ..

theorem skipSeparators_size_le (c : Cursor) : c.skipSeparators.size ≤ c.size := skip_size_le ..

theorem eat?_size_lt {c d : Cursor} {expected : Char} (h : c.eat? expected = some d) : d.size < c.size := by
  unfold eat? at h
  split at h
  · simp at h
  · next hc =>
    split at h
    · simp only [Option.some.injEq] at h
      simp [← h, size, move, hc]
    · simp at h

theorem expect_size_lt {c d : Cursor} {expected : Char} {place : Place}
    (h : c.expect expected place = .ok d) : d.size < c.size := by
  unfold expect at h
  split at h
  · next he =>
    simp only [Except.ok.injEq] at h
    exact h ▸ eat?_size_lt he
  · simp at h

theorem pass?_size_le {c d : Cursor} {text : Text} (h : c.pass? text = some d) : d.size ≤ c.size := by
  simp only [pass?, Option.map_eq_some_iff] at h
  obtain ⟨left, hl, rfl⟩ := h
  rw [Text.after?_eq_some] at hl
  simp [size, move, hl]

theorem name?_size_lt {c d : Cursor} {name : Text} (h : c.name? = some (name, d)) : d.size < c.size := by
  simp only [name?, Option.map_eq_some_iff] at h
  obtain ⟨⟨taken, left⟩, hl, heq⟩ := h
  obtain ⟨happ, hne⟩ := Lexeme.name?_append hl
  simp only [Prod.mk.injEq] at heq
  rw [← heq.2]
  have := congrArg List.length happ
  have := List.length_pos_iff.2 hne
  simp only [List.length_append] at *
  simp only [size, move]
  omega

theorem label_size_lt {c d : Cursor} {label : Text} (h : c.label = .ok (label, d)) : d.size < c.size := by
  unfold Cursor.label at h
  split at h
  · next taken left hl =>
    simp only [Except.ok.injEq, Prod.mk.injEq] at h
    have := congrArg List.length (Lexeme.label?_append hl)
    have := List.length_pos_iff.2 (Lexeme.label?_ne_nil hl)
    rw [← h.2]
    simp only [List.length_append] at *
    simp only [size, move]
    omega
  · simp at h
  · simp at h

theorem raw_size_le {c d : Cursor} {stop : Char → Bool} {text : Text} (h : c.raw stop = .ok (text, d)) :
    d.size ≤ c.size := by
  unfold Cursor.raw at h
  split at h
  · next taken left hl =>
    simp only [Except.ok.injEq, Prod.mk.injEq] at h
    have := congrArg List.length (Lexeme.raw_append hl)
    rw [← h.2]
    simp only [List.length_append] at *
    simp only [size, move]
    omega
  · simp at h

end Cursor
end StyleScript.Script
