import StyleScript.Text.Quoted
/-!
# Tokens

A property value is a row of tokens with blanks between them.  Quoted strings and bracketed groups are
never divided, so that `rgb(x, y, z)` and `image="a b.png"` are one token each.  What stands where is told by
a `Context`, which one character after the other moves on; a value divides at the separators that stand in
the outermost context.
-/
namespace StyleScript.Text

/-! ## Contexts -/

/-- Where the next character stands: outside of strings, in a string, or behind a backslash in a string;
in each case at a bracket depth. -/
inductive Context where
  | plain (depth : Nat)
  | quoted (depth : Nat)
  | escaped (depth : Nat)
  deriving DecidableEq, Repr

namespace Context

/-- The context behind one character.  A closing bracket with no opening one is passed over. -/
def next : Context → Char → Context
  | plain depth, c =>
    if c = '"' then quoted depth
    else if isOpener c then plain (depth + 1)
    else if isCloser c then plain (depth - 1)
    else plain depth
  | quoted depth, c => if c = '\\' then escaped depth else if c = '"' then plain depth else quoted depth
  | escaped depth, _ => quoted depth

/-- Whether a separator counts here: outside of strings and brackets. -/
def outermost : Context → Bool
  | plain depth => depth = 0
  | _ => false

/-- Whether a string is still open. -/
def inString : Context → Bool
  | plain _ => false
  | _ => true

end Context

/-! ## Dividing a value -/

/-- Divides a text at the separators of the outermost context: the first piece and the further ones.
Quotes and brackets are no separators.  Absent when a string stays open. -/
def pieces (isSeparator : Char → Bool) : Context → Text → Option (Text × List Text)
  | context, [] => if context.inString then none else some ([], [])
  | context, c :: rest =>
    if context.outermost && isSeparator c && !(c = '"' || isOpener c || isCloser c) then
      (pieces isSeparator context rest).map fun (piece, more) => ([], piece :: more)
    else
      (pieces isSeparator (context.next c) rest).map fun (piece, more) => (c :: piece, more)

/-- The parts of a value between separators, trimmed; empty parts are dropped. -/
def divide (isSeparator : Char → Bool) (value : Text) : Except Cause (List Text) :=
  match pieces isSeparator (.plain 0) value with
  | some (piece, more) => .ok (((piece :: more).map trim).filter fun part => !part.isEmpty)
  | none => .error (.unterminatedIn value)

def tokens (value : Text) : Except Cause (List Text) := divide isBlank value

/-- The parts of a value between occurrences of `separator`. -/
def parts (separator : Char) (value : Text) : Except Cause (List Text) := divide (· = separator) value

/-! ## The shapes of a token -/

/-- Whether a text is a key: an ASCII letter or `_`, then ASCII letters, digits and `_`. -/
def isKey : Text → Bool
  | [] => false
  | c :: rest => (c.isAlpha || c = '_') && rest.all fun c => c.isAlphanum || c = '_'

/-- Divides `key=value`; absent for a token of another shape. -/
def keyValue? (token : Text) : Option (Text × Text) :=
  match cut? '=' token with
  | some (key, value) => if isKey key then some (key, value) else none
  | none => none

/-- Divides `~name` into false and the name; any other token is affirmed. -/
def negation : Text → Bool × Text
  | '~' :: rest => (false, rest)
  | token => (true, token)

/-- Whether a text is an unsigned decimal number such as `12` or `0.25`. -/
def isPlainNumber (text : Text) : Bool :=
  match cut? '.' text with
  | none => !text.isEmpty && allDigits text
  | some (whole, fraction) =>
    !whole.isEmpty && allDigits whole && !fraction.isEmpty && allDigits fraction

end StyleScript.Text
