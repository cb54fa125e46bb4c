import StyleScript.Text.Classes
import StyleScript.Fault
/-!
# Quoted text

A text that would not survive as a bare token is written between double quotes.  Inside them `\n`, `\r`,
`\t`, `\"` and `\\` stand for the characters they name; a backslash before any other character stands for
that character.  `quote` writes, `readQuoted` reads, and `scalar` reads a value that is one quoted string
or bare text.
-/
namespace StyleScript.Text

/-! ## Writing -/

/-- One character as it is written inside quotes. -/
def escape (c : Char) : Text :=
  if c = '\n' then ['\\', 'n']
  else if c = '\r' then ['\\', 'r']
  else if c = '\t' then ['\\', 't']
  else if c = '"' then ['\\', '"']
  else if c = '\\' then ['\\', '\\']
  else [c]

def quote (text : Text) : Text := '"' :: text.flatMap escape ++ ['"']

/-- Whether every bracket closes, counting all kinds alike, from a depth already open. -/
def bracketsClose : Nat → Text → Bool
  | depth, [] => depth = 0
  | depth, c :: rest =>
    if isOpener c then bracketsClose (depth + 1) rest
    else if isCloser c then depth ≠ 0 && bracketsClose (depth - 1) rest
    else bracketsClose depth rest

/-- The characters that a bare token cannot hold. -/
def breaksToken (c : Char) : Bool :=
  c = ',' || c = ';' || c = '}' || c = '"' || c = '\\' || isBlank c

/-- Whether a text must be quoted to stay one token: it is empty, holds a character that ends or opens
something, begins a comment, or leaves a bracket open. -/
def needsQuoting (text : Text) : Bool :=
  text.isEmpty || holds "//" text || !bracketsClose 0 text || text.any breaksToken

def quoteIfNeeded (text : Text) : Text := if needsQuoting text then quote text else text

/-! ## Reading -/

/-- What an escaped character stands for. -/
def unescape (c : Char) : Char :=
  if c = 'n' then '\n' else if c = 't' then '\t' else if c = 'r' then '\r' else c

/-- Reads on behind an opening quote: the content, and what follows the closing quote. -/
def readOn : Text → Option (Text × Text)
  | [] => none
  | '"' :: rest => some ([], rest)
  | ['\\'] => none
  | '\\' :: c :: rest => (readOn rest).map fun (content, after) => (unescape c :: content, after)
  | c :: rest => (readOn rest).map fun (content, after) => (c :: content, after)

/-- Reads the quoted string that a text begins with: its content, and what follows it. -/
def readQuoted : Text → Except Cause (Text × Text)
  | '"' :: rest =>
    match readOn rest with
    | some result => .ok result
    | none => .error (.unterminated ('"' :: rest))
  | text => .error (.quoteExpected text)

/-- The value of a text that is one quoted string, or else bare text without the blanks around it. -/
def scalar (text : Text) : Except Cause Text :=
  match trim text with
  | '"' :: rest => do
    let (content, after) ← readQuoted ('"' :: rest)
    if after.isEmpty then .ok content else .error (.textAfterString after)
  | bare => .ok bare

end StyleScript.Text
