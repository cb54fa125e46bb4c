import StyleScript.Settings.Tree
import StyleScript.Text.Scan
/-!
# Settings in JSON

Strict JSON: no comments, no trailing comma, no repeated or missing separator, nothing behind the value.
A text is a row of UTF-16 units, so that an escape may name half a character; such a text is no text of a
setting, but may stand where nobody reads it.
-/
namespace StyleScript.Settings.Json

/-- A value that is neither a list nor a table; a text is absent if it names half a character. -/
inductive Leaf where
  | flag (value : Bool)
  | text (value : Option Text)
  | other

inductive Token where
  | leaf (value : Leaf)
  | openList
  | closeList
  | openTable
  | closeTable
  | comma
  | colon

def isBlank (c : Char) : Bool := c = ' ' || c = '\t' || c = '\n' || c = '\r'

/-! ## Texts -/

/-- The character behind `\` in a text, unless it is `u`. -/
def escaped? (c : Char) : Option Char :=
  if c = '"' || c = '\\' || c = '/' then some c
  else if c = 'b' then some '\x08'
  else if c = 'f' then some '\x0c'
  else if c = 'n' then some '\n'
  else if c = 'r' then some '\r'
  else if c = 't' then some '\t'
  else none

/-- The code points and halves of characters up to the closing quote, and what follows that. -/
def units? : Text → Option (List Nat × Text)
  | '"' :: rest => some ([], rest)
  | '\\' :: 'u' :: a :: b :: c :: d :: rest =>
    (Text.hexValue? 0 [a, b, c, d]).bind fun unit =>
      (units? rest).map fun (more, left) => (unit :: more, left)
  | '\\' :: c :: rest =>
    (escaped? c).bind fun d => (units? rest).map fun (more, left) => (d.toNat :: more, left)
  | c :: rest =>
    if c.toNat < 0x20 then none else (units? rest).map fun (more, left) => (c.toNat :: more, left)
  | [] => none

def characters? : List Nat → Option Text
  | [] => some []
  | high :: low :: rest =>
    if 0xd800 ≤ high ∧ high < 0xdc00 then
      if 0xdc00 ≤ low ∧ low < 0xe000 then
        (characters? rest).map (Char.ofNat (0x10000 + (high - 0xd800) * 0x400 + (low - 0xdc00)) :: ·)
      else none
    else if high.isValidChar then (characters? (low :: rest)).map (Char.ofNat high :: ·) else none
  | [unit] => if unit.isValidChar then some [Char.ofNat unit] else none

/-! ## Numbers -/

def afterDigits? : Text → Option Text
  | [] => none
  | c :: rest => if c.isDigit then some (rest.dropWhile Char.isDigit) else none

/-- What follows a whole part, which begins with no needless zero. -/
def afterWhole? : Text → Option Text
  | '0' :: rest => some rest
  | text => afterDigits? text

def afterFraction? : Text → Option Text
  | '.' :: rest => afterDigits? rest
  | text => some text

def afterExponent? : Text → Option Text
  | [] => some []
  | c :: rest =>
    if c = 'e' || c = 'E' then
      match rest with
      | '+' :: digits => afterDigits? digits
      | '-' :: digits => afterDigits? digits
      | digits => afterDigits? digits
    else some (c :: rest)

def afterNumber? (text : Text) : Option Text :=
  let unsigned := match text with
    | '-' :: rest => rest
    | _ => text
  (afterWhole? unsigned).bind fun rest => (afterFraction? rest).bind afterExponent?

/-! ## Tokens -/

/-- A value that a word stands for, and what follows it. -/
def word? (text : Text) : Option (Leaf × Text) :=
  match Text.after? "true" text, Text.after? "false" text, Text.after? "null" text with
  | some rest, _, _ => some (.flag true, rest)
  | _, some rest, _ => some (.flag false, rest)
  | _, _, some rest => some (.other, rest)
  | none, none, none => none

def mark? (c : Char) : Option Token :=
  if c = '[' then some .openList
  else if c = ']' then some .closeList
  else if c = '\x7b' then some .openTable
  else if c = '\x7d' then some .closeTable
  else if c = ',' then some .comma
  else if c = ':' then some .colon
  else none

def token? : Text → Option (Token × Text)
  | [] => none
  | '"' :: rest => (units? rest).map fun (units, left) => (.leaf (.text (characters? units)), left)
  | c :: rest =>
    match mark? c, word? (c :: rest) with
    | some mark, _ => some (mark, rest)
    | none, some (leaf, left) => some (.leaf leaf, left)
    | none, none => (afterNumber? (c :: rest)).map fun left => (.leaf .other, left)

/-- Passes over a blank or a token, which is put before those read so far. -/
def step (before : List Token) : Text → Option (List Token × Nat)
  | [] => none
  | c :: rest =>
    if isBlank c then some (before, 1)
    else (token? (c :: rest)).map fun (token, left) => (token :: before, rest.length + 1 - left.length)

def tokens? (text : Text) : Option (List Token) := (Text.scan? step 0 [] text).map List.reverse

/-! ## Values -/

inductive Bracket where
  | list
  | table

/-- What has to come next: a value, a name, the colon behind it, or what follows a value.  Only just behind
an opening bracket may its closing one stand for a first item. -/
inductive Awaits where
  | value
  | item
  | name
  | entry
  | colon
  | next

/-- The events of the tokens, inside the brackets that are open. -/
def events? : Awaits → List Bracket → List Token → Option (List (Tree.Event Leaf))
  | .next, [], [] => some []
  | .value, outer, .leaf a :: rest => (events? .next outer rest).map (.leaf a :: ·)
  | .item, outer, .leaf a :: rest => (events? .next outer rest).map (.leaf a :: ·)
  | .value, outer, .openList :: rest => (events? .item (.list :: outer) rest).map (.openList :: ·)
  | .item, outer, .openList :: rest => (events? .item (.list :: outer) rest).map (.openList :: ·)
  | .value, outer, .openTable :: rest => (events? .entry (.table :: outer) rest).map (.openTable :: ·)
  | .item, outer, .openTable :: rest => (events? .entry (.table :: outer) rest).map (.openTable :: ·)
  | .name, outer, .leaf (.text t) :: rest => (events? .colon outer rest).map (.leaf (.text t) :: ·)
  | .entry, outer, .leaf (.text t) :: rest => (events? .colon outer rest).map (.leaf (.text t) :: ·)
  | .colon, outer, .colon :: rest => events? .value outer rest
  | .next, .list :: outer, .comma :: rest => events? .value (.list :: outer) rest
  | .next, .table :: outer, .comma :: rest => events? .name (.table :: outer) rest
  | .item, .list :: outer, .closeList :: rest => (events? .next outer rest).map (.close :: ·)
  | .next, .list :: outer, .closeList :: rest => (events? .next outer rest).map (.close :: ·)
  | .entry, .table :: outer, .closeTable :: rest => (events? .next outer rest).map (.close :: ·)
  | .next, .table :: outer, .closeTable :: rest => (events? .next outer rest).map (.close :: ·)
  | _, _, _ => none

def tree? (text : Text) : Option (Tree Leaf) :=
  (tokens? text).bind fun tokens => (events? .value [] tokens).bind (Tree.ofEvents? [])

/-- Flags are `true` and `false`, and texts are in quotes. -/
def spelling : Spelling Leaf where
  flag?
    | .flag b => some b
    | _ => none
  text?
    | .text t => t
    | _ => none

/-- The settings of a file: by name, or in their order. -/
def settings? (text : Text) : Option Settings :=
  (tree? text).bind fun tree =>
    match tree with
    | .leaf _ => none
    | .list items => spelling.ofList? Key.all {} items
    | .table entries => spelling.ofTable? [] {} entries

end StyleScript.Settings.Json
