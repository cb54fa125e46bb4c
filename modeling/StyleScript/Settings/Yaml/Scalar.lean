import StyleScript.Text.Basic
/-!
# Scalars in YAML

A scalar is written plain, in single or double quotes, or as a block of indented lines.  Within the first
three, a line break is folded: alone it becomes a blank, and of several the first is dropped.  Blanks around
it are dropped too.  A block keeps its lines, or folds those that do not begin with a blank.

Readers take a scalar from the front of a text and answer with its value and what follows; the breaks of the
text are those of `withLineFeeds`.
-/
namespace StyleScript.Settings.Yaml

/-! ## Lines -/

def isBreak (c : Char) : Bool := c = '\n' || c = '\u2028' || c = '\u2029'

def isSpace (c : Char) : Bool := c = ' ' || c = '\t'

/-- The text with a line feed for each carriage return, with or without a line feed, and each next line. -/
def withLineFeeds : Text → Text
  | '\r' :: '\n' :: rest => '\n' :: withLineFeeds rest
  | c :: rest => (if c = '\r' || c = '\u0085' then '\n' else c) :: withLineFeeds rest
  | [] => []

def endsWord : Text → Bool
  | [] => true
  | c :: _ => isSpace c || isBreak c

/-- Whether `---` or `...` stands here as a word; at the beginning of a line it marks a document. -/
def startsMark : Text → Bool
  | '-' :: '-' :: '-' :: rest => endsWord rest
  | '.' :: '.' :: '.' :: rest => endsWord rest
  | _ => false

/-! ## Gaps -/

/-- What was passed since the last word: nothing, spaces, or line breaks, of which the first may have been
escaped and then is no text. -/
inductive Gap where
  | nothing
  | spaces (text : Text)
  | lines (first more : Text)

namespace Gap

def push (gap : Gap) (c : Char) : Gap :=
  match gap with
  | .nothing => if isBreak c then .lines [c] [] else .spaces [c]
  | .spaces text => if isBreak c then .lines [c] [] else .spaces (text ++ [c])
  | .lines first more => if isBreak c then .lines first (more ++ [c]) else .lines first more

def isLines : Gap → Bool
  | .lines .. => true
  | _ => false

def text : Gap → Text
  | .nothing => []
  | .spaces text => text
  | .lines first more =>
    if first = ['\n'] then (if more.isEmpty then [' '] else more) else first ++ more

end Gap

def onto {Left : Type} (text : Text) : Option (Text × Left) → Option (Text × Left) :=
  Option.map fun (more, left) => (text ++ more, left)

/-! ## Quoted scalars -/

/-- The rest of a text in single quotes; two of them stand for one. -/
def singleQuoted? : Gap → Text → Option (Text × Text)
  | gap, '\'' :: '\'' :: rest => onto (gap.text ++ ['\'']) (singleQuoted? .nothing rest)
  | gap, '\'' :: rest => some (gap.text, rest)
  | gap, c :: rest =>
    if isBreak c then (if startsMark rest then none else singleQuoted? (gap.push c) rest)
    else if isSpace c then singleQuoted? (gap.push c) rest
    else onto (gap.text ++ [c]) (singleQuoted? .nothing rest)
  | _, [] => none

def escaped? (c : Char) : Option Char :=
  match c with
  | '0' => some '\x00'
  | 'a' => some '\x07'
  | 'b' => some '\x08'
  | 't' => some '\t'
  | '\t' => some '\t'
  | 'n' => some '\n'
  | 'v' => some '\x0b'
  | 'f' => some '\x0c'
  | 'r' => some '\r'
  | 'e' => some '\x1b'
  | ' ' => some ' '
  | '"' => some '"'
  | '/' => some '/'
  | '\\' => some '\\'
  | 'N' => some '\u0085'
  | '_' => some '\u00a0'
  | 'L' => some '\u2028'
  | 'P' => some '\u2029'
  | _ => none

/-- The character of a code point in hexadecimal digits. -/
def coded? (digits : Text) : Option Char :=
  (Text.hexValue? 0 digits).bind fun code => if code.isValidChar then some (Char.ofNat code) else none

/-- The rest of a text in double quotes.  A line break behind `\` is dropped. -/
def doubleQuoted? : Gap → Text → Option (Text × Text)
  | gap, '"' :: rest => some (gap.text, rest)
  | gap, '\\' :: 'x' :: a :: b :: rest =>
    (coded? [a, b]).bind fun c => onto (gap.text ++ [c]) (doubleQuoted? .nothing rest)
  | gap, '\\' :: 'u' :: a :: b :: c :: d :: rest =>
    (coded? [a, b, c, d]).bind fun c => onto (gap.text ++ [c]) (doubleQuoted? .nothing rest)
  | gap, '\\' :: 'U' :: a :: b :: c :: d :: e :: f :: g :: h :: rest =>
    (coded? [a, b, c, d, e, f, g, h]).bind fun c => onto (gap.text ++ [c]) (doubleQuoted? .nothing rest)
  | gap, '\\' :: c :: rest =>
    if isBreak c then
      (if startsMark rest then none else onto gap.text (doubleQuoted? (.lines [] []) rest))
    else (escaped? c).bind fun d => onto (gap.text ++ [d]) (doubleQuoted? .nothing rest)
  | gap, c :: rest =>
    if isBreak c then (if startsMark rest then none else doubleQuoted? (gap.push c) rest)
    else if isSpace c then doubleQuoted? (gap.push c) rest
    else onto (gap.text ++ [c]) (doubleQuoted? .nothing rest)
  | _, [] => none

/-! ## Plain scalars -/

def isFlowMark (c : Char) : Bool := c = ',' || c = '[' || c = ']' || c = '\x7b' || c = '\x7d'

/-- Whether `:` here is glued to a mark of a flow collection. -/
def gluedColon : Text → Bool
  | ':' :: c :: _ => isFlowMark c || c = '?'
  | _ => false

/-- Whether a plain scalar ends before the word here, seen from the gap before it and the column where the
word stands, if that gap breaks the line. -/
def endsPlain (inFlow : Bool) (least : Nat) (gap : Gap) (column : Nat) (text : Text) : Bool :=
  (gap.isLines && ((!inFlow && column < least) || (column = 0 && startsMark text))) ||
  match text with
  | [] => true
  | '#' :: _ => match gap with
    | .nothing => false
    | _ => true
  | ':' :: rest => endsWord rest
  | c :: _ => inFlow && isFlowMark c

/-- A plain scalar from some word on: its text, whether a line break was passed behind it, and what follows.
A further line begins at column `least` at least, and no tab may stand before that column. -/
def plain? (inFlow : Bool) (least : Nat) : Gap → Nat → Text → Option (Text × Bool × Text)
  | gap, _, [] => some ([], gap.isLines, [])
  | gap, column, c :: rest =>
    if isBreak c then plain? inFlow least (gap.push c) 0 rest
    else if isSpace c then
      if gap.isLines && column < least && c = '\t' then none
      else plain? inFlow least (gap.push c) (column + 1) rest
    else if inFlow && gluedColon (c :: rest) then none
    else if endsPlain inFlow least gap column (c :: rest) then some ([], gap.isLines, c :: rest)
    else onto (gap.text ++ [c]) (plain? inFlow least .nothing column rest)

/-! ## Blocks -/

/-- What becomes of the line breaks at the end of a block. -/
inductive Chomp where
  | strip
  | clip
  | keep

/-- The chomping and the indentation that the head of a block asks for, and what follows its line. -/
def blockHead? (text : Text) : Option (Chomp × Option Nat × Text) :=
  let chomp? : Char → Option Chomp := fun c =>
    if c = '+' then some .keep else if c = '-' then some .strip else none
  let digit? : Char → Option Nat := fun c => if c.isDigit then some (c.toNat - '0'.toNat) else none
  let (chomp, depth, rest) : Chomp × Option Nat × Text :=
    match text with
    | [] => (.clip, none, [])
    | c :: rest =>
      match chomp? c, digit? c, rest with
      | some chomp, _, d :: more =>
        match digit? d with
        | some n => (chomp, some n, more)
        | none => (chomp, none, rest)
      | some chomp, _, [] => (chomp, none, [])
      | none, some n, d :: more =>
        match chomp? d with
        | some chomp => (chomp, some n, more)
        | none => (.clip, some n, rest)
      | none, some n, [] => (.clip, some n, [])
      | none, none, _ => (.clip, none, text)
  if depth = some 0 then none
  else match rest.dropWhile isSpace with
    | [] => some (chomp, depth, [])
    | '#' :: comment => some (chomp, depth, (comment.dropWhile (!isBreak ·)).drop 1)
    | c :: more => if isBreak c then some (chomp, depth, more) else none

def lines : Text → List Text
  | [] => []
  | c :: rest =>
    if isBreak c then [c] :: lines rest
    else match lines rest with
      | [] => [[c]]
      | line :: more => (c :: line) :: more

/-- How far the lines are indented up to the first that is not empty.  No tab may stand there. -/
def indentation? : List Text → Option Nat
  | [] => some 0
  | line :: more =>
    let depth := (line.takeWhile (· = ' ')).length
    match line.drop depth with
    | [] => some depth
    | c :: _ =>
        if c = '\t' then none
        else if isBreak c then (indentation? more).map (max depth) else some depth

/-- What a block has passed since its last line: the break of that line, whether the line begins with a
space, and the breaks of empty lines. -/
structure BlockGap where
  last : Text
  fromSpace : Bool
  empty : Text

namespace BlockGap

/-- What stands before a further line, which begins with `c`. -/
def text (gap : BlockGap) (folded : Bool) (c : Char) : Text :=
  if folded && gap.last = ['\n'] && !gap.fromSpace && !isSpace c then
    (if gap.empty.isEmpty then [' '] else gap.empty)
  else gap.last ++ gap.empty

def chomped (gap : BlockGap) : Chomp → Text
  | .strip => []
  | .clip => gap.last
  | .keep => gap.last ++ gap.empty

end BlockGap

/-- The text of the lines that belong to a block of some depth, and the lines behind it. -/
def blockLines? (folded : Bool) (chomp : Chomp) (depth : Nat) :
    BlockGap → List Text → Option (Text × List Text)
  | gap, [] => some (gap.chomped chomp, [])
  | gap, line :: more =>
    let indent := min depth (line.takeWhile (· = ' ')).length
    match line.drop indent with
    | [] => some (gap.chomped chomp, line :: more)
    | c :: rest =>
      if isBreak c then blockLines? folded chomp depth { gap with empty := gap.empty ++ [c] } more
      else if indent < depth then
        (if c = '\t' then none else some (gap.chomped chomp, line :: more))
      else
        onto (gap.text folded c ++ (c :: rest).takeWhile (!isBreak ·))
          (blockLines? folded chomp depth ⟨(c :: rest).dropWhile (!isBreak ·), isSpace c, []⟩ more)

/-- A block behind its indicator.  Its lines are indented as far as its head says beyond the column of the
collection around it, if there is one, or else as far as they are, but at least beyond that column. -/
def block? (folded : Bool) (around : Option Nat) (text : Text) : Option (Text × Text) :=
  (blockHead? text).bind fun (chomp, asked, rest) =>
    let depth? : Option Nat := match asked with
      | some n => some (around.getD 0 + n)
      | none => (indentation? (lines rest)).map fun found => max found ((around.map (· + 1)).getD 1)
    depth?.bind fun depth =>
      (blockLines? folded chomp depth ⟨[], false, []⟩ (lines rest)).map fun (value, left) =>
        (value, left.flatten)

end StyleScript.Settings.Yaml
