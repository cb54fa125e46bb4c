import StyleScript.Settings.Yaml.Scalar
import StyleScript.Text.Scan
/-!
# Tokens of YAML

Indentation becomes tokens: a block collection opens where a line goes further in than the one around it and
closes where one goes less far.  A key is known only by the `:` behind it, on the same line and not too far;
so whatever could be a key is remembered, and the token `key` is put before it when the colon comes.  A
possible key that stands at the indentation of its collection has to be one.

Inside the brackets of a flow collection lines and columns mean nothing.
-/
namespace StyleScript.Settings.Yaml

inductive Style where
  | plain
  | quoted
  | literal
  | folded
  deriving DecidableEq

inductive Token where
  | version (major minor : Nat)
  | tagHandle (handle lead : Text)
  | documentStart
  | documentEnd
  | flowList
  | flowListEnd
  | flowTable
  | flowTableEnd
  | flowEntry
  | blockList
  | blockTable
  | blockEnd
  | blockEntry
  | key
  | value
  | alias (name : Text)
  | anchor (name : Text)
  | tag (handle rest : Text)
  | scalar (text : Text) (style : Style)

/-! ## Words -/

/-- A character of an anchor, a handle or the name of a directive. -/
def isWordChar (c : Char) : Bool := c.isAlphanum || c = '_' || c = '-'

def anchorName? (text : Text) : Option (Text × Text) :=
  let name := text.takeWhile isWordChar
  let rest := text.dropWhile isWordChar
  let ended := match rest with
    | [] => true
    | c :: _ => endsWord rest || "?:,]\x7d%@`".toList.contains c
  if name.isEmpty || !ended then none else some (name, rest)

/-- A character of a tag as it may be written without an escape; commas and brackets in some places only. -/
def isTagChar (brackets : Bool) (c : Char) : Bool :=
  isWordChar c || ";/?:@&=+$.!~*'()".toList.contains c || (brackets && ",[]".toList.contains c)

/-- How many octets follow the first octet of a character. -/
def octetsAfter? (first : Nat) : Option Nat :=
  if first < 0x80 then some 0
  else if first < 0xc0 then none
  else if first < 0xe0 then some 1
  else if first < 0xf0 then some 2
  else if first < 0xf8 then some 3
  else none

/-- The text of a tag, in which escaped octets stand one by one; `more` octets of a character are to come. -/
def tagText? (brackets : Bool) : (more : Nat) → Text → Option (Text × Text)
  | more, '%' :: a :: b :: rest =>
    (Text.hexValue? 0 [a, b]).bind fun octet =>
      match more with
      | 0 => (octetsAfter? octet).bind fun n => onto [Char.ofNat octet] (tagText? brackets n rest)
      | n + 1 => if octet / 0x40 = 2 then onto [Char.ofNat octet] (tagText? brackets n rest) else none
  | 0, c :: rest =>
    if c = '%' then none
    else if isTagChar brackets c then onto [c] (tagText? brackets 0 rest)
    else some ([], c :: rest)
  | 0, [] => some ([], [])
  | _ + 1, _ => none

def someTagText? (brackets : Bool) (text : Text) : Option (Text × Text) :=
  (tagText? brackets 0 text).bind fun (taken, rest) => if taken.isEmpty then none else some (taken, rest)

/-- A word between `!`, of which the second may be missing. -/
def handle? : Text → Option (Text × Text)
  | '!' :: rest =>
    match rest.dropWhile isWordChar with
    | '!' :: left => some ('!' :: rest.takeWhile isWordChar ++ ['!'], left)
    | left => some ('!' :: rest.takeWhile isWordChar, left)
  | _ => none

/-- A tag: in angle brackets as it is, behind a handle, or behind a single `!`. -/
def tag? (inFlow : Bool) (text : Text) : Option (Token × Text) :=
  let tag : Option (Token × Text) := match text with
    | '!' :: '<' :: rest =>
      (someTagText? true rest).bind fun (taken, left) => match left with
        | '>' :: left => some (.tag [] taken, left)
        | _ => none
    | _ => (handle? text).bind fun (handle, rest) =>
      if handle.length ≥ 2 ∧ handle.getLast? = some '!' then
        (someTagText? false rest).map fun (taken, left) => (.tag handle taken, left)
      else (tagText? false 0 rest).map fun (taken, left) =>
        match handle.drop 1 ++ taken with
        | [] => (.tag [] ['!'], left)
        | suffix => (.tag ['!'] suffix, left)
  tag.bind fun (token, left) =>
    if endsWord left || (inFlow && left.head? = some ',') then some (token, left) else none

/-! ## Directives -/

def versionNumber? (text : Text) : Option (Nat × Text) :=
  let digits := text.takeWhile Char.isDigit
  if digits.isEmpty || 9 < digits.length then none
  else some (Text.digitsValue 0 digits, text.dropWhile Char.isDigit)

/-- What a directive means, and what follows its line. -/
def directive? (text : Text) : Option (Token × Text) :=
  let name := text.takeWhile isWordChar
  let rest := text.dropWhile isWordChar
  let meaning : Option (Token × Text) :=
    if !endsWord rest then none
    else if name = "YAML" then
      (versionNumber? (rest.dropWhile isSpace)).bind fun (major, left) => match left with
        | '.' :: left => (versionNumber? left).map fun (minor, left) => (.version major minor, left)
        | _ => none
    else if name = "TAG" then
      (handle? (rest.dropWhile isSpace)).bind fun (handle, left) =>
        if handle.length ≥ 2 ∧ handle.getLast? ≠ some '!' then none
        else match left with
          | c :: _ =>
            if !isSpace c then none
            else (someTagText? true (left.dropWhile isSpace)).bind fun (lead, left) =>
              if endsWord left then some (.tagHandle handle lead, left) else none
          | [] => none
    else none
  meaning.bind fun (token, left) =>
    match left.dropWhile isSpace with
    | [] => some (token, [])
    | '#' :: comment => some (token, (comment.dropWhile (!isBreak ·)).drop 1)
    | c :: more => if isBreak c then some (token, more) else none

/-! ## The scanner -/

structure Spot where
  /-- How many bytes are before it. -/
  index : Nat := 0
  line : Nat := 0
  column : Nat := 0

def Spot.next (spot : Spot) (c : Char) : Spot :=
  if isBreak c then ⟨spot.index + c.utf8Size, spot.line + 1, 0⟩
  else ⟨spot.index + c.utf8Size, spot.line, spot.column + 1⟩

/-- What may turn out to be a key: where it stands, and how many tokens come before it. -/
structure PossibleKey where
  spot : Spot
  before : Nat
  required : Bool

/-- The furthest that the `:` of a key may be from where the key begins, in bytes. -/
def keyReach : Nat := 1024

structure Scanner where
  spot : Spot := {}
  /-- The tokens read so far, the latest first. -/
  tokens : List Token := []
  count : Nat := 0
  /-- The columns of the open block collections, the innermost first. -/
  blocks : List Nat := []
  possibleKey : Option PossibleKey := none
  /-- The possible keys outside the open flow collections, the innermost first. -/
  outer : List (Option PossibleKey) := []
  keyAllowed : Bool := true

namespace Scanner

def inFlow (s : Scanner) : Bool := !s.outer.isEmpty

def past (s : Scanner) (text : Text) : Scanner := { s with spot := text.foldl Spot.next s.spot }

/-- The scanner behind what comes before `left` in `text`, with the length of that. -/
def upTo (s : Scanner) (text left : Text) : Scanner × Nat :=
  let taken := text.take (text.length - left.length)
  (s.past taken, taken.length)

def push (s : Scanner) (token : Token) : Scanner :=
  { s with tokens := token :: s.tokens, count := s.count + 1 }

/-- Puts a token behind the first `before` tokens. -/
def insert (s : Scanner) (before : Nat) (token : Token) : Scanner :=
  { s with tokens := s.tokens.insertIdx (s.count - before) token, count := s.count + 1 }

/-! ### Indentation -/

/-- Closes the block collections that `closes` picks, from the innermost on. -/
def closeBlocks (s : Scanner) (closes : Nat → Bool) : Scanner :=
  if s.inFlow then s
  else
    let closed := s.blocks.takeWhile closes
    { closed.foldl (fun s _ => s.push .blockEnd) s with blocks := s.blocks.dropWhile closes }

/-- Opens a block collection at a column, behind the first `before` tokens, unless one is open there. -/
def openBlock (s : Scanner) (column before : Nat) (token : Token) : Scanner :=
  if !s.inFlow && s.blocks.head?.all (· < column) then
    { s.insert before token with blocks := column :: s.blocks }
  else s

/-! ### Keys -/

/-- What stands here may be a key no more; it must not be one that is required. -/
def dropKey? (s : Scanner) : Option Scanner :=
  match s.possibleKey with
  | some key => if key.required then none else some { s with possibleKey := none }
  | none => some s

def noteKey? (s : Scanner) : Option Scanner :=
  if s.keyAllowed then
    s.dropKey?.map fun s =>
      let required := !s.inFlow && s.blocks.head? = some s.spot.column
      { s with possibleKey := some ⟨s.spot, s.count, required⟩ }
  else some s

/-- A key without its colon, unless the line or the reach of the key is over. -/
def stillPossible? (spot : Spot) : Option PossibleKey → Option (Option PossibleKey)
  | none => some none
  | some key =>
    if key.spot.line < spot.line ∨ key.spot.index + keyReach < spot.index then
      if key.required then none else some none
    else some (some key)

/-- Forgets the keys that are no longer possible. -/
def forgetKeys? (s : Scanner) : Option Scanner :=
  (stillPossible? s.spot s.possibleKey).bind fun key =>
    (s.outer.mapM (stillPossible? s.spot)).map fun outer => { s with possibleKey := key, outer := outer }

/-! ### Tokens -/

def content? (s : Scanner) (text : Text) (token : Token) (left : Text) : Option (Scanner × Nat) :=
  s.noteKey?.map fun s => ({ s with keyAllowed := false }.push token).upTo text left

def boundary? (s : Scanner) (text : Text) (token : Token) (left : Text) : Option (Scanner × Nat) :=
  (s.closeBlocks fun _ => true).dropKey?.map fun s =>
    ({ s with keyAllowed := false }.push token).upTo text left

def flowStart? (s : Scanner) (text : Text) (token : Token) (left : Text) : Option (Scanner × Nat) :=
  s.noteKey?.map fun s =>
    let inner := { s with outer := s.possibleKey :: s.outer, possibleKey := none, keyAllowed := true }
    (inner.push token).upTo text left

def flowEnd? (s : Scanner) (text : Text) (token : Token) (left : Text) : Option (Scanner × Nat) :=
  s.dropKey?.map fun s =>
    let around := match s.outer with
      | [] => s
      | key :: outer => { s with possibleKey := key, outer := outer }
    ({ around with keyAllowed := false }.push token).upTo text left

def flowEntry? (s : Scanner) (text left : Text) : Option (Scanner × Nat) :=
  s.dropKey?.map fun s => ({ s with keyAllowed := true }.push .flowEntry).upTo text left

/-- `-` before an item, or `?` before a key: outside of flow collections it opens a collection, and only
where a key could stand. -/
def opener? (s : Scanner) (text : Text) (collection token : Token) (allowsKey : Bool) (left : Text) :
    Option (Scanner × Nat) :=
  if !s.inFlow && !s.keyAllowed then none
  else (s.openBlock s.spot.column s.count collection).dropKey?.map fun s =>
    ({ s with keyAllowed := allowsKey }.push token).upTo text left

def value? (s : Scanner) (text left : Text) : Option (Scanner × Nat) :=
  match s.possibleKey with
  | some key =>
    let keyed := (s.insert key.before .key).openBlock key.spot.column key.before .blockTable
    some (({ keyed with possibleKey := none, keyAllowed := false }.push .value).upTo text left)
  | none =>
    if !s.inFlow && !s.keyAllowed then none
    else
      let opened := s.openBlock s.spot.column s.count .blockTable
      some (({ opened with keyAllowed := !s.inFlow }.push .value).upTo text left)

def blockScalar? (s : Scanner) (folded : Bool) (text rest : Text) : Option (Scanner × Nat) :=
  s.dropKey?.bind fun s =>
    (block? folded s.blocks.head? rest).map fun (value, left) =>
      let style := if folded then .folded else .literal
      ({ s with keyAllowed := true }.push (.scalar value style)).upTo text left

def startsPlain (s : Scanner) (c : Char) (rest : Text) : Bool :=
  !(endsWord (c :: rest) || "-?:,[]\x7b\x7d#&*!|>'\"%@`".toList.contains c) ||
  (c = '-' && !(rest.head?.map isSpace).getD false) ||
  (!s.inFlow && (c = '?' || c = ':') && !endsWord rest)

def plainScalar? (s : Scanner) (text : Text) : Option (Scanner × Nat) :=
  s.noteKey?.bind fun s =>
    (plain? s.inFlow ((s.blocks.head?.map (· + 1)).getD 0) .nothing 0 text).map fun (value, broken, left) =>
      ({ s with keyAllowed := broken }.push (.scalar value .plain)).upTo text left

def token? (s : Scanner) (c : Char) (rest : Text) : Option (Scanner × Nat) :=
  let text := c :: rest
  if s.spot.column = 0 && c = '%' then
    (directive? rest).bind fun (token, left) => s.boundary? text token left
  else if s.spot.column = 0 && startsMark text then
    s.boundary? text (if c = '-' then .documentStart else .documentEnd) (text.drop 3)
  else if c = '[' then s.flowStart? text .flowList rest
  else if c = '\x7b' then s.flowStart? text .flowTable rest
  else if c = ']' then s.flowEnd? text .flowListEnd rest
  else if c = '\x7d' then s.flowEnd? text .flowTableEnd rest
  else if c = ',' then s.flowEntry? text rest
  else if c = '-' && endsWord rest then s.opener? text .blockList .blockEntry true rest
  else if c = '?' && (s.inFlow || endsWord rest) then s.opener? text .blockTable .key (!s.inFlow) rest
  else if c = ':' && (s.inFlow || endsWord rest) then s.value? text rest
  else if c = '*' then (anchorName? rest).bind fun (name, left) => s.content? text (.alias name) left
  else if c = '&' then (anchorName? rest).bind fun (name, left) => s.content? text (.anchor name) left
  else if c = '!' then (tag? s.inFlow text).bind fun (token, left) => s.content? text token left
  else if c = '|' && !s.inFlow then s.blockScalar? false text rest
  else if c = '>' && !s.inFlow then s.blockScalar? true text rest
  else if c = '\'' then
    (singleQuoted? .nothing rest).bind fun (value, left) => s.content? text (.scalar value .quoted) left
  else if c = '"' then
    (doubleQuoted? .nothing rest).bind fun (value, left) => s.content? text (.scalar value .quoted) left
  else if s.startsPlain c rest then s.plainScalar? text
  else none

/-- Passes over a blank, a comment, a line break or a token.  A tab is no blank where a line begins.  A byte
order mark before everything takes a column of its line. -/
def step (s : Scanner) : Text → Option (Scanner × Nat)
  | [] => none
  | c :: rest =>
    if c = '\ufeff' && s.spot.index = 0 then some (s.past [c], 1)
    else if c = ' ' || (c = '\t' && (s.inFlow || !s.keyAllowed)) then some (s.past [c], 1)
    else if c = '#' then some (s.upTo (c :: rest) (rest.dropWhile (!isBreak ·)))
    else if isBreak c then some ({ s.past [c] with keyAllowed := s.keyAllowed || !s.inFlow }, 1)
    else s.forgetKeys?.bind fun s => (s.closeBlocks (s.spot.column < ·)).token? c rest

def finish? (s : Scanner) : Option Scanner :=
  s.forgetKeys?.bind fun s => (s.closeBlocks fun _ => true).dropKey?

end Scanner

/-- Whether a character may stand in a file at all. -/
def isAllowed (c : Char) : Bool :=
  c = '\t' || c = '\n' || c = '\r' || (0x20 ≤ c.toNat && c.toNat ≤ 0x7e) || c.toNat = 0x85 ||
  (0xa0 ≤ c.toNat && c.toNat ≤ 0xfffd) || 0x10000 ≤ c.toNat

def tokens? (text : Text) : Option (List Token) :=
  if text.all isAllowed then
    ((Text.scan? Scanner.step 0 {} (withLineFeeds text)).bind Scanner.finish?).map fun s => s.tokens.reverse
  else none

end StyleScript.Settings.Yaml
