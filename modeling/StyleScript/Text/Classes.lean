import StyleScript.Text.Basic
import StyleScript.Text.Alphabetic
import StyleScript.Text.Numeric
/-!
# Character classes

Blank space is the Unicode property *White_Space*, of which the line break is a member.  Names are made of
alphabetic and numeric characters and `_`; a label may also hold `'` and `$`.
-/
namespace StyleScript.Text

/-- The ranges of the property White_Space, ascending. -/
def blankRanges : Ranges :=
  [(0x9, 0xd), (0x20, 0x20), (0x85, 0x85), (0xa0, 0xa0), (0x1680, 0x1680), (0x2000, 0x200a),
   (0x2028, 0x2029), (0x202f, 0x202f), (0x205f, 0x205f), (0x3000, 0x3000)]

def isBlank (c : Char) : Bool := blankRanges.holds c.toNat

def isAlphanumeric (c : Char) : Bool := isAlphabetic c || isNumeric c

/-! ## Names and labels -/

def startsName (c : Char) : Bool := isAlphabetic c || c = '_'

def continuesName (c : Char) : Bool := isAlphanumeric c || c = '_'

def startsLabel (c : Char) : Bool := isAlphabetic c || c = '_' || c = '$'

def continuesLabel (c : Char) : Bool := isAlphanumeric c || c = '_' || c = '\'' || c = '$'

/-! ## Brackets -/

def isOpener (c : Char) : Bool := c = '(' || c = '[' || c = '{'

def isCloser (c : Char) : Bool := c = ')' || c = ']' || c = '}'

/-! ## Trimming -/

def trimLeft (text : Text) : Text := text.dropWhile isBlank

def trimRight (text : Text) : Text := (text.reverse.dropWhile isBlank).reverse

def trim (text : Text) : Text := trimRight (trimLeft text)

def isBlankText (text : Text) : Bool := text.all isBlank

end StyleScript.Text
