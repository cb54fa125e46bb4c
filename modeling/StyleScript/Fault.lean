import StyleScript.Text.Basic
/-!
# Faults

Whatever goes wrong in reading, decoding, delivering or writing styles is a `Fault`: a cause, and the place
in the script if there is one.  Causes are data; their wording stands in one function, `Cause.message`,
because the wording is part of what users and tools rely on.

Lines and columns count from one.  A column counts characters, and a line break belongs to the line it ends.
-/
namespace StyleScript

/-! ## Positions -/

structure Position where
  line : Nat
  column : Nat
  deriving DecidableEq, Repr

namespace Position

def start : Position := ⟨1, 1⟩

def next (p : Position) (c : Char) : Position :=
  if c = '\n' then ⟨p.line + 1, 1⟩ else ⟨p.line, p.column + 1⟩

def past (p : Position) (text : Text) : Position := text.foldl next p

def text (p : Position) : Text :=
  "line " ++ Text.ofNat p.line ++ ", column " ++ Text.ofNat p.column

@[simp] theorem past_nil (p : Position) : p.past [] = p := rfl

@[simp] theorem past_cons (p : Position) (c : Char) (rest : Text) :
    p.past (c :: rest) = (p.next c).past rest := rfl

@[simp] theorem past_append (p : Position) (a b : Text) : p.past (a ++ b) = (p.past a).past b :=
  List.foldl_append ..

end Position

/-! ## Causes -/

/-- Where the script has to go on with one given character. -/
inductive Place where
  | afterSheetName (name : Text)
  | sheetStart
  | afterLabels
  | afterMacroName (name : Text)
  | parametersEnd
  | macroStart (name : Text)
  deriving DecidableEq

def Place.text : Place → Text
  | .afterSheetName name => "after '@" ++ name ++ "'"
  | .sheetStart => "to start a style sheet"
  | .afterLabels => "after labels"
  | .afterMacroName name => "after macro name '" ++ name ++ "'"
  | .parametersEnd => "to close the macro parameters"
  | .macroStart name => "to open macro '" ++ name ++ "'"

inductive Cause where
  /-- A message that was given from outside, by the host or by a caller. -/
  | given (message : Text)
  -- quoted text and tokens
  | quoteExpected (text : Text)
  | unterminated (text : Text)
  | textAfterString (rest : Text)
  | unterminatedIn (value : Text)
  | notNumber (what text : Text)
  -- property values
  | unknownModifier (property key : Text)
  | unknownAttribute (property key : Text)
  | unknownToken (property token : Text)
  | unknownValue (property value : Text)
  | notBoolean (property value : Text)
  | notTrueOrFalse (property value : Text)
  | valueMissing (property : Text)
  | notTwoNumbers (property value : Text)
  | unclosedColor (token : Text)
  | colorComponents (count : Nat) (token : Text)
  | unknownFill (name : Text)
  | unknownHiddenStyle (style : Text)
  | notColumn (token : Text)
  | notBarNumber (text : Text)
  | coordinatesMissing
  | coordinateCount (lead : Text) (least count : Nat)
  | unknownCoordinateGroup (key : Text)
  | repeatedCoordinateGroup (lead : Text)
  | tooManyCorners (most count : Nat)
  | notCorner (text : Text)
  -- the characters of a script
  | unbalanced (closer : Char)
  | unclosedBracket
  | unterminatedString
  | unterminatedSubscript
  | expected (c : Char) (place : Place) (found : Option Char)
  -- the items of a script
  | unexpectedBrace
  | macroInMacro (outer : Text)
  | returnOutsideMacro
  | macroWordExpected
  | returnWordExpected
  | sheetNameExpected
  | sheetBodyExpected (name : Text) (found : Option Char)
  | unterminatedSheet
  | entryEndExpected (found : Option Char)
  | screenNameExpected
  | propertyNameExpected (found : Option Char)
  | labelExpected (found : Option Char)
  | rightHandSideMissing
  | macroNameExpected
  | returnMissing (name : Text)
  | outputsMissing (name : Text)
  | macroEndExpected (name : Text) (found : Option Char)
  -- running a script
  | undefinedSheet (name : Text)
  | unknownProperty (name : Text)
  | invalidValue (property : Text) (reason : Cause)
  | creationFailed (labels reason : Text)
  | deliveryFailed (reason : Text)
  | inputNotAssigned (label name : Text)
  | outputNotAssigned (label name : Text)
  | macroExists (name : Text)
  | macroRefused (name reason : Text)
  -- style markup and settings
  | markup (offset : Nat)
  | markupAttribute
  | markupAttributeValue (key : Text)
  | markupEnd
  | settings
  | settingsUnreadable (path : Text)
  deriving DecidableEq

namespace Cause

/-- What a reader met instead of the expected character. -/
def found : Option Char → Text
  | none => "end of input"
  | some c => if c = '\n' then "end of line" else ['\'', c, '\'']

def message : Cause → Text
  | given message => message
  | quoteExpected text => "expected '\"' in " ++ text
  | unterminated text => "unterminated string: " ++ text
  | textAfterString rest => "unexpected text after string: " ++ rest
  | unterminatedIn value => "unterminated string in '" ++ value ++ "'"
  | notNumber what text => "invalid number for " ++ what ++ ": '" ++ text ++ "'"
  | unknownModifier property key => "unknown " ++ property ++ " modifier '" ++ key ++ "'"
  | unknownAttribute property key => "unknown " ++ property ++ " attribute '" ++ key ++ "'"
  | unknownToken property token => "unknown " ++ property ++ " token '" ++ token ++ "'"
  | unknownValue property value => "unknown " ++ property ++ " value '" ++ value ++ "'"
  | notBoolean property value => property ++ " expects a boolean, got '" ++ value ++ "'"
  | notTrueOrFalse property value => property ++ " expects true or false, got '" ++ value ++ "'"
  | valueMissing property => property ++ " needs a value"
  | notTwoNumbers property value => property ++ " expects two numbers, got '" ++ value ++ "'"
  | unclosedColor token => "unclosed dynamic color '" ++ token ++ "'"
  | colorComponents count token =>
    "dynamic color needs 3 or 4 components, got " ++ Text.ofNat count ++ " in '" ++ token ++ "'"
  | unknownFill name => "unknown fill type '" ++ name ++ "'"
  | unknownHiddenStyle style => "unknown lineStyle hidden style '" ++ style ++ "'"
  | notColumn token => "invalid tableview column '" ++ token ++ "'"
  | notBarNumber text => "invalid barTag bar number '" ++ text ++ "'"
  | coordinatesMissing => "coords needs at least x and y"
  | coordinateCount lead least count =>
    "coords " ++ lead ++ "group needs " ++ Text.ofNat least ++ " to 4 numbers, got " ++ Text.ofNat count
  | unknownCoordinateGroup key => "unknown coords group '" ++ key ++ "='"
  | repeatedCoordinateGroup lead => "duplicate coords group '" ++ lead ++ "'"
  | tooManyCorners most count =>
    "startPoint takes at most " ++ Text.ofNat most ++ " corners, got " ++ Text.ofNat count
  | notCorner text => "startPoint corner needs a quoted label or 2-3 coordinates, got '" ++ text ++ "'"
  | unbalanced closer => "unbalanced '" ++ [closer] ++ "'"
  | unclosedBracket => "unclosed bracket"
  | unterminatedString => "unterminated string"
  | unterminatedSubscript => "unterminated label subscript"
  | expected c place next => "expected '" ++ [c] ++ "' " ++ place.text ++ ", found " ++ found next
  | unexpectedBrace => "unexpected '\x7d'"
  | macroInMacro outer => "nested @@macro inside macro '" ++ outer ++ "'"
  | returnOutsideMacro => "@@return outside of a macro"
  | macroWordExpected => "expected 'macro' after '@@'"
  | returnWordExpected => "expected 'return' after '@@'"
  | sheetNameExpected => "expected style sheet name after '@'"
  | sheetBodyExpected name next =>
    "expected '\x7b' to start style sheet '@" ++ name ++ "', found " ++ found next
  | unterminatedSheet => "unterminated style sheet"
  | entryEndExpected next => "expected ';', newline or '\x7d' after property, found " ++ found next
  | screenNameExpected => "expected property name after '@'"
  | propertyNameExpected next => "expected property name, found " ++ found next
  | labelExpected next => "expected a label, found " ++ found next
  | rightHandSideMissing => "missing right-hand side after '='"
  | macroNameExpected => "expected macro name after '@@macro'"
  | returnMissing name => "missing @@return in macro '" ++ name ++ "'"
  | outputsMissing name => "@@return in macro '" ++ name ++ "' names no outputs"
  | macroEndExpected name next =>
    "expected '\x7d' after @@return in macro '" ++ name ++ "', found " ++ found next
  | undefinedSheet name => "Undefined style sheet '@" ++ name ++ "'"
  | unknownProperty name => "Unknown property '" ++ name ++ "'"
  | invalidValue property reason => "Invalid value for '" ++ property ++ "': " ++ reason.message
  | creationFailed labels reason => "Failed to create '" ++ labels ++ "': " ++ reason
  | deliveryFailed reason => "Failed to apply style sheet: " ++ reason
  | inputNotAssigned label name => "Input object '" ++ label ++ "' not found in macro '" ++ name ++ "'"
  | outputNotAssigned label name => "Output object '" ++ label ++ "' not found in macro '" ++ name ++ "'"
  | macroExists name => "Macro '" ++ name ++ "' already exists"
  | macroRefused name reason => "Failed to register macro '" ++ name ++ "': " ++ reason
  | markup offset => "invalid style XML at byte " ++ Text.ofNat offset ++ ": not well formed"
  | markupAttribute => "invalid style XML attribute: not of the form key=\"value\""
  | markupAttributeValue key => "invalid style XML attribute '" ++ key ++ "': unknown reference"
  | markupEnd => "invalid style XML: unexpected end of input"
  | settings => "invalid config: not a map of settings"
  | settingsUnreadable path => "cannot read config " ++ path

end Cause

/-! ## Faults -/

/-- A failure: why, and where in the script if that is known. -/
structure Fault where
  cause : Cause
  position : Option Position
  deriving DecidableEq

namespace Fault

/-- A failure with no place in a script. -/
def bare (cause : Cause) : Fault := ⟨cause, none⟩

def located (cause : Cause) (position : Position) : Fault := ⟨cause, some position⟩

/-- Places a failure that has no place yet. -/
def orLocated (fault : Fault) (position : Position) : Fault :=
  ⟨fault.cause, some (fault.position.getD position)⟩

def message (fault : Fault) : Text := fault.cause.message

def text (fault : Fault) : Text :=
  match fault.position with
  | some position => "Parse error at " ++ position.text ++ ": " ++ fault.message
  | none => "Parse error: " ++ fault.message

end Fault

/-! ## Results -/

instance instDecidableEqExcept {ε α : Type} [DecidableEq ε] [DecidableEq α] : DecidableEq (Except ε α)
  | .ok a, .ok b => decidable_of_iff (a = b) ⟨congrArg Except.ok, Except.ok.inj⟩
  | .error e, .error e' => decidable_of_iff (e = e') ⟨congrArg Except.error, Except.error.inj⟩
  | .ok _, .error _ => isFalse (by simp)
  | .error _, .ok _ => isFalse (by simp)

section

variable {ε α β : Type}

theorem ok_bind (a : α) (f : α → Except ε β) : (Except.ok a >>= f) = f a := rfl

theorem bind_eq_ok {x : Except ε α} {f : α → Except ε β} {b : β} :
    (x >>= f) = .ok b ↔ ∃ a, x = .ok a ∧ f a = .ok b := by
  cases x <;> simp [bind, Except.bind]

theorem pure_eq_ok {a b : α} : (pure a : Except ε α) = .ok b ↔ a = b := by
  simp [pure, Except.pure]

theorem mapError_eq_ok {ε' : Type} {x : Except ε α} {e : ε → ε'} {a : α} : x.mapError e = .ok a ↔ x = .ok a := by
  cases x with
  | ok b =>
    show Except.ok b = .ok a ↔ _
    rw [Except.ok.injEq, Except.ok.injEq]
  | error fault =>
    show Except.error (e fault) = .ok a ↔ _
    simp

theorem length_of_mapM_eq_ok {f : α → Except ε β} : ∀ {as : List α} {bs : List β}, as.mapM f = .ok bs →
    bs.length = as.length
  | [], bs, h => by
    rw [List.mapM_nil, pure_eq_ok] at h
    rw [← h]
    rfl
  | a :: as, bs, h => by
    rw [List.mapM_cons] at h
    obtain ⟨b, -, h⟩ := bind_eq_ok.1 h
    obtain ⟨rest, hrest, h⟩ := bind_eq_ok.1 h
    rw [← pure_eq_ok.1 h, List.length_cons, List.length_cons, length_of_mapM_eq_ok hrest]

/-- What was made of a list element by element is read back element by element. -/
theorem mapM_map_eq_ok {f : α → Except ε β} {g : β → α} (h : ∀ b, f (g b) = .ok b) : ∀ bs : List β,
    (bs.map g).mapM f = .ok bs
  | [] => rfl
  | b :: bs => by
    rw [List.map_cons, List.mapM_cons, h, mapM_map_eq_ok h bs]
    rfl

/-- A run over a list fails at one of its elements, and those before it went well. -/
theorem foldlM_eq_error {f : β → α → Except ε β} {e : ε} : ∀ {as : List α} {b : β}, as.foldlM f b = .error e →
    ∃ done a rest mid, as = done ++ a :: rest ∧ done.foldlM f b = .ok mid ∧ f mid a = .error e
  | [], _, h => nomatch h
  | a :: as, b, h => by
    rw [List.foldlM_cons] at h
    cases ha : f b a with
    | error e' =>
      rw [ha] at h
      cases h
      exact ⟨[], a, as, b, rfl, rfl, ha⟩
    | ok next =>
      rw [ha] at h
      have hnext : as.foldlM f next = .error e := h
      obtain ⟨done, a', rest, mid, rfl, hdone, ha'⟩ := foldlM_eq_error hnext
      refine ⟨a :: done, a', rest, mid, rfl, ?_, ha'⟩
      rw [List.foldlM_cons, ha]
      exact hdone

end
end StyleScript
