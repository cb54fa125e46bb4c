import StyleScript.Construction.Order
import StyleScript.Construction.SheetNames
import StyleScript.Script.Item
import StyleScript.SheetWriter
import StyleScript.Settings.Basic
/-!
# Writing a construction

A construction is a list of objects with their labels, right-hand sides and styles.  It is written as a
script: one statement a line in the order of their dependencies, before it the definition of its sheet unless
that is written already.  Macros come first, each a block with its own sheets.

What the flags of a label say is taken out of the style.  An object that no view draws loses the elements
that only matter when it is drawn.
-/
namespace StyleScript.Construction

structure Object where
  labels : List Text
  typeName : Text
  rhs : Text
  style : StyleMap

structure MacroConstruction where
  name : Text
  inputs : List Text
  outputs : List Text
  objects : List Object

/-! ## Visibility -/

/-- The elements that only matter to an object that is drawn. -/
def drawnElements : List Text :=
  ["angleStyle", "animation", "bgColor", "labelMode", "layer", "lineStyle", "objColor"].map String.toList

def withoutDrawn (style : StyleMap) : StyleMap :=
  style.filter fun element _ => !drawnElements.contains element

/-- Whether an object of a type that may have no drawing has one. -/
def isDrawn (typeName : Text) (style : StyleMap) : Bool :=
  if typeName = "numeric" || typeName = "angle" then style.contains "slider"
  else if typeName = "boolean" then style.contains "checkbox"
  else if typeName = "list" then style.contains "combo"
  else true

/-- Puts the element `show` back without what the flags say. -/
def withShow (style : StyleMap) (shown : Attributes) : StyleMap :=
  let left := (shown.erase "object").erase "label"
  if left.isEmpty then style.erase "show" else style.set "show" left

/-- The flags of an object, and the style without what they say.  Without an element `show` the object is
hidden. -/
def takeFlags (style : StyleMap) (typeName : Text) : Flags × StyleMap :=
  match style.get? "show" with
  | none => (⟨false, true⟩, withoutDrawn style)
  | some shown =>
    let isShown := fun (key : Text) => shown.get? key ≠ some "false".toList
    let rest := withShow style shown
    (⟨isShown "object", isShown "label"⟩, if isDrawn typeName rest then rest else withoutDrawn rest)

/-! ## Statements -/

structure Prepared where
  object : Object
  flags : Flags
  body : Option Text

def prepare (writer : SheetWriter) (object : Object) : Prepared :=
  let (flags, style) := takeFlags object.style object.typeName
  ⟨object, flags, writer.styleBody? (style.erase "file")⟩

/-- The statement of an object that is styled by a sheet, if it is. -/
def statement (p : Prepared) (sheet : Option Text) : Text :=
  let targets := p.object.labels.map fun label => Target.text ⟨label, p.flags⟩
  let style := (sheet.map fun (name : Text) => " @" ++ name).getD []
  Text.join ", " targets ++ style ++ " = " ++ p.object.rhs

/-! ## Sheets -/

/-- The names handed out, the sheets written with their bodies, and the text so far. -/
structure Page where
  names : SheetNames
  sheets : OrderedMap Text Text := OrderedMap.empty
  text : Text := []

def Page.line (page : Page) (indent line : Text) : Page :=
  { page with text := page.text ++ indent ++ line ++ ['\n'] }

structure Plan where
  settings : Settings
  /-- The bodies of all objects. -/
  bodies : List Text

/-- Whether several objects have a body, and are to share a sheet. -/
def Plan.shares (plan : Plan) (body : Text) : Bool :=
  plan.settings.mergeStyleSheets && 1 < plan.bodies.count body

/-- The sheet of a body, which is written now unless it is already. -/
def sheetFor (plan : Plan) (indent : Text) (page : Page) (label body : Text) : Text × Page :=
  match (page.sheets.get? body).filter fun _ => plan.settings.mergeStyleSheets with
  | some name => (name, page)
  | none =>
    let (name, names) :=
      if plan.shares body then page.names.next
      else page.names.claim (label ++ plan.settings.labelSheetEnding)
    let page := { page with names, sheets := page.sheets.set body name }
    (name, page.line indent (SheetWriter.definition name body))

def writeObject (plan : Plan) (indent : Text) (page : Page) (p : Prepared) : Page :=
  match p.body with
  | none => page.line indent (statement p none)
  | some body =>
    let (name, page) := sheetFor plan indent page (p.object.labels.headD []) body
    page.line indent (statement p (some name))

/-! ## Scripts -/

/-- The order in which prepared objects are written. -/
def orderOf (settings : Settings) (prepared : List Prepared) : List Nat :=
  if settings.topologicalOrder then
    dependencyOrder (prepared.map fun p => ⟨p.object.labels, p.object.rhs⟩)
  else List.range prepared.length

/-- The page of prepared objects, every line indented. -/
def pageOf (settings : Settings) (indent : Text) (prepared : List Prepared) : Page :=
  let plan : Plan := ⟨settings, prepared.filterMap (·.body)⟩
  ((orderOf settings prepared).filterMap (prepared[·]?)).foldl (writeObject plan indent)
    { names := { lead := settings.sheetLead } }

/-- The objects that can be written, which have a label. -/
def preparedOf (settings : Settings) (objects : List Object) : List Prepared :=
  (objects.filter fun o => !o.labels.isEmpty).map (prepare { strict := settings.strictProperties })

def lines (settings : Settings) (indent : Text) (objects : List Object) : Text :=
  (pageOf settings indent (preparedOf settings objects)).text

def script (settings : Settings) (objects : List Object) : Text := lines settings [] objects

/-- The block of a macro.  Without a name, outputs or a body it cannot be written. -/
def macroBlock? (settings : Settings) (m : MacroConstruction) : Option Text :=
  let body := lines settings "    " m.objects
  if m.name.isEmpty || m.outputs.isEmpty || body.isEmpty then none
  else
    some ("@@macro " ++ m.name ++ "(" ++ Text.join ", " m.inputs ++ ") \x7b\n" ++ body ++
      "    @@return " ++ Text.join ", " m.outputs ++ "\n\x7d\n")

/-- The macros, an empty line behind each, and the construction. -/
def document (settings : Settings) (macros : List MacroConstruction) (objects : List Object) : Text :=
  (macros.filterMap (macroBlock? settings)).flatMap (· ++ ['\n']) ++ script settings objects

end StyleScript.Construction
