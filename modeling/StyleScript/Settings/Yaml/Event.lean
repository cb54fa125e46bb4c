import StyleScript.Settings.Yaml.Token
/-!
# Events of YAML

The grammar needs one token of look-ahead, so it is a table of moves: what is expected and the next token
decide whether that token is taken, which events there are, and what is expected instead.  A node that is
left out is an empty plain scalar.  The moves that take no token expect less than before, which is why a row
of them ends.
-/
namespace StyleScript.Settings.Yaml

structure Scalar where
  text : Text
  style : Style
  tag : Option Text

def Scalar.empty (tag : Option Text) : Scalar := ⟨[], .plain, tag⟩

inductive Event where
  | scalar (anchor : Option Text) (scalar : Scalar)
  | alias (name : Text)
  | openList (anchor : Option Text)
  | openTable (anchor : Option Text)
  | close

def Event.leftOut : Event := .scalar none (.empty none)

/-! ## Tags -/

def usualHandles : List (Text × Text) := [("!", "!"), ("!!", "tag:yaml.org,2002:")]

/-- The token with its tag in full, if the handle is known. -/
def Token.resolved? (handles : List (Text × Text)) : Token → Option Token
  | .tag [] rest => some (.tag [] rest)
  | .tag handle rest => (handles.lookup handle).map fun lead => .tag [] (lead ++ rest)
  | token => some token

/-- The handles of the directives before a document, and the tokens of that.  There is at most one version,
1.1 or 1.2, and no handle is given twice. -/
def directives? : (versioned : Bool) → (handles : List (Text × Text)) → List Token →
    Option (List (Text × Text) × List Token)
  | versioned, handles, .version major minor :: rest =>
    if versioned || major ≠ 1 || !(minor = 1 || minor = 2) then none else directives? true handles rest
  | versioned, handles, .tagHandle handle lead :: rest =>
    if (handles.lookup handle).isSome then none else directives? versioned ((handle, lead) :: handles) rest
  | _, handles, tokens => some (handles, tokens)

/-! ## The grammar -/

/-- Where a node may be left out: what it belongs to decides which tokens show that it is. -/
inductive Slot where
  | document
  | blockItem
  | listItem
  | tablePart
  | pairValue
  | flowKey
  | flowValue
  deriving DecidableEq

/-- Whether a node is left out before this token. -/
def Slot.isLeftBefore : Slot → Token → Bool
  | .document, .version .. | .document, .tagHandle .. => true
  | .document, .documentStart | .document, .documentEnd => true
  | .blockItem, .blockEntry | .blockItem, .blockEnd => true
  | .listItem, .blockEntry | .listItem, .key | .listItem, .value | .listItem, .blockEnd => true
  | .tablePart, .key | .tablePart, .value | .tablePart, .blockEnd => true
  | .pairValue, .flowEntry | .pairValue, .flowListEnd => true
  | .flowKey, .value | .flowKey, .flowEntry | .flowKey, .flowTableEnd => true
  | .flowValue, .flowEntry | .flowValue, .flowTableEnd => true
  | _, _ => false

structure NodeKind where
  /-- A block collection. -/
  block : Bool := false
  /-- Also a list whose items are not further in than the key before it. -/
  flush : Bool := false

def Slot.kind : Slot → NodeKind
  | .document | .blockItem | .listItem => { block := true }
  | .tablePart => { block := true, flush := true }
  | .pairValue | .flowKey | .flowValue => {}

inductive Expected where
  /-- A node that may be left out. -/
  | slot (slot : Slot)
  | node (kind : NodeKind)
  /-- A node behind its anchor and its tag. -/
  | content (kind : NodeKind) (anchor tag : Option Text)
  /-- The items and the end of a block list. -/
  | blockItems
  /-- The items of a list that is not further in than the key before it; it ends with them. -/
  | flushItems
  /-- The keys, the values and the end of a block table. -/
  | blockPairs
  | blockValue
  /-- Behind `[` or a comma of a flow list: an item or the end. -/
  | flowItem
  /-- Behind an item: a comma or the end. -/
  | flowItems
  /-- The key of a pair that is an item of a flow list. -/
  | pairKey
  | pairValue
  /-- Behind the opening brace or a comma of a flow table: a pair or the end. -/
  | flowPair
  /-- Behind a pair: a comma or the end. -/
  | flowPairs
  | flowValue
  /-- A value that is not there. -/
  | leftOut
  /-- The end of a pair that is an item. -/
  | pairEnd

/-- What happens: whether the next token is taken or stays. -/
inductive Move where
  | take (events : List Event) (expected : List Expected)
  | stay (events : List Event) (expected : List Expected)

/-- The move for a node behind its anchor and its tag. -/
def contentMove (kind : NodeKind) (anchor tag : Option Text) (token : Option Token) : Move :=
  let leftOut := .stay [.scalar anchor (.empty tag)] []
  match token with
  | some (.anchor name) => if anchor.isSome then leftOut else .take [] [.content kind (some name) tag]
  | some (.tag _ full) => if tag.isSome then leftOut else .take [] [.content kind anchor (some full)]
  | some (.scalar text style) => .take [.scalar anchor ⟨text, style, tag⟩] []
  | some .flowList => .take [.openList anchor] [.flowItem]
  | some .flowTable => .take [.openTable anchor] [.flowPair]
  | some .blockList => if kind.block then .take [.openList anchor] [.blockItems] else leftOut
  | some .blockTable => if kind.block then .take [.openTable anchor] [.blockPairs] else leftOut
  | some .blockEntry =>
    if kind.flush then .take [.openList anchor] [.slot .listItem, .flushItems] else leftOut
  | _ => leftOut

/-- The move for a node, which has to be there. -/
def nodeMove? (kind : NodeKind) : Option Token → Option Move
  | some (.alias name) => some (.take [.alias name] [])
  | token =>
    match contentMove kind none none token with
    | .take events expected => some (.take events expected)
    | .stay .. => none

def move? : Expected → Option Token → Option Move
  | .slot .document, none => some (.stay [.leftOut] [])
  | .slot slot, token =>
    if token.any slot.isLeftBefore then some (.stay [.leftOut] []) else some (.stay [] [.node slot.kind])
  | .node kind, token => nodeMove? kind token
  | .content kind anchor tag, token => some (contentMove kind anchor tag token)
  | .blockItems, some .blockEntry => some (.take [] [.slot .blockItem, .blockItems])
  | .blockItems, some .blockEnd => some (.take [.close] [])
  | .flushItems, some .blockEntry => some (.take [] [.slot .listItem, .flushItems])
  | .flushItems, _ => some (.stay [.close] [])
  | .blockPairs, some .key => some (.take [] [.slot .tablePart, .blockValue, .blockPairs])
  | .blockPairs, some .blockEnd => some (.take [.close] [])
  | .blockValue, some .value => some (.take [] [.slot .tablePart])
  | .blockValue, _ => some (.stay [.leftOut] [])
  | .flowItem, some .flowListEnd => some (.take [.close] [])
  | .flowItem, some .key => some (.take [.openTable none] [.pairKey, .pairValue, .pairEnd, .flowItems])
  | .flowItem, _ => some (.stay [] [.node {}, .flowItems])
  | .flowItems, some .flowEntry => some (.take [] [.flowItem])
  | .flowItems, some .flowListEnd => some (.take [.close] [])
  -- a key that is left out takes with it the token that shows this
  | .pairKey, some .value | .pairKey, some .flowEntry | .pairKey, some .flowListEnd =>
      some (.take [.leftOut] [])
  | .pairKey, _ => some (.stay [] [.node {}])
  | .pairValue, some .value => some (.take [] [.slot .pairValue])
  | .pairValue, _ => some (.stay [.leftOut] [])
  | .pairEnd, _ => some (.stay [.close] [])
  | .flowPair, some .flowTableEnd => some (.take [.close] [])
  | .flowPair, some .key => some (.take [] [.slot .flowKey, .flowValue, .flowPairs])
  | .flowPair, _ => some (.stay [] [.node {}, .leftOut, .flowPairs])
  | .flowPairs, some .flowEntry => some (.take [] [.flowPair])
  | .flowPairs, some .flowTableEnd => some (.take [.close] [])
  | .flowValue, some .value => some (.take [] [.slot .flowValue])
  | .flowValue, _ => some (.stay [.leftOut] [])
  | .leftOut, _ => some (.stay [.leftOut] [])
  | _, _ => none

/-! ## Events -/

/-- How many moves without a token may come from what is expected. -/
def Expected.weight : Expected → Nat
  | .flowPair => 4
  | .flowItem => 3
  | .slot _ | .pairKey => 2
  | _ => 1

def weight : List Expected → Nat
  | [] => 0
  | first :: more => first.weight + weight more

theorem weight_append (first more : List Expected) : weight (first ++ more) = weight first + weight more := by
  induction first with
  | nil => simp [weight]
  | cons _ _ ih => simp [weight, ih, Nat.add_assoc]

theorem contentMove_stay {kind : NodeKind} {anchor tag : Option Text} {token : Option Token}
    {events : List Event} {next : List Expected} (h : contentMove kind anchor tag token = .stay events next) :
    next = [] := by
  unfold contentMove at h
  grind

theorem nodeMove?_ne_stay {kind : NodeKind} {token : Option Token} {events : List Event}
    {next : List Expected} :
    nodeMove? kind token ≠ some (.stay events next) := by
  unfold nodeMove?
  grind

theorem weight_move? {expected : Expected} {token : Option Token} {events : List Event} {next : List Expected}
    (h : move? expected token = some (.stay events next)) : weight next < expected.weight := by
  unfold move? at h
  split at h
  case h_3 => exact absurd h nodeMove?_ne_stay
  case h_4 =>
    rw [Option.some.injEq] at h
    simp [contentMove_stay h, weight, Expected.weight]
  all_goals grind [weight, Expected.weight]

/-- The events of what is expected, and the tokens behind it. -/
def events? (expected : List Expected) (tokens : List Token) : Option (List Event × List Token) :=
  match expected with
  | [] => some ([], tokens)
  | first :: more =>
    match _h : move? first tokens.head? with
    | none => none
    | some (.stay events next) =>
      (events? (next ++ more) tokens).map fun (later, left) => (events ++ later, left)
    | some (.take events next) =>
      match tokens with
      | [] => none
      | _ :: rest => (events? (next ++ more) rest).map fun (later, left) => (events ++ later, left)
termination_by (tokens.length, weight expected)
decreasing_by
  · refine Prod.Lex.right _ ?_
    have := weight_move? _h
    simp only [weight_append, weight]
    omega
  · exact Prod.Lex.left _ _ (by simp)

end StyleScript.Settings.Yaml
