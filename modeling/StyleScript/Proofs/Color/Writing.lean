import StyleScript.Proofs.Color.Content
import StyleScript.Proofs.Number.Bytes
/-!
# What is written of a color

The tokens of attributes that say a content are those of a smaller content (`writeTokens_eq`): what says the same as
its default is dropped, empty texts are, and beside bytes the expressions are.  Dropping twice drops no more.
-/
namespace StyleScript.Color

/-! ## Numbers among the attributes -/

theorem float?_alphaText (byte : Nat) :
    Text.float? (Text.trim (alphaText byte)) = some (Binary64.ofRatio byte 255) := by
  rw [alphaText, Binary64.trim_text, Binary64.float?_text (Binary64.isValue_ofRatio byte (by decide))]

theorem channel?_of_byte {attrs : Attributes} {key : Text} {byte : Fin 256}
    (h : attrs.get? key = some (Text.ofNat byte)) : channel? attrs key = some byte.val := by
  rw [channel?, h, Option.bind_some, Text.trim_ofNat, Text.float?_ofNat (Nat.lt_trans byte.isLt (by decide)),
    Option.map_some, Binary64.toByte_whole byte.isLt]

theorem alphaDigits_of_share {attrs : Attributes} {byte : Fin 256} (h : attrs.get? "alpha" = some (Hex.share byte)) :
    alphaDigits attrs = if byte.val = 255 then [] else hexByte byte := by
  rw [alphaDigits, h, Option.bind_some, Hex.share, float?_alphaText]
  dsimp only
  by_cases hbyte : byte.val = 255
  · rw [hbyte, Binary64.ofRatio_greatest, Binary64.apartFromOne_one]
    rfl
  · have hlt : byte.val < 255 := by omega
    rw [Binary64.apartFromOne_share hlt, Binary64.toByte_share byte.isLt, if_neg hbyte]
    rfl

/-! ## The tokens of a content -/

def Hex.token (hex : Hex) : Text :=
  '#' :: hexByte hex.red ++ hexByte hex.green ++ hexByte hex.blue ++ hex.alpha.elim [] fun byte => hexByte byte

def Call.operands (call : Call) : List Text := [call.first, call.second, call.third] ++ call.fourth.toList

def Call.token (call : Call) : Text :=
  spaces.get call.space ++ "(" ++ Text.join "," (call.operands.map Text.quoteIfNeeded) ++ ")"

namespace Content

/-- Tokens that say a content, all of it. -/
def texts (c : Content) : List Text :=
  (c.hex.map Hex.token).toList ++ (c.call.map Call.token).toList ++
    (c.fill.map fun code : Fin fillNames.length => "fill=" ++ fillNames.get code).toList ++
    (c.angle.map fun v => "angle=" ++ Text.quoteIfNeeded v).toList ++
    (c.dist.map fun v => "dist=" ++ Text.quoteIfNeeded v).toList ++
    (c.image.map fun v => "image=" ++ leaf v).toList ++ (c.symbol.map fun v => "symbol=" ++ leaf v).toList ++
    (c.inverse.map fun on => if on then "inverse".toList else "~inverse".toList).toList

/-- What is written of a content. -/
def kept (c : Content) : Content where
  hex := c.hex.map fun hex => { hex with alpha := hex.alpha.filter (·.val ≠ 255) }
  call := if c.hex.isSome then none else c.call
  fill := c.fill.filter (·.val ≠ 0)
  angle := c.angle.filter fun v => !Text.sameValue v "45"
  dist := c.dist.filter fun v => !Text.sameValue v "10"
  image := c.image.filter (· ≠ [])
  symbol := c.symbol.filter (· ≠ [])
  inverse := c.inverse.filter id

/-- What was dropped once is not dropped again. -/
theorem kept_kept (c : Content) : c.kept.kept = c.kept := by
  have hfilter : ∀ {α : Type} (p : α → Bool) (x : Option α), (x.filter p).filter p = x.filter p := by
    intro α p x
    rw [Option.filter_filter]
    simp only [Bool.and_self]
  simp only [kept, hfilter, Option.map_map, Option.isSome_map]
  congr 1
  · refine congrArg (Option.map · c.hex) (funext fun hex => ?_)
    simp only [Function.comp_apply, hfilter]
  · split <;> rfl

end Content

/-! ## Written attributes -/

section

variable {attrs : Attributes} {c : Content} (h : Says attrs c)
include h

theorem Says.alphaDigits {hex : Hex} (hhex : c.hex = some hex) :
    alphaDigits attrs = (hex.alpha.filter (·.val ≠ 255)).elim [] fun byte => hexByte byte := by
  have halpha : attrs.get? "alpha" = c.hex.bind fun hex => hex.alpha.map Hex.share := h.get? _
  rw [hhex, Option.bind_some] at halpha
  cases hshare : hex.alpha with
  | none =>
    rw [hshare] at halpha
    rw [Color.alphaDigits, halpha]
    rfl
  | some byte =>
    rw [hshare] at halpha
    rw [alphaDigits_of_share halpha, Option.filter_some]
    by_cases hbyte : byte.val = 255
    · rw [if_pos hbyte, decide_eq_false (not_not.2 hbyte)]
      rfl
    · rw [if_neg hbyte, decide_eq_true hbyte]
      rfl

theorem Says.spaceName {call : Call} (hcall : c.call = some call) : spaceName attrs = spaces.get call.space := by
  have hspace : attrs.get? "colorSpace" = c.call.map fun call => Text.ofNat call.space := h.get? _
  have hsmall : call.space.val ≤ 0xffffffffffffffff := Nat.le_trans call.space.isLt.le (by decide)
  rw [hcall, Option.map_some] at hspace
  rw [Color.spaceName, hspace, Option.bind_some, Text.natural64?, Text.natural?_ofNat hsmall, Option.bind_some,
    List.getElem?_eq_getElem call.space.isLt]
  rfl

theorem Says.operands {call : Call} (hcall : c.call = some call) :
    expressionKeys.filterMap attrs.get? = call.operands := by
  have hr : attrs.get? "dynamicr" = c.call.map Call.first := h.get? _
  have hg : attrs.get? "dynamicg" = c.call.map Call.second := h.get? _
  have hb : attrs.get? "dynamicb" = c.call.map Call.third := h.get? _
  have ha : attrs.get? "dynamica" = c.call.bind Call.fourth := h.get? _
  rw [hcall] at hr hg hb ha
  rw [expressionKeys, List.map_cons, List.map_cons, List.map_cons, List.map_cons, List.filterMap_cons_some hr,
    List.filterMap_cons_some hg, List.filterMap_cons_some hb, Call.operands]
  cases hfourth : call.fourth with
  | none =>
    rw [Option.bind_some, hfourth] at ha
    rw [List.filterMap_cons_none ha]
    rfl
  | some v =>
    rw [Option.bind_some, hfourth] at ha
    rw [List.filterMap_cons_some ha]
    rfl

theorem Says.color : (writeColor attrs).toList =
    (c.kept.hex.map Hex.token).toList ++ (c.kept.call.map Call.token).toList := by
  have hr : attrs.get? "r" = c.hex.map fun hex => Text.ofNat hex.red := h.get? _
  have hg : attrs.get? "g" = c.hex.map fun hex => Text.ofNat hex.green := h.get? _
  have hb : attrs.get? "b" = c.hex.map fun hex => Text.ofNat hex.blue := h.get? _
  have hd : attrs.get? "dynamicr" = c.call.map Call.first := h.get? _
  rw [writeColor, Content.kept]
  dsimp only
  cases hhex : c.hex with
  | some hex =>
    rw [hhex] at hr hg hb
    rw [channel?_of_byte hr, channel?_of_byte hg, channel?_of_byte hb, h.alphaDigits hhex]
    rfl
  | none =>
    have hnone : channel? attrs "r" = none := by rw [channel?, hr, hhex]; rfl
    rw [hnone, OrderedMap.contains, hd]
    cases hcall : c.call with
    | none => rfl
    | some call =>
      rw [h.spaceName hcall, h.operands hcall]
      rfl

theorem Says.fillName : (attrs.unlessDefault? "fillType" "0").bind fillName? =
    c.kept.fill.map fun code : Fin fillNames.length => fillNames.get code := by
  have hfill : attrs.get? "fillType" = c.fill.map fun code : Fin fillNames.length => Text.ofNat code := h.get? _
  rw [Attributes.unlessDefault?, hfill, Content.kept]
  dsimp only
  cases c.fill with
  | none => rfl
  | some code =>
    have hsmall : code.val ≤ 0xffffffffffffffff := Nat.le_trans code.isLt.le (by decide)
    have hzero : Text.sameValue (Text.ofNat code) "0" ↔ code.val = 0 :=
      Text.sameValue_ofNat (Nat.lt_trans code.isLt (by decide)) (show 0 < 2 ^ 53 by decide)
    rw [Option.map_some, Option.filter_some, Option.filter_some]
    by_cases hcode : code.val = 0
    · rw [hzero.2 hcode, decide_eq_false (not_not.2 hcode)]
      rfl
    · rw [Bool.eq_false_iff.2 (mt hzero.1 hcode), decide_eq_true hcode]
      show fillName? (Text.ofNat code) = some (fillNames.get code)
      rw [fillName?, Text.natural64?, Text.natural?_ofNat hsmall]
      exact List.getElem?_eq_getElem code.isLt

omit h in
theorem ne_standard {code : Fin fillNames.length} (hcode : c.kept.fill = some code) :
    fillNames.get code ≠ "standard" := by
  have hall : ∀ code : Fin fillNames.length, code.val ≠ 0 → fillNames.get code ≠ "standard" := by decide
  have hkept : c.fill.filter (·.val ≠ 0) = some code := hcode
  exact hall code (of_decide_eq_true (Option.filter_eq_some_iff.1 hkept).2)

/-- **The tokens of attributes are those of what is kept of them.** -/
theorem writeTokens_eq : writeTokens attrs = c.kept.texts := by
  have hangle : attrs.get? "hatchAngle" = c.angle := h.get? _
  have hdist : attrs.get? "hatchDistance" = c.dist := h.get? _
  have himage : attrs.get? "image" = c.image := h.get? _
  have hsymbol : attrs.get? "fillSymbol" = c.symbol := h.get? _
  have hinverse : attrs.get? "inverseFill" = c.inverse.map Text.ofBool := h.get? _
  have hnonempty : ∀ value : Option Text, value.bind Text.nonempty? = value.filter (· ≠ []) := by
    intro value
    match value with
    | none | some [] | some (_ :: _) => rfl
  have hword : (if decide (c.inverse.map Text.ofBool = some "true".toList) then ["inverse".toList] else []) =
      (c.kept.inverse.map fun on => if on then "inverse".toList else "~inverse".toList).toList := by
    show _ = (Option.map _ (c.inverse.filter id)).toList
    match c.inverse with
    | none | some true | some false => rfl
  rw [writeTokens, Content.texts, h.color, h.fillName, Attributes.unlessDefault?, Attributes.unlessDefault?, hangle,
    hdist, himage, hsymbol, hnonempty, hnonempty, Attributes.isTrue, hinverse, hword]
  cases hfill : c.kept.fill with
  | none => rfl
  | some code =>
    rw [Option.map_some]
    dsimp only
    rw [if_neg (ne_standard hfill)]
    rfl

end

end StyleScript.Color
