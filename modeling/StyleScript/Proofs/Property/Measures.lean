import StyleScript.Property.Extent
import StyleScript.Property.SingleValue
import StyleScript.Proofs.Number.Spelling
import StyleScript.Proofs.Property.Aspects
/-!
# Numbers that are kept as they are written

Some formats check a number without the blanks around it, but keep the text of it as it stands between its quotes, and
write that text without quotes.  Trimmed, the text of a number is one token, and then nothing is lost.  With blanks
around it, it is not read again as it was: behind blanks the key stands alone, and blanks that follow are gone when the
value is written once more.  So what is read survives exactly if the numbers that are written of it are trimmed
(`survives_iff_trimmed`).
-/
namespace StyleScript

open PropertyFormat (Aspect Rowed)
open Text (Part Same same_refl Trimmed DividesInto)

namespace Extent

variable {extent : Extent} {a b : Attributes}

/-! ## The aspects of an extent -/

/-- An extent of numbers, in which every token is known by its key or by its word. -/
structure Measured (extent : Extent) : Prop where
  numbers : extent.integers = false
  isKey : ∀ key ∈ extent.keys, Text.isKey key
  bare : ∀ flag ∈ extent.flag, Text.needsQuoting flag.token = false ∧ Text.keyValue? flag.token = none ∧
    Text.negation flag.token = (true, flag.token)
  default : ∀ flag ∈ extent.flag, extent.defaults.get? flag.attr = some (Text.ofBool flag.opposite)
  distinct : (extent.keys ++ extent.flag.toList.map (·.attr)).Nodup

theorem measured_contentSize : Measured contentSize :=
  ⟨rfl, by decide, fun _ h => (nomatch h), fun _ h => (nomatch h), by decide⟩

theorem measured_cropBox : Measured cropBox := by
  refine ⟨rfl, by decide, ?_, ?_, by decide⟩
  · rintro flag ⟨⟩
    decide
  · rintro flag ⟨⟩
    decide

theorem measured_dimensions : Measured dimensions := by
  refine ⟨rfl, by decide, ?_, ?_, by decide⟩
  · rintro flag ⟨⟩
    decide
  · rintro flag ⟨⟩
    decide

/-- Whether a number is written: unless it says the same as its default, if there is one. -/
def keeps (extent : Extent) (key v : Text) : Bool :=
  match extent.defaults.get? key with
  | some default => !Text.sameValue v default
  | none => true

def sizeAspect (extent : Extent) (key : Text) : Aspect := .single key (extent.keeps key) fun v => key ++ '=' :: v

def flagAspect (flag : ExtentFlag) : Aspect := .flag flag.attr flag.token (!flag.opposite)

def aspects (extent : Extent) : List Aspect := extent.keys.map extent.sizeAspect ++ extent.flag.toList.map flagAspect

theorem texts_sizeAspect (h : Measured extent) (attrs : Attributes) (key : Text) :
    (extent.sizeAspect key).texts attrs = extent.writeSize attrs key := by
  have hwritten : ∀ value : Option Text, (value.map fun v => key ++ '=' :: v).toList =
      (value.map fun v => key ++ "=" ++ if extent.integers then Text.truncateText v else v).toList := by
    rw [h.numbers]
    intro value
    cases value with
    | none => rfl
    | some v => exact congrArg (fun text => [text]) (List.append_cons ..)
  rw [writeSize, ← hwritten]
  show (((attrs.get? key).filter (extent.keeps key)).map fun v => key ++ '=' :: v).toList = _
  unfold keeps
  cases extent.defaults.get? key with
  | none =>
    cases attrs.get? key with
    | none => rfl
    | some v => rfl
  | some d => rfl

theorem texts_flagAspect (attrs : Attributes) :
    (extent.flag.toList.map flagAspect).flatMap (·.texts attrs) = extent.writeFlag attrs := by
  rw [writeFlag]
  cases extent.flag with
  | none => rfl
  | some flag =>
    show (flagAspect flag).texts attrs ++ [] = _
    rw [List.append_nil]
    exact Aspect.texts_flag ..

theorem write_eq (h : Measured extent) (attrs : Attributes) :
    extent.write attrs = extent.aspects.flatMap (·.texts attrs) := by
  rw [write, aspects, List.flatMap_append, texts_flagAspect, List.flatMap_map]
  exact congrArg (· ++ _) (List.flatMap_congr fun key _ => (texts_sizeAspect h attrs key).symm)

theorem rowed (h : Measured extent) : Rowed extent.format extent.token extent.aspects where
  decode := rfl
  encode attrs := congrArg (fun texts => Text.nonempty? (Text.words texts)) (write_eq h attrs)
  complete := rfl
  distinct := by
    have hkeys : extent.aspects.flatMap Aspect.keys = extent.keys ++ extent.flag.toList.map (·.attr) := by
      rw [aspects, List.flatMap_append, List.flatMap_map, List.flatMap_map]
      exact congrArg₂ (· ++ ·) (List.flatMap_singleton' _) (List.flatMap_pure_eq_map _ _)
    rw [hkeys]
    exact h.distinct

/-! ## What is read -/

/-- What an attribute of an extent can be: a number, or its flag. -/
def Holds (extent : Extent) (key v : Text) : Prop :=
  key ∈ extent.keys ∧ v.IsNumber ∨ ∃ flag ∈ extent.flag, key = flag.attr ∧ ∃ on, v = Text.ofBool on

theorem holds_of_token (h : Measured extent) {t : Text} {settings : List (Text × Text)}
    (ht : extent.token t = .ok settings) : ∀ p ∈ settings, extent.Holds p.1 p.2 := by
  rw [token] at ht
  split at ht
  · split at ht
    · next hkey =>
      obtain ⟨written, -, ht⟩ := bind_eq_ok.1 ht
      obtain ⟨v, hv, ht⟩ := bind_eq_ok.1 ht
      cases ht
      rw [size, h.numbers, if_neg Bool.false_ne_true] at hv
      obtain ⟨x, hx, rfl⟩ := map_eq_ok.1 hv
      exact List.forall_mem_singleton.2 (.inl ⟨List.contains_iff_mem.1 hkey, Text.isNumber_of_number hx⟩)
    · cases ht
  · split at ht
    split at ht
    · next hflag =>
      cases ht
      exact List.forall_mem_singleton.2 (.inr ⟨_, (Option.filter_eq_some_iff.1 hflag).1, rfl, _, rfl⟩)
    · cases ht

theorem holds_of_decode (h : Measured extent) {value : Text} (hvalue : extent.format.decode value = .ok (some a)) :
    ∀ key v, a.get? key = some v → extent.Holds key v :=
  PropertyFormat.values_of_readTokens (holds_of_token h) hvalue

/-! ## Trimmed numbers survive -/

theorem key_mem_of_holds {key v : Text} (h : extent.Holds key v) : key ∈ extent.aspects.flatMap Aspect.keys := by
  rcases h with ⟨hkey, -⟩ | ⟨flag, hflag, rfl, -⟩
  · exact List.mem_flatMap.2 ⟨extent.sizeAspect key,
      List.mem_append_left _ (List.mem_map_of_mem hkey), List.mem_cons_self⟩
  · exact List.mem_flatMap.2 ⟨flagAspect flag,
      List.mem_append_right _ (List.mem_map_of_mem (Option.mem_toList.2 hflag)), List.mem_cons_self⟩

theorem token_keyValue (h : Measured extent) {key : Text} (hkey : key ∈ extent.keys) (written : Text) :
    extent.token (key ++ '=' :: written) = do
      let v ← Text.scalar written
      let _ ← Text.number extent.name v
      return [(key, v)] := by
  rw [token, Text.keyValue?_of_isKey (h.isKey key hkey)]
  dsimp only
  rw [if_pos (List.contains_iff_mem.2 hkey)]
  cases Text.scalar written with
  | error e => rfl
  | ok v =>
    rw [ok_bind, ok_bind, size, h.numbers, if_neg Bool.false_ne_true]
    cases Text.number extent.name v <;> rfl

theorem token_size (h : Measured extent) {key v : Text} (hkey : key ∈ extent.keys) (hv : v.IsNumber)
    (htrimmed : Trimmed v) : extent.token (key ++ '=' :: v) = .ok [(key, v)] := by
  have hspelled := hv.spelled
  rw [Text.trim_eq_self htrimmed] at hspelled
  obtain ⟨x, hx⟩ := hv.number extent.name
  rw [token_keyValue h hkey, Text.scalar_bare htrimmed hspelled.ne_quote, ok_bind, hx]
  rfl

/-- Blanks part the key from its number, and a key with nothing behind it is refused. -/
theorem token_key_ne_ok (h : Measured extent) {key : Text} (hkey : key ∈ extent.keys) (settings : List (Text × Text)) :
    extent.token (key ++ ['=']) ≠ .ok settings := by
  intro htoken
  rw [token_keyValue h hkey, show Text.scalar [] = .ok [] from rfl, ok_bind] at htoken
  obtain ⟨x, hx, -⟩ := bind_eq_ok.1 htoken
  exact (Text.isNumber_of_number hx).spelled.ne_nil rfl

theorem part_size (h : Measured extent) {key v : Text} (hkey : key ∈ extent.keys) (hv : v.IsNumber) :
    Part Text.isBlank (key ++ '=' :: Text.trim v) :=
  Text.part_keyValue (h.isKey key hkey) hv.spelled.part

theorem apart (h : Measured extent) {flag : ExtentFlag} (hflag : flag ∈ extent.flag) : flag.attr ∉ extent.keys := by
  intro hmem
  exact (List.nodup_append.1 h.distinct).2.2 _ hmem _
    (List.mem_map_of_mem (f := (·.attr)) (Option.mem_toList.2 hflag)) rfl

theorem token_word (h : Measured extent) {flag : ExtentFlag} (hflag : flag ∈ extent.flag) :
    extent.token flag.token = .ok [(flag.attr, Text.ofBool (!flag.opposite))] := by
  obtain ⟨-, hkeyValue, hnegation⟩ := h.bare flag hflag
  rw [token, hkeyValue]
  dsimp only
  rw [hnegation, Option.mem_def.1 hflag, Option.filter_some, decide_eq_true rfl, if_pos rfl]
  dsimp only
  rw [Bool.true_bne]

theorem isNumber_of_get? (h : Measured extent) (hholds : ∀ key v, a.get? key = some v → extent.Holds key v)
    {key v : Text} (hkey : key ∈ extent.keys) (hv : a.get? key = some v) : v.IsNumber := by
  rcases hholds key v hv with ⟨-, hnumber⟩ | ⟨flag, hflag, rfl, -⟩
  · exact hnumber
  · exact absurd hkey (apart h hflag)

theorem part_word (h : Measured extent) {flag : ExtentFlag} (hflag : flag ∈ extent.flag) :
    Part Text.isBlank flag.token :=
  Text.part_of_not_needsQuoting Text.breaksTokens_isBlank (h.bare flag hflag).1

/-- Every aspect lasts if the numbers that are written are trimmed. -/
theorem lasts (h : Measured extent) (hholds : ∀ key v, a.get? key = some v → extent.Holds key v)
    (htrimmed : ∀ key v, a.get? key = some v → extent.keeps key v → Trimmed v) :
    ∀ aspect ∈ extent.aspects, aspect.Lasts extent.token extent.defaults a := by
  refine List.forall_mem_append.2 ⟨List.forall_mem_map.2 fun key hkey => ?_, List.forall_mem_map.2 fun flag hflag => ?_⟩
  · refine Aspect.lasts_single (fun v hv hkeeps => ?_) fun v _ hkeeps => ?_
    · have hnumber := isNumber_of_get? h hholds hkey hv
      have hpart := part_size h hkey hnumber
      rw [Text.trim_eq_self (htrimmed key v hv hkeeps)] at hpart
      exact ⟨hpart, token_size h hkey hnumber (htrimmed key v hv hkeeps)⟩
    · rw [keeps] at hkeeps
      split at hkeeps
      · next default hdefault => exact ⟨default, hdefault, (Bool.not_eq_false' _).mp hkeeps⟩
      · cases hkeeps
  · rw [Option.mem_toList] at hflag
    refine Aspect.lasts_flag (part_word h hflag) (token_word h hflag) ?_ ?_
    · rw [Bool.not_not]
      exact h.default flag hflag
    · intro v hv
      rcases hholds _ v hv with ⟨hkey, -⟩ | ⟨-, -, -, hon⟩
      · exact absurd hkey (apart h hflag)
      · exact hon

/-! ## Only trimmed numbers survive -/

/-- A key with its number divides at the blanks around the number. -/
theorem divides_size (h : Measured extent) {key v : Text} (hkey : key ∈ extent.keys) (hv : v.IsNumber) :
    Text.trim (key ++ '=' :: v) = key ++ '=' :: Text.trim v ∧
        DividesInto Text.isBlank (key ++ '=' :: v) [key ++ '=' :: Text.trim v] ∨
      ∃ qs, DividesInto Text.isBlank (key ++ '=' :: v) ((key ++ ['=']) :: qs) := by
  have hpart := part_size h hkey hv
  obtain ⟨lead, tail, hgaps, hlead, htail⟩ := Text.exists_gaps v
  cases lead with
  | nil =>
    left
    have htext : key ++ '=' :: v = key ++ '=' :: Text.trim v ++ tail := by
      rw [List.append_assoc, List.cons_append]
      exact congrArg (fun v => key ++ '=' :: v) hgaps
    rw [htext]
    exact ⟨Text.trim_append_blank hpart.trimmed hpart.ne_nil htail, hpart.dividesInto.append_blanks htail⟩
  | cons c lead =>
    right
    rw [List.forall_mem_cons] at hlead
    have hrest := (hv.spelled.part.dividesInto.append_blanks htail).lead_blanks hlead.2
    have hall := (Text.part_key (h.isKey key hkey)).dividesInto.append (Text.divides_of_isBlank hlead.1) hrest
    have htext : key ++ '=' :: v = key ++ ['='] ++ c :: (lead ++ (Text.trim v ++ tail)) := by
      rw [List.append_assoc, ← List.append_assoc lead, ← List.cons_append, ← List.cons_append]
      exact congrArg (fun v => key ++ '=' :: v) hgaps
    rw [htext]
    exact ⟨_, hall⟩

theorem mem_write (h : Measured extent) {t : Text} : t ∈ extent.write a ↔
    (∃ key ∈ extent.keys, ∃ v, a.get? key = some v ∧ extent.keeps key v ∧ t = key ++ '=' :: v) ∨
      ∃ flag ∈ extent.flag, a.get? flag.attr = some (Text.ofBool (!flag.opposite)) ∧ t = flag.token := by
  rw [write_eq h, aspects, List.flatMap_append, List.mem_append, List.flatMap_map, List.flatMap_map, List.mem_flatMap,
    List.mem_flatMap]
  refine or_congr (exists_congr fun key => and_congr_right' Aspect.mem_texts_single) (exists_congr fun flag => ?_)
  rw [Option.mem_toList]
  refine and_congr_right' (Aspect.mem_texts_single.trans ?_)
  constructor
  · rintro ⟨v, hv, hkeeps, rfl⟩
    exact ⟨of_decide_eq_true hkeeps ▸ hv, rfl⟩
  · rintro ⟨hv, rfl⟩
    exact ⟨_, hv, decide_eq_true rfl, rfl⟩

theorem ne_nil_of_mem_write (h : Measured extent) {t : Text} (ht : t ∈ extent.write a) : t ≠ [] := by
  rcases (mem_write h).1 ht with ⟨key, -, v, -, -, rfl⟩ | ⟨flag, hflag, -, rfl⟩
  · exact List.append_ne_nil_of_right_ne_nil _ (List.cons_ne_nil _ _)
  · exact (part_word h hflag).ne_nil

/-- An extent that is read again divides into its tokens without the blanks around them. -/
theorem tokens_write (h : Measured extent) (hholds : ∀ key v, a.get? key = some v → extent.Holds key v)
    (hreread : PropertyFormat.readTokens extent.token (Text.words (extent.write a)) = .ok (some b)) :
    Text.tokens (Text.words (extent.write a)) = .ok ((extent.write a).map Text.trim) ∧
      ∀ key ∈ extent.keys, ∀ v, a.get? key = some v → extent.keeps key v →
        Text.trim (key ++ '=' :: v) = key ++ '=' :: Text.trim v := by
  have hdivided : ∀ t ∈ extent.write a, ∃ ps, DividesInto Text.isBlank t ps := by
    intro t ht
    rcases (mem_write h).1 ht with ⟨key, hkey, v, hv, -, rfl⟩ | ⟨flag, hflag, -, rfl⟩
    · rcases divides_size h hkey (isNumber_of_get? h hholds hkey hv) with ⟨-, hdiv⟩ | ⟨qs, hdiv⟩
      · exact ⟨_, hdiv⟩
      · exact ⟨_, hdiv⟩
    · exact ⟨_, (part_word h hflag).dividesInto⟩
  choose! f hf using hdivided
  have htokens := Text.tokens_words_of_divided (fun _ ht => ne_nil_of_mem_write h ht) hf
  have hsize : ∀ key ∈ extent.keys, ∀ v, a.get? key = some v → extent.keeps key v →
      Text.trim (key ++ '=' :: v) = key ++ '=' :: Text.trim v ∧
        DividesInto Text.isBlank (key ++ '=' :: v) [key ++ '=' :: Text.trim v] := by
    intro key hkey v hv hkeeps
    have hmem : key ++ '=' :: v ∈ extent.write a := (mem_write h).2 (.inl ⟨key, hkey, v, hv, hkeeps, rfl⟩)
    refine (divides_size h hkey (isNumber_of_get? h hholds hkey hv)).resolve_right fun ⟨qs, hdiv⟩ => ?_
    have halone : key ++ ['='] ∈ (extent.write a).flatMap f :=
      List.mem_flatMap.2 ⟨_, hmem, hdiv.unique (hf _ hmem) ▸ List.mem_cons_self⟩
    obtain ⟨settings, htoken⟩ := PropertyFormat.token_of_mem htokens hreread _ halone
    exact token_key_ne_ok h hkey settings htoken
  have hpieces : ∀ t ∈ extent.write a, f t = [Text.trim t] := by
    intro t ht
    rcases (mem_write h).1 ht with ⟨key, hkey, v, hv, hkeeps, rfl⟩ | ⟨flag, hflag, -, rfl⟩
    · obtain ⟨htrim, hdiv⟩ := hsize key hkey v hv hkeeps
      rw [htrim]
      exact (hf _ ht).unique hdiv
    · have hpart := part_word h hflag
      rw [Text.trim_eq_self hpart.trimmed]
      exact (hf _ ht).unique hpart.dividesInto
  refine ⟨?_, fun key hkey v hv hkeeps => (hsize key hkey v hv hkeeps).1⟩
  rw [htokens, List.flatMap_congr hpieces]
  exact congrArg Except.ok (List.flatMap_pure_eq_map _ _)

theorem trimmed_ofBool : ∀ on, Trimmed (Text.ofBool on) := by decide

/-- What is read again of an extent is trimmed. -/
theorem trimmed_of_reread (h : Measured extent) (hholds : ∀ key v, a.get? key = some v → extent.Holds key v)
    (hreread : PropertyFormat.readTokens extent.token (Text.words (extent.write a)) = .ok (some b)) :
    ∀ key v, b.get? key = some v → Trimmed v := by
  obtain ⟨htokens, hsize⟩ := tokens_write h hholds hreread
  refine PropertyFormat.values_of_tokens (P := fun _ v => Trimmed v) htokens (List.forall_mem_map.2 ?_) hreread
  intro t ht settings htoken
  rcases (mem_write h).1 ht with ⟨key, hkey, v, hv, hkeeps, rfl⟩ | ⟨flag, hflag, -, rfl⟩
  · have hnumber := isNumber_of_get? h hholds hkey hv
    rw [hsize key hkey v hv hkeeps, token_size h hkey hnumber.trim (Text.trimmed_trim v)] at htoken
    cases htoken
    exact List.forall_mem_singleton.2 (Text.trimmed_trim v)
  · rw [Text.trim_eq_self (part_word h hflag).trimmed, token_word h hflag] at htoken
    cases htoken
    exact List.forall_mem_singleton.2 (trimmed_ofBool _)

theorem trimmed_of_survives (h : Measured extent) (hholds : ∀ key v, a.get? key = some v → extent.Holds key v)
    (hsurvives : extent.format.Survives a) {key v : Text} (hv : a.get? key = some v) (hkeeps : extent.keeps key v) :
    Trimmed v := by
  rcases hholds key v hv with ⟨hkey, -⟩ | ⟨-, -, -, on, rfl⟩
  · obtain ⟨b, hreread, -, hencode⟩ := hsurvives
    have hmem : key ++ '=' :: v ∈ extent.write a := (mem_write h).2 (.inl ⟨key, hkey, v, hv, hkeeps, rfl⟩)
    have hwritten : extent.format.encode a = some (Text.words (extent.write a)) :=
      Text.nonempty?_words (fun _ ht => ne_nil_of_mem_write h ht) (List.ne_nil_of_mem hmem)
    rw [PropertyFormat.reread, hwritten] at hreread
    obtain ⟨htokens, hsize⟩ := tokens_write h hholds hreread
    have hwords : Text.words (extent.write b) = Text.words (extent.write a) :=
      Text.eq_of_nonempty?_eq_some (hencode.trans hwritten)
    -- what was read is written token by token, and so both values have the same tokens
    have hagain : extent.write b = (extent.write a).map Text.trim := by
      have hlasts := lasts h (holds_of_decode h hreread) fun key v hv _ => trimmed_of_reread h hholds hreread key v hv
      have hreads := Aspect.reads_flatMap fun aspect haspect => (hlasts aspect haspect).toRereads
      have htokens' := Text.tokens_words hreads.parts
      rw [← write_eq h, hwords, htokens] at htokens'
      exact (Except.ok.inj htokens').symm
    have hne : ∀ t ∈ extent.write a, Text.trim t ≠ [] := by
      intro t ht
      have hmem' : Text.trim t ∈ extent.write b := hagain ▸ List.mem_map_of_mem ht
      exact ne_nil_of_mem_write h hmem'
    have htrim := hsize key hkey v hv hkeeps
    rw [Text.trim_eq_self (Text.trimmed_of_words_map_trim hne (hagain ▸ hwords) _ hmem)] at htrim
    exact Text.trimmed_of_trim_eq_self (List.cons.inj (List.append_cancel_left htrim)).2.symm
  · exact trimmed_ofBool on

theorem survives_iff (h : Measured extent) {value : Text} (hvalue : extent.format.decode value = .ok (some a)) :
    extent.format.Survives a ↔ ∀ key v, a.get? key = some v → extent.keeps key v → Trimmed v := by
  have hholds := holds_of_decode h hvalue
  constructor
  · exact fun hsurvives _ _ hv hkeeps => trimmed_of_survives h hholds hsurvives hv hkeeps
  · intro htrimmed
    obtain ⟨b, hreread, hequivalent, hencode, -⟩ :=
      (rowed h).exists_survivor (fun _ _ hv => key_mem_of_holds (hholds _ _ hv)) (lasts h hholds htrimmed)
    exact ⟨b, hreread, hequivalent, hencode⟩

theorem keeps_iff {key v : Text} :
    extent.keeps key v ↔ ∀ default, extent.defaults.get? key = some default → ¬Text.sameValue v default := by
  rw [keeps]
  cases extent.defaults.get? key with
  | none => exact iff_of_true rfl fun _ h => nomatch h
  | some default => simp

end Extent

/-! ## Single numbers -/

namespace SingleValue

variable {property : SingleValue} {default v : Text}

theorem get?_attr (key : Text) :
    (OrderedMap.ofList [(property.attr, v)]).get? key = if property.attr = key then some v else none :=
  OrderedMap.get?_set ..

/-- A number that was read is kept with the blanks around it. -/
theorem exists_number_of_decode (hkind : property.kind = .number default) {value : Text} {a : Attributes}
    (h : property.format.decode value = .ok (some a)) :
    ∃ v, v.IsNumber ∧ a = OrderedMap.ofList [(property.attr, v)] := by
  obtain ⟨written, -, h⟩ := bind_eq_ok.1 h
  obtain ⟨v, hv, h⟩ := bind_eq_ok.1 h
  rw [hkind, store] at hv
  split at hv
  · cases hv
  · obtain ⟨x, hx, rfl⟩ := map_eq_ok.1 hv
    exact ⟨_, Text.isNumber_of_number hx, (Option.some.inj (pure_eq_ok.1 h)).symm⟩

theorem decode_number (hkind : property.kind = .number default) (hv : v.IsNumber) :
    property.format.decode v = .ok (some (OrderedMap.ofList [(property.attr, Text.trim v)])) := by
  have hbare : Text.scalar v = .ok (Text.trim v) := Text.scalar_of_trim hv.spelled.ne_quote
  obtain ⟨x, hx⟩ := hv.trim.number property.name
  have hnonempty : (Text.trim v).isEmpty = false := List.isEmpty_eq_false_iff.2 hv.spelled.ne_nil
  have hstore : store property.name (Text.trim v) property.kind = .ok (Text.trim v) := by
    rw [hkind, store, hnonempty, if_neg Bool.false_ne_true, hx]
    rfl
  show (Text.scalar v >>= fun written => store property.name written property.kind >>= fun kept =>
    pure (some (OrderedMap.ofList [(property.attr, kept)]))) = _
  rw [hbare, ok_bind, hstore]
  rfl

theorem encode_number (hkind : property.kind = .number default) :
    property.format.encode (OrderedMap.ofList [(property.attr, v)]) =
      if Text.sameValue v default then none else some v := by
  rw [format]
  dsimp only
  rw [get?_attr, if_pos rfl, hkind]
  rfl

theorem sameValue_trim (hv : v.IsNumber) : Text.sameValue v (Text.trim v) := by
  obtain ⟨x, hx⟩ := hv
  refine Text.sameValue_eq_true.2 (.inr ⟨x, x, hx, ?_, Binary64.same_refl x⟩)
  rwa [Text.trim_eq_self (Text.trimmed_trim v)]

theorem survives_of_same (hkind : property.kind = .number default) (hsame : Text.sameValue v default) :
    property.format.Survives (OrderedMap.ofList [(property.attr, v)]) := by
  have hnone : property.format.encode (OrderedMap.ofList [(property.attr, v)]) = none := by
    rw [encode_number hkind, if_pos hsame]
  refine ⟨∅, ?_, ?_, hnone.symm⟩
  · rw [PropertyFormat.reread, hnone]
  · refine PropertyFormat.equivalent_iff.2 fun key => ?_
    have hdefaults : property.format.defaults = OrderedMap.ofList [(property.attr, default)] := by
      rw [format, hkind]
      rfl
    show Same ((Attributes.overlaid property.format.defaults _).get? key)
      ((Attributes.overlaid property.format.defaults _).get? key)
    rw [Attributes.get?_overlaid, Attributes.get?_overlaid, hdefaults, get?_attr, get?_attr]
    split
    · exact .some hsame
    · exact .none

theorem survives_iff_of_not_same (hkind : property.kind = .number default) (hv : v.IsNumber)
    (hsame : ¬Text.sameValue v default) :
    property.format.Survives (OrderedMap.ofList [(property.attr, v)]) ↔ Trimmed v := by
  have hwritten : property.format.encode (OrderedMap.ofList [(property.attr, v)]) = some v := by
    rw [encode_number hkind, if_neg hsame]
  have hreread : property.format.reread (OrderedMap.ofList [(property.attr, v)]) =
      .ok (some (OrderedMap.ofList [(property.attr, Text.trim v)])) := by
    rw [PropertyFormat.reread, hwritten]
    exact decode_number hkind hv
  have hagain : property.format.encode (OrderedMap.ofList [(property.attr, Text.trim v)]) = some (Text.trim v) := by
    rw [encode_number hkind, if_neg fun h => hsame (Text.sameValue_trans (sameValue_trim hv) h)]
  constructor
  · rintro ⟨b, hb, -, hencode⟩
    cases hreread.symm.trans hb
    rw [hagain, hwritten] at hencode
    exact Text.trimmed_of_trim_eq_self (Option.some.inj hencode)
  · intro htrimmed
    rw [Text.trim_eq_self htrimmed] at hreread
    exact ⟨_, hreread, PropertyFormat.equivalent_iff.2 fun key => same_refl _, rfl⟩

theorem survives_iff (hkind : property.kind = .number default) {value : Text} {a : Attributes}
    (h : property.format.decode value = .ok (some a)) : property.format.Survives a ↔
    ∀ key v, a.get? key = some v → (∀ d, property.format.defaults.get? key = some d → ¬Text.sameValue v d) →
      Trimmed v := by
  obtain ⟨v, hv, rfl⟩ := exists_number_of_decode hkind h
  have hdefault : ∀ {d : Text}, property.format.defaults.get? property.attr = some d ↔ default = d := by
    intro d
    show (OrderedMap.ofList [(property.attr, stored property.kind)]).get? property.attr = some d ↔ _
    rw [get?_attr, if_pos rfl, hkind, Option.some_inj]
    rfl
  by_cases hsame : Text.sameValue v default
  · refine iff_of_true (survives_of_same hkind hsame) fun key w hw hnot => ?_
    rw [get?_attr] at hw
    split at hw
    · next hkey =>
      cases hw
      exact absurd hsame (hnot default (hkey ▸ hdefault.2 rfl))
    · cases hw
  · rw [survives_iff_of_not_same hkind hv hsame]
    constructor
    · intro htrimmed key w hw _
      rw [get?_attr] at hw
      split at hw
      · exact Option.some.inj hw ▸ htrimmed
      · cases hw
    · intro hall
      refine hall property.attr v ?_ fun d hd => hdefault.1 hd ▸ hsame
      rw [get?_attr, if_pos rfl]

end SingleValue

/-- The formats that keep a number as it is written between its quotes. -/
def measures : List PropertyFormat :=
  SingleValue.numbers.map SingleValue.format ++
    [Extent.contentSize, Extent.cropBox, Extent.dimensions].map Extent.format

/-- **Numbers that are kept as they are written survive exactly if they are trimmed**, those aside that say the same as
their default and are not written. -/
theorem survives_iff_trimmed : ∀ format ∈ measures, ∀ {value : Text} {a : Attributes},
    format.decode value = .ok (some a) → (format.Survives a ↔ ∀ key v, a.get? key = some v →
      (∀ default, format.defaults.get? key = some default → ¬Text.sameValue v default) → Trimmed v) := by
  have hnumbers : ∀ property ∈ SingleValue.numbers, ∃ default, property.kind = .number default := by
    simp [SingleValue.numbers]
  have hextents : ∀ extent ∈ [Extent.contentSize, Extent.cropBox, Extent.dimensions], extent.Measured := by
    simp only [List.forall_mem_cons, List.not_mem_nil, false_implies, implies_true, and_true]
    exact ⟨Extent.measured_contentSize, Extent.measured_cropBox, Extent.measured_dimensions⟩
  refine List.forall_mem_append.2 ⟨List.forall_mem_map.2 fun property hproperty => ?_,
    List.forall_mem_map.2 fun extent hextent => ?_⟩
  · intro value a h
    obtain ⟨default, hkind⟩ := hnumbers property hproperty
    exact SingleValue.survives_iff hkind h
  · intro value a h
    simp only [Extent.survives_iff (hextents extent hextent) h, Extent.keeps_iff]
    rfl

/-- Behind blanks a width is not read again. -/
theorem not_survives_of_blanks : ∃ a, Extent.contentSize.format.decode "width=\" 5 \" height=3" = .ok (some a) ∧
    ¬Extent.contentSize.format.Survives a := by
  have hdecode : Extent.contentSize.format.decode "width=\" 5 \" height=3" =
      .ok (some (.table [("width", " 5 "), ("height", "3")])) := by decide +kernel
  have hmem : Extent.contentSize.format ∈ measures := List.mem_append_right _ List.mem_cons_self
  refine ⟨_, hdecode, fun hsurvives => ?_⟩
  have htrimmed := (survives_iff_trimmed _ hmem hdecode).1 hsurvives "width" " 5 " (by decide) fun _ h => nomatch h
  exact absurd htrimmed (by decide)

end StyleScript
