import StyleScript.Property.Tracing
import StyleScript.Proofs.Number.Integers
import StyleScript.Proofs.Property.Aspects
/-!
# Spreadsheet tracing, written and read

A row is written with its limit behind a slash, as one token, and that token is left out if the row is the default `-1`:
then the limit goes with it.  Nothing else is lost.  Integers are read as the integers that they are the decimals of, a
limit never stands without its mark and its row, and so what was read is read again and written alike, and it says the
same unless it limits the default row (`exists_reread_limited`).
-/
namespace StyleScript.Tracing

open PropertyFormat (Aspect Rowed Reads)
open Binary64 (IsCut)
open Text (Part Same same_refl)

/-! ## The aspects of tracing -/

def column : Aspect := .single "traceColumn1" (fun v => !Text.sameValue v "-1") fun v => "column=" ++ v

/-- What is kept of a row: nothing of the default, else the row and its limit. -/
def kept? (attrs : Attributes) : Option (Text × Option Text) :=
  (attrs.unlessDefault? "traceRow1" "-1").map fun row =>
    (row, (attrs.get? "numRows").filter fun _ => attrs.isTrue "doRowLimit")

def rowTexts : Option (Text × Option Text) → List Text
  | none => []
  | some (row, none) => ["row=" ++ row]
  | some (row, some limit) => ["row=" ++ row ++ "/" ++ limit]

def rowSaid : Option (Text × Option Text) → List (Text × Text)
  | none => []
  | some (row, none) => [("traceRow1", row)]
  | some (row, some limit) => [("traceRow1", row), ("numRows", limit), ("doRowLimit", "true")]

def limitedRow : Aspect where
  keys := ["traceRow1", "numRows", "doRowLimit"]
  texts attrs := rowTexts (kept? attrs)
  said attrs := rowSaid (kept? attrs)

theorem texts_limitedRow (attrs : Attributes) : limitedRow.texts attrs = writeRows attrs := by
  show rowTexts (kept? attrs) = _
  rw [kept?, writeRows]
  cases attrs.unlessDefault? "traceRow1" "-1" with
  | none => rfl
  | some row =>
    rw [Option.map_some]
    cases (attrs.get? "numRows").filter fun _ => attrs.isTrue "doRowLimit" <;> rfl

/-- A flag is written by its word, and by the negated word if it is on by default. -/
def flagAspect (flag : Text × Text × Bool) : Aspect :=
  .flag flag.2.1 (if flag.2.2 then '~' :: flag.1 else flag.1) (!flag.2.2)

/-- The aspects in the order in which they are written. -/
def aspects : List Aspect :=
  [flagAspect ("trace", "val", false), column, limitedRow] ++ (flags.drop 1).map flagAspect

theorem write_eq (attrs : Attributes) : write attrs = aspects.flatMap (·.texts attrs) := by
  have htrace : (flagAspect ("trace", "val", false)).texts attrs =
      if attrs.isTrue "val" then ["trace".toList] else [] :=
    Aspect.texts_flag_true "val" "trace" attrs
  have hflags : ((flags.drop 1).map flagAspect).flatMap (·.texts attrs) =
      ((flags.drop 1).filter fun flag => attrs.get? flag.2.1 = some (Text.ofBool (!flag.2.2))).map
        fun flag => if flag.2.2 then '~' :: flag.1 else flag.1 :=
    Aspect.texts_flags (fun flag : Text × Text × Bool => flag.2.1)
      (fun flag => if flag.2.2 then '~' :: flag.1 else flag.1) (fun flag => !flag.2.2) attrs _
  rw [aspects, List.flatMap_append, hflags, write, ← htrace, ← texts_limitedRow]
  simp only [List.flatMap_cons, List.flatMap_nil, List.append_nil, List.append_assoc]
  rfl

theorem rowed : Rowed format token aspects where
  decode := rfl
  encode attrs := congrArg (fun texts => Text.nonempty? (Text.words texts)) (write_eq attrs)
  complete := rfl
  distinct := by decide

/-! ## What is read -/

/-- What an attribute can be: an integer that a number was cut to, or a flag. -/
def Holds (key v : Text) : Prop :=
  key ∈ (["traceColumn1", "traceRow1", "numRows"] : List Text) ∧ (∃ n, IsCut n ∧ v = Text.ofInt n) ∨
    key = "doRowLimit".toList ∧ v = "true" ∨ key ∈ flags.map (·.2.1) ∧ ∃ on, v = Text.ofBool on

/-- Attributes as they are read.  A limit has its mark and stands with a row. -/
structure Traced (attrs : Attributes) : Prop where
  holds : ∀ key v, attrs.get? key = some v → Holds key v
  marked : (attrs.get? "doRowLimit").isSome ↔ (attrs.get? "numRows").isSome
  placed : (attrs.get? "numRows").isSome → (attrs.get? "traceRow1").isSome

/-- What a token can set. -/
structure Sets (settings : List (Text × Text)) : Prop where
  holds : ∀ p ∈ settings, Holds p.1 p.2
  marked : "doRowLimit".toList ∈ settings.map Prod.fst ↔ "numRows".toList ∈ settings.map Prod.fst
  placed : "numRows".toList ∈ settings.map Prod.fst → "traceRow1".toList ∈ settings.map Prod.fst

theorem sets_single {key v : Text} (h : Holds key v) (hmark : key ≠ "doRowLimit") (hlimit : key ≠ "numRows") :
    Sets [(key, v)] where
  holds := List.forall_mem_singleton.2 h
  marked := iff_of_false (fun hmem => hmark (List.mem_singleton.1 hmem).symm)
    fun hmem => hlimit (List.mem_singleton.1 hmem).symm
  placed hmem := absurd (List.mem_singleton.1 hmem).symm hlimit

theorem holds_integer {key what text : Text} {n : Int}
    (hkey : key ∈ (["traceColumn1", "traceRow1", "numRows"] : List Text)) (h : Text.truncated what text = .ok n) :
    Holds key (Text.ofInt n) :=
  .inl ⟨hkey, n, Text.isCut_of_truncated h, rfl⟩

theorem sets_of_rows {v : Text} {settings : List (Text × Text)} (h : rows v = .ok settings) : Sets settings := by
  rw [rows] at h
  split at h
  · obtain ⟨row, hrow, h⟩ := bind_eq_ok.1 h
    obtain ⟨limit, hlimit, h⟩ := bind_eq_ok.1 h
    cases h
    refine ⟨?_, iff_of_true (.tail _ (.tail _ (.head _))) (.tail _ (.head _)), fun _ => .head _⟩
    simp only [List.forall_mem_cons, List.not_mem_nil, false_implies, implies_true, and_true]
    exact ⟨holds_integer (by decide) hrow, holds_integer (by decide) hlimit, .inr (.inl ⟨rfl, rfl⟩)⟩
  · obtain ⟨row, hrow, h⟩ := bind_eq_ok.1 h
    cases h
    exact sets_single (holds_integer (by decide) hrow) (by decide) (by decide)

theorem sets_of_token {t : Text} {settings : List (Text × Text)} (h : token t = .ok settings) : Sets settings := by
  have hother : ∀ flag ∈ flags, flag.2.1 ≠ "doRowLimit" ∧ flag.2.1 ≠ "numRows" := by decide
  rw [token] at h
  split at h
  · split at h
    · obtain ⟨n, hn, h⟩ := bind_eq_ok.1 h
      cases h
      exact sets_single (holds_integer (by decide) hn) (by decide) (by decide)
    · split at h
      · exact sets_of_rows h
      · cases h
  · split at h
    split at h
    · next hflag =>
      cases h
      have hmem := List.mem_of_find?_eq_some hflag
      have hkey := List.mem_map_of_mem (f := (·.2.1)) hmem
      exact sets_single (.inr (.inr ⟨hkey, _, rfl⟩)) (hother _ hmem).1 (hother _ hmem).2
    · cases h

theorem traced_of_decode {value : Text} {a : Attributes} (h : format.decode value = .ok (some a)) : Traced a := by
  refine PropertyFormat.holds_of_readTokens (P := Traced) ⟨fun _ _ h => (nomatch h), Iff.rfl, fun h => (nomatch h)⟩ ?_ h
  intro attrs t settings hattrs ht
  have hsets := sets_of_token ht
  constructor
  · intro key v hv
    rcases OrderedMap.mem_or_get?_of_union hv with hmem | hold
    · exact hsets.holds (key, v) hmem
    · exact hattrs.holds key v hold
  · rw [OrderedMap.get?_union_isSome, OrderedMap.get?_union_isSome]
    exact or_congr hattrs.marked hsets.marked
  · rw [OrderedMap.get?_union_isSome, OrderedMap.get?_union_isSome]
    exact Or.imp hattrs.placed hsets.placed

namespace Traced

variable {a : Attributes}

theorem key_mem (h : Traced a) (key v : Text) (hv : a.get? key = some v) : key ∈ aspects.flatMap Aspect.keys := by
  have hintegers : ∀ key ∈ (["traceColumn1", "traceRow1", "numRows"] : List Text),
      key ∈ aspects.flatMap Aspect.keys := by decide
  have hflags : ∀ key ∈ flags.map (·.2.1), key ∈ aspects.flatMap Aspect.keys := by decide
  rcases h.holds key v hv with ⟨hkey, -⟩ | ⟨rfl, -⟩ | ⟨hkey, -⟩
  · exact hintegers key hkey
  · decide
  · exact hflags key hkey

theorem integer (h : Traced a) {key v : Text} (hkey : key ∈ (["traceColumn1", "traceRow1", "numRows"] : List Text))
    (hv : a.get? key = some v) : ∃ n, IsCut n ∧ v = Text.ofInt n := by
  have hother : ∀ key ∈ (["traceColumn1", "traceRow1", "numRows"] : List Text),
      key ≠ "doRowLimit" ∧ key ∉ flags.map (·.2.1) := by decide
  rcases h.holds key v hv with ⟨-, hn⟩ | ⟨hmark, -⟩ | ⟨hflag, -⟩
  · exact hn
  · exact absurd hmark (hother key hkey).1
  · exact absurd hflag (hother key hkey).2

theorem mark (h : Traced a) {v : Text} (hv : a.get? "doRowLimit" = some v) : v = "true" := by
  rcases h.holds _ v hv with ⟨hkey, -⟩ | ⟨-, htrue⟩ | ⟨hflag, -⟩
  · exact absurd hkey (by decide)
  · exact htrue
  · exact absurd hflag (by decide)

/-- What is there of a row: nothing, the row, or the row with its limit. -/
theorem row_cases (h : Traced a) :
    a.get? "traceRow1" = none ∧ a.get? "numRows" = none ∧ a.get? "doRowLimit" = none ∨
      ∃ row, IsCut row ∧ a.get? "traceRow1" = some (Text.ofInt row) ∧
        (a.get? "numRows" = none ∧ a.get? "doRowLimit" = none ∨
          ∃ limit, IsCut limit ∧ a.get? "numRows" = some (Text.ofInt limit) ∧
            a.get? "doRowLimit" = some ("true" : Text)) := by
  cases hlimit : a.get? "numRows" with
  | none =>
    have hmark : a.get? "doRowLimit" = none := by
      rw [← Option.not_isSome_iff_eq_none, h.marked, hlimit]
      exact Bool.false_ne_true
    cases hrow : a.get? "traceRow1" with
    | none => exact .inl ⟨rfl, rfl, hmark⟩
    | some v =>
      obtain ⟨row, hcut, rfl⟩ := h.integer (by decide) hrow
      exact .inr ⟨row, hcut, rfl, .inl ⟨rfl, hmark⟩⟩
  | some w =>
    obtain ⟨limit, hlimit', rfl⟩ := h.integer (by decide) hlimit
    obtain ⟨v, hrow⟩ := Option.isSome_iff_exists.1 (h.placed (by rw [hlimit]; rfl))
    obtain ⟨row, hrow', rfl⟩ := h.integer (by decide) hrow
    obtain ⟨u, hmark⟩ := Option.isSome_iff_exists.1 (h.marked.2 (by rw [hlimit]; rfl))
    rw [h.mark hmark] at hmark
    exact .inr ⟨row, hrow', hrow, .inr ⟨limit, hlimit', rfl, hmark⟩⟩

end Traced

/-! ## What is read again -/

theorem token_column {n : Int} (h : IsCut n) : Part Text.isBlank ("column=" ++ Text.ofInt n) ∧
    token ("column=" ++ Text.ofInt n) = .ok [("traceColumn1", Text.ofInt n)] := by
  have hkey : Text.isKey "column" := by decide
  refine ⟨Text.part_keyValue hkey (Text.part_ofInt n), ?_⟩
  rw [token, show ("column=" : Text) ++ Text.ofInt n = "column" ++ '=' :: Text.ofInt n from rfl,
    Text.keyValue?_of_isKey hkey]
  dsimp only
  rw [if_pos rfl, Text.truncated_ofInt _ h]
  rfl

theorem token_row {v : Text} : token ("row=" ++ v) = rows v := by
  rw [token, show ("row=" : Text) ++ v = "row" ++ '=' :: v from rfl, Text.keyValue?_of_isKey (by decide)]
  rfl

theorem slash_not_mem_ofInt (n : Int) : '/' ∉ Text.ofInt n := fun h => by
  rcases Text.isDigit_or_minus_of_mem_ofInt h with h | h
  · exact absurd h (by decide)
  · exact absurd h (by decide)

theorem rows_ofInt {row : Int} (h : IsCut row) : rows (Text.ofInt row) = .ok [("traceRow1", Text.ofInt row)] := by
  have hcut : Text.cut? '/' (Text.ofInt row) = none := by
    refine Option.eq_none_iff_forall_ne_some.2 fun p hp => slash_not_mem_ofInt row ?_
    rw [(Text.cut?_eq_some hp).1]
    exact List.mem_append_right _ List.mem_cons_self
  rw [rows, hcut]
  dsimp only
  rw [Text.truncated_ofInt _ h]
  rfl

theorem rows_limited {row limit : Int} (hrow : IsCut row) (hlimit : IsCut limit) :
    rows (Text.ofInt row ++ '/' :: Text.ofInt limit) =
      .ok [("traceRow1", Text.ofInt row), ("numRows", Text.ofInt limit), ("doRowLimit", "true")] := by
  rw [rows, Text.cut?_append _ (slash_not_mem_ofInt row)]
  dsimp only
  rw [Text.truncated_ofInt _ hrow, Text.truncated_ofInt _ hlimit]
  rfl

theorem part_row {v : Text} (h : Part Text.isBlank v) : Part Text.isBlank ("row=" ++ v) :=
  @Text.part_keyValue "row" v (by decide) h

theorem part_limited (row limit : Int) : Part Text.isBlank (Text.ofInt row ++ '/' :: Text.ofInt limit) := by
  refine Text.part_of_plain (List.append_ne_nil_of_left_ne_nil (Text.ofInt_ne_nil row) _) ?_
  rw [List.all_append, List.all_cons, List.all_eq_true.2 fun _ hc => Text.isPlain_of_mem_ofInt hc,
    List.all_eq_true.2 fun _ hc => Text.isPlain_of_mem_ofInt hc]
  decide

theorem sameValue_default {n : Int} (h : IsCut n) : Text.sameValue (Text.ofInt n) "-1" ↔ n = -1 := by
  have hdefault : IsCut (-1) := @Text.isCut_of_truncated [] "-1" (-1) (by decide +kernel)
  exact Text.sameValue_ofInt h hdefault

theorem kept?_of_no_row {a : Attributes} (h : a.get? "traceRow1" = none) : kept? a = none := by
  rw [kept?, Attributes.unlessDefault?, h]
  rfl

theorem kept?_of_row {a : Attributes} {row : Int} (hcut : IsCut row)
    (hrow : a.get? "traceRow1" = some (Text.ofInt row)) :
    kept? a = if row = -1 then none
      else some (Text.ofInt row, (a.get? "numRows").filter fun _ => a.isTrue "doRowLimit") := by
  rw [kept?, Attributes.unlessDefault?, hrow, Option.filter_some]
  by_cases h : row = -1
  · rw [if_pos h, (sameValue_default hcut).2 h]
    rfl
  · rw [if_neg h, Bool.eq_false_iff.2 (mt (sameValue_default hcut).1 h)]
    rfl

/-- What is kept of a row that was read. -/
theorem kept?_cases {a : Attributes} (h : Traced a) : kept? a = none ∨ ∃ row, IsCut row ∧ row ≠ -1 ∧
    (kept? a = some (Text.ofInt row, none) ∨
      ∃ limit, IsCut limit ∧ kept? a = some (Text.ofInt row, some (Text.ofInt limit))) := by
  rcases h.row_cases with ⟨hrow, -, -⟩ | ⟨row, hcut, hrow, hlimit⟩
  · exact .inl (kept?_of_no_row hrow)
  · by_cases hdefault : row = -1
    · left
      rw [kept?_of_row hcut hrow, if_pos hdefault]
    · refine .inr ⟨row, hcut, hdefault, ?_⟩
      rw [kept?_of_row hcut hrow, if_neg hdefault]
      rcases hlimit with ⟨hlimit, -⟩ | ⟨limit, hcut', hlimit, hmark⟩
      · left
        rw [hlimit]
        rfl
      · right
        refine ⟨limit, hcut', ?_⟩
        rw [hlimit, Attributes.isTrue, hmark]
        rfl

theorem own_rowSaid : ∀ kept, ∀ p ∈ rowSaid kept, p.1 ∈ limitedRow.keys
  | none => List.forall_mem_nil _
  | some (_, none) => List.forall_mem_singleton.2 (.head _)
  | some (_, some _) =>
    List.forall_mem_cons.2 ⟨.head _, List.forall_mem_cons.2 ⟨.tail _ (.head _),
      List.forall_mem_singleton.2 (.tail _ (.tail _ (.head _)))⟩⟩

theorem distinct_rowSaid : ∀ kept, ((rowSaid kept).map Prod.fst).Nodup
  | none => List.nodup_nil
  | some (_, none) => List.pairwise_singleton _ _
  | some (_, some _) => show (["traceRow1", "numRows", "doRowLimit"] : List Text).Nodup by decide

theorem reads_kept {a : Attributes} (h : Traced a) : Reads token (rowTexts (kept? a)) (rowSaid (kept? a)) := by
  rcases kept?_cases h with hkept | ⟨row, hrow, -, hkept | ⟨limit, hlimit, hkept⟩⟩
  · rw [hkept]
    exact PropertyFormat.reads_nil
  · rw [hkept]
    exact PropertyFormat.reads_token (part_row (Text.part_ofInt row)) (token_row.trans (rows_ofInt hrow))
      (List.cons_ne_nil _ _)
  · rw [hkept, rowTexts, List.append_assoc, List.append_assoc]
    exact PropertyFormat.reads_token (part_row (part_limited row limit))
      (token_row.trans (rows_limited hrow hlimit)) (List.cons_ne_nil _ _)

/-- What is read again of a row is kept as it was. -/
theorem kept?_again {a more : Attributes} (h : Traced a)
    (hmore : ∀ key ∈ limitedRow.keys, more.get? key = OrderedMap.find? key (rowSaid (kept? a))) :
    kept? more = kept? a := by
  have hrow := hmore "traceRow1" (by decide)
  have hlimit := hmore "numRows" (by decide)
  have hmark := hmore "doRowLimit" (by decide)
  rcases kept?_cases h with hkept | ⟨row, hcut, hdefault, hkept | ⟨limit, -, hkept⟩⟩
  · rw [hkept] at hrow ⊢
    exact kept?_of_no_row hrow
  · rw [hkept] at hrow hlimit ⊢
    rw [kept?_of_row hcut hrow, if_neg hdefault, hlimit]
    rfl
  · rw [hkept] at hrow hlimit hmark ⊢
    rw [kept?_of_row hcut hrow, if_neg hdefault, hlimit, Attributes.isTrue, hmark]
    rfl

theorem rereads_limitedRow {a : Attributes} (h : Traced a) : limitedRow.Rereads token a where
  reads := reads_kept h
  own := own_rowSaid (kept? a)
  distinct := distinct_rowSaid (kept? a)
  again hmore := congrArg rowTexts (kept?_again h hmore)

theorem lasts_column {a : Attributes} (h : Traced a) : column.Lasts token defaults a := by
  refine Aspect.lasts_single (fun v hv _ => ?_) fun v _ hkeeps => ?_
  · obtain ⟨n, hn, rfl⟩ := h.integer (by decide) hv
    exact token_column hn
  · exact ⟨"-1", by decide, (Bool.not_eq_false' _).mp hkeeps⟩

theorem lasts_flag {a : Attributes} (h : Traced a) : ∀ flag ∈ flags, (flagAspect flag).Lasts token defaults a := by
  have hword : ∀ flag ∈ flags, Text.needsQuoting (if flag.2.2 then '~' :: flag.1 else flag.1) = false ∧
      token (if flag.2.2 then '~' :: flag.1 else flag.1) = .ok [(flag.2.1, Text.ofBool (!flag.2.2))] ∧
      defaults.get? flag.2.1 = some (Text.ofBool (!!flag.2.2)) ∧
      flag.2.1 ∉ (["traceColumn1", "traceRow1", "numRows"] : List Text) ∧ flag.2.1 ≠ "doRowLimit" := by decide
  intro flag hflag
  obtain ⟨hbare, htoken, hdefault, hinteger, hmark⟩ := hword flag hflag
  refine Aspect.lasts_flag (Text.part_of_not_needsQuoting Text.breaksTokens_isBlank hbare) htoken hdefault ?_
  intro v hv
  rcases h.holds _ v hv with ⟨hkey, -⟩ | ⟨hkey, -⟩ | ⟨-, hon⟩
  · exact absurd hkey hinteger
  · exact absurd hkey hmark
  · exact hon

theorem limitedRow_mem : limitedRow ∈ aspects := .tail _ (.tail _ (.head _))

theorem lasts_others {a : Attributes} (h : Traced a) :
    ∀ aspect ∈ aspects, aspect ≠ limitedRow → aspect.Lasts token defaults a := by
  have hothers : ∀ aspect ∈ (flags.drop 1).map flagAspect, aspect.Lasts token defaults a := by
    intro aspect haspect
    obtain ⟨flag, hflag, rfl⟩ := List.mem_map.1 haspect
    exact lasts_flag h flag (List.mem_of_mem_drop hflag)
  intro aspect haspect hne
  rcases List.mem_append.1 haspect with hlead | hother
  · simp only [List.mem_cons, List.not_mem_nil, or_false] at hlead
    rcases hlead with rfl | rfl | rfl
    · exact lasts_flag h _ (by decide)
    · exact lasts_column h
    · exact absurd rfl hne
  · exact hothers aspect hother

/-- **What is written of a row says the same unless it limits the default row.** -/
theorem same_limitedRow {a : Attributes} (h : Traced a) :
    (∀ key ∈ limitedRow.keys, Same ((a.get? key).or (defaults.get? key))
      ((OrderedMap.find? key (limitedRow.said a)).or (defaults.get? key))) ↔
      ¬(a.get? "traceRow1" = some ("-1" : Text) ∧ a.contains "numRows") := by
  have hsaid : limitedRow.said a = rowSaid (kept? a) := rfl
  have hkeys : limitedRow.keys = (["traceRow1", "numRows", "doRowLimit"] : List Text) := rfl
  rw [hkeys, hsaid]
  simp only [List.forall_mem_cons, List.not_mem_nil, false_implies, implies_true, and_true]
  rcases h.row_cases with ⟨hrow, hlimit, hmark⟩ | ⟨row, hcut, hrow, ⟨hlimit, hmark⟩ | ⟨limit, hlimit', hlimit, hmark⟩⟩
  · rw [kept?_of_no_row hrow, hrow, hlimit, hmark, OrderedMap.contains, hlimit]
    exact iff_of_true ⟨same_refl _, same_refl _, same_refl _⟩ fun h => by cases h.1
  · rw [kept?_of_row hcut hrow, hrow, hlimit, hmark, OrderedMap.contains, hlimit]
    refine iff_of_true ?_ fun h => by cases h.2
    by_cases hdefault : row = -1
    · rw [if_pos hdefault, hdefault]
      exact ⟨same_refl _, same_refl _, same_refl _⟩
    · rw [if_neg hdefault]
      exact ⟨same_refl _, same_refl _, same_refl _⟩
  · rw [kept?_of_row hcut hrow, hrow, hlimit, hmark, OrderedMap.contains, hlimit, Attributes.isTrue, hmark]
    by_cases hdefault : row = -1
    · rw [if_pos hdefault, hdefault]
      -- without its row the limit is lost, and there is no default for it
      exact iff_of_false (fun h => by cases h.2.1) fun h => h ⟨rfl, rfl⟩
    · rw [if_neg hdefault]
      refine iff_of_true ⟨same_refl _, same_refl _, same_refl _⟩ fun h => hdefault ?_
      rw [← sameValue_default hcut, Option.some.inj h.1]
      exact Text.sameValue_refl _

/-- **Tracing that was read is read again and written alike, and says the same unless it limits the default row.** -/
theorem exists_reread_limited {value : Text} {a : Attributes} (h : format.decode value = .ok (some a)) :
    ∃ b, format.reread a = .ok (some b) ∧ format.encode b = format.encode a ∧
      (format.equivalent a b ↔ ¬(a.get? "traceRow1" = some ("-1" : Text) ∧ a.contains "numRows")) := by
  have htraced := traced_of_decode h
  have hrereads : ∀ aspect ∈ aspects, aspect.Rereads token a := fun aspect haspect => by
    by_cases hrow : aspect = limitedRow
    · exact hrow ▸ rereads_limitedRow htraced
    · exact (lasts_others htraced aspect haspect hrow).toRereads
  obtain ⟨b, hreread, hencode, hnone, hsaid⟩ := rowed.exists_reread hrereads
  have hnothing : ∀ key ∉ aspects.flatMap Aspect.keys, a.get? key = none := fun key hkey =>
    Option.eq_none_iff_forall_ne_some.2 fun v hv => hkey (htraced.key_mem key v hv)
  refine ⟨b, hreread, hencode, ?_⟩
  rw [rowed.equivalent_iff hnothing hnone, ← same_limitedRow htraced]
  constructor
  · intro hall key hkey
    rw [← hsaid limitedRow limitedRow_mem key hkey]
    exact hall limitedRow limitedRow_mem key hkey
  · intro hsame aspect haspect key hkey
    rw [hsaid aspect haspect key hkey]
    by_cases hrow : aspect = limitedRow
    · subst hrow
      exact hsame key hkey
    · exact (lasts_others htraced aspect haspect hrow).same key hkey

/-- The limit of the default row is lost. -/
theorem not_equivalent_of_limitedDefault : ∃ a b, format.decode "trace row=-1/5" = .ok (some a) ∧
    format.reread a = .ok (some b) ∧ format.encode b = format.encode a ∧ ¬format.equivalent a b := by
  have hdecode : format.decode "trace row=-1/5" = .ok (some (.table
      [("val", "true"), ("traceRow1", "-1"), ("numRows", "5"), ("doRowLimit", "true")])) := by decide +kernel
  obtain ⟨b, hreread, hencode, hequivalent⟩ := exists_reread_limited hdecode
  exact ⟨_, b, hdecode, hreread, hencode, fun h => hequivalent.1 h ⟨rfl, rfl⟩⟩

end StyleScript.Tracing
