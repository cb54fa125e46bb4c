import Mathlib.Data.List.Sort
import StyleScript.Proofs.BarTag.Contents
import StyleScript.Proofs.Text.Division
/-!
# Bars that are read again

What is written of attributes that tell contents are the blocks of the bars of which something is kept, in ascending
order (`encode_eq`).  If no token divides at the separator of the blocks, then the value divides into these blocks
again, each is read as what is kept of its bar, and so the whole is read as attributes that tell what is kept
(`exists_reread`).
-/
namespace StyleScript.BarTag

open Attributes (greatestNumber)
open Color (Content Says)
open Text (Part)

/-- The token that names a bar. -/
def barToken (n : Nat) : Text := "bar=" ++ Text.ofNat n

/-- The block of a bar. -/
def blockText (n : Nat) (c : Content) : Text := Text.words (barToken n :: c.texts)

section

variable {attrs more group : Attributes} {contents : Nat → Content} {n : Nat} {c : Content}

/-! ## What is written -/

theorem writeBlock_eq (h : Says group c) :
    writeBlock n group = if c.kept = {} then none else some (blockText n c.kept) := by
  have hparts := (@Color.reads_texts [] c.kept).parts
  have hne : ∀ t ∈ c.kept.texts, t ≠ [] := fun t ht => (hparts t ht).ne_nil
  rw [writeBlock, Color.write, Color.writeTokens_eq h]
  split
  · next hempty =>
    rw [hempty]
    rfl
  · next hkept =>
    have htexts := mt Color.eq_empty_of_texts hkept
    have hall : ∀ t ∈ barToken n :: c.kept.texts, t ≠ [] := List.forall_mem_cons.2 ⟨List.cons_ne_nil _ _, hne⟩
    rw [Text.nonempty?_words hne htexts, Option.map_some, blockText, Text.words_eq_join hall, Text.words_eq_join hne]
    obtain ⟨t, ts, hts⟩ := List.exists_cons_of_ne_nil htexts
    rw [hts]
    rfl

/-- The bars of which something is kept. -/
def keptNumbers (attrs : Attributes) (contents : Nat → Content) : List Nat :=
  (numbers attrs).filter fun n => (contents n).kept ≠ {}

theorem pairwise_keptNumbers (attrs : Attributes) (contents : Nat → Content) :
    (keptNumbers attrs contents).Pairwise (· < ·) :=
  (Attributes.pairwise_grouped attrs).filter _

theorem Told.mem_keptNumbers (h : Told attrs contents) : n ∈ keptNumbers attrs contents ↔ (contents n).kept ≠ {} := by
  rw [keptNumbers, List.mem_filter, h.mem_numbers, decide_eq_true_eq, and_iff_right_iff_imp]
  exact mt fun hempty => by rw [hempty]; rfl

theorem filterMap_writeBlock : ∀ {bars : List (Nat × Attributes)}, (∀ bar ∈ bars, Says bar.2 (contents bar.1)) →
    bars.filterMap (fun (bar, group) => writeBlock bar group) =
      ((bars.map Prod.fst).filter fun n => (contents n).kept ≠ {}).map fun n => blockText n (contents n).kept
  | [], _ => rfl
  | (n, group) :: bars, h => by
    rw [List.forall_mem_cons] at h
    have hblock : writeBlock n group = _ := writeBlock_eq h.1
    rw [List.filterMap_cons, filterMap_writeBlock h.2, List.map_cons]
    dsimp only at hblock ⊢
    rw [hblock]
    by_cases hkept : (contents n).kept = {}
    · rw [if_pos hkept, List.filter_cons_of_neg (by simp [hkept])]
    · rw [if_neg hkept, List.filter_cons_of_pos (by simp [hkept]), List.map_cons]

/-- The blocks of attributes that tell contents. -/
def blocks (attrs : Attributes) (contents : Nat → Content) : List Text :=
  (keptNumbers attrs contents).map fun n => blockText n (contents n).kept

theorem encode_eq (h : Told attrs contents) : format.encode attrs =
    if blocks attrs contents = [] then none else some (Text.join " | " (blocks attrs contents)) := by
  have hblocks : _ = blocks attrs contents :=
    @filterMap_writeBlock contents attrs.grouped fun bar hbar => h.says_of_mem hbar
  show encode attrs = _
  rw [encode, hblocks]
  cases blocks attrs contents with
  | nil => rfl
  | cons text texts => rw [if_neg (List.cons_ne_nil text texts)]

/-- **Bars are written alike of which the same is kept.** -/
theorem encode_congr {others : Nat → Content} (h : Told attrs contents) (k : Told more others)
    (hkept : ∀ n, (others n).kept = (contents n).kept) : format.encode more = format.encode attrs := by
  have hnumbers : keptNumbers more others = keptNumbers attrs contents := by
    refine (pairwise_keptNumbers _ _).eq_of_mem_iff (pairwise_keptNumbers _ _) fun n => ?_
    rw [k.mem_keptNumbers, h.mem_keptNumbers, hkept]
  have hblocks : blocks more others = blocks attrs contents := by
    rw [blocks, blocks, hnumbers]
    simp only [hkept]
  rw [encode_eq h, encode_eq k, hblocks]

theorem encode_kept (h : Told attrs contents) (k : Told more fun n => (contents n).kept) :
    format.encode more = format.encode attrs :=
  encode_congr h k fun n => (contents n).kept_kept

/-! ## Blocks that are read -/

theorem takeBar_of_colors : ∀ {ts : List Text},
    (∀ t ∈ ts, (Text.keyValue? t).filter (fun (key, _) => key = "bar".toList) = none) → takeBar ts = .ok (none, ts)
  | [], _ => rfl
  | t :: ts, h => by
    rw [List.forall_mem_cons] at h
    rw [takeBar, h.1, takeBar_of_colors h.2]
    rfl

/-- No token of a color names a bar. -/
theorem not_bar_of_token {property t : Text} {settings : List (Text × Text)}
    (h : Color.token property t = .ok (some settings)) :
    (Text.keyValue? t).filter (fun (key, _) => key = "bar".toList) = none := by
  rw [Option.filter_eq_none_iff]
  rintro ⟨key, value⟩ hkey hbar
  obtain ⟨rfl, -⟩ := Text.keyValue?_eq_some hkey
  rw [of_decide_eq_true hbar, Color.token_keyValue (by decide)] at h
  obtain ⟨pairs, hpairs, -⟩ := map_eq_ok.1 h
  obtain ⟨v, -, hpairs⟩ := bind_eq_ok.1 hpairs
  cases hpairs

theorem takeBar_written (hn : n ≤ greatestNumber) {ts : List Text}
    (h : ∀ t ∈ ts, ∃ settings, Color.token "barTag" t = .ok (some settings)) :
    takeBar (barToken n :: ts) = .ok (some n, ts) := by
  have hkey : Text.keyValue? (barToken n) = some ("bar".toList, Text.ofNat n) :=
    @Text.keyValue?_of_isKey "bar" (by decide) (Text.ofNat n)
  have hnumber : Text.natural32? (Text.ofNat n) = some n := Text.natural?_ofNat hn
  have hrest := takeBar_of_colors fun t ht => not_bar_of_token (h t ht).choose_spec
  have hbar : (some ("bar".toList, Text.ofNat n)).filter (fun (key, _) => key = "bar".toList) =
      some ("bar".toList, Text.ofNat n) := rfl
  rw [takeBar, hkey, hbar]
  dsimp only
  rw [hnumber, hrest]
  rfl

theorem part_barToken (n : Nat) : Part Text.isBlank (barToken n) := by
  refine Text.part_of_plain (List.cons_ne_nil _ _) ?_
  rw [barToken, List.all_append, Bool.and_eq_true]
  refine ⟨by decide, List.all_eq_true.2 fun c hc => ?_⟩
  exact Text.forall_isDigit (P := fun c => Text.isPlain c) (by decide) (Text.isDigit_of_mem_ofNat hc)

/-- A block is read as the content that it was written of. -/
theorem block_written (hn : n ≤ greatestNumber) (hc : c ≠ {}) (attrs : Attributes) :
    ∃ group, block attrs (blockText n c) = .ok (attrs.flattenInto n group) ∧ Says group c := by
  have hreads := @Color.reads_texts "barTag" c
  obtain ⟨group, hread, hgroup⟩ := @Color.readTokens_texts "barTag" c hc
  have htokens := Text.tokens_words (List.forall_mem_cons.2 ⟨part_barToken n, hreads.parts⟩)
  refine ⟨group, ?_, hgroup⟩
  rw [block, blockText, htokens, ok_bind, takeBar_written hn hreads.known, ok_bind]
  show (Color.readTokens "barTag" c.texts >>= _) = _
  rw [hread]
  rfl

/-- Blocks of different bars are read as what they were written of. -/
theorem foldlM_blocks {write : Nat → Content} : ∀ {ns : List Nat} {attrs : Attributes} {contents : Nat → Content},
    Told attrs contents → ns.Nodup → (∀ n ∈ ns, n ≤ greatestNumber ∧ write n ≠ {} ∧ contents n = {}) →
    ∃ more, (ns.map fun n => blockText n (write n)).foldlM block attrs = .ok more ∧
      Told more fun n => if n ∈ ns then write n else contents n
  | [], attrs, contents, h, _, _ => ⟨attrs, rfl, h⟩
  | n :: ns, attrs, contents, h, hnodup, hns => by
    rw [List.nodup_cons] at hnodup
    rw [List.forall_mem_cons] at hns
    obtain ⟨⟨hn, hwrite, hempty⟩, hns⟩ := hns
    obtain ⟨group, hblock, hgroup⟩ := block_written hn hwrite attrs
    have hnext := h.flattenInto hn hgroup
    rw [hempty, Content.above_empty] at hnext
    have hrest : ∀ m ∈ ns, m ≤ greatestNumber ∧ write m ≠ {} ∧ Function.update contents n (write n) m = {} := by
      intro m hm
      rw [Function.update_of_ne (ne_of_mem_of_not_mem hm hnodup.1)]
      exact hns m hm
    obtain ⟨more, hread, hmore⟩ := foldlM_blocks hnext hnodup.2 hrest
    refine ⟨more, ?_, ?_⟩
    · rw [List.map_cons, List.foldlM_cons, hblock, ok_bind, hread]
    · have hcontents : (fun m => if m ∈ n :: ns then write m else contents m) =
          fun m => if m ∈ ns then write m else Function.update contents n (write n) m := by
        funext m
        by_cases hm : m = n
        · subst hm
          rw [if_pos List.mem_cons_self, Function.update_self, ite_self]
        · rw [Function.update_of_ne hm]
          simp only [List.mem_cons, hm, false_or]
      rw [hcontents]
      exact hmore

/-! ## Values that are read again -/

theorem part_pipe_barToken (n : Nat) : Part (· = '|') (barToken n) := by
  refine Text.part_pipe_of_not_mem (part_barToken n) fun hmem => ?_
  rcases List.mem_append.1 hmem with hmem | hmem
  · exact absurd hmem (by decide)
  · exact absurd (Text.isDigit_of_mem_ofNat hmem) (by decide)

theorem part_block (hparts : ∀ t ∈ c.texts, Text.parts '|' t = .ok [t]) : Part (· = '|') (blockText n c) := by
  refine Text.part_words rfl (List.cons_ne_nil _ _) (List.forall_mem_cons.2 ⟨part_pipe_barToken n, fun t ht => ?_⟩)
  have hbalanced := ((@Color.reads_texts [] c).parts t ht).balanced Text.divides_blank
  exact (Text.part_iff Text.divides_pipe).2 ⟨hbalanced, hparts t ht⟩

/-- **Bars none of whose tokens divides are read again as what is kept of them.** -/
theorem exists_reread (h : Told attrs contents)
    (hparts : ∀ n, ∀ t ∈ (contents n).kept.texts, Text.parts '|' t = .ok [t]) :
    ∃ more, format.reread attrs = .ok (some more) ∧ Told more fun n => (contents n).kept := by
  rw [PropertyFormat.reread, encode_eq h]
  by_cases hnil : blocks attrs contents = []
  · refine ⟨∅, by rw [if_pos hnil], ?_⟩
    have hkept : (fun n => (contents n).kept) = fun _ => {} := funext fun n => by
      by_contra hne
      rw [blocks, List.map_eq_nil_iff] at hnil
      exact List.not_mem_nil (hnil ▸ h.mem_keptNumbers.2 hne)
    rw [hkept]
    exact told_empty
  · rw [if_neg hnil]
    have hnumbers : ∀ n ∈ keptNumbers attrs contents,
        n ≤ greatestNumber ∧ (contents n).kept ≠ {} ∧ ({} : Content) = {} := fun n hn => by
      refine ⟨h.le ?_, h.mem_keptNumbers.1 hn, rfl⟩
      exact h.mem_numbers.1 (List.mem_of_mem_filter hn)
    obtain ⟨more, hread, hmore⟩ := @foldlM_blocks (fun n => (contents n).kept) _ _ _ told_empty
      (pairwise_keptNumbers attrs contents).nodup hnumbers
    have hkept : (fun n => if n ∈ keptNumbers attrs contents then (contents n).kept else {}) =
        fun n => (contents n).kept := funext fun n => by
      by_cases hn : n ∈ keptNumbers attrs contents
      · rw [if_pos hn]
      · rw [if_neg hn, not_not.1 (mt h.mem_keptNumbers.2 hn)]
    rw [hkept] at hmore
    have hdivide : Text.parts '|' (Text.join " | " (blocks attrs contents)) = .ok (blocks attrs contents) := by
      refine (Text.dividesInto_join_spaced Text.divides_pipe fun text htext => ?_).atEnd
      obtain ⟨n, -, rfl⟩ := List.mem_map.1 htext
      exact part_block (hparts n)
    obtain ⟨n, hn⟩ := List.exists_mem_of_ne_nil _ (mt List.map_eq_nil_iff.2 hnil)
    exact ⟨more, decode_eq_ok.2 ⟨_, hdivide, hread, hmore.ne_empty (h.mem_keptNumbers.1 hn)⟩, hmore⟩

end

end StyleScript.BarTag
