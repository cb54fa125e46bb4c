import StyleScript.Proofs.Number.Spelling
import StyleScript.Proofs.Property.LineStyle
import StyleScript.Proofs.Text.Division
/-!
# Tokens in another order

The tokens of a line style may stand in any order.  If no two of them set the same attribute, then what they set is a
table whose rows come in another order, the pairing looks only at what stands under a key, and the attributes are kept
in an order of their own (`decode_of_perm`).

Only what a bracket or a quote leaves open could join a token with the one behind it; a token that is read leaves
nothing open (`part_of_token`), so the same tokens in another order are the tokens of the value that they make
(`tokens_words_of_perm`).
-/
namespace StyleScript.LineStyle

open Text (Part)

/-- No two of the tokens set the same attribute. -/
def Apart (ts : List Text) : Prop :=
  ts.Pairwise fun s t => ∀ p q, token s = .ok p → token t = .ok q → p.1 ≠ q.1

/-! ## Tokens that are read -/

/-- A value that is read behind a key is one token, the blanks around it aside. -/
theorem part_of_setting {key v : Text} {p : Text × Text} (h : setting key v = .ok p) (htrimmed : Text.Trimmed v) :
    Part Text.isBlank v := by
  have hnumber : ∀ {what : Text} {f : Int → Text × Text}, (Text.truncated what v).map f = .ok p →
      Part Text.isBlank v := by
    intro what f hread
    obtain ⟨n, hn, -⟩ := map_eq_ok.1 hread
    exact ((Text.isNumber_of_truncated hn).spelled_of_trimmed htrimmed).part
  have hstyles : ∀ style ∈ hiddenStyles, style.1 ≠ [] ∧ style.1.all Text.isPlain := by decide
  rw [setting] at h
  split at h
  · exact hnumber h
  · split at h
    · exact hnumber h
    · split at h
      · split at h
        · next hstyle =>
          obtain ⟨hne, hplain⟩ := hstyles _ (List.mem_of_find?_eq_some hstyle)
          have hname := List.find?_some hstyle
          rw [← of_decide_eq_true hname]
          exact Text.part_of_plain hne hplain
        · cases h
      · cases h

theorem part_of_word {t : Text} {p : Text × Text} (h : word t = .ok p) : Part Text.isBlank t := by
  have hwords : ∀ t ∈ (["hidden", "arrow", "~arrow"] : List Text), t ≠ [] ∧ t.all Text.isPlain := by decide
  have hmem : t ∈ (["hidden", "arrow", "~arrow"] : List Text) := by
    rw [word] at h
    split at h
    next on name hnegation =>
    have ht := Text.eq_of_negation t
    rw [hnegation] at ht
    split at h
    · next hhidden =>
      rw [Bool.and_eq_true, decide_eq_true_eq] at hhidden
      obtain ⟨rfl, rfl⟩ := hhidden
      exact ht ▸ .head _
    · split at h
      · next harrow =>
        subst harrow
        cases on with
        | true => exact ht ▸ .tail _ (.head _)
        | false => exact ht ▸ .tail _ (.tail _ (.head _))
      · cases h
  obtain ⟨hne, hplain⟩ := hwords t hmem
  exact Text.part_of_plain hne hplain

/-- **A token that is read leaves nothing open.** -/
theorem part_of_token {value t : Text} {ts : List Text} (hts : Text.tokens value = .ok ts) (ht : t ∈ ts)
    {p : Text × Text} (h : token t = .ok p) : Part Text.isBlank t := by
  have hpatterns : ∀ pattern ∈ patterns, pattern.1 ≠ [] ∧ pattern.1.all Text.isPlain := by decide
  rw [token] at h
  split at h
  · next hpattern =>
    obtain ⟨hne, hplain⟩ := hpatterns _ (List.mem_of_find?_eq_some hpattern)
    have hname := List.find?_some hpattern
    rw [← of_decide_eq_true hname]
    exact Text.part_of_plain hne hplain
  · split at h
    · next key v hkeyed =>
      obtain ⟨rfl, hkey⟩ := Text.keyValue?_eq_some hkeyed
      rw [List.append_cons] at ht
      have hlead := (Text.part_key hkey).balanced Text.divides_blank
      exact Text.part_keyValue hkey (part_of_setting h (Text.trimmed_of_append_mem_tokens hts ht hlead))
    · exact part_of_word h

theorem tokens_words_of_perm {value : Text} {ts more : List Text} {settings : List (Text × Text)}
    (hts : Text.tokens value = .ok ts) (hread : ts.mapM token = .ok settings) (hperm : ts.Perm more) :
    Text.tokens (Text.words more) = .ok more := by
  refine Text.tokens_words fun t ht => ?_
  obtain ⟨p, -, hp⟩ := exists_of_mapM hread (hperm.mem_iff.2 ht)
  exact part_of_token hts (hperm.mem_iff.2 ht) hp

/-! ## The order of the tokens -/

/-- No two tokens set the same attribute exactly if no key repeats in what they set. -/
theorem apart_iff : ∀ {ts : List Text} {settings : List (Text × Text)}, ts.mapM token = .ok settings →
    (Apart ts ↔ (settings.map Prod.fst).Nodup)
  | [], settings, h => by
    cases pure_eq_ok.1 h
    exact iff_of_true List.Pairwise.nil List.nodup_nil
  | t :: ts, settings, h => by
    rw [List.mapM_cons] at h
    obtain ⟨p, hp, h⟩ := bind_eq_ok.1 h
    obtain ⟨others, hothers, h⟩ := bind_eq_ok.1 h
    cases pure_eq_ok.1 h
    rw [List.map_cons, List.nodup_cons, ← apart_iff hothers, Apart, List.pairwise_cons]
    refine and_congr_left fun _ => ⟨fun hfirst hmem => ?_, fun hnew s hs first q hfirst hq hkey => ?_⟩
    · obtain ⟨q, hq, hkey⟩ := List.mem_map.1 hmem
      obtain ⟨s, hs, hsq⟩ := exists_of_mem_mapM hothers hq
      exact hfirst s hs p q hp hsq hkey.symm
    · obtain ⟨r, hr, hsr⟩ := exists_of_mapM hothers hs
      cases hp.symm.trans hfirst
      cases hq.symm.trans hsr
      exact hnew (hkey ▸ List.mem_map_of_mem hr)

theorem ordered_paired_congr {set other : Attributes} (h : ∀ key, set.get? key = other.get? key) :
    ordered (paired set) = ordered (paired other) := by
  have hpaired : (paired set).get? = (paired other).get? := funext fun key => by
    rw [get?_paired, get?_paired, h, h, h]
  rw [ordered, ordered, hpaired]

/-- **The order of the tokens does not count**, if no two of them set the same attribute. -/
theorem decode_of_perm {value other : Text} {found : Option Attributes} {ts more : List Text}
    (h : format.decode value = .ok found) (hts : Text.tokens value = .ok ts) (hapart : Apart ts)
    (hperm : ts.Perm more) (hmore : Text.tokens other = .ok more) : format.decode other = .ok found := by
  obtain ⟨us, hus, h⟩ := bind_eq_ok.1 h
  cases hts.symm.trans hus
  obtain ⟨settings, hsettings, h⟩ := bind_eq_ok.1 h
  obtain ⟨others, hothers, hrows⟩ := exists_perm_of_mapM hperm hsettings
  have hnodup := (apart_iff hsettings).1 hapart
  have hsame : ordered (paired (OrderedMap.ofList settings)) = ordered (paired (OrderedMap.ofList others)) := by
    refine ordered_paired_congr fun key => ?_
    rw [OrderedMap.get?_ofList hnodup, OrderedMap.get?_ofList ((hrows.map Prod.fst).nodup_iff.1 hnodup),
      OrderedMap.find?_of_perm hnodup hrows]
  show decode other = _
  rw [decode, hmore, ok_bind, hothers, ok_bind, ← hsame]
  exact h

end StyleScript.LineStyle
