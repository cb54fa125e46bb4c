import StyleScript.Property.Slider
import StyleScript.Proofs.Property.Aspects
/-!
# Sliders survive writing and reading

Every attribute of a slider has a token of its own, an expression behind its key or the word of a flag.  Whatever an
expression holds, it is written as one token and read again exactly; what is not written says the same as its default.
So a slider that was read survives being written and read again, and the ends of its interval and its place are not
even worded differently (`exists_same_wording`).
-/
namespace StyleScript.Slider

open PropertyFormat (Aspect Rowed)
open Text (Part)

/-- An expression behind its key, written of some of its values. -/
def expression (key : Text) (keeps : Text → Bool) : Aspect :=
  .single key keeps fun v => key ++ '=' :: Text.quoteIfNeeded v

def flagAspect (flag : Text × Text × Bool) : Aspect := .flag flag.2.1 flag.1 (!flag.2.2)

/-- The aspects of a slider in the order in which they are written. -/
def aspects : List Aspect :=
  [expression "min" fun _ => true, expression "max" fun _ => true,
   expression "width" fun v => !Text.sameValue v "200",
   flagAspect ("@screen", "absoluteScreenLocation", false),
   expression "x" fun _ => true, expression "y" fun _ => true] ++ (flags.drop 1).map flagAspect

theorem write_eq (attrs : Attributes) : write attrs = aspects.flatMap (·.texts attrs) := by
  have hvalue : ∀ key, (expression key fun _ => true).texts attrs = writeValue attrs key := by
    intro key
    show (((attrs.get? key).filter fun _ => true).map _).toList = _
    rw [writeValue]
    cases attrs.get? key with
    | none => rfl
    | some v => exact congrArg (fun text => [text]) (List.append_cons ..)
  have hscreen : (flagAspect ("@screen", "absoluteScreenLocation", false)).texts attrs =
      if attrs.isTrue "absoluteScreenLocation" then ["@screen".toList] else [] :=
    Aspect.texts_flag_true "absoluteScreenLocation" "@screen" attrs
  have hflags : ((flags.drop 1).map flagAspect).flatMap (·.texts attrs) =
      ((flags.drop 1).filter fun flag => attrs.get? flag.2.1 = some (Text.ofBool (!flag.2.2))).map Prod.fst :=
    Aspect.texts_flags (fun flag : Text × Text × Bool => flag.2.1) Prod.fst (fun flag => !flag.2.2) attrs _
  rw [aspects, List.flatMap_append, hflags, write, ← hscreen, ← hvalue, ← hvalue, ← hvalue, ← hvalue]
  simp only [List.flatMap_cons, List.flatMap_nil, List.append_nil, List.append_assoc]
  rfl

theorem rowed : Rowed format token aspects where
  decode := rfl
  encode attrs := congrArg (fun texts => Text.nonempty? (Text.words texts)) (write_eq attrs)
  complete := rfl
  distinct := by decide

/-! ## What is read -/

/-- What an attribute of a slider can be: an expression, or a flag. -/
def Holds (key v : Text) : Prop := key ∈ valueKeys ∨ key ∈ flags.map (·.2.1) ∧ ∃ on, v = Text.ofBool on

theorem holds_of_token {t : Text} {settings : List (Text × Text)} (h : token t = .ok settings) :
    ∀ p ∈ settings, Holds p.1 p.2 := by
  rw [token] at h
  split at h
  · split at h
    · next hkey =>
      obtain ⟨v, -, h⟩ := bind_eq_ok.1 h
      cases h
      exact List.forall_mem_singleton.2 (.inl (List.contains_iff_mem.1 hkey))
    · cases h
  · split at h
    split at h
    · next hflag =>
      cases h
      exact List.forall_mem_singleton.2
        (.inr ⟨List.mem_map_of_mem (f := (·.2.1)) (List.mem_of_find?_eq_some hflag), _, rfl⟩)
    · cases h

theorem holds_of_decode {value : Text} {a : Attributes} (h : format.decode value = .ok (some a)) :
    ∀ key v, a.get? key = some v → Holds key v :=
  PropertyFormat.values_of_readTokens holds_of_token h

theorem Holds.key_mem {key v : Text} (h : Holds key v) : key ∈ aspects.flatMap Aspect.keys := by
  have hvalues : ∀ key ∈ valueKeys, key ∈ aspects.flatMap Aspect.keys := by decide
  have hflags : ∀ key ∈ flags.map (·.2.1), key ∈ aspects.flatMap Aspect.keys := by decide
  exact h.elim (hvalues key) fun hflag => hflags key hflag.1

/-! ## What is read again -/

theorem token_expression {key : Text} (hkey : key ∈ valueKeys) (v : Text) :
    Part Text.isBlank (key ++ '=' :: Text.quoteIfNeeded v) ∧
      token (key ++ '=' :: Text.quoteIfNeeded v) = .ok [(key, v)] := by
  have hall : ∀ key ∈ valueKeys, Text.isKey key := by decide
  refine ⟨Text.part_keyValue (hall key hkey) (Text.part_quoteIfNeeded Text.breaksTokens_isBlank v), ?_⟩
  rw [token, Text.keyValue?_of_isKey (hall key hkey)]
  dsimp only
  rw [if_pos (List.contains_iff_mem.2 hkey), Text.scalar_quoteIfNeeded]
  rfl

theorem lasts_expression {key : Text} (hkey : key ∈ valueKeys) (a : Attributes) :
    (expression key fun _ => true).Lasts token defaults a :=
  Aspect.lasts_single (fun v _ _ => token_expression hkey v) fun _ _ h => nomatch h

theorem lasts_width (a : Attributes) :
    (expression "width" fun v => !Text.sameValue v "200").Lasts token defaults a :=
  Aspect.lasts_single (fun v _ _ => token_expression (by decide) v) fun v _ hv =>
    ⟨"200", by decide, (Bool.not_eq_false' _).mp hv⟩

theorem lasts_flag {a : Attributes} (h : ∀ key v, a.get? key = some v → Holds key v) :
    ∀ flag ∈ flags, (flagAspect flag).Lasts token defaults a := by
  have hword : ∀ flag ∈ flags, Text.needsQuoting flag.1 = false ∧
      token flag.1 = .ok [(flag.2.1, Text.ofBool (!flag.2.2))] ∧
      defaults.get? flag.2.1 = some (Text.ofBool (!!flag.2.2)) ∧ flag.2.1 ∉ valueKeys := by decide
  intro flag hflag
  obtain ⟨hbare, htoken, hdefault, hkey⟩ := hword flag hflag
  refine Aspect.lasts_flag (Text.part_of_not_needsQuoting Text.breaksTokens_isBlank hbare) htoken hdefault ?_
  exact fun v hv => ((h flag.2.1 v hv).resolve_left hkey).2

theorem lasts {a : Attributes} (h : ∀ key v, a.get? key = some v → Holds key v) :
    ∀ aspect ∈ aspects, aspect.Lasts token format.defaults a := by
  have hothers : ∀ aspect ∈ (flags.drop 1).map flagAspect, aspect.Lasts token defaults a := by
    intro aspect haspect
    obtain ⟨flag, hflag, rfl⟩ := List.mem_map.1 haspect
    exact lasts_flag h flag (List.mem_of_mem_drop hflag)
  refine List.forall_mem_append.2 ⟨?_, hothers⟩
  simp only [List.forall_mem_cons, List.not_mem_nil, false_implies, implies_true, and_true]
  exact ⟨lasts_expression (by decide) a, lasts_expression (by decide) a, lasts_width a,
    lasts_flag h _ (by decide), lasts_expression (by decide) a, lasts_expression (by decide) a⟩

/-- **Sliders survive writing and reading**, and their expressions keep their wording. -/
theorem exists_same_wording {value : Text} {a : Attributes} (h : format.decode value = .ok (some a)) :
    ∃ b, format.reread a = .ok (some b) ∧ format.equivalent a b ∧ format.encode b = format.encode a ∧
      ∀ key ∈ (["min", "max", "x", "y"] : List Text), b.get? key = a.get? key := by
  have hholds := holds_of_decode h
  obtain ⟨b, hreread, hequivalent, hencode, hsaid⟩ :=
    rowed.exists_survivor (fun key v hv => (hholds key v hv).key_mem) (lasts hholds)
  have hkept : ∀ key, (expression key fun _ => true) ∈ aspects → b.get? key = a.get? key := by
    intro key haspect
    rw [hsaid _ haspect key List.mem_cons_self, expression, Aspect.find?_single]
    cases a.get? key <;> rfl
  refine ⟨b, hreread, hequivalent, hencode, ?_⟩
  simp only [List.forall_mem_cons, List.not_mem_nil, false_implies, implies_true, and_true]
  exact ⟨hkept _ (List.mem_append_left _ (.head _)), hkept _ (List.mem_append_left _ (.tail _ (.head _))),
    hkept _ (List.mem_append_left _ (.tail _ (.tail _ (.tail _ (.tail _ (.head _)))))),
    hkept _ (List.mem_append_left _ (.tail _ (.tail _ (.tail _ (.tail _ (.tail _ (.head _)))))))⟩

/-- A quoted end that looks like another token, a width that is the default, and flags either way. -/
theorem same_wording_of_quotedEnd : ∃ a b,
    format.decode "max=\"a + 5 // y=1\" ~vertical @screen y=f[1] width=2e2 min=x~=y" = .ok (some a) ∧
      format.reread a = .ok (some b) ∧ format.equivalent a b ∧ format.encode b = format.encode a ∧
        ∀ key ∈ (["min", "max", "x", "y"] : List Text), b.get? key = a.get? key := by
  have hdecode : format.decode "max=\"a + 5 // y=1\" ~vertical @screen y=f[1] width=2e2 min=x~=y" = .ok (some (.table
      [("max", "a + 5 // y=1"), ("horizontal", "true"), ("absoluteScreenLocation", "true"), ("y", "f[1]"),
        ("width", "2e2"), ("min", "x~=y")])) := by decide +kernel
  obtain ⟨b, h⟩ := exists_same_wording hdecode
  exact ⟨_, b, hdecode, h⟩

end StyleScript.Slider
