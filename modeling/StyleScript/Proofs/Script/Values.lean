import StyleScript.Proofs.Script.Raw
import StyleScript.Proofs.Text.Nesting
/-!
# Values in a script

The value of a property is cut out of the script by one reader, which stops at the end of a line, and divided into
tokens by another one, which knows nothing of lines.  Each of them follows strings and brackets in its own way.

What the first one takes is nested, since it refuses a bracket that closes nothing and stops only where all of them are
closed; so the second one never fails on it (`divides_of_raw`).  And what is written as one token is taken whole by the
first one (`inert_quoteIfNeeded`) and left whole by the second one (`divide_quoted`).
-/
namespace StyleScript.Lexeme

open Text (Context Nested nests)
open Script (Cursor)

variable {stop : Char → Bool}

/-! ## Raw text is nested -/

theorem nests_of_through? : ∀ {u : Text} {context : Context}, through? stop context u = some (.plain 0) →
    nests context u
  | [], context, h => by
    rw [through?] at h
    exact decide_eq_true (Option.some.inj h)
  | c :: u, .plain depth, h => by
    rw [through?] at h
    split at h
    · cases h
    · next hgo =>
      -- where raw text goes on no bracket closes in the outermost context
      have hguard : ((Context.plain depth).outermost && Text.isCloser c) = false := by
        refine Bool.eq_false_iff.2 fun hc => hgo ?_
        rw [Bool.and_eq_true] at hc
        rw [hc.2, Bool.or_true, Bool.and_true]
        exact hc.1
      rw [nests, hguard]
      exact nests_of_through? h
  | c :: u, .quoted depth, h => nests_of_through? (u := u) h
  | c :: u, .escaped depth, h => nests_of_through? (u := u) h

theorem nested_of_raw {c d : Cursor} {value : Text} (h : c.raw stop = .ok (value, d)) : Nested 0 value := by
  unfold Cursor.raw at h
  split at h
  · next taken left hr =>
    cases h
    exact Text.nested_iff.2 (Text.nests_trim (nests_of_through? (through?_of_raw hr)))
  · cases h

/-- **What is taken as raw text is nested and divides**, at blanks as well as at any other separator, into parts that
are nested again. -/
theorem divides_of_raw {c d : Cursor} {value : Text} (h : c.raw stop = .ok (value, d)) :
    Nested 0 value ∧ (∃ ts, Text.tokens value = .ok ts ∧ ∀ t ∈ ts, Nested 0 t) ∧
      ∀ sep, ∃ ps, Text.parts sep value = .ok ps ∧ ∀ p ∈ ps, Nested 0 p :=
  have hnested := nested_of_raw h
  ⟨hnested, Text.exists_divide_of_nested _ hnested, fun _ => Text.exists_divide_of_nested _ hnested⟩

/-- Brackets of different kinds, a string with a bracket and an escaped quote in it, and a comment behind. -/
theorem divides_of_raw_mixedBrackets :
    let value : Text := "rgb(x, [\"a)\\\"|\"\x7d) y|z"
    (∃ d, (Cursor.start "rgb(x, [\"a)\\\"|\"\x7d) y|z // in \"red").raw (· = '}') = .ok (value, d)) ∧ Nested 0 value ∧
      Text.tokens value = .ok ["rgb(x, [\"a)\\\"|\"\x7d)".toList, "y|z".toList] ∧
      ∃ ps, Text.parts '|' value = .ok ps ∧ ∀ p ∈ ps, Nested 0 p := by
  intro value
  have hraw : (Cursor.start "rgb(x, [\"a)\\\"|\"\x7d) y|z // in \"red").raw (· = '}') =
      .ok (value, (Cursor.start "rgb(x, [\"a)\\\"|\"\x7d) y|z // in \"red").move (value ++ [' ']) "// in \"red") := by
    rfl
  obtain ⟨hnested, -, hparts⟩ := divides_of_raw hraw
  exact ⟨⟨_, hraw⟩, hnested, by rfl, hparts '|'⟩

/-! ## What is written as one token -/

/-- What may stand behind a value and the blanks after it: nothing, the end of the line, of the entry or of the sheet,
or a comment, if there are blanks to keep it apart. -/
def EndsValue (gap r : Text) : Prop :=
  r = [] ∨ (∃ x more, r = x :: more ∧ (x = '\n' ∨ x = ';' ∨ x = '}')) ∨ (gap ≠ [] ∧ ∃ more, r = '/' :: '/' :: more)

theorem EndsValue.endsRaw {gap r : Text} (h : EndsValue gap r) : endsRaw (· = '}') r := by
  rcases h with rfl | ⟨x, more, rfl, rfl | rfl | rfl⟩ | ⟨-, more, rfl⟩ <;> rfl

theorem EndsValue.joined {gap r : Text} (h : EndsValue gap r) (hgap : gap = []) (value : Text) : Joined value r := by
  refine joined_of_head fun hslash => ?_
  rcases h with rfl | ⟨x, more, rfl, hx⟩ | ⟨hne, -⟩
  · cases hslash
  · obtain rfl : x = '/' := Option.some.inj hslash
    rcases hx with hx | hx | hx <;> exact absurd hx (by decide)
  · exact hne hgap

/-- **A text that is written as one token is taken whole**, wherever it stands, and it is the text that its token
says. -/
theorem inert_quoteIfNeeded (text : Text) :
    (∀ (c : Cursor) (gap r : Text), (∀ x ∈ gap, isInlineBlank x) → EndsValue gap r →
      c.rest = Text.quoteIfNeeded text ++ (gap ++ r) →
      c.raw (· = '}') = .ok (Text.quoteIfNeeded text, c.move (Text.quoteIfNeeded text ++ gap) r)) ∧
    Text.scalar (Text.quoteIfNeeded text) = .ok text := by
  refine ⟨fun c gap r hgap hr hc => ?_, Text.scalar_quoteIfNeeded text⟩
  exact raw_of_closed_blanks stopsOutside_brace (closed_quoteIfNeeded stopsOutside_brace text)
    (Text.quoteIfNeeded_ne_nil text) hgap hr.endsRaw (fun hnil => hr.joined hnil _) hc

/-- A comment and an open bracket in a text, and a comment behind its token. -/
theorem inert_halfCall :
    let c : Cursor := .start "\"f(x // y\" \t// note\n"
    Text.quoteIfNeeded "f(x // y" = "\"f(x // y\"".toList ∧
      c.raw (· = '}') = .ok ("\"f(x // y\"", c.move "\"f(x // y\" \t" "// note\n") := by
  intro c
  have hinert := (inert_quoteIfNeeded "f(x // y").1 c " \t" "// note\n" (List.all_eq_true.1 rfl)
    (.inr (.inr ⟨by decide, " note\n", rfl⟩)) (by rfl)
  exact ⟨by decide, hinert⟩

/-- **Texts that are written as tokens are divided into these tokens again**, with blanks as well as with commas between
them, and each token says its text. -/
theorem divide_quoted (ts : List Text) :
    Text.tokens (Text.join " " (ts.map Text.quoteIfNeeded)) = .ok (ts.map Text.quoteIfNeeded) ∧
    Text.parts ',' (Text.join "," (ts.map Text.quoteIfNeeded)) = .ok (ts.map Text.quoteIfNeeded) ∧
    (ts.map Text.quoteIfNeeded).mapM Text.scalar = .ok ts := by
  refine ⟨Text.divide_join Text.divides_blank (List.forall_mem_map.2 fun t _ => ?_),
    Text.parts_join (by decide) (List.forall_mem_map.2 fun t _ => ?_), ?_⟩
  · exact Text.part_quoteIfNeeded Text.breaksTokens_isBlank t
  · exact Text.part_quoteIfNeeded Text.breaksTokens_comma t
  · induction ts with
    | nil => rfl
    | cons t ts ih =>
      rw [List.map_cons, List.mapM_cons, Text.scalar_quoteIfNeeded, ih]
      rfl

end StyleScript.Lexeme
