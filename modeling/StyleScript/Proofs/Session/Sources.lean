import StyleScript.Proofs.Script.Sources
import StyleScript.Proofs.Session.Isolation
/-!
# Macros from their sources

Every definition that a host was given is given again by a script that is made of its name, its inputs and its source:
the block that is read there says the same as the one it was made of (`read_macroScript`), and what a definition is
made of does not depend on places (`bodyStep_moved`).
-/
namespace StyleScript.Session

open Script (MacroBlock macroScript)

variable {session : Session} {world : World} {definition : MacroDef}

/-- Blocks that say the same define the same. -/
theorem macroDef_of_alike {block again : MacroBlock} (h : block.Alike again)
    (hdefinition : session.macroDef block = .ok definition) : session.macroDef again = .ok definition := by
  obtain ⟨body, hbody, rfl, hvalid⟩ := macroDef_eq_ok.1 hdefinition
  obtain ⟨plain, f, g, hblock, hagain⟩ := h.body
  rw [hblock, foldlM_mapError session.bodyStep_moved] at hbody
  refine macroDef_eq_ok.2 ⟨body, ?_, ?_, hvalid⟩
  · rw [hagain, foldlM_mapError session.bodyStep_moved, mapError_eq_ok.1 hbody]
    rfl
  · rw [h.name, h.inputs, h.outputs, h.source]

/-- A host without macros takes the one macro of a script. -/
theorem run_of_macroBlock {text : Text} {block : MacroBlock} (hread : Script.read text = .ok [.macroBlock block])
    (hdefinition : session.macroDef block = .ok definition) (hanswer : world.host.settings.macroAnswer = none)
    (hmacros : world.host.macros = []) :
    (session.run world text).result = .ok [] ∧ (session.run world text).world.host.macros = [definition] := by
  have hcleared : session.cleared.macroDef block = .ok definition :=
    (macroDef_congr rfl rfl block).trans hdefinition
  have hregister : world.host.register definition =
      .ok (Host.record { world.host with macros := [definition] } (.macroTaken definition.name)) := by
    rw [Host.register, hanswer, hmacros]
    rfl
  have hverdict : session.cleared.verdict (session.cleared.start world) block = .ok definition := by
    have hoffered : session.cleared.offered (session.cleared.start world) block = .ok definition := hcleared
    have hhost : (session.cleared.start world).world.host.register definition = _ := hregister
    rw [verdict, hoffered, ok_bind, hhost]
    rfl
  have hitem : session.cleared.item (session.cleared.start world) (.macroBlock block) =
      (session.cleared.start world).taking (.ok definition) := by
    rw [← hverdict]
    exact macroBlock_eq _ _ _
  rw [run, resume_of_read _ hread, List.foldlM_cons, hitem]
  refine ⟨rfl, ?_⟩
  show world.host.macros ++ [definition] = [definition]
  rw [hmacros, List.nil_append]

/-- **The source of a macro is faithful.**  Whatever a session has defined and its host has taken before: if a script
gives the host a new definition, be it read from the start or on top of what the session knows and be it stopped by a
later failure, then the text `@@macro name(inputs) {`, the source and `}` on lines of their own, with the same catalog
and the same strictness, gives a new host the same definition, with all that belongs to it, and nothing else. -/
theorem source_faithful {session : Session} {world : World} {text : Text} {definition : MacroDef}
    (hnew : definition ∉ world.host.macros)
    (htaken : definition ∈ (session.run world text).world.host.macros ∨
      definition ∈ (session.resume world text).world.host.macros)
    {settings : HostSettings} (hanswer : settings.macroAnswer = none) (styles : DefaultStyles) :
    let again := Session.run { catalog := session.catalog, strict := session.strict } { host := { settings }, styles }
      (macroScript definition.name definition.inputs definition.source)
    again.result = .ok [] ∧ again.world.host.macros = [definition] := by
  have hdefined : session.DefinedIn text definition := by
    rcases htaken with htaken | htaken
    · obtain ⟨block, hblock, hdefinition⟩ :=
        ((grows_of_resume session.cleared world text).1.taken definition htaken).resolve_left hnew
      exact ⟨block, hblock, (macroDef_congr rfl rfl block).trans hdefinition⟩
    · exact ((grows_of_resume session world text).1.taken definition htaken).resolve_left hnew
  obtain ⟨block, hblock, hdefinition⟩ := hdefined
  obtain ⟨again, hread, halike⟩ := Script.read_macroScript hblock
  have hagain := macroDef_of_alike halike hdefinition
  obtain ⟨_, -, rfl, -⟩ := macroDef_eq_ok.1 hdefinition
  exact run_of_macroBlock hread ((macroDef_congr rfl rfl again).trans hagain) hanswer rfl

/-- A macro with comments at both ends, a label with a subscript, a sheet of its own and a right-hand side on two
lines, in a script that fails behind it. -/
theorem source_faithful_commented :
    let text : Text := "@@macro M(A_\x7b1 2\x7d) \x7b // in
@s = \x7b caption: c \x7d
A_\x7b1 2\x7d @s = P(1,
 2); @@return A_\x7b1 2\x7d // out
\x7d
B @s = x"
    let sheet : StyleSheet := ⟨"s", OrderedMap.ofList [("caption", .table [("val", "c")])]⟩
    let label : Text := "A_\x7b1 2\x7d"
    let definition : MacroDef := {
      name := "M"
      inputs := [label]
      outputs := [label]
      statements := [⟨⟨[⟨label, {}⟩], "P(1,
 2)"⟩, some (StyleSheet.merged [sheet])⟩]
      sheets := [sheet]
      source := "// in
@s = \x7b caption: c \x7d
A_\x7b1 2\x7d @s = P(1,
 2); @@return A_\x7b1 2\x7d // out" }
    (Session.run {} {} text).result = .error (.located (.undefinedSheet "s") ⟨6, 3⟩) ∧
      (Session.run {} {} text).world.host.macros = [definition] ∧
      (Session.run {} {} (macroScript "M" [label] definition.source)).world.host.macros = [definition] := by
  intro text sheet label definition
  obtain ⟨hresult, hmacros⟩ : (Session.run {} {} text).result = .error (.located (.undefinedSheet "s") ⟨6, 3⟩) ∧
      (Session.run {} {} text).world.host.macros = [definition] := by decide +kernel
  have htaken : definition ∈ (Session.run {} {} text).world.host.macros := by
    rw [hmacros]
    exact List.mem_singleton.2 rfl
  exact ⟨hresult, hmacros, (source_faithful List.not_mem_nil (.inl htaken) rfl {}).2⟩

end StyleScript.Session
