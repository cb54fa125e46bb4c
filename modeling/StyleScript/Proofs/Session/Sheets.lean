import Mathlib.Data.List.Forall2
import StyleScript.Proofs.Property.Tables
import StyleScript.Session
/-!
# The sheets of a script

A sheet has a property for some of its entries and for nothing else (`sheetOf_keys`).  Entries that each set a
property of their own leave these properties, in order (`sheetOf_eq`).  A script that is one definition gives
the session that one sheet and does not touch the world (`run_of_read_definition`).
-/
namespace StyleScript

namespace Session

open Script (Entry Action Item)

variable {session : Session}

/-! ## One entry -/

/-- What an entry adds is at most its property. -/
theorem keys_of_entry {sheet after : StyleSheet} {e : Entry} (h : session.entry sheet e = .ok after) :
    after.name = sheet.name ∧ ∀ k ∈ after.properties.keys, k ∈ sheet.properties.keys ∨ k = e.name := by
  have hset : ∀ value, ∀ k ∈ (sheet.properties.set e.name value).keys, k ∈ sheet.properties.keys ∨ k = e.name := by
    intro value k hk
    rw [OrderedMap.keys_set] at hk
    split at hk
    · exact .inl hk
    · rw [List.mem_append, List.mem_singleton] at hk
      exact hk
  simp only [entry, bind_eq_ok] at h
  obtain ⟨format, -, h⟩ := h
  split at h
  · rw [pure_eq_ok] at h
    subst h
    exact ⟨rfl, hset _⟩
  · split at h
    · rw [pure_eq_ok] at h
      subst h
      exact ⟨rfl, hset _⟩
    · rw [pure_eq_ok] at h
      subst h
      exact ⟨rfl, fun k hk => .inl hk⟩
    · cases h

theorem entry_of_decode (sheet : StyleSheet) {name value : Text} {position : Position} {format : PropertyFormat}
    {read : Option Attributes} (hformat : session.formatAt name position = .ok format)
    (hdecode : format.decode value = .ok read) :
    session.entry sheet ⟨name, .set value, position⟩ =
      .ok (read.elim sheet (sheet.set name)) := by
  rw [entry, hformat]
  simp only [bind, Except.bind, hdecode]
  cases read <;> rfl

/-- The entry sets its property to these attributes. -/
def Sets (session : Session) (e : Entry) (p : Text × Attributes) : Prop :=
  e.name = p.1 ∧ ∃ format value, session.formatAt e.name e.position = .ok format ∧ e.action = .set value ∧
    format.decode value = .ok (some p.2)

theorem entry_of_sets {sheet : StyleSheet} {e : Entry} {p : Text × Attributes} (h : session.Sets e p)
    (hnew : p.1 ∉ sheet.properties.keys) :
    ∃ after, session.entry sheet e = .ok after ∧ after.name = sheet.name ∧
      after.properties.pairs = sheet.properties.pairs ++ [p] := by
  obtain ⟨hname, format, value, hformat, haction, hdecode⟩ := h
  have hget : sheet.properties.get? e.name = none := OrderedMap.get?_eq_none.2 (hname ▸ hnew)
  obtain ⟨name, action, position⟩ := e
  subst haction
  refine ⟨sheet.set name p.2, entry_of_decode sheet hformat hdecode, rfl, ?_⟩
  simp only [StyleSheet.set, OrderedMap.alter, hget]
  rw [OrderedMap.pairs_set_of_not_mem _ _ (OrderedMap.get?_eq_none.1 hget)]
  exact congrArg _ (congrArg (fun n => [(n, p.2)]) hname)

/-! ## All entries -/

theorem keys_of_foldlM : ∀ (es : List Entry) {sheet after : StyleSheet}, es.foldlM session.entry sheet = .ok after →
    after.name = sheet.name ∧
      ∀ k ∈ after.properties.keys, k ∈ sheet.properties.keys ∨ k ∈ es.map (·.name)
  | [], sheet, after, h => by
    rw [List.foldlM_nil, pure_eq_ok] at h
    subst h
    exact ⟨rfl, fun k hk => .inl hk⟩
  | e :: es, sheet, after, h => by
    rw [List.foldlM_cons, bind_eq_ok] at h
    obtain ⟨next, hnext, h⟩ := h
    obtain ⟨hname, hkeys⟩ := keys_of_entry hnext
    obtain ⟨hname', hkeys'⟩ := keys_of_foldlM es h
    refine ⟨hname'.trans hname, fun k hk => ?_⟩
    rw [List.map_cons, List.mem_cons]
    rcases hkeys' k hk with hk | hk
    · rcases hkeys k hk with hk | hk
      · exact .inl hk
      · exact .inr (.inl hk)
    · exact .inr (.inr hk)

/-- **A sheet has properties only of its entries.** -/
theorem sheetOf_keys {name : Text} {es : List Entry} {sheet : StyleSheet} (h : session.sheetOf name es = .ok sheet) :
    sheet.name = name ∧ ∀ k ∈ sheet.properties.keys, k ∈ es.map (·.name) := by
  obtain ⟨hname, hkeys⟩ := keys_of_foldlM es h
  refine ⟨hname, fun k hk => (hkeys k hk).resolve_left fun hk => ?_⟩
  cases hk

theorem foldlM_of_sets : ∀ {es : List Entry} {props : List (Text × Attributes)} (sheet : StyleSheet),
    List.Forall₂ session.Sets es props → ((sheet.properties.pairs ++ props).map Prod.fst).Nodup →
    ∃ after, es.foldlM session.entry sheet = .ok after ∧ after.name = sheet.name ∧
      after.properties.pairs = sheet.properties.pairs ++ props
  | [], _, sheet, .nil, _ => ⟨sheet, rfl, rfl, (List.append_nil _).symm⟩
  | e :: es, p :: props, sheet, .cons hep hmore, hnodup => by
    have hnew : p.1 ∉ sheet.properties.keys := by
      rw [List.map_append, List.nodup_append] at hnodup
      exact fun hk => hnodup.2.2 _ hk _ List.mem_cons_self rfl
    obtain ⟨next, hnext, hname, hpairs⟩ := entry_of_sets hep hnew
    have hnodup' : ((next.properties.pairs ++ props).map Prod.fst).Nodup := by
      rwa [hpairs, List.append_assoc, List.singleton_append]
    obtain ⟨after, hafter, hname', hpairs'⟩ := foldlM_of_sets next hmore hnodup'
    refine ⟨after, ?_, hname'.trans hname, ?_⟩
    · rw [List.foldlM_cons, hnext]
      exact hafter
    · rw [hpairs', hpairs, List.append_assoc, List.singleton_append]

/-- **Entries that set properties of their own** leave these properties, in order. -/
theorem sheetOf_eq (name : Text) {es : List Entry} {props : List (Text × Attributes)}
    (h : List.Forall₂ session.Sets es props) (hnodup : (props.map Prod.fst).Nodup) :
    ∃ sheet, session.sheetOf name es = .ok sheet ∧ sheet.name = name ∧ sheet.properties.pairs = props :=
  foldlM_of_sets (.named name) h hnodup

/-! ## A script of one definition -/

theorem run_of_read_definition {text name : Text} {es : List Entry} {position : Position} (world : World)
    (h : Script.read text = .ok [.step (.sheet ⟨name, es, position⟩)]) :
    session.run world text =
      match session.sheetOf name es with
      | .ok sheet =>
        ⟨.ok [], { session.cleared with sheets := OrderedMap.set OrderedMap.empty name sheet }, world⟩
      | .error fault => ⟨.error fault, session.cleared, world⟩ := by
  have hsheet : session.cleared.sheetOf name es = session.sheetOf name es := rfl
  rw [run, resume, runItems, h]
  simp only [halted, Except.mapError, bind, Except.bind, List.foldlM_cons, List.foldlM_nil, item, define, hsheet]
  cases session.sheetOf name es <;> rfl

end Session
end StyleScript
