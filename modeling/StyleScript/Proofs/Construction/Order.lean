import Mathlib.Data.List.Nodup
import StyleScript.Construction.Document
/-!
# Nothing is lost in ordering

The order of statements is a permutation of them (`dependencyOrder_perm`).  A statement is placed when it waits
for nothing, and a count that is zero stays zero; so what has been placed never becomes ready again.
-/
namespace StyleScript.Construction

/-! ## One placement -/

theorem insertAscending_perm (n : Nat) : ∀ l : List Nat, (insertAscending n l).Perm (n :: l)
  | [] => .refl _
  | m :: rest => by
    unfold insertAscending
    split
    · exact .refl _
    · exact ((insertAscending_perm n rest).cons m).trans (.swap ..)

/-- The ready statements are listed once and wait for nothing. -/
structure Waiting.Sound (w : Waiting) : Prop where
  nodup : w.ready.Nodup
  zero : ∀ i ∈ w.ready, w.counts[i]? = some 0

/-- What releases leave as it is: a count of zero, and that what is ready was waiting or ready before. -/
structure Waiting.Follows (w after : Waiting) : Prop where
  zero : ∀ i : Nat, w.counts[i]? = some 0 → after.counts[i]? = some 0
  waiting : ∀ i k : Nat, after.counts[i]? = some (k + 1) → ∃ n, w.counts[i]? = some (n + 1)
  ready : ∀ i ∈ after.ready, i ∈ w.ready ∨ ∃ n, w.counts[i]? = some (n + 1)

theorem Waiting.Follows.refl (w : Waiting) : w.Follows w := ⟨fun _ h => h, fun _ k h => ⟨k, h⟩, fun _ h => .inl h⟩

theorem Waiting.Follows.trans {w next after : Waiting} (h : w.Follows next) (k : next.Follows after) :
    w.Follows after where
  zero i hi := k.zero i (h.zero i hi)
  waiting i n hi := by
    obtain ⟨m, hm⟩ := k.waiting i n hi
    exact h.waiting i m hm
  ready i hi := by
    rcases k.ready i hi with hr | ⟨n, hn⟩
    · exact h.ready i hr
    · exact .inr (h.waiting i n hn)

theorem Waiting.release_spec {w : Waiting} (h : w.Sound) (j : Nat) :
    (w.release j).Sound ∧ w.Follows (w.release j) := by
  unfold Waiting.release
  split
  · next k hk =>
    have hother : ∀ i n : Nat, w.counts[i]? = some n → i ≠ j → (w.counts.set j k)[i]? = some n := by
      intro i n hi hij
      rw [List.getElem?_set_ne (Ne.symm hij)]
      exact hi
    have hzero : ∀ i : Nat, w.counts[i]? = some 0 → (w.counts.set j k)[i]? = some 0 := by
      intro i hi
      refine hother i 0 hi ?_
      rintro rfl
      rw [hk] at hi
      cases hi
    have hwaiting : ∀ i n : Nat, (w.counts.set j k)[i]? = some (n + 1) → ∃ m, w.counts[i]? = some (m + 1) := by
      intro i n hi
      by_cases hij : i = j
      · exact ⟨k, hij ▸ hk⟩
      · rw [List.getElem?_set_ne (Ne.symm hij)] at hi
        exact ⟨n, hi⟩
    split
    · next h0 =>
      have hperm := insertAscending_perm j w.ready
      have hnew : j ∉ w.ready := fun hj => by
        have := h.zero j hj
        rw [hk] at this
        cases this
      refine ⟨⟨hperm.nodup_iff.2 (List.nodup_cons.2 ⟨hnew, h.nodup⟩), fun i hi => ?_⟩, hzero, hwaiting, fun i hi => ?_⟩
      · rcases List.mem_cons.1 (hperm.mem_iff.1 hi) with rfl | hi
        · rw [List.getElem?_set_self (List.getElem?_eq_some_iff.1 hk).1, h0]
        · exact hzero i (h.zero i hi)
      · rcases List.mem_cons.1 (hperm.mem_iff.1 hi) with rfl | hi
        · exact .inr ⟨k, hk⟩
        · exact .inl hi
    · exact ⟨⟨h.nodup, fun i hi => hzero i (h.zero i hi)⟩, hzero, hwaiting, fun i hi => .inl hi⟩
  · exact ⟨h, .refl w⟩

theorem Waiting.foldl_release_spec : ∀ (js : List Nat) {w : Waiting}, w.Sound →
    (js.foldl Waiting.release w).Sound ∧ w.Follows (js.foldl Waiting.release w)
  | [], w, h => ⟨h, .refl w⟩
  | j :: js, w, h => by
    obtain ⟨hnext, hfollows⟩ := release_spec h j
    obtain ⟨hafter, hfollows'⟩ := foldl_release_spec js hnext
    exact ⟨hafter, hfollows.trans hfollows'⟩

/-! ## All placements -/

/-- **What is placed is placed once**, and was ready or waiting. -/
theorem placed_spec (lists : List (List Nat)) (w : Waiting) (h : w.Sound) :
    (placed lists w).Nodup ∧ ∀ i ∈ placed lists w, i ∈ w.ready ∨ ∃ n, w.counts[i]? = some (n + 1) := by
  fun_induction placed lists w with
  | case1 => exact ⟨List.nodup_nil, fun i hi => nomatch hi⟩
  | case2 w i rest hready ih =>
    have hnodup := h.nodup
    rw [hready, List.nodup_cons] at hnodup
    have hrest : (⟨w.counts, rest⟩ : Waiting).Sound :=
      ⟨hnodup.2, fun j hj => h.zero j (hready ▸ List.mem_cons_of_mem i hj)⟩
    obtain ⟨hafter, hfollows⟩ := Waiting.foldl_release_spec (dependents lists i) hrest
    obtain ⟨hplaced, hfrom⟩ := ih hafter
    -- what comes later was waiting or ready, and the placed one is neither
    have hlater : ∀ j ∈ placed lists ((dependents lists i).foldl Waiting.release ⟨w.counts, rest⟩),
        j ∈ rest ∨ ∃ n, w.counts[j]? = some (n + 1) := by
      intro j hj
      rcases hfrom j hj with hr | ⟨n, hn⟩
      · exact hfollows.ready j hr
      · exact .inr (hfollows.waiting j n hn)
    refine ⟨List.nodup_cons.2 ⟨fun hi => ?_, hplaced⟩, fun j hj => ?_⟩
    · rcases hlater i hi with hr | ⟨n, hn⟩
      · exact hnodup.1 hr
      · have := h.zero i (hready ▸ List.mem_cons_self)
        rw [hn] at this
        cases this
    · rw [hready, List.mem_cons]
      rcases List.mem_cons.1 hj with rfl | hj
      · exact .inl (.inl rfl)
      · rcases hlater j hj with hr | hn
        · exact .inl (.inr hr)
        · exact .inr hn

theorem Waiting.start_sound (lists : List (List Nat)) : (Waiting.start lists).Sound where
  nodup := List.nodup_range.filter _
  zero _ hi := of_decide_eq_true (List.mem_filter.1 hi).2

/-- **The order of statements is a permutation of them.** -/
theorem dependencyOrder_perm (vertices : List Vertex) :
    (dependencyOrder vertices).Perm (List.range vertices.length) := by
  obtain ⟨hnodup, hfrom⟩ := placed_spec _ _ (Waiting.start_sound (dependencyLists vertices))
  have hlength : (Waiting.start (dependencyLists vertices)).counts.length = vertices.length := by
    simp [Waiting.start, dependencyLists]
  have hrange : ∀ i ∈ placed (dependencyLists vertices) (.start (dependencyLists vertices)), i < vertices.length := by
    intro i hi
    rw [← hlength]
    rcases hfrom i hi with hr | ⟨n, hn⟩
    · exact (List.getElem?_eq_some_iff.1 ((Waiting.start_sound _).zero i hr)).1
    · exact (List.getElem?_eq_some_iff.1 hn).1
  unfold dependencyOrder
  refine (List.perm_ext_iff_of_nodup (List.nodup_append.2 ⟨hnodup, List.nodup_range.filter _, ?_⟩)
    List.nodup_range).2 fun i => ?_
  · rintro i hi j hj rfl
    have := (List.mem_filter.1 hj).2
    simp [hi] at this
  · rw [List.mem_append, List.mem_filter, List.mem_range]
    constructor
    · rintro (hi | hi)
      · exact hrange i hi
      · exact hi.1
    · intro hi
      by_cases hp : i ∈ placed (dependencyLists vertices) (.start (dependencyLists vertices))
      · exact .inl hp
      · exact .inr ⟨hi, by simp [hp]⟩

/-! ## Objects in the order in which they are written -/

theorem mem_of_mem_preparedOf {settings : Settings} {objects : List Object} {p : Prepared}
    (hp : p ∈ preparedOf settings objects) : p.object ∈ objects ∧ p.object.labels ≠ [] := by
  obtain ⟨o, ho, rfl⟩ := List.mem_map.1 hp
  obtain ⟨hmem, hlabels⟩ := List.mem_filter.1 ho
  refine ⟨hmem, fun hnil => ?_⟩
  have hnil : o.labels = [] := hnil
  rw [hnil] at hlabels
  cases hlabels

/-- Prepared objects in the order in which they are written. -/
def arranged (settings : Settings) (prepared : List Prepared) : List Prepared :=
  (orderOf settings prepared).filterMap (prepared[·]?)

theorem orderOf_perm (settings : Settings) (prepared : List Prepared) :
    (orderOf settings prepared).Perm (List.range prepared.length) := by
  unfold orderOf
  split
  · have := dependencyOrder_perm (prepared.map fun p => ⟨p.object.labels, p.object.rhs⟩)
    rwa [List.length_map] at this
  · exact .refl _

theorem filterMap_range_getElem? {α : Type} : ∀ l : List α, (List.range l.length).filterMap (l[·]?) = l
  | [] => rfl
  | a :: l => by
    rw [List.length_cons, List.range_succ_eq_map, List.filterMap_cons, List.filterMap_map]
    exact congrArg (a :: ·) (filterMap_range_getElem? l)

/-- **Every object is written once.** -/
theorem arranged_perm (settings : Settings) (prepared : List Prepared) :
    (arranged settings prepared).Perm prepared := by
  have h := (orderOf_perm settings prepared).filterMap (prepared[·]?)
  rwa [filterMap_range_getElem?] at h

end StyleScript.Construction
