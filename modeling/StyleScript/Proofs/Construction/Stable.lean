import Mathlib.Data.Fintype.EquivFin
import Mathlib.Data.List.Nodup
import Mathlib.Logic.Relation
import Mathlib.Order.WellFounded
import StyleScript.Proofs.Construction.Order
/-!
# The order of statements is the stable topological order

Seen from outside, the sorting is greedy: of all statements that are open, which are those that refer only to what is
placed, the least comes next (`Greedy`).  A greedy row holds exactly what reaches no cycle, each behind what it refers
to, and no other row that is sorted so comes before it in the alphabet of the indices.

Seen from inside, the sorting counts.  Between two placements the count of a statement is the number of those that it
refers to and that are not placed; while dependents are being released, it is one more for each of those to which it
has not come yet (`Kept`).  So a count that is taken down was not zero, the ready statements are the open ones, and what
is placed is greedy (`greedy_placed`).
-/
namespace StyleScript.Construction

open Relation (ReflTransGen TransGen)

/-! ## Cycles -/

section

variable {E : Nat → Nat → Prop} {n i j : Nat} {done order rest other : List Nat}

/-- Along the edges no cycle can be reached. -/
def CycleFree (E : Nat → Nat → Prop) (i : Nat) : Prop := ∀ j, ReflTransGen E i j → ¬TransGen E j j

theorem CycleFree.of_edge (h : CycleFree E i) (hij : E i j) : CycleFree E j :=
  fun k hjk => h k (hjk.head hij)

/-- What has edges only to what reaches no cycle reaches none either. -/
theorem cycleFree_of_edges (h : ∀ j, E i j → CycleFree E j) : CycleFree E i := by
  intro k hik hcycle
  rcases hik.cases_head with rfl | ⟨j, hij, hjk⟩
  · -- a cycle through `i` goes through one of those to which it has an edge
    obtain ⟨j, hij, hji⟩ := TransGen.head'_iff.1 hcycle
    exact h j hij j .refl (TransGen.tail' hji hij)
  · exact h j hij k hjk hcycle

/-- Among finitely many, walks that reach no cycle end. -/
theorem wellFounded_cycleFree (E : Nat → Nat → Prop) (n : Nat) :
    WellFounded fun a b : Fin n => CycleFree E b ∧ TransGen E b a := by
  have : IsTrans (Fin n) fun a b => CycleFree E b ∧ TransGen E b a :=
    ⟨fun _ _ _ hab hbc => ⟨hbc.1, hbc.2.trans hab.2⟩⟩
  have : Std.Irrefl fun a b : Fin n => CycleFree E b ∧ TransGen E b a := ⟨fun a ha => ha.1 a .refl ha.2⟩
  exact Finite.wellFounded_of_trans_of_irrefl _

/-! ## Sorted rows -/

/-- Everything stands behind what it has an edge to. -/
def Sorted (E : Nat → Nat → Prop) (order : List Nat) : Prop :=
  ∀ before i after, order = before ++ i :: after → ∀ j, E i j → j ∈ before

theorem sorted_nil : Sorted E [] := by
  intro before i after h
  cases before <;> cases h

theorem Sorted.concat (h : Sorted E order) (hi : ∀ j, E i j → j ∈ order) : Sorted E (order ++ [i]) := by
  intro before k after heq j hkj
  rcases List.eq_nil_or_concat' after with rfl | ⟨front, last, rfl⟩
  · obtain ⟨rfl, hk⟩ := List.append_inj' heq rfl
    cases hk
    exact hi j hkj
  · rw [← List.cons_append, ← List.append_assoc] at heq
    obtain ⟨rfl, -⟩ := List.append_inj' heq rfl
    exact h before k front rfl j hkj

/-! ## Greedy rows -/

/-- What can come next behind others: it is not among them, and everything that it has an edge to is. -/
structure Open (E : Nat → Nat → Prop) (n : Nat) (done : List Nat) (i : Nat) : Prop where
  lt : i < n
  new : i ∉ done
  free : ∀ j, E i j → j ∈ done

/-- The least that is open comes next, as long as anything is. -/
inductive Greedy (E : Nat → Nat → Prop) (n : Nat) : List Nat → List Nat → Prop where
  | stop {done : List Nat} (closed : ∀ i, ¬Open E n done i) : Greedy E n done []
  | next {done : List Nat} {i : Nat} {rest : List Nat} (isOpen : Open E n done i)
      (least : ∀ k, Open E n done k → i ≤ k) (behind : Greedy E n (done ++ [i]) rest) : Greedy E n done (i :: rest)

namespace Greedy

theorem new (h : Greedy E n done rest) : ∀ i ∈ rest, i < n ∧ i ∉ done := by
  induction h with
  | stop => exact fun i hi => nomatch hi
  | next hopen _ _ ih =>
    intro k hk
    rcases List.mem_cons.1 hk with rfl | hk
    · exact ⟨hopen.lt, hopen.new⟩
    · exact (ih k hk).imp_right fun hnew hdone => hnew (List.mem_append_left _ hdone)

theorem sorted (h : Greedy E n done rest) (hdone : Sorted E done) : Sorted E (done ++ rest) := by
  induction h with
  | stop =>
    rw [List.append_nil]
    exact hdone
  | next hopen _ _ ih =>
    rw [List.append_cons]
    exact ih (hdone.concat hopen.free)

theorem closed (h : Greedy E n done rest) (i : Nat) : ¬Open E n (done ++ rest) i := by
  induction h with
  | stop hclosed =>
    rw [List.append_nil]
    exact hclosed i
  | next _ _ _ ih =>
    rw [List.append_cons]
    exact ih

theorem cycleFree (h : Greedy E n done rest) (hdone : ∀ i ∈ done, CycleFree E i) : ∀ i ∈ rest, CycleFree E i := by
  induction h with
  | stop => exact fun i hi => nomatch hi
  | @next done i rest hopen _ _ ih =>
    have hi : CycleFree E i := cycleFree_of_edges fun j hij => hdone j (hopen.free j hij)
    have hall : ∀ k ∈ done ++ [i], CycleFree E k := List.forall_mem_append.2 ⟨hdone, List.forall_mem_singleton.2 hi⟩
    exact List.forall_mem_cons.2 ⟨hi, ih hall⟩

/-- What reaches no cycle is open at the latest when everything that it has an edge to is placed. -/
theorem mem_of_cycleFree (hbound : ∀ i j, E i j → j < n) (hclosed : ∀ i, ¬Open E n order i) :
    ∀ i : Fin n, CycleFree E i → i.val ∈ order := by
  intro i
  induction i using (wellFounded_cycleFree E n).induction with
  | _ i ih =>
  intro hfree
  by_contra hnew
  refine hclosed i ⟨i.isLt, hnew, fun j hij => ?_⟩
  exact ih ⟨j, hbound i j hij⟩ ⟨hfree, .single hij⟩ (hfree.of_edge hij)

/-- **A greedy row holds exactly what reaches no cycle.** -/
theorem mem_iff (h : Greedy E n [] order) (hbound : ∀ i j, E i j → j < n) (i : Nat) :
    i ∈ order ↔ i < n ∧ CycleFree E i := by
  constructor
  · intro hi
    exact ⟨(h.new i hi).1, h.cycleFree (fun k hk => nomatch hk) i hi⟩
  · rintro ⟨hlt, hfree⟩
    exact mem_of_cycleFree hbound h.closed ⟨i, hlt⟩ hfree

/-- **No sorted row of the same comes before a greedy one.** -/
theorem least (h : Greedy E n done rest) (hperm : other.Perm rest) (hsorted : Sorted E (done ++ other)) :
    rest = other ∨ List.Lex (· < ·) rest other := by
  induction h generalizing other with
  | stop => exact .inl hperm.eq_nil.symm
  | @next done i rest hopen hleast hbehind ih =>
    obtain ⟨k, other, rfl⟩ : ∃ k others, other = k :: others :=
      List.exists_cons_of_ne_nil fun hnil => by simp [hnil] at hperm
    have hk : Open E n done k := by
      obtain ⟨hlt, hnew⟩ := (Greedy.next hopen hleast hbehind).new k (hperm.mem_iff.1 List.mem_cons_self)
      exact ⟨hlt, hnew, hsorted done k other rfl⟩
    rcases Nat.lt_or_eq_of_le (hleast k hk) with hlt | rfl
    · exact .inr (.rel hlt)
    · rw [List.append_cons] at hsorted
      rcases ih hperm.cons_inv hsorted with rfl | hlex
      · exact .inl rfl
      · exact .inr (.cons hlex)

end Greedy

end

/-! ## The sorting, step by step -/

/-- Where the sorting can stand: the statements that are placed, what the others wait for, and those dependents of the
last one placed that are still to be released. -/
inductive Sorting (lists : List (List Nat)) : List Nat → Waiting → List Nat → Prop where
  | start : Sorting lists [] (.start lists) []
  | place {done rest counts : List Nat} {i : Nat} (h : Sorting lists done ⟨counts, i :: rest⟩ []) :
      Sorting lists (done ++ [i]) ⟨counts, rest⟩ (dependents lists i)
  | release {done js : List Nat} {w : Waiting} {j : Nat} (h : Sorting lists done w (j :: js)) :
      Sorting lists done (w.release j) js

section

variable {lists : List (List Nat)} {done js : List Nat} {w : Waiting} {i j k : Nat}

theorem Sorting.foldl_release (h : Sorting lists done w js) : Sorting lists done (js.foldl Waiting.release w) [] := by
  induction js generalizing w with
  | nil => exact h
  | cons j js ih => exact ih h.release

/-- The sorting ends when nothing is ready, and then it has placed what `placed` says. -/
theorem sorting_placed (w : Waiting) (h : Sorting lists done w []) :
    ∃ last, Sorting lists (done ++ placed lists w) last [] ∧ last.ready = [] := by
  fun_induction placed lists w generalizing done with
  | case1 w hready =>
    rw [List.append_nil]
    exact ⟨w, h, hready⟩
  | case2 w i rest hready ih =>
    obtain ⟨counts, ready⟩ := w
    cases hready
    rw [List.append_cons]
    exact ih h.place.foldl_release

/-! ## What is counted -/

/-- How many of those that statement `i` refers to are not placed. -/
def unplaced (lists : List (List Nat)) (done : List Nat) (i : Nat) : Nat :=
  (lists.getD i []).countP fun j => j ∉ done

/-- What the sorting keeps. -/
structure Kept (lists : List (List Nat)) (done : List Nat) (w : Waiting) (js : List Nat) : Prop where
  counts : ∀ i < lists.length, w.counts[i]? = some (unplaced lists done i + js.count i)
  released : ∀ j ∈ js, j < lists.length
  ascending : w.ready.Pairwise (· < ·)
  ready : ∀ i, i ∈ w.ready ↔ i < lists.length ∧ i ∉ done ∧ w.counts[i]? = some 0
  placed : ∀ i ∈ done, w.counts[i]? = some 0

theorem mem_dependents : j ∈ dependents lists i ↔ j < lists.length ∧ i ∈ lists.getD j [] := by
  simp [dependents]

theorem count_dependents (hj : j < lists.length) :
    (dependents lists i).count j = if i ∈ lists.getD j [] then 1 else 0 := by
  have hnodup : (dependents lists i).Nodup := List.nodup_range.filter _
  simp [hnodup.count, mem_dependents, hj]

theorem countP_not_mem_concat {l : List Nat} (hl : l.Nodup) (hi : i ∉ done) :
    l.countP (fun j => j ∉ done) = l.countP (fun j => j ∉ done ++ [i]) + if i ∈ l then 1 else 0 := by
  induction l with
  | nil => rfl
  | cons j l ih =>
    obtain ⟨hj, hl⟩ := List.nodup_cons.1 hl
    rw [List.countP_cons, List.countP_cons, ih hl]
    by_cases hji : j = i
    · subst hji
      simp [hi, hj]
    · by_cases hdone : j ∈ done
      · simp [hdone, Ne.symm hji]
      · simp [hdone, hji, Ne.symm hji]
        omega

theorem unplaced_concat (hlists : ∀ l ∈ lists, l.Nodup) (hi : i ∉ done) (hk : k < lists.length) :
    unplaced lists done k = unplaced lists (done ++ [i]) k + (dependents lists i).count k := by
  rw [count_dependents hk]
  refine countP_not_mem_concat (hlists _ ?_) hi
  simp [List.getD_eq_getElem?_getD, hk]

theorem kept_start (lists : List (List Nat)) : Kept lists [] (.start lists) [] where
  counts i hi := by simp [Waiting.start, unplaced, hi]
  released _ hj := nomatch hj
  ascending := List.pairwise_lt_range.filter _
  ready i := by simp [Waiting.start]
  placed _ hi := nomatch hi

theorem Kept.place {counts rest : List Nat} (hlists : ∀ l ∈ lists, l.Nodup)
    (h : Kept lists done ⟨counts, i :: rest⟩ []) :
    Kept lists (done ++ [i]) ⟨counts, rest⟩ (dependents lists i) := by
  obtain ⟨-, hnew, hzero⟩ := (h.ready i).1 List.mem_cons_self
  obtain ⟨hbelow, hascending⟩ := List.pairwise_cons.1 h.ascending
  refine ⟨fun k hk => ?_, fun j hj => (mem_dependents.1 hj).1, hascending, fun k => ?_, fun k hk => ?_⟩
  · rw [← unplaced_concat hlists hnew hk]
    simpa using h.counts k hk
  · have hready := h.ready k
    by_cases hki : k = i
    · subst hki
      have hnot : k ∉ rest := fun hk => Nat.lt_irrefl k (hbelow k hk)
      simp [hnot]
    · simpa [hki] using hready
  · rcases List.mem_append.1 hk with hk | hk
    · exact h.placed k hk
    · rw [List.mem_singleton.1 hk]
      exact hzero

/-! ## Releasing -/

theorem Waiting.release_of_pos (h : w.counts[j]? = some (k + 1)) :
    w.release j = ⟨w.counts.set j k, if k = 0 then insertAscending j w.ready else w.ready⟩ := by
  unfold Waiting.release
  rw [h]

theorem mem_insertAscending {l : List Nat} : i ∈ insertAscending j l ↔ i = j ∨ i ∈ l := by
  rw [(insertAscending_perm j l).mem_iff, List.mem_cons]

theorem pairwise_insertAscending {l : List Nat} (hl : l.Pairwise (· < ·)) (hj : j ∉ l) :
    (insertAscending j l).Pairwise (· < ·) := by
  induction l with
  | nil => exact List.pairwise_singleton _ j
  | cons m l ih =>
    obtain ⟨hm, hl⟩ := List.pairwise_cons.1 hl
    rw [List.mem_cons, not_or] at hj
    unfold insertAscending
    split
    · next hjm =>
      refine List.pairwise_cons.2 ⟨fun x hx => ?_, List.pairwise_cons.2 ⟨hm, hl⟩⟩
      rcases List.mem_cons.1 hx with rfl | hx
      · exact hjm
      · exact Nat.lt_trans hjm (hm x hx)
    · next hjm =>
      refine List.pairwise_cons.2 ⟨fun x hx => ?_, ih hl hj.2⟩
      rcases mem_insertAscending.1 hx with rfl | hx
      · omega
      · exact hm x hx

/-- **What is released waits for something.** -/
theorem Kept.pos (h : Kept lists done w (j :: js)) : w.counts[j]? = some (unplaced lists done j + js.count j + 1) := by
  rw [h.counts j (h.released j List.mem_cons_self), List.count_cons_self, Nat.add_assoc]

theorem Kept.release (h : Kept lists done w (j :: js)) : Kept lists done (w.release j) js := by
  have hpos := h.pos
  have hlt : j < w.counts.length := (List.getElem?_eq_some_iff.1 hpos).1
  have hnew : j ∉ done := fun hj => by simp [h.placed j hj] at hpos
  have hwaits : j ∉ w.ready := fun hj => by simp [((h.ready j).1 hj).2.2] at hpos
  rw [Waiting.release_of_pos hpos]
  refine ⟨fun i hi => ?_, fun i hi => h.released i (List.mem_cons_of_mem j hi), ?_, fun i => ?_, fun i hi => ?_⟩
  · by_cases hij : i = j
    · subst hij
      exact List.getElem?_set_self hlt
    · rw [List.getElem?_set_ne (Ne.symm hij), h.counts i hi, List.count_cons_of_ne (Ne.symm hij)]
  · dsimp only
    split
    · exact pairwise_insertAscending h.ascending hwaits
    · exact h.ascending
  · by_cases hij : i = j
    · subst hij
      have hi := h.released i List.mem_cons_self
      dsimp only
      rw [List.getElem?_set_self hlt, Option.some_inj]
      split
      · next hzero => simp [mem_insertAscending, hi, hnew, hzero]
      · next hzero => exact iff_of_false hwaits fun h => hzero h.2.2
    · have hready := h.ready i
      rw [List.getElem?_set_ne (Ne.symm hij), ← hready]
      dsimp only
      split
      · rw [mem_insertAscending, or_iff_right hij]
      · rfl
  · have hij : j ≠ i := fun hij => hnew (hij ▸ hi)
    rw [List.getElem?_set_ne hij]
    exact h.placed i hi

/-- **Wherever the sorting stands, the counts are right.** -/
theorem kept_of_sorting (hlists : ∀ l ∈ lists, l.Nodup) (h : Sorting lists done w js) : Kept lists done w js := by
  induction h with
  | start => exact kept_start lists
  | place _ ih => exact ih.place hlists
  | release _ ih => exact ih.release

/-! ## What is placed -/

/-- Between two placements, the ready statements are the open ones. -/
theorem Kept.mem_ready (h : Kept lists done w []) :
    i ∈ w.ready ↔ Open (fun i j => j ∈ lists.getD i []) lists.length done i := by
  rw [h.ready]
  constructor
  · rintro ⟨hlt, hnew, hzero⟩
    rw [h.counts i hlt, List.count_nil, Nat.add_zero, Option.some_inj] at hzero
    exact ⟨hlt, hnew, by simpa [unplaced, List.countP_eq_zero] using hzero⟩
  · rintro ⟨hlt, hnew, hfree⟩
    have hzero : unplaced lists done i = 0 := by simpa [unplaced, List.countP_eq_zero] using hfree
    exact ⟨hlt, hnew, by rw [h.counts i hlt, hzero, List.count_nil]⟩

/-- **What is placed is greedy.** -/
theorem greedy_placed (hlists : ∀ l ∈ lists, l.Nodup) (w : Waiting) (h : Sorting lists done w []) :
    Greedy (fun i j => j ∈ lists.getD i []) lists.length done (placed lists w) := by
  fun_induction placed lists w generalizing done with
  | case1 w hready =>
    have hkept := kept_of_sorting hlists h
    exact .stop fun i hi => by simpa [hready] using hkept.mem_ready.2 hi
  | case2 w i rest hready ih =>
    have hkept := kept_of_sorting hlists h
    have hascending := hkept.ascending
    rw [hready, List.pairwise_cons] at hascending
    have hleast : ∀ k ∈ w.ready, i ≤ k := by
      rw [hready]
      exact List.forall_mem_cons.2 ⟨Nat.le_refl i, fun k hk => Nat.le_of_lt (hascending.1 k hk)⟩
    have hopen := hkept.mem_ready.1 (hready ▸ List.mem_cons_self)
    obtain ⟨counts, ready⟩ := w
    cases hready
    exact .next hopen (fun k hk => hleast k (hkept.mem_ready.2 hk)) (ih h.place.foldl_release)

end

/-! ## References between statements -/

/-- Statement `j` is the first that owns the label. -/
def FirstOwner (vertices : List Vertex) (label : Text) (j : Nat) : Prop :=
  (∃ v, vertices[j]? = some v ∧ label ∈ v.labels) ∧ ∀ k < j, ∀ v, vertices[k]? = some v → label ∉ v.labels

/-- Statement `i` refers to another statement `j`, which is the first that owns one of its references. -/
def RefersTo (vertices : List Vertex) (i j : Nat) : Prop :=
  j ≠ i ∧ ∃ v, vertices[i]? = some v ∧ ∃ label ∈ references v.rhs, FirstOwner vertices label j

section

variable {vertices : List Vertex} {label : Text} {i j : Nat}

theorem owner?_eq_some : owner? vertices label = some j ↔ FirstOwner vertices label j := by
  rw [owner?, List.findIdx?_eq_some_iff_getElem, FirstOwner]
  constructor
  · rintro ⟨hj, howns, hfirst⟩
    refine ⟨⟨vertices[j], List.getElem?_eq_getElem hj, by simpa using howns⟩, fun k hk v hv => ?_⟩
    obtain ⟨hlt, rfl⟩ := List.getElem?_eq_some_iff.1 hv
    simpa using hfirst k hk
  · rintro ⟨⟨v, hv, howns⟩, hfirst⟩
    obtain ⟨hj, rfl⟩ := List.getElem?_eq_some_iff.1 hv
    refine ⟨hj, by simpa using howns, fun k hk => ?_⟩
    simpa using hfirst k hk _ (List.getElem?_eq_getElem (Nat.lt_trans hk hj))

theorem lt_of_refersTo (h : RefersTo vertices i j) : j < vertices.length := by
  obtain ⟨-, -, -, -, -, ⟨v, hv, -⟩, -⟩ := h
  exact (List.getElem?_eq_some_iff.1 hv).1

theorem length_dependencyLists (vertices : List Vertex) : (dependencyLists vertices).length = vertices.length := by
  simp [dependencyLists]

theorem nodup_dependencyLists : ∀ l ∈ dependencyLists vertices, l.Nodup := by
  intro l hl
  obtain ⟨i, hi, rfl⟩ := List.mem_mapIdx.1 hl
  exact List.nodup_range.filter _

/-- The lists of dependencies hold the references. -/
theorem mem_dependencyLists : j ∈ (dependencyLists vertices).getD i [] ↔ RefersTo vertices i j := by
  constructor
  · intro h
    cases hv : vertices[i]? with
    | none => simp [dependencyLists, List.getD_eq_getElem?_getD, hv] at h
    | some v =>
      simp only [dependencyLists, List.getD_eq_getElem?_getD, List.getElem?_mapIdx, hv, Option.map_some,
        Option.getD_some, dependencies, List.mem_filter, Bool.and_eq_true, decide_eq_true_eq, List.contains_iff_mem,
        List.mem_filterMap] at h
      obtain ⟨-, hne, label, hlabel, howner⟩ := h
      exact ⟨hne, v, hv, label, hlabel, owner?_eq_some.1 howner⟩
  · intro h
    have hlt := lt_of_refersTo h
    obtain ⟨hne, v, hv, label, hlabel, howner⟩ := h
    simp only [dependencyLists, List.getD_eq_getElem?_getD, List.getElem?_mapIdx, hv, Option.map_some,
      Option.getD_some, dependencies, List.mem_filter, Bool.and_eq_true, decide_eq_true_eq, List.contains_iff_mem,
      List.mem_filterMap]
    exact ⟨List.mem_range.2 hlt, hne, label, hlabel, owner?_eq_some.2 howner⟩

end

/-- What can be sorted of the statements is placed greedily. -/
theorem greedy_dependencies (vertices : List Vertex) : Greedy (RefersTo vertices) vertices.length []
    (placed (dependencyLists vertices) (.start (dependencyLists vertices))) := by
  have hedges : (fun i j => j ∈ (dependencyLists vertices).getD i []) = RefersTo vertices :=
    funext fun i => funext fun j => propext mem_dependencyLists
  have hgreedy := greedy_placed nodup_dependencyLists _ (@Sorting.start (dependencyLists vertices))
  rwa [hedges, length_dependencyLists] at hgreedy

/-- What reaches no cycle stands behind everything that it refers to. -/
theorem exists_before_of_cycleFree {vertices : List Vertex} {i : Nat} (hlt : i < vertices.length)
    (hfree : CycleFree (RefersTo vertices) i) :
    ∃ before after, dependencyOrder vertices = before ++ i :: after ∧ ∀ j, RefersTo vertices i j → j ∈ before := by
  have hgreedy := greedy_dependencies vertices
  obtain ⟨before, after, horder⟩ := List.append_of_mem ((hgreedy.mem_iff (fun _ _ => lt_of_refersTo) i).2 ⟨hlt, hfree⟩)
  have hbefore := hgreedy.sorted sorted_nil before i after horder
  have horder : dependencyOrder vertices = (before ++ i :: after) ++ _ := congrArg (· ++ _) horder
  rw [List.append_assoc] at horder
  exact ⟨before, _, horder, hbefore⟩

/-- **The order of statements is the stable topological order.**  All statements stand in it once.  It begins with those
from which no cycle of references is reached, each behind those that it refers to, in the order that comes first of all
such orders; the others follow as they stand.  While they are sorted, no count is taken down that is zero. -/
theorem dependencyOrder_stable (vertices : List Vertex) :
    (dependencyOrder vertices).Perm (List.range vertices.length) ∧
      (∀ done w j js, Sorting (dependencyLists vertices) done w (j :: js) → ∃ k, w.counts[j]? = some (k + 1)) ∧
      ∃ first rest, dependencyOrder vertices = first ++ rest ∧
        (∃ last, Sorting (dependencyLists vertices) first last [] ∧ last.ready = []) ∧
        (∀ i, i ∈ first ↔ i < vertices.length ∧ CycleFree (RefersTo vertices) i) ∧
        Sorted (RefersTo vertices) first ∧
        (∀ other, other.Perm first → Sorted (RefersTo vertices) other → first = other ∨ List.Lex (· < ·) first other) ∧
        rest.Pairwise (· < ·) := by
  have hgreedy := greedy_dependencies vertices
  refine ⟨dependencyOrder_perm vertices, fun done w j js h => ?_, _, _, rfl, sorting_placed _ .start, ?_, ?_, ?_, ?_⟩
  · exact ⟨_, (kept_of_sorting nodup_dependencyLists h).pos⟩
  · exact hgreedy.mem_iff fun i j => lt_of_refersTo
  · exact hgreedy.sorted sorted_nil
  · exact fun other hperm hsorted => hgreedy.least hperm hsorted
  · exact List.pairwise_lt_range.filter _

/-- With a cycle of two, a reference to itself, a repeated one, and a label that is owned twice. -/
example : dependencyOrder [⟨["s"], "Segment(A, B)"⟩, ⟨["a"], "b + 1"⟩, ⟨["b"], "a + a"⟩, ⟨["A"], "x"⟩,
    ⟨["B", "A"], "B + x"⟩] = [3, 4, 0, 1, 2] := by decide +kernel

end StyleScript.Construction
