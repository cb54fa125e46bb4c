import Mathlib.Data.List.Forall2
import StyleScript.Proofs.Delivery.Told
/-!
# The protocol of a delivery

A host that is sent a sheet hears of one object after the other: of its style, and then that it is finished.  These
events are the *block* of the object (`IsBlock`).  After the last block it is asked to compute anew, and then perhaps to
follow the trace.  A delivery that fails breaks off inside of a block, and nothing comes behind it.

What a delivery did to the host is known from `Served` and `Styled`; here it is read as one row of events
(`exists_blocks`).
-/
namespace StyleScript.Delivery

/-- The events by which the host hears of one object: whatever tells its style, and one finish. -/
def IsBlock (label : Text) (events : List HostEvent) : Prop :=
  ∃ told, events = told ++ [.finished label] ∧ ∀ e ∈ told, e.styled? = some label

/-- The host heard of these objects in turn, and of each in a block of its own. -/
def InBlocks (host : Host) (handles : List Nat) (blocks : List (List HostEvent)) : Prop :=
  List.Forall₂ (fun handle => IsBlock (host.labelOf handle)) handles blocks

variable {catalog : Catalog} {handles : List Nat} {handle : Nat} {world after : World} {sheet : StyleSheet}

theorem Styled.events (h : Styled handle world after) : ∃ told, after.host.events = world.host.events ++ told ∧
    ∀ e ∈ told, e.styled? = some (world.host.labelOf handle) := by
  obtain ⟨told, hevents, habout⟩ := Host.Told.events h
  refine ⟨told, hevents, fun e he => ?_⟩
  obtain ⟨other, hmem, hlabel⟩ := habout e he
  rwa [List.mem_singleton.1 hmem] at hlabel

/-- Objects that were served are those of the blocks that were told. -/
theorem Served.exists_blocks (h : Served handles world after) : ∃ blocks, InBlocks world.host handles blocks ∧
    after.host.events = world.host.events ++ blocks.flatten := by
  induction h with
  | nil world => exact ⟨[], .nil, (List.append_nil _).symm⟩
  | @cons handle handles world mid next after styled finished _ ih =>
    obtain ⟨told, hevents, hstyled⟩ := styled.events
    obtain ⟨blocks, hblocks, hafter⟩ := ih
    have hlabel : mid.host.labelOf handle = world.host.labelOf handle := Host.labelOf_eq styled.objects handle
    have hnext : next.host.events = world.host.events ++ (told ++ [.finished (world.host.labelOf handle)]) := by
      rw [finished, ← hlabel, ← List.append_assoc, ← hevents]
      rfl
    -- the labels that the later blocks speak of are those of the beginning
    have hobjects : next.host.objects.map HostObject.unstyled = world.host.objects.map HostObject.unstyled := by
      rw [finished]
      exact styled.objects
    refine ⟨_ :: blocks, .cons ⟨told, rfl, hstyled⟩ (hblocks.imp fun other events hblock => ?_), ?_⟩
    · rwa [Host.labelOf_eq hobjects] at hblock
    · rw [hafter, hnext, List.flatten_cons, List.append_assoc]

theorem events_conclude (sheet : StyleSheet) (world : World) : (conclude sheet world).host.events =
    world.host.events ++ .recomputed :: if sheet.properties.contains traced then [.traceSynced] else [] := by
  unfold conclude
  simp only
  split
  · exact List.append_assoc ..
  · rfl

theorem objects_conclude (sheet : StyleSheet) (world : World) :
    (conclude sheet world).host.objects = world.host.objects := by
  unfold conclude
  simp only
  split <;> rfl

theorem sheet_eq_ok (hsome : (sheet.isEmpty || handles.isEmpty) = false)
    (h : Delivery.sheet catalog world handles sheet = .ok after) :
    ∃ mid, Served handles world mid ∧ after = conclude sheet mid := by
  unfold Delivery.sheet at h
  rw [hsome, if_neg Bool.false_ne_true, bind_eq_ok] at h
  obtain ⟨mid, hmid, hafter⟩ := h
  exact ⟨mid, served_of_foldlM hmid, (pure_eq_ok.1 hafter).symm⟩

/-- What a delivery of a sheet to some objects has recorded, by its end: all blocks and what concludes them, or some
blocks and a part of the next one, without its finish. -/
def Recorded (sheet : StyleSheet) (handles : List Nat) (host : Host) : Except Halted World → Prop
  | .ok after => ∃ blocks, InBlocks host handles blocks ∧ after.host.events = host.events ++ blocks.flatten ++
      .recomputed :: if sheet.properties.contains traced then [.traceSynced] else []
  | .error halted => ∃ done handle rest blocks told, handles = done ++ handle :: rest ∧ InBlocks host done blocks ∧
      (∀ e ∈ told, e.styled? = some (host.labelOf handle)) ∧
      halted.world.host.events = host.events ++ blocks.flatten ++ told

/-- **A delivery keeps to its protocol.**  A sheet that says nothing, or is for no object, changes nothing.  Otherwise
each object has its block, in turn, and then the host computes anew once and follows the trace once, if the sheet holds
that; a delivery that fails stops inside of the block of one object.  Whether it fails or not, there are the same
objects with the same labels as before. -/
theorem protocol_kept (catalog : Catalog) (world : World) (handles : List Nat) (sheet : StyleSheet) :
    (if sheet.isEmpty || handles.isEmpty then Delivery.sheet catalog world handles sheet = .ok world
      else Recorded sheet handles world.host (Delivery.sheet catalog world handles sheet)) ∧
      (left (Delivery.sheet catalog world handles sheet)).host.objects.map HostObject.unstyled =
        world.host.objects.map HostObject.unstyled := by
  split
  · next hnothing =>
    have hsame : Delivery.sheet catalog world handles sheet = .ok world := by
      unfold Delivery.sheet
      rw [if_pos hnothing]
    exact ⟨hsame, by rw [hsame]; rfl⟩
  · next hsome =>
    have hsome := Bool.eq_false_iff.2 hsome
    cases h : Delivery.sheet catalog world handles sheet with
    | ok after =>
      obtain ⟨mid, hserved, rfl⟩ := sheet_eq_ok hsome h
      obtain ⟨blocks, hblocks, hevents⟩ := hserved.exists_blocks
      refine ⟨⟨blocks, hblocks, by rw [events_conclude, hevents]⟩, ?_⟩
      show (conclude sheet mid).host.objects.map _ = _
      rw [objects_conclude]
      exact hserved.told.objects
    | error halted =>
      obtain ⟨done, handle, rest, mid, hsplit, hserved, hstyled, -⟩ := sheet_eq_error h
      obtain ⟨blocks, hblocks, hmid⟩ := hserved.exists_blocks
      obtain ⟨told, htold, habout⟩ := hstyled.events
      rw [Host.labelOf_eq hserved.told.objects] at habout
      refine ⟨⟨done, handle, rest, blocks, told, hsplit, hblocks, habout, by rw [htold, hmid]⟩, ?_⟩
      exact (told_of_sheet_eq_error h).objects

end StyleScript.Delivery
