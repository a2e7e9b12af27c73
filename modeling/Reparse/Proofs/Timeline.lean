import Reparse.Proofs.Coordinates

/-!
# Pieces that are in the text, and pieces that have left it

A piece in the text follows every shift from its registration on, until it is frozen. From then on
it keeps its coordinates. Asking for the coordinates of a piece changes those of none.
-/

namespace Reparse

namespace Timeline

/-- No piece is ahead of the shifts that have been recorded. -/
def InStep (t : Timeline) : Prop := ∀ m ∈ t.markers, m.applied ≤ t.shifts.size

def live? (t : Timeline) (slot : Nat) : Option Placement :=
  t.markers[slot]?.bind fun m =>
    if m.frozen then none else some (m.placement.moveAll (t.shiftsSince m.applied))

variable {t : Timeline} {slot : Nat} {p : Placement}

theorem lt_of_live (h : t.live? slot = some p) : slot < t.markers.size := by
  refine Nat.lt_of_not_le fun hle => ?_
  rw [live?, Array.getElem?_eq_none hle] at h
  cases h

theorem placement?_of_live (h : t.live? slot = some p) : t.placement? slot = some p := by
  unfold live? at h
  unfold placement?
  cases hm : t.markers[slot]? with
  | none =>
    rw [hm] at h
    cases h
  | some m =>
    rw [hm, Option.bind_some] at h
    split at h
    · cases h
    next hlive =>
      rw [Option.map_some, upToDate, if_neg hlive]
      exact h

theorem placement_of_live (h : t.live? slot = some p) : t.placement slot = p := by
  rw [placement, placement?_of_live h, Option.getD_some]

theorem inStep_empty : InStep {} := fun _ hm => absurd hm (Array.not_mem_empty _)

theorem InStep.register (h : t.InStep) (q : Placement) : (t.register q).InStep := by
  intro m hm
  rcases Array.mem_push.mp hm with hm | rfl
  · exact h m hm
  · exact Nat.le_refl _

theorem InStep.record (h : t.InStep) (m : Shift) : (t.record m).InStep := by
  intro marker hmarker
  have hsize : (t.record m).shifts.size = t.shifts.size + 1 := Array.size_push _
  exact Nat.le_trans (h marker hmarker) (hsize ▸ Nat.le_succ _)

theorem InStep.freeze (h : t.InStep) (other : Nat) : (t.freeze other).InStep := by
  intro m hm
  obtain ⟨i, hi, rfl⟩ := Array.mem_iff_getElem.mp hm
  have hsize : i < t.markers.size := by simpa [Timeline.freeze] using hi
  have hold := h t.markers[i] (Array.getElem_mem hsize)
  simp only [Timeline.freeze, Array.getElem_modify]
  split
  · unfold upToDate
    split
    · exact hold
    · exact Nat.le_refl _
  · exact hold

theorem live_register_of_lt (q : Placement) (h : slot < t.markers.size) :
    (t.register q).live? slot = t.live? slot := by
  have hmarkers : (t.register q).markers[slot]? = t.markers[slot]? :=
    Array.getElem?_push_lt h ▸ (Array.getElem?_eq_getElem h).symm
  unfold live?
  rw [hmarkers]
  rfl

theorem live_register (t : Timeline) (q : Placement) :
    (t.register q).live? t.markers.size = some q := by
  have hmarkers : (t.register q).markers[t.markers.size]? = some ⟨q, t.shifts.size, false⟩ :=
    Array.getElem?_push_size
  have hshifts : (t.register q).shiftsSince t.shifts.size = [] :=
    List.drop_eq_nil_of_le (Nat.le_of_eq Array.length_toList)
  unfold live?
  rw [hmarkers, Option.bind_some, hshifts]
  rfl

theorem live_freeze_of_ne {other : Nat} (h : other ≠ slot) :
    (t.freeze other).live? slot = t.live? slot := by
  have hmarkers : (t.freeze other).markers[slot]? = t.markers[slot]? := by
    unfold freeze
    rw [Array.getElem?_modify, if_neg h]
  unfold live?
  rw [hmarkers]
  rfl

theorem live_record (h : t.InStep) (m : Shift) (slot : Nat) :
    (t.record m).live? slot = (t.live? slot).map m.move := by
  have hmarkers : (t.record m).markers = t.markers := rfl
  unfold live?
  rw [hmarkers]
  cases hmarker : t.markers[slot]? with
  | none => rfl
  | some marker =>
    have hsince : (t.record m).shiftsSince marker.applied = t.shiftsSince marker.applied ++ [m] := by
      unfold shiftsSince record
      rw [Array.toList_push]
      exact List.drop_append_of_le_length (h marker (Array.mem_of_getElem? hmarker))
    rw [Option.bind_some, Option.bind_some, hsince]
    split
    · rfl
    · rw [Option.map_some, Placement.moveAll, List.foldl_append]
      rfl

def frozen? (t : Timeline) (slot : Nat) : Option Placement :=
  t.markers[slot]?.bind fun m => if m.frozen then some m.placement else none

theorem exists_of_frozen (h : t.frozen? slot = some p) :
    ∃ m, t.markers[slot]? = some m ∧ m.frozen = true ∧ m.placement = p := by
  unfold frozen? at h
  obtain ⟨m, hm, hp⟩ := Option.bind_eq_some_iff.mp h
  split at hp
  next hfrozen => exact ⟨m, hm, hfrozen, Option.some.inj hp⟩
  · cases hp

theorem frozen_of_marker {m : Marker} (hm : t.markers[slot]? = some m) (hfrozen : m.frozen = true) :
    t.frozen? slot = some m.placement := by
  rw [frozen?, hm, Option.bind_some, if_pos hfrozen]

theorem upToDate_of_frozen (t : Timeline) {m : Marker} (h : m.frozen = true) : t.upToDate m = m :=
  if_pos h

theorem placement?_of_frozen (h : t.frozen? slot = some p) : t.placement? slot = some p := by
  obtain ⟨m, hm, hfrozen, rfl⟩ := exists_of_frozen h
  rw [placement?, hm, Option.map_some, upToDate_of_frozen t hfrozen]

theorem placement_of_frozen (h : t.frozen? slot = some p) : t.placement slot = p := by
  rw [placement, placement?_of_frozen h, Option.getD_some]

theorem frozen_register (h : t.frozen? slot = some p) (q : Placement) :
    (t.register q).frozen? slot = some p := by
  obtain ⟨m, hm, hfrozen, rfl⟩ := exists_of_frozen h
  obtain ⟨hlt, -⟩ := Array.getElem?_eq_some_iff.mp hm
  have hmarkers : (t.register q).markers[slot]? = t.markers[slot]? :=
    Array.getElem?_push_lt hlt ▸ (Array.getElem?_eq_getElem hlt).symm
  exact frozen_of_marker (hmarkers.trans hm) hfrozen

theorem frozen_record (t : Timeline) (m : Shift) (slot : Nat) :
    (t.record m).frozen? slot = t.frozen? slot := rfl

theorem frozen_freeze (h : t.frozen? slot = some p) (other : Nat) :
    (t.freeze other).frozen? slot = some p := by
  obtain ⟨m, hm, hfrozen, rfl⟩ := exists_of_frozen h
  have hmarkers : (t.freeze other).markers[slot]? = some m := by
    rw [freeze, Array.getElem?_modify, hm, Option.map_some, upToDate_of_frozen t hfrozen]
    split
    · rw [← hfrozen]
    · rfl
  exact frozen_of_marker hmarkers hfrozen

theorem frozen_freeze_of_live (h : t.live? slot = some p) :
    (t.freeze slot).frozen? slot = some p := by
  have hplacement := placement_of_live h
  have hlt := lt_of_live h
  rw [placement, placement?, Array.getElem?_eq_getElem hlt, Option.map_some,
    Option.getD_some] at hplacement
  have hmarkers : (t.freeze slot).markers[slot]? =
      some { t.upToDate t.markers[slot] with frozen := true } := by
    rw [freeze, Array.getElem?_modify, if_pos rfl, Array.getElem?_eq_getElem hlt]
    rfl
  rw [frozen_of_marker hmarkers rfl]
  exact congrArg some hplacement

@[simp] theorem size_settle (t : Timeline) (slot : Nat) :
    (t.settle slot).markers.size = t.markers.size := Array.size_modify ..

theorem upToDate_upToDate (t : Timeline) (m : Marker) :
    t.upToDate (t.upToDate m) = t.upToDate m := by
  cases hfrozen : m.frozen with
  | true => rw [upToDate_of_frozen t hfrozen, upToDate_of_frozen t hfrozen]
  | false =>
    have hnone : t.shiftsSince t.shifts.size = [] :=
      List.drop_eq_nil_of_le (Nat.le_of_eq Array.length_toList)
    simp only [upToDate, hfrozen, Bool.false_eq_true, if_false, hnone]
    rfl

theorem getElem?_settle (t : Timeline) (slot other : Nat) :
    (t.settle slot).markers[other]? =
      if slot = other then t.markers[other]?.map t.upToDate else t.markers[other]? :=
  Array.getElem?_modify

@[simp] theorem frozen_upToDate (t : Timeline) (m : Marker) :
    (t.upToDate m).frozen = m.frozen := by
  unfold upToDate
  split <;> rfl

theorem frozen_settle (t : Timeline) (slot other : Nat) :
    (t.settle slot).frozen? other = t.frozen? other := by
  rw [frozen?, frozen?, getElem?_settle]
  split
  · cases t.markers[other]? with
    | none => rfl
    | some m =>
      simp only [Option.map_some, Option.bind_some, frozen_upToDate]
      split
      next hfrozen => rw [upToDate_of_frozen t hfrozen]
      · rfl
  · rfl

theorem live_eq (t : Timeline) (slot : Nat) :
    t.live? slot = t.markers[slot]?.bind fun m =>
      if m.frozen then none else some (t.upToDate m).placement := by
  unfold live?
  congr 1
  funext m
  cases hfrozen : m.frozen with
  | true => rfl
  | false => rw [upToDate, hfrozen]; rfl

theorem live_settle (t : Timeline) (slot other : Nat) :
    (t.settle slot).live? other = t.live? other := by
  have hsame : (t.settle slot).upToDate = t.upToDate := rfl
  rw [live_eq, live_eq, getElem?_settle, hsame]
  split
  · cases t.markers[other]? with
    | none => rfl
    | some m => simp only [Option.map_some, Option.bind_some, frozen_upToDate, upToDate_upToDate]
  · rfl

theorem InStep.settle (h : t.InStep) (slot : Nat) : (t.settle slot).InStep := by
  intro m hm
  obtain ⟨i, hi, rfl⟩ := Array.mem_iff_getElem.mp hm
  have hsize : i < t.markers.size := by rwa [size_settle] at hi
  have hold := h t.markers[i] (Array.getElem_mem hsize)
  simp only [Timeline.settle, Array.getElem_modify]
  split
  · unfold upToDate
    split
    · exact hold
    · exact Nat.le_refl _
  · exact hold

end Timeline

end Reparse
