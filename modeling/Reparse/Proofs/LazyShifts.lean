import Reparse.Proofs.Timeline

/-!
# Shifts applied late

A timeline applies shifts to a piece only when somebody asks where the piece is, and then stores how
far it has come. The outcome is that of applying each shift at once: a piece has the coordinates it
was registered with, moved by the shifts recorded between its registration and its freezing, each of
them once and in order. What was asked about in between, and how often, does not show.
-/

namespace Reparse

inductive TimelineOp
  | record (m : Shift)
  | register (p : Placement)
  | freeze (slot : Nat)
  | settle (slot : Nat)
  | compare (left right : Nat)
  deriving DecidableEq, Repr

namespace TimelineOp

def shift? : TimelineOp → Option Shift
  | .record m => some m
  | _ => none

/-- The shifts recorded until the piece in `slot` is frozen, or all if it is not. -/
def shiftsUntilFrozen (slot : Nat) (ops : List TimelineOp) : List Shift :=
  (ops.takeWhile (· ≠ .freeze slot)).filterMap shift?

/-- The coordinates that the piece in `slot` is registered with, and what happens afterwards. Slots
are given out in the order of registration. -/
def registration? : (slot : Nat) → List TimelineOp → Option (Placement × List TimelineOp)
  | _, [] => none
  | 0, .register p :: ops => some (p, ops)
  | slot + 1, .register _ :: ops => registration? slot ops
  | slot, _ :: ops => registration? slot ops

end TimelineOp

namespace Timeline

open TimelineOp

def perform (t : Timeline) : TimelineOp → Timeline
  | .record m => t.record m
  | .register p => t.register p
  | .freeze slot => t.freeze slot
  | .settle slot => t.settle slot
  | .compare left right => (t.settle left).settle right

def performAll (t : Timeline) (ops : List TimelineOp) : Timeline := ops.foldl perform t

variable {t : Timeline} {slot : Nat} {p : Placement} {op : TimelineOp}

theorem InStep.perform (h : t.InStep) (op : TimelineOp) : (t.perform op).InStep := by
  cases op with
  | record m => exact h.record m
  | register q => exact h.register q
  | freeze other => exact h.freeze other
  | settle other => exact h.settle other
  | compare left right => exact (h.settle left).settle right

theorem live_perform (ht : t.InStep) (h : t.live? slot = some p) (hop : op ≠ .freeze slot) :
    (t.perform op).live? slot = some (p.moveAll op.shift?.toList) := by
  cases op with
  | record m => exact (live_record ht m slot).trans (congrArg (Option.map m.move) h)
  | register q => exact (live_register_of_lt q (lt_of_live h)).trans h
  | freeze other => exact (live_freeze_of_ne fun heq => hop (congrArg _ heq)).trans h
  | settle other => exact (live_settle ..).trans h
  | compare left right => exact (live_settle ..).trans ((live_settle ..).trans h)

theorem frozen_perform (h : t.frozen? slot = some p) (op : TimelineOp) :
    (t.perform op).frozen? slot = some p := by
  cases op with
  | record m => exact h
  | register q => exact frozen_register h q
  | freeze other => exact frozen_freeze h other
  | settle other => exact (frozen_settle ..).trans h
  | compare left right => exact (frozen_settle ..).trans ((frozen_settle ..).trans h)

theorem size_perform (hop : ∀ q, op ≠ .register q) :
    (t.perform op).markers.size = t.markers.size := by
  cases op with
  | record m => rfl
  | register q => exact absurd rfl (hop q)
  | freeze other => exact Array.size_modify ..
  | settle other => exact size_settle ..
  | compare left right => exact (size_settle ..).trans (size_settle ..)

theorem frozen_performAll (h : t.frozen? slot = some p) (ops : List TimelineOp) :
    (t.performAll ops).frozen? slot = some p := by
  induction ops generalizing t with
  | nil => exact h
  | cons op ops ih => exact ih (frozen_perform h op)

theorem placement_performAll_of_live (ht : t.InStep) (h : t.live? slot = some p)
    (ops : List TimelineOp) :
    (t.performAll ops).placement? slot = some (p.moveAll (shiftsUntilFrozen slot ops)) := by
  induction ops generalizing t p with
  | nil => exact placement?_of_live h
  | cons op ops ih =>
    by_cases hop : op = .freeze slot
    · subst hop
      have hfrozen := frozen_performAll (frozen_freeze_of_live h) ops
      rw [shiftsUntilFrozen, List.takeWhile_cons_of_neg (by simp)]
      exact placement?_of_frozen hfrozen
    · have hrest := ih (ht.perform op) (live_perform ht h hop)
      have hshifts : shiftsUntilFrozen slot (op :: ops) =
          op.shift?.toList ++ shiftsUntilFrozen slot ops := by
        rw [shiftsUntilFrozen, List.takeWhile_cons_of_pos (by simpa using hop), List.filterMap_cons]
        cases op.shift? <;> rfl
      rw [hshifts, Placement.moveAll, List.foldl_append]
      exact hrest

theorem registration?_cons (slot : Nat) (ops : List TimelineOp) (hop : ∀ q, op ≠ .register q) :
    registration? slot (op :: ops) = registration? slot ops := by
  cases op with
  | register q => exact absurd rfl (hop q)
  | record m => cases slot <;> rfl
  | freeze other => cases slot <;> rfl
  | settle other => cases slot <;> rfl
  | compare left right => cases slot <;> rfl

theorem placement_performAll_of_le (ht : t.InStep) (h : t.markers.size ≤ slot)
    (ops : List TimelineOp) : (t.performAll ops).placement? slot =
      (registration? (slot - t.markers.size) ops).map fun r =>
        r.1.moveAll (shiftsUntilFrozen slot r.2) := by
  induction ops generalizing t with
  | nil =>
    have hnone : t.markers[slot]? = none := Array.getElem?_eq_none h
    rw [performAll, List.foldl_nil, placement?, hnone]
    cases slot - t.markers.size <;> rfl
  | cons op ops ih =>
    by_cases hop : ∃ q, op = .register q
    · obtain ⟨q, rfl⟩ := hop
      have hsize : (t.register q).markers.size = t.markers.size + 1 := Array.size_push _
      -- What is registered now is the piece asked about, or one before it.
      rcases Nat.eq_or_lt_of_le h with rfl | hlt
      · rw [Nat.sub_self]
        exact placement_performAll_of_live (ht.register q) (live_register t q) ops
      · have hrest := ih (ht.register q) (hsize ▸ hlt)
        rw [hsize, Nat.sub_add_eq] at hrest
        obtain ⟨n, hn⟩ := Nat.exists_eq_add_of_lt (Nat.sub_pos_of_lt hlt)
        rw [Nat.zero_add] at hn
        rw [hn, Nat.add_sub_cancel] at hrest
        rw [hn]
        exact hrest
    · have hother : ∀ q, op ≠ .register q := fun q heq => hop ⟨q, heq⟩
      have hsize := size_perform (t := t) hother
      rw [registration?_cons _ _ hother, ← hsize]
      exact ih (ht.perform op) (hsize ▸ h)

/-- Whenever somebody asks, and whatever was asked before: a piece has the coordinates that it was
registered with, moved by all shifts recorded since, up to its first freezing if there was one.
These are all pieces that have coordinates. -/
theorem placement_performAll (ops : List TimelineOp) (slot : Nat) :
    (performAll {} ops).placement? slot = (registration? slot ops).map fun r =>
      r.1.moveAll (shiftsUntilFrozen slot r.2) :=
  placement_performAll_of_le inStep_empty (Nat.zero_le slot) ops

end Timeline

end Reparse
