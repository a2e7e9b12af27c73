import Reparse.Proofs.Grammar.Realizations

/-!
# Backtracking

Looking ahead leaves no trace of what it did, and committing leaves what a routine gathered and did
not claim behind the comments that were there before. Rules of the grammar are among the routines.
-/

namespace Reparse.Parser

open Reparse.Grammar

variable {β : Type}

/-- A routine that closes the frames it opens, in a frame of its own. If the frame is rolled back,
the cursor, the frames, the flags, the comments and the reports are what they were. If it is
committed, the cursor and the reports are what the routine left, older reports among them, and the
comments before are followed by those that were gathered and not claimed, in their order. -/
theorem backtracking (f : Routine β) (c : ParseContext) (m : Machine)
    (hbalanced : Event.Balanced (f.run c m.save).events) :
    let r := f.run c m.save
    let ahead := f.lookAhead.run c m
    let kept := f.committed.run c m
    (ahead.value = r.value ∧
      ahead.machine.state.cursor = m.state.cursor ∧
      ahead.machine.frames = m.frames ∧
      ahead.machine.flags = m.flags ∧
      ahead.machine.state.comments = m.state.comments ∧
      ahead.machine.state.reports = m.state.reports) ∧
    (kept.value = r.value ∧
      kept.machine.state.cursor = r.machine.state.cursor ∧
      kept.machine.frames = m.frames ∧
      kept.machine.flags = m.flags ∧
      kept.machine.state.reports = r.machine.state.reports ∧
      (∃ added, r.machine.state.reports = m.state.reports ++ added) ∧
      kept.machine.state.comments = m.state.comments ++ Event.unclaimed r.events) ∧
    ∀ n : Nonterminal, n.routine.Represents n.parser := by
  dsimp only
  rw [run_lookAhead hbalanced, run_committed hbalanced]
  exact ⟨⟨rfl, rfl, rfl, rfl, rfl, rfl⟩,
    ⟨rfl, rfl, rfl, rfl, rfl, reports_extend hbalanced, rfl⟩, Nonterminal.represents⟩

def commentToken (id : TokenId) : Token := ⟨id, .comment, ['/', '/']⟩

def juggling : Routine (List Token) :=
  .step (.gather [commentToken 1]) fun _ =>
  .step .save fun _ =>
  .step (.gather [commentToken 2]) fun _ =>
  .step .claim fun claimed =>
  .step (.gather [commentToken 3]) fun _ =>
  .step .save fun _ =>
  .step (.gather [commentToken 4]) fun _ =>
  .step .rollback fun _ =>
  .step .commit fun _ =>
  .step (.gather [commentToken 5]) fun _ =>
  .done claimed

def jugglingStart : Machine := { state := { memo := .empty, comments := [commentToken 0] } }

theorem backtracking_juggling :
    Event.Balanced (juggling.run (.bare #[] {}) jugglingStart.save).events ∧
      (juggling.committed.run (.bare #[] {}) jugglingStart).machine.state.comments =
        [commentToken 0, commentToken 1, commentToken 3, commentToken 5] :=
  ⟨rfl, (backtracking juggling (.bare #[] {}) jugglingStart rfl).2.1.2.2.2.2.2.2⟩

end Reparse.Parser
