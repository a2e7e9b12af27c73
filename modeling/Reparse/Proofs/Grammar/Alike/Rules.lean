import Reparse.Proofs.Grammar.Alike.Definitions

/-!
# Locality of the kept rules

What a rule does hangs on the tokens it looks at and on nothing else. An entry that describes one
place therefore describes every place where these tokens are found.
-/

namespace Reparse

namespace Grammar

open Reparse.Parser

variable {w : Window} {P : Nat → Prop} {β : Type} [RuleNode β] [Renumber β] [RenumberNode β]

theorem alike_outcome {m : Nat} {body₁ body₂ : Parser (Option β)}
    (h : AlikeRule w m body₁ body₂) : AlikeStep w m (outcome body₁) (outcome body₂) := by
  refine h.step.bind fun node? => .pure ?_ fun _ hc => hc
  cases node? with
  | none => rfl
  | some node => exact (RenumberNode.renumber_wrap w.number node).symm

theorem alike_ruleBody (rule : Rule) :
    AlikeStep w 0 (ruleBody w.left.size rule) (ruleBody w.right.size rule) := by
  have hleft : w.left.size < w.i + 1 + w.left.size := by omega
  have hright : w.right.size < w.j + 1 + w.right.size := by omega
  cases rule with
  | definition => exact alike_outcome alike_anyDefinition
  | statement => exact alike_outcome (alike_anyStatement (nesting_statement.nested hleft hright))
  | block => exact alike_outcome (alike_bracedStatements (nesting_statement.nested hleft hright))
  | expression =>
    exact alike_outcome (alike_operators fun x hx =>
      nesting_expression.alike_within (by omega) (by omega))
  | type =>
    exact alike_outcome (alike_typeUnion fun x hx =>
      nesting_type.alike_within (by omega) (by omega))

end Grammar

open Reparse.Parser

theorem Entry.matches_bareRun (e : Entry) {A B : Array Token} {ρ : TokenId → TokenId} {i j : Nat}
    (hi : i ≤ A.size) (hj : j ≤ B.size)
    (ha : (Window.mk A B ρ i j).Agrees (e.bareRun A i).2.reach) :
    Matches ⟨A, B, ρ, i, j⟩ 0 (fun _ e => e.watermark = 0) (.bare A i) (.bare B j)
      (fun _ => From ⟨A, B, ρ, i, j⟩ 0) (e.bareRun A i) (e.bareRun B j) :=
  (Grammar.alike_ruleBody e.rule).twin e.flags (trusted_bare B) (.bare ρ hi hj) (Nat.le_refl i)
    (Nat.le_refl i) ha

theorem Entry.Describes.within {e : Entry} {A : Array Token} {i : Nat} (h : e.Describes A i)
    (hi : i ≤ A.size) : i + e.consumed ≤ A.size := by
  have hmatch := e.matches_bareRun (ρ := id) hi hi (Window.agrees_same A i _)
  rw [h.consumed]
  exact hmatch.twins.left_cursor

theorem Entry.Describes.consumed_le {e : Entry} {A : Array Token} {i : Nat} (h : e.Describes A i)
    (hi : i ≤ A.size) : e.consumed ≤ e.lookahead := by
  have hmatch := e.matches_bareRun (ρ := id) hi hi (Window.agrees_same A i _)
  have hreach : (e.bareRun A i).2.cursor ≤ (e.bareRun A i).2.reach + 1 := hmatch.twins.left_reach
  have hconsumed := h.consumed
  have hlookahead := h.lookahead
  omega

theorem Entry.Describes.renumbered {e f : Entry} {A B : Array Token} {ρ : TokenId → TokenId}
    {i j : Nat} (he : e.Describes A i) (hf : f.Describes B j) (hrule : f.rule = e.rule)
    (hflags : f.flags = e.flags) (hi : i ≤ A.size) (hj : j ≤ B.size)
    (ha : (Window.mk A B ρ i j).Agrees (i + e.lookahead - 1)) :
    f.consumed = e.consumed ∧ f.lookahead = e.lookahead ∧ f.outcome = renumber ρ e.outcome ∧
      f.reports = renumber ρ e.reports ∧ f.leftover = renumber ρ e.leftover := by
  have hrun : f.bareRun B j = e.bareRun B j := by rw [bareRun, bareRun, hrule, hflags]
  have hreach := he.lookahead
  have hend : i + e.lookahead - 1 = (e.bareRun A i).2.reach := by omega
  rw [hend] at ha
  have hmatch := e.matches_bareRun hi hj ha
  rw [← hrun] at hmatch
  have hcursor : (e.bareRun A i).2.cursor + j = (f.bareRun B j).2.cursor + i := hmatch.twins.cursor
  have hreach' : (e.bareRun A i).2.reach + j = (f.bareRun B j).2.reach + i := hmatch.twins.reach
  have hconsumed := he.consumed
  have hconsumed' := hf.consumed
  have hlookahead' := hf.lookahead
  refine ⟨by omega, by omega, ?_, ?_, ?_⟩
  · rw [hf.outcome, he.outcome]
    exact hmatch.value
  · obtain ⟨new, h₁, h₂⟩ := hmatch.twins.reports
    rw [ParseState.bare_reports, Array.empty_append] at h₁ h₂
    have hreports : f.reports.toArray = renumber ρ e.reports.toArray := by
      rw [hf.reports, he.reports, h₁, h₂]
    have hlists := congrArg Array.toList hreports
    rwa [Renumber.toList_renumber] at hlists
  · rw [hf.leftover, he.leftover]
    exact hmatch.twins.comments

/-- An entry goes where the tokens that its rule looked at go. -/
theorem Entry.Describes.transfer {e : Entry} {A B : Array Token} {i j : Nat}
    (hd : e.Describes A i) (hi : i ≤ A.size) (hj : j ≤ B.size)
    (ha : (Window.mk A B id i j).Agrees (i + e.lookahead - 1)) : e.Describes B j := by
  have hreach : i + e.lookahead = (e.bareRun A i).2.reach + 1 := hd.lookahead
  have hend : i + e.lookahead - 1 = (e.bareRun A i).2.reach := by omega
  rw [hend] at ha
  have hmatch := e.matches_bareRun hi hj ha
  have hvalue : (e.bareRun B j).1 = (e.bareRun A i).1 :=
    hmatch.value.trans (Renumber.renumber_id _)
  have hcursor : (e.bareRun A i).2.cursor + j = (e.bareRun B j).2.cursor + i := hmatch.twins.cursor
  have hreach' : (e.bareRun A i).2.reach + j = (e.bareRun B j).2.reach + i := hmatch.twins.reach
  have hcomments : (e.bareRun B j).2.comments = (e.bareRun A i).2.comments :=
    hmatch.twins.comments.trans (Renumber.renumber_id _)
  have hreports : (e.bareRun B j).2.reports = (e.bareRun A i).2.reports := by
    obtain ⟨new, h₁, h₂⟩ := hmatch.twins.reports
    have hnew : (e.bareRun B j).2.reports = #[] ++ renumber id new := h₂
    rw [hnew, Renumber.renumber_id]
    exact h₁.symm
  have hconsumed := hd.consumed
  constructor
  · rw [hvalue, hd.outcome]
  · omega
  · omega
  · rw [hreports, hd.reports]
  · rw [hcomments, hd.leftover]

end Reparse
