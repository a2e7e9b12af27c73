import Reparse.Proofs.Grammar.Remarks.Definitions

/-!
# Mixed logical operators

Mixing both logical operators in one chain is warned of once, at the operator where the chain comes
to mix. A memo makes no difference to that.
-/

namespace Reparse

section

variable {α β γ : Type} {f : α → Option β}

theorem forall₂_filterMap (f : α → Option β) (xs : List α) :
    List.Forall₂ (fun y x => f x = some y) (xs.filterMap f) (xs.filter fun x => (f x).isSome) := by
  induction xs with
  | nil => exact .nil
  | cons x xs ih =>
    cases hx : f x with
    | none =>
      rw [List.filterMap_cons_none hx, List.filter_cons_of_neg (by simp [hx])]
      exact ih
    | some y =>
      rw [List.filterMap_cons_some hx, List.filter_cons_of_pos (by simp [hx])]
      exact .cons hx ih

theorem exists_perm_filter_isSome {R : β → γ → Prop} {xs : List α} {ys : List β} {zs : List γ}
    (hperm : ys.Perm (xs.filterMap f)) (hrel : List.Forall₂ R ys zs) :
    ∃ as, as.Perm (xs.filter fun x => (f x).isSome) ∧
      List.Forall₂ (fun a z => ∃ y, f a = some y ∧ R y z) as zs := by
  obtain ⟨as, hvalues, has⟩ := List.perm_comp_forall₂ hperm (forall₂_filterMap f xs)
  refine ⟨as, has, ?_⟩
  clear hperm has
  induction hvalues generalizing zs with
  | nil =>
    cases hrel
    exact .nil
  | cons hvalue _ ih =>
    cases hrel with
    | cons hr hrest => exact .cons ⟨_, hvalue, hr⟩ (ih hrest)

end

theorem Program.changes_eq (p : Program Info) :
    p.remarks.changes = p.chains.filterMap Link.change? := by
  rw [chains, List.filterMap_flatMap]
  rfl

namespace Session

/-- Each logical operator is in one of the maximal chains. If no target is rejected, each maximal
chain in which both operators occur has one warning, at the first operator that differs from the one
that the chain begins with, and there are no other warnings. No two of them are about the same token.
-/
theorem warnings_parse (source : Text) (ops : List SessionOp) :
    let s := (ofSource source).run ops
    let result := parse s.stream s.memo
    let program := result.1.program
    let warnings := result.1.reports.filter Report.isWarning
    (∀ r ∈ result.1.reports, r.code ≠ .notAssignable) →
    program.chains.flatten.length =
      (program.expressions.flatMap Expression.parts).countP Expression.isLogical ∧
    (∃ chains, chains.Perm (program.chains.filter Link.mixes) ∧
      List.Forall₂ (fun links r => ∃ l, Link.change? links = some l ∧
        l.Warned result.2.1.tokens r) chains warnings) ∧
    (warnings.filterMap Report.token?).Nodup := by
  intro s result program warnings hcodes
  have hvalid : s.Valid := (valid_ofSource source).run ops
  have hnumbered := (TokenStream.follows_readAll hvalid.numbered).numbered
  obtain ⟨j, hnoted⟩ := hvalid.noted
  refine ⟨program.length_chains, ?_,
    hnumbered.nodup_tokens.sublist (hnoted.operators.trans (stretch_sublist ..))⟩
  obtain ⟨links, hperm, hwarned⟩ := hnoted.warnings hcodes
  rw [Program.changes_eq] at hperm
  rw [Program.filter_mixes]
  exact exists_perm_filter_isSome hperm hwarned

theorem warnings_parse_nested :
    let s := (ofSource "let a = b && c && (d || e && f(g && h));".toList).run
      [.parse, .edit 10 2 "||".toList]
    let result := parse s.stream s.memo
    let program := result.1.program
    let warnings := result.1.reports.filter Report.isWarning
    ((∀ r ∈ result.1.reports, r.code ≠ .notAssignable) ∧
      program.chains.length = 3 ∧ warnings.length = 2) ∧
    program.chains.flatten.length =
      (program.expressions.flatMap Expression.parts).countP Expression.isLogical ∧
    (∃ chains, chains.Perm (program.chains.filter Link.mixes) ∧
      List.Forall₂ (fun links r => ∃ l, Link.change? links = some l ∧
        l.Warned result.2.1.tokens r) chains warnings) ∧
    (warnings.filterMap Report.token?).Nodup := by
  have hreports :
      let s := (ofSource "let a = b && c && (d || e && f(g && h));".toList).run
        [.parse, .edit 10 2 "||".toList]
      let result := parse s.stream s.memo
      (∀ r ∈ result.1.reports, r.code ≠ .notAssignable) ∧
        result.1.program.chains.length = 3 ∧
        (result.1.reports.filter Report.isWarning).length = 2 := by
    decide +kernel
  exact ⟨hreports, warnings_parse _ _ hreports.1⟩

end Session

end Reparse
