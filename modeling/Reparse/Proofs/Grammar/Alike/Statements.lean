import Reparse.Grammar.Statements
import Reparse.Proofs.Grammar.Alike.Expressions

/-!
# Twin runs of the grammar of statements
-/

namespace Reparse.Grammar

open Reparse.Parser

variable {w : Window} {m : Nat}

theorem alike_keyword : AlikeRule w m keyword keyword := by
  refine alike_consume_rule.bind fun t? => ?_
  cases t? with
  | none => exact .pure rfl fun _ hc => hc
  | some t => exact alike_claimComments.bind fun comments => .pure rfl fun _ hc => hc

theorem alike_condition : AlikeStep w m condition condition :=
  alike_requiredExpression.underFlags _ _

theorem alike_declaration : AlikeRule w m declaration declaration := by
  refine alike_keyword.bind fun word? => ?_
  rcases word? with _ | ⟨word, comments⟩
  · exact .pure rfl fun _ hc => hc
  · refine alike_requiredIdentifier.bind fun name => ?_
    refine alike_annotation?.bind fun type? => ?_
    refine (alike_behind .assign (fun x _ => alike_requiredExpression) rfl).bind fun value => ?_
    refine (alike_require _).step.bind fun _ => ?_
    exact (alike_infoFrom (Nat.le_add_left 1 m) word comments).bind fun info =>
      .pure rfl fun _ hc => hc

theorem alike_returned : AlikeStep w m returned returned := by
  refine alike_next_kind (.pure rfl fun _ hc => hc) fun k => ?_
  split
  · exact .pure rfl fun _ hc => hc.1
  · exact .pure rfl fun _ hc => hc.1
  · exact .pure rfl fun _ hc => hc.1
  · exact alike_expression.step.ready

theorem alike_stray_if {γ : Type} [Renumber γ] {P : Nat → Prop} {R : γ → Nat → Prop} (b : Bool)
    (t : Token) (code : Code) {rest₁ rest₂ : Unit → Parser γ}
    (h : Alike w P (rest₁ ()) (rest₂ ()) R) :
    Alike w P (if b = true then reportStray t code >>= rest₁ else rest₁ ())
      (if b = true then reportStray (renumber w.number t) code >>= rest₂ else rest₂ ()) R := by
  split
  · exact (alike_reportStray t code).bind fun _ => h
  · exact h

theorem alike_returning : AlikeRule w m returning returning := by
  refine alike_keyword.bind fun word? => ?_
  rcases word? with _ | ⟨word, comments⟩
  · exact .pure rfl fun _ hc => hc
  · refine alike_flags.bind fun f => alike_stray_if (!f.inFunction) word .strayToken ?_
    refine alike_returned.bind fun value? => ?_
    refine (alike_require .semicolon).step.bind fun _ => ?_
    exact (alike_infoFrom (Nat.le_add_left 1 m) word comments).bind fun info =>
      .pure rfl fun _ hc => hc

theorem alike_jump : AlikeRule w m jump jump := by
  refine alike_keyword.bind fun word? => ?_
  rcases word? with _ | ⟨word, comments⟩
  · exact .pure rfl fun _ hc => hc
  · refine alike_flags.bind fun f => alike_stray_if (!f.inLoop) word .strayToken ?_
    refine (alike_require .semicolon).step.bind fun _ => ?_
    refine (alike_infoFrom (Nat.le_add_left 1 m) word comments).bind fun info =>
      .pure ?_ fun _ hc => hc
    simp only [Renumber.token_kind]
    split <;> rfl

theorem alike_assignable (target : Expression Info) {P : Nat → Prop} :
    Alike w P (assignable target) (assignable (renumber w.number target)) fun _ => P := by
  unfold assignable
  simp only [Renumber.expression_isAssignable, Renumber.expression_info?, Renumber.bind_extent?]
  split
  · exact .pure rfl fun _ hc => hc
  · cases target.info?.bind Info.extent? with
    | none => exact .pure rfl fun _ hc => hc
    | some extent =>
      exact (alike_report (some (.tokens extent.first extent.last)) .notAssignable []).bind
        fun _ => .pure rfl fun _ hc => hc

theorem alike_evaluation : AlikeRule w m evaluation evaluation := by
  refine alike_expression.bind fun value? => ?_
  cases value? with
  | none => exact .pure rfl fun _ hc => hc
  | some value =>
    simp only [Renumber.renumber_some, Renumber.expression_info?, Renumber.bind_extent?]
    cases value.info?.bind Info.extent? with
    | none => exact .pure rfl fun _ hc => hc.mono (Nat.le_succ m)
    | some extent =>
      have hm : 1 ≤ m + 1 := Nat.le_add_left 1 m
      refine (alike_accept .assign).bind fun t? => ?_
      cases t? with
      | some t =>
        refine alike_requiredExpression.bind fun assigned => ?_
        refine (alike_assignable value).bind fun target => ?_
        refine (alike_require _).step.bind fun _ => ?_
        exact (alike_infoFrom (Nat.le_succ_of_le hm) extent.first []).bind fun info =>
          .pure rfl fun _ hc => hc.mono (Nat.le_succ _)
      | none =>
        refine (alike_require _).step.bind fun _ => ?_
        exact (alike_infoFrom hm extent.first []).bind fun info => .pure rfl fun _ hc => hc

variable {T₁ T₂ : StatementRule}

theorem alike_bracedStatements (h : Nested w T₁ T₂ (statementWithin w.right.size)) :
    AlikeRule w 0 (bracedStatements T₁) (bracedStatements T₂) := by
  refine (alike_accept .leftBrace).bind fun opening? => ?_
  cases opening? with
  | none => exact .pure rfl fun _ hc => hc
  | some opening =>
    refine alike_claimComments.bind fun comments => ?_
    refine (alike_items _ fun x hx => h.here hx).bind fun statements => ?_
    refine (alike_require _).step.bind fun _ => ?_
    refine (alike_infoFrom (Nat.le_refl 1) opening comments).bind fun info => ?_
    exact .pure (congrArg some (Renumber.block_braces _ statements info).symm) fun _ hc => hc

theorem alike_block (h : ∀ x ≥ m, Nested (w.shift x) T₁ T₂ (statementWithin w.right.size)) :
    AlikeRule w m (block T₁) (block T₂) :=
  Nested.remembered h (fun _ => rfl) (fun _ => (Looks.accept _).bind) fun _ _ _ =>
    alike_bracedStatements

theorem alike_requiredBlock (h : ∀ x ≥ m, Nested (w.shift x) T₁ T₂ (statementWithin w.right.size)) :
    AlikeStep w m (requiredBlock T₁) (requiredBlock T₂) :=
  alike_required (alike_block h) rfl

variable (h : Nested w T₁ T₂ (statementWithin w.right.size))

include h

theorem alike_alternative : AlikeStep w m (alternative T₁) (alternative T₂) := by
  refine (alike_accept .elseWord).bind fun t? => ?_
  cases t? with
  | none => exact .pure rfl fun _ hc => hc
  | some t =>
    refine ((alike_isNext .ifWord).weaken (fun _ hc => hc) fun _ _ hc => hc.1).bind fun b => ?_
    cases b with
    | true =>
      refine (h.here (Nat.le_add_left 1 m)).step.bind fun statement? => .pure ?_ fun _ hc => ?_
      · cases statement? <;> rfl
      · exact hc.mono (Nat.le_succ m)
    | false =>
      exact (alike_requiredBlock fun x _ => h.shift x).bind fun body =>
        .pure rfl fun _ hc => hc.mono (Nat.le_succ m)

theorem alike_branch : AlikeRule w m (branch T₁) (branch T₂) := by
  refine alike_keyword.bind fun word? => ?_
  rcases word? with _ | ⟨word, comments⟩
  · exact .pure rfl fun _ hc => hc
  · refine alike_condition.bind fun condition => ?_
    refine (alike_requiredBlock fun x _ => h.shift x).bind fun body => ?_
    refine (alike_alternative h).bind fun alternative => ?_
    exact (alike_infoFrom (Nat.le_add_left 1 m) word comments).bind fun info =>
      .pure rfl fun _ hc => hc

theorem alike_whileLoop : AlikeRule w m (whileLoop T₁) (whileLoop T₂) := by
  refine alike_keyword.bind fun word? => ?_
  rcases word? with _ | ⟨word, comments⟩
  · exact .pure rfl fun _ hc => hc
  · refine alike_condition.bind fun condition => ?_
    refine ((alike_requiredBlock fun x _ => h.shift x).underFlags _ _).bind fun body => ?_
    exact (alike_infoFrom (Nat.le_add_left 1 m) word comments).bind fun info =>
      .pure rfl fun _ hc => hc

theorem alike_nestedBlock : AlikeRule w m (nestedBlock T₁) (nestedBlock T₂) := by
  refine (alike_block fun x _ => h.shift x).bind fun body? => ?_
  cases body? with
  | none => exact .pure rfl fun _ hc => hc
  | some body =>
    refine .pure ?_ fun _ hc => hc
    cases body <;> rfl

theorem alike_anyStatement : AlikeRule w m (anyStatement T₁) (anyStatement T₂) := by
  refine alike_next_kind (.pure rfl fun _ hc => hc) fun k => ?_
  split
  · contradiction
  · exact alike_declaration.ready
  · exact (alike_branch h).ready
  · exact (alike_whileLoop h).ready
  · exact alike_returning.ready
  · exact alike_jump.ready
  · exact alike_jump.ready
  · refine (alike_objectAhead false).bind fun ahead => ?_
    cases ahead with
    | true => exact alike_evaluation.ready
    | false => exact (alike_nestedBlock h).ready
  · exact alike_evaluation.ready

omit h

theorem nesting_statement : Nesting statementWithin anyStatement where
  zero := .pure none
  succ _ := rfl
  bare _ := rfl
  looks _ := Looks.nextKind.bind
  alike _ _ _ h := alike_anyStatement h

theorem onward_statement : Onward statement := onward_maxDepth nesting_statement.onward

theorem alike_statement : AlikeRule w m statement statement := by
  have hwithin : AlikeRule w m (statementWithin (w.left.size + 1))
      (statementWithin (w.right.size + 1)) :=
    nesting_statement.alike_within (by omega) (by omega)
  exact hwithin.congr onward_statement (fun _ _ => eval_maxDepth ..) fun _ _ _ => eval_maxDepth ..

theorem nested_statement : Nested w statement statement (statementWithin w.right.size) where
  twins _ _ _ := alike_statement
  left x m hm := by
    have hwithin : AlikeRule (w.shift x) m (statementWithin (w.left.size + 1))
        (statementWithin w.right.size) :=
      nesting_statement.alike_within (by simp only [Window.shift]; omega)
        (by simp only [Window.shift]; omega)
    exact hwithin.congr onward_statement (fun _ _ => eval_maxDepth ..) fun _ _ _ => rfl
  right x m hm := by
    have hwithin : AlikeRule (.same w.right (w.j + x)) m (statementWithin w.right.size)
        (statementWithin (w.right.size + 1)) :=
      nesting_statement.alike_within (by simp only [Window.same]; omega)
        (by simp only [Window.same]; omega)
    exact hwithin.congr (nesting_statement.onward _) (fun _ _ => rfl)
      fun _ _ _ => eval_maxDepth ..
  bare x m hm := nesting_statement.alike_within (by simp only [Window.same]; omega)
    (by simp only [Window.same]; omega)

end Reparse.Grammar
