import Reparse.Grammar.Expressions
import Reparse.Proofs.Grammar.Alike.Types

/-!
# Twin runs of the grammar of expressions
-/

namespace Reparse

instance : Renumber UnaryOperator := Renumber.fixed

instance : Renumber Grammar.Sign :=
  ⟨fun ρ s => ⟨s.operator, renumber ρ s.token, renumber ρ s.comments⟩, fun s => by simp⟩

instance : Renumber Grammar.Chain :=
  ⟨fun ρ c => { c with left := renumber ρ c.left }, fun c => by simp⟩

namespace Renumber

variable (ρ : TokenId → TokenId) (chain : Grammar.Chain)

@[simp] theorem chain_first? : (renumber ρ chain).first? = chain.first? := rfl

@[simp] theorem chain_warned : (renumber ρ chain).warned = chain.warned := rfl

end Renumber

namespace Grammar

open Reparse.Parser

variable {w : Window} {m : Nat}

theorem wordOf?_renumber (ρ : TokenId → TokenId) (t : Token) (info : Info) :
    wordOf? (renumber ρ t) (renumber ρ info) = renumber ρ (wordOf? t info) := by
  simp only [wordOf?, Renumber.token_kind]
  split <;> rfl

theorem alike_objectAhead (allowEmpty : Bool) :
    Alike w (Ready w m) (objectAhead allowEmpty) (objectAhead allowEmpty) fun _ => Ready w m := by
  refine Alike.tentatively (.taken fun _ => alike_next_kind (R := fun _ => From w (m + 1)) ?_ ?_)
  · exact .pure rfl fun _ hc => hc
  · intro k
    split
    · exact .pure rfl fun _ hc => hc.1
    · exact .taken fun _ => (alike_isNext .colon).weaken (fun _ hc => hc)
        fun _ _ hc => hc.1.mono (Nat.le_succ _)
    · exact .pure rfl fun _ hc => hc.1

variable {expression₁ expression₂ : ExpressionRule}

theorem alike_parenthesized (hexpression : ∀ x ≥ 1, AlikeRule w x expression₁ expression₂)
    (t : Token) : Alike w (Ready w m) (parenthesized expression₁ t)
      (parenthesized expression₂ (renumber w.number t)) fun _ => From w (m + 1) := by
  refine .taken fun _ => alike_claimComments.bind fun comments => ?_
  refine (alike_required (hexpression (m + 1) (by omega)) rfl).inBrackets.bind fun inner => ?_
  refine (alike_require _).step.bind fun _ => ?_
  exact (alike_infoFrom (Nat.le_add_left 1 m) t comments).bind fun info => .pure rfl fun _ hc => hc

theorem alike_arrayLiteral (hexpression : ∀ x ≥ 1, AlikeRule w x expression₁ expression₂)
    (t : Token) : Alike w (Ready w m) (arrayLiteral expression₁ t)
      (arrayLiteral expression₂ (renumber w.number t)) fun _ => From w (m + 1) := by
  refine .taken fun _ => alike_claimComments.bind fun comments => ?_
  refine (alike_items _ fun x hx => hexpression x (by omega)).inBrackets.bind fun elements => ?_
  refine (alike_require _).step.bind fun _ => ?_
  refine (alike_infoFrom (Nat.le_add_left 1 m) t comments).bind fun info => ?_
  exact .pure (Renumber.expression_array _ elements info).symm fun _ hc => hc

theorem alike_objectLiteral (hexpression : ∀ x ≥ 1, AlikeRule w x expression₁ expression₂)
    (t : Token) : Alike w (Ready w m) (objectLiteral expression₁ t)
      (objectLiteral expression₂ (renumber w.number t)) fun _ => From w (m + 1) := by
  refine .taken fun _ => alike_claimComments.bind fun comments => ?_
  refine (alike_items _ fun x hx => alike_field (fun y hy =>
    alike_required (hexpression y (by omega)) rfl) rfl).inBrackets.bind fun fields => ?_
  refine (alike_require _).step.bind fun _ => ?_
  refine (alike_infoFrom (Nat.le_add_left 1 m) t comments).bind fun info => ?_
  exact .pure (Renumber.expression_object _ fields info).symm fun _ hc => hc

theorem alike_atom (hexpression : ∀ x ≥ 1, AlikeRule w x expression₁ expression₂) :
    AlikeRule w m (atom expression₁) (atom expression₂) := by
  refine alike_next (.pure rfl fun _ hc => hc) fun t => ?_
  simp only [Renumber.token_kind]
  split
  · exact (alike_parenthesized hexpression t).map (fun _ => rfl) fun _ _ hc => hc
  · exact (alike_arrayLiteral hexpression t).map (fun _ => rfl) fun _ _ hc => hc
  · refine alike_flags.bind fun f => ?_
    rw [Renumber.renumber_flags]
    split
    · exact .pure rfl fun _ hc => hc.1
    · refine (alike_objectAhead true).bind fun ahead => ?_
      cases ahead with
      | true => exact (alike_objectLiteral hexpression t).map (fun _ => rfl) fun _ _ hc => hc
      | false => exact .pure rfl fun _ hc => hc.1
  · have hword : (wordOf? (renumber w.number t) {}).isNone = (wordOf? t {}).isNone := by
      have h : wordOf? (renumber w.number t) {} = renumber w.number (wordOf? t {}) :=
        wordOf?_renumber w.number t {}
      rw [h]
      cases wordOf? t {} <;> rfl
    rw [hword]
    split
    · exact .pure rfl fun _ hc => hc.1
    · refine .taken fun _ => alike_claimComments.bind fun comments => .pure ?_ ?_
      · exact wordOf?_renumber _ t { extent? := some (.single t), comments }
      · exact fun _ hc => hc.mono (Nat.add_le_add_left (Bool.toNat_le _) m)

theorem alike_postfixTurn (hexpression : ∀ x ≥ 1, AlikeRule w x expression₁ expression₂)
    (base : Expression Info) : Alike w (From w m) (postfixTurn expression₁ base)
      (postfixTurn expression₂ (renumber w.number base)) (turnPlace w m) := by
  have hm : 1 ≤ m + 1 := Nat.le_add_left 1 m
  refine alike_next_kind (.pure rfl fun _ hc => hc) fun k => ?_
  rw [Renumber.expression_info?]
  split
  · refine .taken fun _ => alike_requiredIdentifier.bind fun name => ?_
    exact (alike_infoAfter hm base.info?).bind fun info => .pure rfl fun _ hc => hc
  · refine .taken fun _ => ?_
    refine (alike_items _ fun x hx => hexpression x (by omega)).inBrackets.bind fun arguments => ?_
    refine (alike_require _).step.bind fun _ => ?_
    refine (alike_infoAfter hm base.info?).bind fun info => .pure ?_ fun _ hc => hc
    exact congrArg Turn.again (Renumber.expression_invoke _ base arguments info).symm
  · refine .taken fun _ => ?_
    refine (alike_required (hexpression (m + 1) hm) rfl).inBrackets.bind fun place => ?_
    refine (alike_require _).step.bind fun _ => ?_
    exact (alike_infoAfter hm base.info?).bind fun info => .pure rfl fun _ hc => hc
  · exact .pure rfl fun _ hc => hc.1

theorem alike_postfixed (hexpression : ∀ x ≥ 1, AlikeRule w x expression₁ expression₂) :
    AlikeRule w m (postfixed expression₁) (postfixed expression₂) := by
  refine (alike_atom hexpression).bind fun base? => ?_
  cases base? with
  | none => exact .pure rfl fun _ hc => hc
  | some base =>
    exact (alike_loop (fun x _ b => alike_postfixTurn hexpression b) rfl).map (fun _ => rfl)
      fun _ _ hc => hc

def Found (w : Window) (m : Nat) (found : List Sign) : Nat → Prop :=
  From w (m + (!found.isEmpty).toNat)

theorem alike_signs : Alike w (From w m) signs signs (Found w m) := by
  suffices hloop : Alike w (fun c => From w m c ∧ Found w m [] c) signs signs
      fun found c => From w m c ∧ Found w m found c from
    hloop.weaken (fun _ hc => ⟨hc, hc⟩) fun _ _ hc => hc.2
  refine alike_loop_keeps (I := Found w m) (fun x hx found => ?_) rfl
  refine alike_nextKind.bind fun k? => ?_
  rw [show renumber w.number k? = k? by cases k? <;> rfl]
  cases hk : k?.bind UnaryOperator.ofKind? with
  | none => exact .pure rfl fun _ hc => hc.1
  | some operator =>
    refine alike_consume.bind fun t? => ?_
    cases t? with
    | none =>
      refine .pure rfl ?_
      rintro c ⟨b, ⟨⟨hb, hI⟩, -⟩, -, hc⟩
      exact ⟨Nat.le_trans hb hc, Nat.le_trans hI hc⟩
    | some token =>
      refine alike_claimComments.bind fun comments => .pure rfl ?_
      rintro c ⟨b, ⟨⟨hb, hI⟩, -⟩, -, hc⟩
      have hnext : From w (x + 1) c := Nat.le_trans (Nat.succ_le_succ hb) hc
      exact ⟨hnext, hnext.mono (Nat.succ_le_succ hx)⟩

theorem alike_applySigns (hm : 1 ≤ m) (operand : Expression Info) (found : List Sign) :
    AlikeStep w m (applySigns operand found)
      (applySigns (renumber w.number operand) (renumber w.number found)) := by
  induction found generalizing operand with
  | nil => exact .pure rfl fun _ hc => hc
  | cons s rest ih =>
    exact (alike_infoFrom hm s.token s.comments).bind fun info =>
      ih (.unary s.operator operand info)

variable {operand₁ operand₂ : ExpressionRule}

theorem alike_unary (hoperand : ∀ x, AlikeRule w x operand₁ operand₂) :
    AlikeRule w m (unary operand₁) (unary operand₂) := by
  refine alike_signs.bind fun found => ?_
  cases found with
  | nil => exact hoperand m
  | cons s rest =>
    refine (alike_required (hoperand (m + 1)) rfl).bind fun inner => ?_
    exact (alike_applySigns (Nat.le_add_left 1 m) inner (s :: rest)).map (fun _ => rfl)
      fun _ _ hc => hc

theorem alike_warnMixed (chain : Chain) (operator : BinaryOperator) (t : Token)
    {P : Nat → Prop} : Alike w P (warnMixed chain operator t)
      (warnMixed (renumber w.number chain) operator (renumber w.number t)) fun _ => P := by
  simp only [warnMixed, Renumber.chain_first?, Renumber.chain_warned]
  cases chain.first? with
  | none => exact .pure rfl fun _ hc => hc
  | some first =>
    dsimp only
    split
    · exact (alike_report (some (.token t)) _ _).bind fun _ => .pure rfl fun _ hc => hc
    · exact .pure rfl fun _ hc => hc

theorem alike_chainTurn (level : Precedence) (hoperand : ∀ x, AlikeRule w x operand₁ operand₂)
    (chain : Chain) : Alike w (From w m) (chainTurn level operand₁ chain)
      (chainTurn level operand₂ (renumber w.number chain)) (turnPlace w m) := by
  refine alike_next_kind (.pure rfl fun _ hc => hc) fun k => ?_
  simp only [Option.bind_some]
  cases BinaryOperator.ofKind? k with
  | none => exact .pure rfl fun _ hc => hc.1
  | some operator =>
    dsimp only
    split
    · exact .pure rfl fun _ hc => hc.1
    · refine alike_consume_rule.ready.bind fun t? => ?_
      cases t? with
      | none => exact .pure rfl fun _ hc => hc
      | some token =>
        refine (alike_warnMixed chain operator token).bind fun warned => ?_
        refine (alike_required (hoperand (m + 1)) rfl).bind fun right => ?_
        have hinfo := alike_infoAfter (w := w) (Nat.le_add_left 1 m) chain.left.info?
        rw [← Renumber.expression_info?] at hinfo
        exact hinfo.bind fun info => .pure rfl fun _ hc => hc

theorem alike_binary (level : Precedence) (hoperand : ∀ x, AlikeRule w x operand₁ operand₂) :
    AlikeRule w m (binary level operand₁) (binary level operand₂) := by
  refine (hoperand m).bind fun left? => ?_
  cases left? with
  | none => exact .pure rfl fun _ hc => hc
  | some left =>
    exact (alike_loop (fun x _ chain => alike_chainTurn level hoperand chain) rfl).bind
      fun chain => .pure rfl fun _ hc => hc

theorem alike_operators (hexpression : ∀ x ≥ 1, AlikeRule w x expression₁ expression₂) :
    AlikeRule w m (operators expression₁) (operators expression₂) :=
  alike_binary _ fun _ => alike_binary _ fun _ => alike_binary _ fun _ => alike_binary _ fun _ =>
    alike_unary fun _ => alike_postfixed hexpression

theorem looks_operators (rule : ExpressionRule) : Looks (operators rule) :=
  (Looks.loop (fun _ => Looks.nextKind.bind) []).bind.bind.bind.bind.bind

theorem nesting_expression : Nesting expressionWithin operators where
  zero := .pure none
  succ _ := rfl
  bare _ := rfl
  looks := looks_operators
  alike _ _ _ h := alike_operators fun _ hx => h.here hx

theorem alike_expression : AlikeRule w m expression expression := by
  have hwithin : AlikeRule w m (expressionWithin (w.left.size + 1))
      (expressionWithin (w.right.size + 1)) :=
    nesting_expression.alike_within (by omega) (by omega)
  exact hwithin.congr (onward_maxDepth nesting_expression.onward) (fun _ _ => eval_maxDepth ..)
    fun _ _ _ => eval_maxDepth ..

theorem alike_requiredExpression : AlikeStep w m requiredExpression requiredExpression :=
  alike_required alike_expression rfl

end Grammar

end Reparse
