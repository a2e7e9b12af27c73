import Reparse.Proofs.Grammar.Agree.Expressions

/-!
# Agreement in the grammar of statements and definitions

Only the rule for definitions files what belongs to definitions, and where it finds one it passes
the keyword.
-/

namespace Reparse.Grammar

open Reparse.Parser

variable {tokens : Array Token} {next : TokenId} {n : Nat}

theorem agree_keyword : AgreeFrom tokens next n keyword keyword := by
  refine (agree_consume.upward fun _ hc => hc).bind fun t? => ?_
  cases t? with
  | none => exact .pure fun _ hc => hc
  | some t => exact Still.claimComments.agree.bind fun comments => .pure fun _ hc => hc

theorem agree_led {γ : Type} {q q' : Option (Token × List Token) → Parser γ} {R : γ → Nat → Prop}
    (hq : ∀ word?, Agree tokens next (n + 1 ≤ ·) (q word?) (q' word?) R) :
    Agree tokens next (AheadFrom tokens n) (keyword >>= q) (keyword >>= q') R := by
  refine Agree.bind (Q := fun _ c => n + 1 ≤ c) (agree_taken fun t? => ?_) hq
  cases t? with
  | none => exact .pure fun _ hc => hc
  | some t => exact Still.claimComments.agree.bind fun comments => .pure fun _ hc => hc

theorem agree_condition : AgreeFrom tokens next n condition condition :=
  agree_requiredExpression.underFlags _ _

theorem agree_declaration : AgreeFrom tokens next n declaration declaration := by
  refine agree_keyword.bind fun word? => ?_
  rcases word? with _ | ⟨word, comments⟩
  · exact .pure fun _ hc => hc
  · exact agree_requiredIdentifier.bind fun name => agree_annotation?.bind fun type? =>
      (agree_behind .assign agree_requiredExpression).bind fun value =>
        agree_closing _ (.infoFrom word comments) fun _ _ hc => hc

theorem agree_returned : AgreeFrom tokens next n returned returned := by
  refine agree_next_kind (.pure fun _ hc => hc) fun k => ?_
  split
  · exact .pure fun _ hc => hc.1
  · exact .pure fun _ hc => hc.1
  · exact .pure fun _ hc => hc.1
  · exact agree_expression.weaken (fun _ hc => hc.1) fun _ _ hc => hc

theorem agree_stray_if {γ : Type} {P : Nat → Prop} {R : γ → Nat → Prop} (b : Bool) (t : Token)
    (code : Code) {rest : Unit → Parser γ} (h : Agree tokens next P (rest ()) (rest ()) R) :
    Agree tokens next P (if b = true then reportStray t code >>= rest else rest ())
      (if b = true then reportStray t code >>= rest else rest ()) R := by
  split
  · exact (Still.report _ _ _).agree.bind fun _ => h
  · exact h

theorem agree_returning : AgreeFrom tokens next n returning returning := by
  refine agree_keyword.bind fun word? => ?_
  rcases word? with _ | ⟨word, comments⟩
  · exact .pure fun _ hc => hc
  · refine Still.flags.agree.bind fun f => agree_stray_if (!f.inFunction) word .strayToken ?_
    exact agree_returned.bind fun value? =>
      agree_closing _ (.infoFrom word comments) fun _ _ hc => hc

theorem agree_jump : AgreeFrom tokens next n jump jump := by
  refine agree_keyword.bind fun word? => ?_
  rcases word? with _ | ⟨word, comments⟩
  · exact .pure fun _ hc => hc
  · refine Still.flags.agree.bind fun f => agree_stray_if (!f.inLoop) word .strayToken ?_
    exact (agree_require .semicolon).step.bind fun _ =>
      (Still.infoFrom word comments).agree.bind fun info => .pure fun _ hc => hc

theorem still_assignable (target : Expression Info) : Still (assignable target) := by
  unfold assignable
  split
  · exact .pure target
  · cases target.info?.bind Info.extent? with
    | none => exact .pure _
    | some extent => exact (Still.report _ _ _).bind fun _ => .pure _

theorem agree_evaluation : AgreeFrom tokens next n evaluation evaluation := by
  refine agree_expression.bind fun value? => ?_
  cases value? with
  | none => exact .pure fun _ hc => hc
  | some value =>
    dsimp only
    cases value.info?.bind Info.extent? with
    | none => exact .pure fun _ hc => hc
    | some extent =>
      refine (agree_accept .assign).step.bind fun t? => ?_
      cases t? with
      | some t =>
        exact agree_requiredExpression.bind fun assigned => (still_assignable value).agree.bind
          fun target => agree_closing _ (.infoFrom extent.first []) fun _ _ hc => hc
      | none => exact agree_closing _ (.infoFrom extent.first []) fun _ _ hc => hc

section

variable {statement statement' : StatementRule}
  (h : AgreeFrom tokens next (n + 1) statement statement')

include h

theorem agree_bracedStatements :
    AgreeFrom tokens next n (bracedStatements statement) (bracedStatements statement') := by
  refine (agree_accept .leftBrace).bind fun opening? => ?_
  cases opening? with
  | none => exact .pure fun _ hc => hc
  | some opening =>
    exact Still.claimComments.agree.bind fun comments => (agree_items _ h).bind fun statements =>
      agree_closing _ (.infoFrom opening comments) fun _ _ hc => Nat.le_of_succ_le hc

theorem agree_block : AgreeFrom tokens next n (block statement) (block statement') :=
  agree_remembered (agree_bracedStatements h) fun hrule => Rule.noConfusion hrule

theorem agree_requiredBlock :
    AgreeFrom tokens next n (requiredBlock statement) (requiredBlock statement') :=
  agree_required (agree_block h)

theorem agree_alternative :
    AgreeFrom tokens next n (alternative statement) (alternative statement') := by
  refine (agree_accept .elseWord).bind fun t? => ?_
  cases t? with
  | none => exact .pure fun _ hc => hc
  | some t =>
    refine (Still.isNext .ifWord).agree.bind fun b => ?_
    cases b with
    | true => exact h.bind fun statement? => .pure fun _ hc => Nat.le_of_succ_le hc
    | false =>
      exact (agree_requiredBlock (h.mono (Nat.le_succ _))).bind fun body =>
        .pure fun _ hc => Nat.le_of_succ_le hc

theorem agree_branch : AgreeFrom tokens next n (branch statement) (branch statement') := by
  refine agree_keyword.bind fun word? => ?_
  rcases word? with _ | ⟨word, comments⟩
  · exact .pure fun _ hc => hc
  · exact agree_condition.bind fun condition => (agree_requiredBlock h).bind fun body =>
      (agree_alternative h).bind fun alternative =>
        (Still.infoFrom word comments).agree.bind fun info => .pure fun _ hc => hc

theorem agree_whileLoop : AgreeFrom tokens next n (whileLoop statement) (whileLoop statement') := by
  refine agree_keyword.bind fun word? => ?_
  rcases word? with _ | ⟨word, comments⟩
  · exact .pure fun _ hc => hc
  · exact agree_condition.bind fun condition =>
      ((agree_requiredBlock h).underFlags _ _).bind fun body =>
        (Still.infoFrom word comments).agree.bind fun info => .pure fun _ hc => hc

theorem agree_nestedBlock :
    AgreeFrom tokens next n (nestedBlock statement) (nestedBlock statement') := by
  refine (agree_block h).bind fun body? => ?_
  cases body? with
  | none => exact .pure fun _ hc => hc
  | some body => exact .pure fun _ hc => hc

theorem agree_anyStatement :
    AgreeFrom tokens next n (anyStatement statement) (anyStatement statement') := by
  refine agree_nextKind.bind fun k? => ?_
  have hhere : ∀ {p p' : StatementRule}, AgreeFrom tokens next n p p' →
      Agree tokens next (fun c => n ≤ c ∧ (tokens[nextReal tokens c]?).map Token.kind = k?) p p'
        fun _ c => n ≤ c := fun h => h.weaken (fun _ hc => hc.1) fun _ _ hc => hc
  split
  · exact .pure fun _ hc => hc.1
  · exact hhere agree_declaration
  · exact hhere (agree_branch h)
  · exact hhere (agree_whileLoop h)
  · exact hhere agree_returning
  · exact hhere agree_jump
  · exact hhere agree_jump
  · refine ((agree_objectAhead (n := n) false).weaken (fun c hc => ?_) fun _ _ hc => hc).bind
      fun ahead => ?_
    · obtain ⟨t, ht, hkind⟩ := Option.map_eq_some_iff.mp hc.2
      exact ⟨hc.1, t, ht, decide_eq_true hkind⟩
    · cases ahead with
      | true => exact agree_evaluation.weaken (fun _ hc => hc.1) fun _ _ hc => hc
      | false => exact (agree_nestedBlock h).weaken (fun _ hc => hc.1) fun _ _ hc => hc
  · exact hhere agree_evaluation

end

theorem agree_statementWithin {d d' : Nat} (hd : tokens.size < n + d)
    (hd' : tokens.size < n + d') :
    AgreeFrom tokens next n (statementWithin d) (statementWithin d') :=
  agree_within (fun _ => rfl) (fun h => Rule.noConfusion h) (fun _ _ _ => agree_anyStatement) hd hd'

theorem agree_statement_within {d : Nat} (hd : tokens.size < n + d) :
    AgreeFrom tokens next n statement (statementWithin d) :=
  agree_maxDepth (agree_statementWithin (by omega) hd)

theorem agree_statement : AgreeFrom tokens next n statement statement :=
  (agree_statement_within (d := tokens.size + 1) (by omega)).left

theorem agree_parameter : AgreeFrom tokens next n parameter parameter := by
  refine agree_identifier.step.bind fun name? => ?_
  cases name? with
  | none => exact .pure fun _ hc => hc
  | some name =>
    exact agree_annotation?.bind fun type? =>
      (Still.infoAfter name.info?).agree.bind fun info => .pure fun _ hc => hc

theorem agree_parameters : AgreeFrom tokens next n parameters parameters := by
  refine (agree_require .leftParen).step.bind fun t? => ?_
  cases t? with
  | none => exact .pure fun _ hc => hc
  | some t =>
    exact (agree_items _ agree_parameter).bind fun found =>
      (agree_require .rightParen).step.bind fun _ => .pure fun _ hc => hc

theorem agree_callableBody : AgreeFrom tokens next n callableBody callableBody :=
  (agree_requiredBlock agree_statement).underFlags _ _

theorem agree_result? : AgreeFrom tokens next n result? result? := by
  refine (agree_accept .arrow).step.bind fun t? => ?_
  cases t? with
  | none => exact .pure fun _ hc => hc
  | some t => exact agree_requiredType.bind fun type => .pure fun _ hc => hc

theorem agree_definitionRest (word : Kind) {finish : Parser Info} (hfinish : Still finish) :
    AgreeFrom tokens next n (definitionRest word finish) (definitionRest word finish) := by
  refine agree_requiredIdentifier.bind fun name => ?_
  split
  · exact agree_parameters.bind fun parameters => agree_callableBody.bind fun body =>
      hfinish.agree.bind fun info => .pure fun _ hc => hc
  · exact agree_parameters.bind fun parameters => agree_result?.bind fun result? =>
      agree_callableBody.bind fun body => hfinish.agree.bind fun info => .pure fun _ hc => hc
  · exact agree_annotation?.bind fun type? =>
      (agree_behind .assign agree_requiredExpression).bind fun value =>
        agree_closing _ hfinish fun _ _ hc => hc
  · exact (agree_behind .assign agree_requiredType).bind fun type =>
      agree_closing _ hfinish fun _ _ hc => hc

theorem agree_anyDefinition :
    Agree tokens next (n ≤ ·) anyDefinition anyDefinition fun _ c =>
      ∃ b, n ≤ b ∧ b ≤ c ∧ (Leads tokens startsDefinition b → b < c) := by
  refine agree_nextKind.bind fun k? => ?_
  cases k? with
  | none =>
    refine .pure fun c hc => ⟨c, hc.1, Nat.le_refl _, ?_⟩
    rintro ⟨t, ht, -⟩
    rw [ht] at hc
    exact absurd hc.2 (Option.some_ne_none _)
  | some k =>
    dsimp only
    split
    next hnot =>
      refine .pure fun c hc => ⟨c, hc.1, Nat.le_refl _, ?_⟩
      rintro ⟨t, ht, hsort⟩
      rw [ht] at hc
      rw [← Option.some.inj hc.2, hsort] at hnot
      exact absurd hnot (by decide)
    · refine .of_start fun m hm => ?_
      obtain ⟨t, ht, -⟩ := Option.map_eq_some_iff.mp hm.2
      refine Agree.weaken (Q := fun _ c => m + 1 ≤ c) (agree_led fun word? => ?_)
        (fun c hc => ⟨Nat.le_of_eq hc.symm, t, by rw [hc, ht]⟩)
        fun _ c hc => ⟨m, hm.1, Nat.le_of_succ_le hc, fun _ => hc⟩
      rcases word? with _ | ⟨word, comments⟩
      · exact .pure fun _ hc => hc
      · exact (agree_definitionRest k (.infoFrom word comments)).map fun _ _ hc => hc

theorem agree_definition : AgreeFrom tokens next n definition definition := by
  refine agree_remembered (agree_anyDefinition.upward fun _ hc => hc) fun _ flags s hs hleads => ?_
  obtain ⟨-, -, b, hb, hbc, hmoves⟩ :=
    @agree_anyDefinition tokens next s.cursor flags s hs (Nat.le_refl _)
  rcases Nat.eq_or_lt_of_le hb with heq | hlt
  · subst heq
    exact hmoves hleads
  · exact Nat.lt_of_lt_of_le hlt hbc

end Reparse.Grammar
