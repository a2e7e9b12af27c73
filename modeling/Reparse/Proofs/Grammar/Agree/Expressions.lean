import Reparse.Proofs.Grammar.Agree.Types

/-!
# Agreement in the grammar of expressions

Telling an object literal from a block takes back the cursor but not what it dropped from the memo:
it passes an opening brace and a name, and no definition starts at either.
-/

namespace Reparse

open Reparse.Parser

theorem nextReal_eq_of_le {tokens : Array Token} {c i : Nat} (hc : c ≤ tokens.size) (hi : c ≤ i)
    (hi' : i ≤ nextReal tokens c) : nextReal tokens i = nextReal tokens c := by
  have hsize := nextReal_le_size hc
  exact realFrom_eq hi' (by omega) (fun x hx => nextReal_trivia (Nat.le_trans hi hx))
    fun _ ht => nextReal_real ht

theorem next_of_consumed {c : ParseContext} {s : ParseState} {i : Nat}
    (h : s.cursor ≤ c.tokens.size) (hi : s.cursor ≤ i) (hi' : i < (consume.eval c s).2.cursor) :
    c.tokens[nextReal c.tokens i]? = (consume.eval c s).1 := by
  obtain ⟨-, hvalue, hcursor⟩ := passes_consume (c := c) h
  rw [hcursor] at hi'
  split at hi'
  · rw [nextReal_eq_of_le h hi (Nat.le_of_lt_succ hi'), hvalue]
  · omega

namespace Grammar

variable {tokens : Array Token} {next : TokenId} {n : Nat}

def BraceFrom (tokens : Array Token) (n c : Nat) : Prop :=
  n ≤ c ∧ Leads tokens (· = .leftBrace) c

theorem BraceFrom.ahead {c : Nat} (h : BraceFrom tokens n c) : AheadFrom tokens n c := by
  obtain ⟨hn, t, ht, -⟩ := h
  exact ⟨hn, t, ht⟩

structure Peeks (tokens : Array Token) (s s' : ParseState) : Prop where
  passes : Passes tokens s s'
  plain : ∀ i, s.cursor ≤ i → i < s'.cursor → ¬Leads tokens startsDefinition i

namespace Peeks

variable {s s' s'' : ParseState}

theorem of_still (hs : s.cursor ≤ tokens.size)
    (h : s'.cursor = s.cursor ∧ s'.memo = s.memo ∧ s'.counts = s.counts) : Peeks tokens s s' :=
  ⟨(Passes.refl hs).congr ⟨rfl, rfl, rfl⟩ h, fun i hi hi' => by
    rw [h.1] at hi'
    omega⟩

theorem trans (h : Peeks tokens s s') (h' : Peeks tokens s' s'') : Peeks tokens s s'' :=
  ⟨h.passes.trans h'.passes, fun i hi hi' => by
    rcases Nat.lt_or_ge i s'.cursor with hlt | hge
    · exact h.plain i hi hlt
    · exact h'.plain i hge hi'⟩

theorem consume {c : ParseContext} (h : s.cursor ≤ c.tokens.size)
    (hkind : ∀ t, (consume.eval c s).1 = some t → startsDefinition t.kind = false) :
    Peeks c.tokens s (consume.eval c s).2 where
  passes := (passes_consume h).1
  plain i hi hi' := by
    rintro ⟨t, ht, hsort⟩
    rw [next_of_consumed h hi hi'] at ht
    exact absurd ((hkind t ht).symm.trans hsort) Bool.false_ne_true

end Peeks

theorem peeks_objectAhead (allowEmpty : Bool) {c : ParseContext} {s : ParseState}
    (hs : s.cursor ≤ c.tokens.size) :
    Peeks c.tokens s ((do
      match ← nextKind with
      | some .rightBrace => return allowEmpty
      | some .identifier =>
        let _ ← consume
        isNext .colon
      | _ => return false : Parser Bool).eval c s).2 := by
  have hlook : Peeks c.tokens s (nextKind.eval c s).2 := .of_still hs ⟨rfl, rfl, rfl⟩
  rw [eval_bind]
  split
  · exact hlook
  next hidentifier =>
    refine hlook.trans ((Peeks.consume hlook.passes.within fun t ht => ?_).trans
      (.of_still ?_ ⟨rfl, rfl, rfl⟩))
    · have hnext : c.tokens[nextReal c.tokens s.cursor]? = some t := by
        rw [(passes_consume (c := c) hlook.passes.within).2.1] at ht
        exact ht
      have hkind : (c.tokens[nextReal c.tokens s.cursor]?).map Token.kind = some .identifier :=
        hidentifier
      rw [hnext] at hkind
      rw [show t.kind = .identifier from Option.some.inj hkind]
      rfl
    · exact (passes_consume (c := c) hlook.passes.within).1.within
  · exact hlook

theorem agree_objectAhead (allowEmpty : Bool) :
    Agree tokens next (BraceFrom tokens n) (objectAhead allowEmpty) (objectAhead allowEmpty)
      fun _ => BraceFrom tokens n := by
  intro flags s hs hP
  obtain ⟨hn, t, ht, hbrace⟩ := hP
  have hkind : t.kind = .leftBrace := of_decide_eq_true hbrace
  refine ⟨rfl, ?_, hn, t, ht, hbrace⟩
  have hbegin : s.cursor ≤ tokens.size := hs.cursor
  have hopen : Peeks tokens { s with comments := [] }
      (consume.eval ⟨tokens, next, flags⟩ { s with comments := [] }).2 := by
    refine Peeks.consume (c := ⟨tokens, next, flags⟩) hbegin fun u hu => ?_
    rw [(passes_consume (c := ⟨tokens, next, flags⟩) (s := { s with comments := [] })
      hbegin).2.1] at hu
    obtain rfl : t = u := Option.some.inj (ht.symm.trans hu)
    rw [hkind]
    rfl
  have hpeeks := hopen.trans
    (peeks_objectAhead allowEmpty (c := ⟨tokens, next, flags⟩) hopen.passes.within)
  have hback : Footprint tokens { s with comments := [] }
      ((objectAhead allowEmpty).eval ⟨tokens, next, flags⟩ s).2 :=
    hpeeks.passes.taken_back ⟨hs.nodup, hs.cursor, hs.memo⟩ rfl rfl hpeeks.plain
  exact hback.of_start rfl rfl

variable {expression expression' : ExpressionRule}

theorem agree_parenthesized (hexpression : AgreeFrom tokens next (n + 1) expression expression')
    (t : Token) : Agree tokens next (AheadFrom tokens n) (parenthesized expression t)
      (parenthesized expression' t) fun _ c => n ≤ c :=
  agree_taken fun _ => Still.claimComments.agree.bind fun comments =>
    (agree_required hexpression).inBrackets.bind fun _ =>
      agree_closing _ (.infoFrom t comments) fun _ _ hc => Nat.le_of_succ_le hc

theorem agree_arrayLiteral (hexpression : AgreeFrom tokens next (n + 1) expression expression')
    (t : Token) : Agree tokens next (AheadFrom tokens n) (arrayLiteral expression t)
      (arrayLiteral expression' t) fun _ c => n ≤ c :=
  agree_taken fun _ => Still.claimComments.agree.bind fun comments =>
    (agree_items _ hexpression).inBrackets.bind fun _ =>
      agree_closing _ (.infoFrom t comments) fun _ _ hc => Nat.le_of_succ_le hc

theorem agree_objectLiteral (hexpression : AgreeFrom tokens next (n + 1) expression expression')
    (t : Token) : Agree tokens next (AheadFrom tokens n) (objectLiteral expression t)
      (objectLiteral expression' t) fun _ c => n ≤ c :=
  agree_taken fun _ => Still.claimComments.agree.bind fun comments =>
    (agree_items _ (agree_field (agree_required hexpression))).inBrackets.bind fun _ =>
      agree_closing _ (.infoFrom t comments) fun _ _ hc => Nat.le_of_succ_le hc

theorem agree_atom (hexpression : AgreeFrom tokens next (n + 1) expression expression') :
    AgreeFrom tokens next n (atom expression) (atom expression') := by
  refine agree_nextToken.bind fun t? => ?_
  cases t? with
  | none => exact .pure fun _ hc => hc.1
  | some t =>
    have hahead : ∀ c, n ≤ c ∧ tokens[nextReal tokens c]? = some t → AheadFrom tokens n c :=
      fun _ hc => ⟨hc.1, t, hc.2⟩
    dsimp only
    split
    · exact ((agree_parenthesized hexpression t).weaken hahead fun _ _ hc => hc).map
        fun _ _ hc => hc
    · exact ((agree_arrayLiteral hexpression t).weaken hahead fun _ _ hc => hc).map
        fun _ _ hc => hc
    next hkind =>
      refine Still.flags.agree.bind fun f => ?_
      split
      · exact .pure fun _ hc => hc.1
      · refine ((agree_objectAhead true).weaken
          (fun _ hc => ⟨hc.1, t, hc.2, decide_eq_true hkind⟩) fun _ _ hc => hc).bind fun ahead => ?_
        cases ahead with
        | true =>
          exact ((agree_objectLiteral hexpression t).weaken (fun _ hc => hc.ahead)
            fun _ _ hc => hc).map fun _ _ hc => hc
        | false => exact .pure fun _ hc => hc.1
    · split
      · exact .pure fun _ hc => hc.1
      · refine Agree.weaken (Q := fun _ c => n ≤ c) (agree_taken fun _ => ?_) hahead fun _ _ hc => hc
        exact Still.claimComments.agree.bind fun comments => .pure fun _ hc => Nat.le_of_succ_le hc

theorem agree_postfixTurn (hexpression : AgreeFrom tokens next (n + 1) expression expression') :
    AgreeTurns tokens next n (postfixTurn expression) (postfixTurn expression') := by
  intro m hm base
  have hlater : AgreeFrom tokens next (m + 1) expression expression' := hexpression.mono (by omega)
  refine agree_next_kind (.pure fun _ hc => hc) fun k => ?_
  split
  · exact agree_taken fun _ => agree_requiredIdentifier.bind fun name =>
      (Still.infoAfter base.info?).agree.bind fun info => .pure fun _ hc => hc
  · exact agree_taken fun _ => (agree_items _ hlater).inBrackets.bind fun arguments =>
      agree_closing _ (.infoAfter base.info?) fun _ _ hc => hc
  · exact agree_taken fun _ => (agree_required hlater).inBrackets.bind fun place =>
      agree_closing _ (.infoAfter base.info?) fun _ _ hc => hc
  · exact .pure fun _ hc => hc.1

theorem agree_postfixed (hexpression : AgreeFrom tokens next (n + 1) expression expression') :
    AgreeFrom tokens next n (postfixed expression) (postfixed expression') := by
  refine (agree_atom hexpression).bind fun base? => ?_
  cases base? with
  | none => exact .pure fun _ hc => hc
  | some base => exact (agree_loop (agree_postfixTurn hexpression) base).map fun _ _ hc => hc

theorem agree_signTurn : AgreeTurns tokens next n signTurn signTurn := by
  intro m _ found
  refine agree_next_kind (.pure fun _ hc => hc) fun k => ?_
  simp only [Option.bind_some]
  cases UnaryOperator.ofKind? k with
  | none => exact .pure fun _ hc => hc.1
  | some operator =>
    refine agree_taken fun t? => ?_
    cases t? with
    | none => exact .pure fun _ hc => Nat.le_of_succ_le hc
    | some token => exact Still.claimComments.agree.bind fun comments => .pure fun _ hc => hc

theorem still_applySigns (operand : Expression Info) (found : List Sign) :
    Still (applySigns operand found) := by
  induction found generalizing operand with
  | nil => exact .pure operand
  | cons s rest ih => exact (Still.infoFrom s.token s.comments).bind fun info => ih _

variable {operand operand' : ExpressionRule}

theorem agree_unary (hoperand : AgreeFrom tokens next n operand operand') :
    AgreeFrom tokens next n (unary operand) (unary operand') := by
  refine (agree_loop agree_signTurn []).bind fun found => ?_
  cases found with
  | nil => exact hoperand
  | cons s rest =>
    exact (agree_required hoperand).bind fun inner =>
      (still_applySigns inner (s :: rest)).agree.map fun _ _ hc => hc

theorem still_warnMixed (chain : Chain) (operator : BinaryOperator) (t : Token) :
    Still (warnMixed chain operator t) := by
  unfold warnMixed
  split
  · split
    · exact (Still.report _ _ _).bind fun _ => .pure true
    · exact .pure chain.warned
  · exact .pure chain.warned

theorem agree_chainTurn (level : Precedence) (hoperand : AgreeFrom tokens next n operand operand') :
    AgreeTurns tokens next n (chainTurn level operand) (chainTurn level operand') := by
  intro m hm chain
  refine agree_next_kind (.pure fun _ hc => hc) fun k => ?_
  simp only [Option.bind_some]
  cases BinaryOperator.ofKind? k with
  | none => exact .pure fun _ hc => hc.1
  | some operator =>
    dsimp only
    split
    · exact .pure fun _ hc => hc.1
    · refine agree_taken fun t? => ?_
      cases t? with
      | none => exact .pure fun _ hc => Nat.le_of_succ_le hc
      | some token =>
        exact (still_warnMixed chain operator token).agree.bind fun warned =>
          (agree_required (hoperand.mono (by omega))).bind fun right =>
            (Still.infoAfter chain.left.info?).agree.bind fun info => .pure fun _ hc => hc

theorem agree_binary (level : Precedence) (hoperand : AgreeFrom tokens next n operand operand') :
    AgreeFrom tokens next n (binary level operand) (binary level operand') := by
  refine hoperand.bind fun left? => ?_
  cases left? with
  | none => exact .pure fun _ hc => hc
  | some left =>
    exact (agree_loop (agree_chainTurn level hoperand) _).bind fun chain => .pure fun _ hc => hc

theorem agree_operators (hexpression : AgreeFrom tokens next (n + 1) expression expression') :
    AgreeFrom tokens next n (operators expression) (operators expression') :=
  agree_binary _ <| agree_binary _ <| agree_binary _ <| agree_binary _ <|
    agree_unary (agree_postfixed hexpression)

theorem agree_expressionWithin {d d' : Nat} (hd : tokens.size < n + d)
    (hd' : tokens.size < n + d') :
    AgreeFrom tokens next n (expressionWithin d) (expressionWithin d') :=
  agree_within (fun _ => rfl) (fun h => Rule.noConfusion h) (fun _ _ _ => agree_operators) hd hd'

theorem agree_expression_within {d : Nat} (hd : tokens.size < n + d) :
    AgreeFrom tokens next n Grammar.expression (expressionWithin d) :=
  agree_maxDepth (agree_expressionWithin (by omega) hd)

theorem agree_expression : AgreeFrom tokens next n Grammar.expression Grammar.expression :=
  (agree_expression_within (d := tokens.size + 1) (by omega)).left

theorem agree_requiredExpression :
    AgreeFrom tokens next n requiredExpression requiredExpression :=
  agree_required agree_expression

end Grammar

end Reparse
