import Reparse.Proofs.Grammar.Remarks.Types
import Reparse.Proofs.Grammar.Shape

/-!
# Remarks on expressions

A chain of logical operators is read by one loop, which keeps the first operator and whether it has
warned. Both can be read off the chain that has been built, so the loop warns at the operator where
the chain comes to mix, and nowhere else.
-/

namespace Reparse

open Reparse.Parser

variable {β : Type} {tokens : Array Token} {flags : Flags} {a b c : Trail} {n : Nat}
  {t : Token}

namespace Expression

def remarks (e : Expression Info) : Remarks := ⟨e.changes, []⟩

variable {left right base place : Expression Info} {info : Info} {operator : BinaryOperator}

theorem remarks_all (es : List (Expression Info)) :
    Remarks.all remarks es = ⟨es.flatMap changes, []⟩ := by
  rw [Remarks.all, List.flatMap_eq_nil_iff (f := fun e => (remarks e).jumps).mpr fun _ _ => rfl]
  rfl

theorem remarks_fields (fields : List (Field Info (Expression Info))) :
    Remarks.all (fun f => remarks f.value) fields =
      ⟨fields.flatMap fun f => f.value.changes, []⟩ := by
  rw [Remarks.all,
    List.flatMap_eq_nil_iff (f := fun f : Field Info (Expression Info) => f.value.remarks.jumps).mpr
      fun _ _ => rfl]
  rfl

theorem remarks_array (items : List (Expression Info)) :
    (array items info).remarks = .all remarks items := by
  rw [remarks_all, remarks, changes_array]

theorem remarks_object (fields : List (Field Info (Expression Info))) :
    (object fields info).remarks = .all (fun f => f.value.remarks) fields := by
  rw [remarks_fields, remarks, changes_object]

theorem remarks_invoke (arguments : List (Expression Info)) :
    (invoke base arguments info).remarks = base.remarks ++ .all remarks arguments := by
  rw [remarks_all, remarks, changes_invoke]
  rfl

theorem remarks_index : (index base place info).remarks = base.remarks ++ place.remarks :=
  congrArg (Remarks.mk · []) (changes_index base place)

theorem remarks_of_not_logical (h : operator.precedence ≠ .logical) :
    (binary operator left right info).remarks = left.remarks ++ right.remarks :=
  congrArg (Remarks.mk · []) (changes_of_not_logical h)

theorem Binds.links_eq {e : Expression Info} (h : e.Binds 1) : e.links = [] := by
  cases e with
  | binary operator left right info =>
    refine if_neg fun hlogical => ?_
    have htight := h.tight
    rw [strength, hlogical] at htight
    exact absurd htight (by decide)
  | _ => rfl

end Expression

namespace Grammar

abbrev NotesExpressions (tokens : Array Token) (n : Nat) (rule : ExpressionRule) : Prop :=
  ∀ flags, Notes tokens flags n (.optional Expression.remarks) rule

theorem remarks_wordOf? (t : Token) (info : Info) :
    Remarks.optional Expression.remarks (wordOf? t info) = {} := by
  unfold wordOf?
  split <;> rfl

section

variable {expression : ExpressionRule}

theorem notes_operand (h : NotesExpressions tokens n expression) :
    Notes tokens flags n Expression.remarks
      (required expression .missingExpression .missing) :=
  (h flags).required (by decide) (by decide) rfl

theorem notes_elements (h : NotesExpressions tokens n expression) {shape : SeriesShape}
    (hresync : shape.resync = none) (hdelimiter : ∀ k ∈ shape.delimiter, k.isJump = false)
    (hstray : shape.stray ≠ .mixedLogic) :
    Notes tokens flags n (.all Expression.remarks) (items shape expression) := by
  have hset : shape.resumeSet?.isSome = false := by
    rw [SeriesShape.resumeSet?, hresync]
    rfl
  exact notes_items hdelimiter hstray fun a ha => (h flags a ha).weaken fun _ _ hx =>
    ⟨hx, fun _ hsome => absurd (hset.symm.trans hsome) Bool.false_ne_true⟩

theorem notes_fields (h : NotesExpressions tokens n expression) :
    Notes tokens flags n (.all fun f => f.value.remarks) (items (.commas .rightBrace)
      (field (required expression .missingExpression .missing) .missing)) :=
  notes_items (by decide) (by decide) fun a ha =>
    (notes_field (notes_operand h) rfl a ha).weaken fun _ _ hx => ⟨hx, nofun⟩

theorem notes_opened {rest : List Token → Parser β} {view : β → Remarks}
    (ht : a.next? tokens = some t) (hn : n ≤ a.cursor)
    (hrest : ∀ comments, Notes tokens flags (n + 1) view (rest comments)) :
    Runs tokens flags a (consume >>= fun _ => claimComments >>= rest)
      fun x b => Remarked tokens a b (view x) := by
  refine (runs_consume_next ht).bind fun _ b hb => ?_
  obtain ⟨-, rfl⟩ := hb
  have hpast : n < (a.past tokens).cursor := Nat.lt_of_le_of_lt hn (a.lt_past tokens)
  refine (quiet_claimComments flags _).bind fun comments c hc => ?_
  exact ((hrest comments).after hc hpast).weaken fun _ _ hx => (Remarked.past a).trans hx

theorem notes_parenthesized (h : NotesExpressions tokens (n + 1) expression)
    (ht : a.next? tokens = some t) (hn : n ≤ a.cursor) :
    Runs tokens flags a (parenthesized expression t) fun x b => Remarked tokens a b x.remarks := by
  refine notes_opened ht hn fun comments b hb => ?_
  refine ((notes_operand h).underFlags b hb).bind fun inner _ hc => ?_
  refine ((quiet_require _).after hc).bind fun _ _ hd => ?_
  exact ((quiet_infoFrom _ _).after hd).bind fun _ _ he => .pure he

theorem notes_arrayLiteral (h : NotesExpressions tokens (n + 1) expression)
    (ht : a.next? tokens = some t) (hn : n ≤ a.cursor) :
    Runs tokens flags a (arrayLiteral expression t) fun x b => Remarked tokens a b x.remarks := by
  refine notes_opened ht hn fun comments b hb => ?_
  refine ((notes_elements h rfl (by decide) (by decide)).underFlags b hb).bind
    fun elements _ hc => ?_
  refine ((quiet_require _).after hc).bind fun _ _ hd => ?_
  refine ((quiet_infoFrom _ _).after hd).bind fun _ _ he => .pure ?_
  rw [Expression.remarks_array]
  exact he

theorem notes_objectLiteral (h : NotesExpressions tokens (n + 1) expression)
    (ht : a.next? tokens = some t) (hn : n ≤ a.cursor) :
    Runs tokens flags a (objectLiteral expression t) fun x b => Remarked tokens a b x.remarks := by
  refine notes_opened ht hn fun comments b hb => ?_
  refine ((notes_fields h).underFlags b hb).bind fun fields _ hc => ?_
  refine ((quiet_require _).after hc).bind fun _ _ hd => ?_
  refine ((quiet_infoFrom _ _).after hd).bind fun _ _ he => .pure ?_
  rw [Expression.remarks_object]
  exact he

theorem notes_atom (h : NotesExpressions tokens (n + 1) expression) :
    Notes tokens flags n (.optional Expression.remarks) (atom expression) := by
  intro a ha
  refine runs_nextToken.bind fun t? b hb => ?_
  obtain ⟨rfl, rfl⟩ := hb
  cases ht : b.next? tokens with
  | none => exact .pure (.refl b)
  | some t =>
    dsimp only
    split
    · exact (notes_parenthesized h ht ha).map fun _ _ hx => hx
    · exact (notes_arrayLiteral h ht ha).map fun _ _ hx => hx
    · refine runs_flags.bind fun f c hc => ?_
      obtain ⟨rfl, rfl⟩ := hc
      split
      · exact .pure (.refl c)
      · refine (runs_objectAhead _).bind fun x d hd => ?_
        obtain ⟨rfl, rfl⟩ := hd
        split
        · exact (notes_objectLiteral h ht ha).map fun _ _ hx => hx
        · exact .pure (.refl d)
    · split
      · exact .pure (.refl b)
      · refine (quiet_consume flags b).bind fun _ _ hc => ?_
        refine (quiet_claimComments.after hc).bind fun _ _ hd => .pure ?_
        rwa [remarks_wordOf?]

theorem notes_postfixTurn (h : NotesExpressions tokens (n + 1) expression)
    {base : Expression Info} (hbase : Remarked tokens a b base.remarks) (hn : n ≤ a.cursor) :
    Runs tokens flags b (postfixTurn expression base)
      fun t c => Remarked tokens a c t.state.remarks := by
  have hpast : n < (b.past tokens).cursor :=
    Nat.lt_of_le_of_lt (Nat.le_trans hn hbase.le) (b.lt_past tokens)
  refine runs_nextKind.bind fun k? c hc => ?_
  obtain ⟨rfl, rfl⟩ := hc
  split
  · refine (quiet_consume.after hbase).bind fun _ _ hd => ?_
    refine (quiet_requiredIdentifier.after hd).bind fun name _ he => ?_
    exact ((quiet_infoAfter _).after he).bind fun _ _ hf => .pure hf
  next hkind =>
    obtain ⟨t, ht, -⟩ := Option.map_eq_some_iff.mp hkind
    refine (runs_consume_next ht).bind fun _ _ hd => ?_
    obtain ⟨-, rfl⟩ := hd
    refine ((notes_elements h rfl (by decide) (by decide)).underFlags _ hpast).bind
      fun arguments _ he => ?_
    refine ((quiet_require _).after he).bind fun _ _ hf => ?_
    refine ((quiet_infoAfter _).after hf).bind fun _ _ hg => .pure ?_
    exact Expression.remarks_invoke arguments ▸ (hbase.next (.past c)).trans hg
  next hkind =>
    obtain ⟨t, ht, -⟩ := Option.map_eq_some_iff.mp hkind
    refine (runs_consume_next ht).bind fun _ _ hd => ?_
    obtain ⟨-, rfl⟩ := hd
    refine ((notes_operand h).underFlags _ hpast).bind fun place _ he => ?_
    refine ((quiet_require _).after he).bind fun _ _ hf => ?_
    refine ((quiet_infoAfter _).after hf).bind fun _ _ hg => .pure ?_
    exact Expression.remarks_index ▸ (hbase.next (.past c)).trans hg
  · exact .pure hbase

theorem notes_postfixed (h : NotesExpressions tokens (n + 1) expression) :
    NotesExpressions tokens n (postfixed expression) := by
  intro flags a ha
  refine (notes_atom h a ha).bind fun base? b hbase => ?_
  cases base? with
  | none => exact .pure hbase
  | some base =>
    exact (runs_loop_keeps (I := fun x c => Remarked tokens a c x.remarks)
      (fun _ _ hx => notes_postfixTurn h hx ha) hbase).map fun _ _ hx => hx

end

theorem quiet_signs : Quiet tokens signs :=
  Quiet.loop (fun found => quiet_nextKind.bind fun k? => by
    cases k?.bind UnaryOperator.ofKind? with
    | none => exact .pure _
    | some operator =>
      refine quiet_consume.bind fun t? => ?_
      cases t? with
      | none => exact .pure _
      | some t => exact quiet_claimComments.bind fun _ => .pure _) []

theorem notes_applySigns {found : List Sign} {operand : Expression Info}
    (h : Remarked tokens a b operand.remarks) :
    Runs tokens flags b (applySigns operand found) fun e c => Remarked tokens a c e.remarks := by
  induction found generalizing operand b with
  | nil => exact .pure h
  | cons s rest ih => exact ((quiet_infoFrom _ _).after h).bind fun info c hc => ih hc

theorem notes_unary {operand : ExpressionRule} (h : NotesExpressions tokens n operand) :
    NotesExpressions tokens n (unary operand) := by
  intro flags a ha
  refine (quiet_signs flags a).bind fun found b hb => ?_
  cases found with
  | nil => exact ((h flags).after hb ha).weaken fun _ _ hx => hx
  | cons s rest =>
    refine ((notes_operand h).after hb ha).bind fun inner c hc => ?_
    exact (notes_applySigns hc).map fun _ _ hx => hx

section

variable {level : Precedence} {operand : ExpressionRule}

theorem quiet_warnMixed {chain : Chain} {operator : BinaryOperator}
    (h : operator.precedence ≠ .logical) (token : Token) :
    Quiet tokens (warnMixed chain operator token) := by
  unfold warnMixed
  split
  · rw [decide_eq_false h, Bool.and_false, Bool.false_and, if_neg Bool.false_ne_true]
    exact .pure _
  · exact .pure _

theorem notes_binary (hlevel : level ≠ .logical) (h : NotesExpressions tokens n operand) :
    NotesExpressions tokens n (binary level operand) := by
  intro flags a ha
  refine (h flags a ha).bind fun left? b hleft => ?_
  cases left? with
  | none => exact .pure hleft
  | some left =>
    refine Runs.bind (Q := fun (x : Chain) c => Remarked tokens a c x.left.remarks) ?_
      fun _ _ hx => .pure hx
    refine runs_loop_keeps (I := fun (x : Chain) c => Remarked tokens a c x.left.remarks)
      (fun chain c hc => ?_) hleft
    refine (quiet_nextKind.after hc).bind fun k? d hd => ?_
    cases k?.bind BinaryOperator.ofKind? with
    | none => exact .pure hd
    | some operator =>
      dsimp only
      split
      · exact .pure hd
      next heq =>
        have hoperator : operator.precedence ≠ .logical :=
          fun hlogical => hlevel ((Decidable.of_not_not heq).symm.trans hlogical)
        refine (quiet_consume.after hd).bind fun t? e he => ?_
        cases t? with
        | none => exact .pure he
        | some token =>
          refine ((quiet_warnMixed hoperator token).after he).bind fun warned f hf => ?_
          refine ((notes_operand h).after hf ha).bind fun right g hg => ?_
          refine ((quiet_infoAfter _).after hg).bind fun info i hi => .pure ?_
          exact Expression.remarks_of_not_logical hoperator ▸ hi

/-- A chain of logical operators as far as it has been read: what the loop keeps is what there is to
see in the tree. -/
structure Chained (tokens : Array Token) (a b : Trail) (chain : Chain) : Prop where
  built : Built tokens a b chain.left.outline
  first : chain.first? = chain.left.links.head?.map Link.operator
  warned : chain.warned = (Link.change? chain.left.links).isSome
  remarked : Remarked tokens a b chain.left.remarks

theorem runs_warnMixed_fresh {chain : Chain} {l : Link Info} (token : Token)
    (hlogical : l.operator.precedence = .logical)
    (hfirst : chain.first? = chain.left.links.head?.map Link.operator)
    (hwarned : chain.warned = (Link.change? chain.left.links).isSome) :
    Runs tokens flags a (warnMixed chain l.operator token) fun warned b =>
      warned = (Link.change? (chain.left.links ++ [l])).isSome ∧
      b = (Link.fresh? chain.left.links l).elim a
        fun _ => a.reported ⟨.mixedLogic, [], some (.token token)⟩ := by
  rw [Link.isSome_change?_concat]
  unfold warnMixed
  rw [hfirst, hwarned]
  unfold Link.fresh?
  cases hlinks : chain.left.links with
  | nil => exact .pure ⟨rfl, rfl⟩
  | cons first rest =>
    simp only [List.head?_cons, Option.map_some, hlogical, decide_true, Bool.and_true]
    cases hchange : Link.change? (first :: rest) with
    | some m => simpa using Runs.pure (Q := fun x b => x = true ∧ b = a) ⟨rfl, rfl⟩
    | none =>
      by_cases hdeparts : l.operator = first.operator
      · simpa [Link.departs, hdeparts] using
          Runs.pure (Q := fun x b => x = false ∧ b = a) ⟨rfl, rfl⟩
      · have hne : first.operator ≠ l.operator := fun heq => hdeparts heq.symm
        simp only [Link.departs, hdeparts, hne, ne_eq, not_false_eq_true, decide_true,
          Option.isSome_none, Bool.not_false, Bool.and_self, if_true, Option.isSome_some,
          Bool.or_true, Option.elim_some]
        exact (runs_report _ _ _).bind fun _ b hb => .pure ⟨rfl, hb⟩

theorem Chained.fresh {chain : Chain} {operator : BinaryOperator} {t : Token}
    (h : Chained tokens a b chain) (ht : b.next? tokens = some t) (hkind : operator.kind = t.kind) :
    Remarked tokens b
      ((Link.fresh? chain.left.links ⟨operator, chain.left⟩).elim (b.past tokens)
        fun _ => (b.past tokens).reported ⟨.mixedLogic, [], some (.token t)⟩)
      ⟨(Link.fresh? chain.left.links ⟨operator, chain.left⟩).toList, []⟩ := by
  cases hfresh : Link.fresh? chain.left.links ⟨operator, chain.left⟩ with
  | none => exact .past b
  | some l =>
    obtain rfl : ⟨operator, chain.left⟩ = l := Link.eq_of_fresh? hfresh
    obtain ⟨e, he, hlast, -⟩ := h.built
    have hcursor : b.cursor - 1 + 1 = b.cursor := Nat.sub_add_cancel (Nat.zero_lt_of_lt h.built.lt)
    have hmem : t ∈ stretch tokens b.cursor (b.past tokens).cursor :=
      mem_stretch (le_nextReal tokens b.cursor) (Nat.lt_succ_self _) ht
    refine ⟨(Remarked.past b).le, _, rfl, .warning ⟨e, b.cursor - 1, t, he, hlast, ?_, ?_⟩ hmem⟩
    · rw [hcursor]
      exact ht
    · exact ⟨hkind.symm, rfl⟩

theorem notes_logicalTurn (hbuilds : BuildsExpressions tokens n operand)
    (h : NotesExpressions tokens n operand) {chain : Chain} (hchain : Chained tokens a b chain)
    (hn : n ≤ a.cursor) :
    Runs tokens flags b (chainTurn .logical operand chain) fun t c =>
      Chained tokens a c t.state := by
  have hbuilt : Runs tokens flags b (chainTurn .logical operand chain) fun t c =>
      Built tokens a c t.state.left.outline :=
    (runs_chainTurn hbuilds hchain.built hn).weaken fun t c ht => by
      cases t with
      | again x => exact ht.1
      | done x => exact ht
  refine (hbuilt.both (R := fun t c => t.state.first? = t.state.left.links.head?.map Link.operator ∧
    t.state.warned = (Link.change? t.state.left.links).isSome ∧
    Remarked tokens a c t.state.left.remarks) ?_).weaken
      fun t c ht => ⟨ht.1, ht.2.1, ht.2.2.1, ht.2.2.2⟩
  refine runs_nextKind.bind fun k? c hc => ?_
  obtain ⟨rfl, rfl⟩ := hc
  cases hoperator : ((c.next? tokens).map Token.kind).bind BinaryOperator.ofKind? with
  | none => exact .pure ⟨hchain.first, hchain.warned, hchain.remarked⟩
  | some operator =>
    dsimp only
    split
    · exact .pure ⟨hchain.first, hchain.warned, hchain.remarked⟩
    next heq =>
      have hlogical : operator.precedence = .logical := Decidable.of_not_not heq
      obtain ⟨k, hk, hoperator⟩ := Option.bind_eq_some_iff.mp hoperator
      obtain ⟨t, ht, rfl⟩ := Option.map_eq_some_iff.mp hk
      refine (runs_consume_next ht).bind fun t? d hd => ?_
      obtain ⟨rfl, rfl⟩ := hd
      refine (runs_warnMixed_fresh (l := ⟨operator, chain.left⟩) t hlogical hchain.first
        hchain.warned).bind fun warned d hd => ?_
      obtain ⟨hwarned, rfl⟩ := hd
      have hread := hchain.remarked.trans
        (hchain.fresh ht (BinaryOperator.kind_of_ofKind? hoperator))
      refine ((notes_operand h).after hread hn).bind fun right e he => ?_
      refine ((quiet_infoAfter _).after he).bind fun info f hf => .pure ⟨?_, ?_, ?_⟩
      · simp only [Turn.state, Expression.links_of_logical hlogical, hchain.first]
        cases chain.left.links <;> rfl
      · simp only [Turn.state, Expression.links_of_logical hlogical]
        exact hwarned
      · exact hf.perm (Expression.perm_changes hlogical)

theorem notes_logical (hbuilds : BuildsExpressions tokens n operand)
    (hbinds : Affords tokens operand (Expression.Binds 1)) (h : NotesExpressions tokens n operand) :
    NotesExpressions tokens n (binary .logical operand) := by
  intro flags a ha
  refine (((hbuilds flags a ha).both (hbinds flags a)).both (h flags a ha)).bind
    fun left? b hleft => ?_
  obtain ⟨⟨hbuilt, hbinds⟩, hremarked⟩ := hleft
  cases left? with
  | none => exact .pure hremarked
  | some left =>
    have hlinks : left.links = [] := (hbinds left rfl).links_eq
    have hstart : Chained tokens a b { left } :=
      ⟨hbuilt.1, by rw [hlinks]; rfl, by rw [hlinks]; rfl, hremarked⟩
    exact (runs_loop_keeps (I := fun x c => Chained tokens a c x)
      (fun _ _ hx => notes_logicalTurn hbuilds h hx ha) hstart).bind fun _ _ hx => .pure hx.remarked

end

theorem notes_operators {expression : ExpressionRule}
    (hbuilds : BuildsExpressions tokens (n + 1) expression)
    (hshaped : Affords tokens expression Expression.WellShaped)
    (h : NotesExpressions tokens (n + 1) expression) :
    NotesExpressions tokens n (operators expression) := by
  have hoperand : BuildsExpressions tokens n (binary .comparison <| binary .additive <|
      binary .multiplicative <| unary (postfixed expression)) :=
    builds_binary <| builds_binary <| builds_binary <|
      builds_unary fun _ => builds_postfixed hbuilds
  refine notes_logical hoperand (affords_comparison hshaped) ?_
  exact notes_binary (by decide) <| notes_binary (by decide) <| notes_binary (by decide) <|
    notes_unary <| notes_postfixed h

theorem notes_expressionWithin (depth : Nat) (h : tokens.size < n + depth) :
    NotesExpressions tokens n (expressionWithin depth) := by
  induction depth generalizing n with
  | zero => exact fun _ a ha => .within fun hle => absurd (Nat.le_trans ha hle) (Nat.not_le.mpr h)
  | succ depth ih =>
    have hinner : tokens.size < n + 1 + depth := by omega
    exact fun flags => Notes.remembered (notes_operators (builds_expressionWithin depth hinner)
      (affords_expressionWithin depth) (ih hinner) flags)

theorem notes_expression : NotesExpressions tokens n expression := by
  intro flags a ha
  refine runs_maxDepth.bind fun depth b h => ?_
  obtain ⟨rfl, rfl⟩ := h
  exact notes_expressionWithin _ (by omega) flags b ha

theorem notes_requiredExpression :
    Notes tokens flags n Expression.remarks requiredExpression :=
  notes_operand notes_expression

end Grammar

end Reparse
