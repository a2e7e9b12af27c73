import Reparse.Proofs.Parser.Courses

/-!
# Courses of types and expressions

What is missing in a type or an expression is missed where the cursor is. That a rule gives nothing
means that nothing it knows starts there, so the report about it is in its place.
-/

namespace Reparse

open Reparse.Parser

variable {β : Type} {tokens : Array Token} {flags : Flags} {a b : Trail} {n : Nat} {t : Token}

namespace Grammar

theorem treads_identifier : Treads tokens flags n identifier :=
  (treads_accept .identifier).bind fun t? => by
    cases t? with
    | none => exact .pure _
    | some t => exact treads_claimComments.bind fun _ => .pure _

theorem treads_requiredIdentifier : Treads tokens flags n requiredIdentifier :=
  (treads_identifier.seeks (d := .identifier) builds_identifier fun _ => id).required rfl _

theorem treads_behind (mark : Kind) {value : Parser β} (h : Treads tokens flags n value)
    (standIn : β) : Treads tokens flags n (behind mark value standIn) :=
  (treads_require mark).bind fun t? => by
    cases t? with
    | some t => exact h
    | none => exact .pure _

theorem treads_field {value : Parser β} (h : Treads tokens flags n value) (standIn : β) :
    Treads tokens flags n (field value standIn) := treads_identifier.bind fun name? => by
  cases name? with
  | none => exact .pure _
  | some name =>
    exact (treads_behind .colon h standIn).bind fun _ =>
      (treads_infoAfter _).bind fun _ => .pure _

theorem treads_closing {k : Kind} {annotate : Parser Info} {finish : Info → β}
    (h : Treads tokens flags n annotate) :
    Treads tokens flags n (require k >>= fun _ => annotate >>= fun info => pure (finish info)) :=
  (treads_require k).bind fun _ => h.bind fun _ => .pure _

theorem treads_consumed {rest : Parser β} (ht : a.next? tokens = some t) (hn : n ≤ a.cursor)
    (hrest : Treads tokens flags (n + 1) rest) :
    Runs tokens flags a (consume >>= fun _ => rest) fun _ b => Along tokens a b :=
  (runs_consume_next ht).bind fun _ b hb => by
    obtain ⟨-, rfl⟩ := hb
    exact hrest.behind ht hn

theorem treads_opened {rest : List Token → Parser β} (ht : a.next? tokens = some t)
    (hn : n ≤ a.cursor) (hrest : ∀ comments, Treads tokens flags (n + 1) (rest comments)) :
    Runs tokens flags a (consume >>= fun _ => claimComments >>= rest)
      fun _ b => Along tokens a b :=
  treads_consumed ht hn (treads_claimComments.bind hrest)

section

variable {type : Parser (Option (TypeExpression Info))}

theorem treads_type (hbuilds : BuildsTypes tokens flags n type) (h : Treads tokens flags n type) :
    Treads tokens flags n (required type .missingType .missing) :=
  (h.seeks (d := .type) hbuilds fun _ => id).required rfl _

theorem treads_singleType (hbuilds : BuildsTypes tokens flags (n + 1) type)
    (h : Treads tokens flags (n + 1) type) : Treads tokens flags n (singleType type) := by
  have hinner := treads_type hbuilds h
  intro a ha
  refine runs_nextToken.bind fun t? b hb => ?_
  obtain ⟨rfl, rfl⟩ := hb
  cases ht : b.next? tokens with
  | none => exact .pure (.refl b)
  | some t =>
    dsimp only
    split
    · exact treads_opened ht ha fun comments => .pure _
    · refine treads_opened ht ha fun comments => ?_
      refine (treads_items rfl (treads_field hinner _)).bind fun fields => ?_
      exact treads_closing (treads_infoFrom _ _)
    · refine treads_opened ht ha fun comments => hinner.bind fun inner => ?_
      exact treads_closing (treads_infoFrom _ _)
    · exact .pure (.refl b)

theorem treads_arrayTurn (element : TypeExpression Info) :
    Treads tokens flags n (arrayTurn element) := (treads_accept _).bind fun t? => by
  cases t? with
  | none => exact .pure _
  | some t => exact treads_closing (treads_infoAfter _)

theorem treads_arrayOrSingle (hbuilds : BuildsTypes tokens flags (n + 1) type)
    (h : Treads tokens flags (n + 1) type) : Treads tokens flags n (arrayOrSingle type) :=
  (treads_singleType hbuilds h).bind fun atom? => by
    cases atom? with
    | none => exact .pure _
    | some atom => exact (Treads.loop treads_arrayTurn atom).map some

theorem treads_typeAlternatives (hbuilds : BuildsTypes tokens flags (n + 1) type)
    (h : Treads tokens flags (n + 1) type) : Treads tokens flags n (typeAlternatives type) := by
  have hmember := treads_type (builds_arrayOrSingle hbuilds) (treads_arrayOrSingle hbuilds h)
  refine Treads.bind (Treads.loop (fun members => ?_) #[]) fun _ => .pure _
  refine (treads_accept _).bind fun t? => ?_
  cases t? with
  | none => exact .pure _
  | some t => exact hmember.bind fun _ => .pure _

theorem treads_typeUnion (hbuilds : BuildsTypes tokens flags (n + 1) type)
    (h : Treads tokens flags (n + 1) type) : Treads tokens flags n (typeUnion type) :=
  (treads_arrayOrSingle hbuilds h).bind fun head? => by
    cases head? with
    | none => exact .pure _
    | some head =>
      refine (treads_isNext _).bind fun x => ?_
      split
      · exact (treads_typeAlternatives hbuilds h).bind fun _ =>
          (treads_infoAfter _).bind fun _ => .pure _
      · exact .pure _

end

theorem treads_typeWithin (depth : Nat) (h : tokens.size < n + depth) :
    Treads tokens flags n (typeWithin depth) := by
  induction depth generalizing n with
  | zero => exact .pure none
  | succ depth ih =>
    have hinner : tokens.size < n + 1 + depth := by omega
    exact (treads_typeUnion (builds_typeWithin depth hinner) (ih hinner)).remembered

theorem treads_requiredType : Treads tokens flags n requiredType :=
  treads_type builds_typeExpression fun _ ha => runs_maxDepth.bind fun depth b hb => by
    obtain ⟨rfl, rfl⟩ := hb
    exact treads_typeWithin _ (by omega) b ha

theorem treads_markedType (k : Kind) : Treads tokens flags n
    (do
      match ← accept k with
      | some _ => return some (← requiredType)
      | none => return none : Parser (Option (TypeExpression Info))) :=
  (treads_accept k).bind fun t? => by
    cases t? with
    | none => exact .pure _
    | some t => exact treads_requiredType.bind fun _ => .pure _

abbrev TreadsExpressions (tokens : Array Token) (n : Nat) (rule : ExpressionRule) : Prop :=
  ∀ flags, Treads tokens flags n rule

section

variable {expression : ExpressionRule}

theorem treads_operand (hbuilds : BuildsExpressions tokens n expression)
    (h : TreadsExpressions tokens n expression) :
    Treads tokens flags n (required expression .missingExpression .missing) :=
  ((h flags).seeks (d := .expression flags) (hbuilds flags) fun _ => id).required rfl _

theorem treads_parenthesized (hbuilds : BuildsExpressions tokens (n + 1) expression)
    (h : TreadsExpressions tokens (n + 1) expression) (ht : a.next? tokens = some t)
    (hn : n ≤ a.cursor) :
    Runs tokens flags a (parenthesized expression t) fun _ b => Along tokens a b :=
  treads_opened ht hn fun _ => (treads_operand hbuilds h).underFlags.bind fun _ =>
    treads_closing (treads_infoFrom _ _)

theorem treads_arrayLiteral (h : TreadsExpressions tokens (n + 1) expression)
    (ht : a.next? tokens = some t) (hn : n ≤ a.cursor) :
    Runs tokens flags a (arrayLiteral expression t) fun _ b => Along tokens a b :=
  treads_opened ht hn fun _ => (treads_items rfl (h _)).underFlags.bind fun _ =>
    treads_closing (treads_infoFrom _ _)

theorem treads_objectLiteral (hbuilds : BuildsExpressions tokens (n + 1) expression)
    (h : TreadsExpressions tokens (n + 1) expression) (ht : a.next? tokens = some t)
    (hn : n ≤ a.cursor) :
    Runs tokens flags a (objectLiteral expression t) fun _ b => Along tokens a b :=
  treads_opened ht hn fun _ =>
    (treads_items rfl (treads_field (treads_operand hbuilds h) _)).underFlags.bind fun _ =>
      treads_closing (treads_infoFrom _ _)

theorem treads_atom (hbuilds : BuildsExpressions tokens (n + 1) expression)
    (h : TreadsExpressions tokens (n + 1) expression) :
    Treads tokens flags n (atom expression) := by
  intro a ha
  refine runs_nextToken.bind fun t? b hb => ?_
  obtain ⟨rfl, rfl⟩ := hb
  cases ht : b.next? tokens with
  | none => exact .pure (.refl b)
  | some t =>
    dsimp only
    split
    · exact (treads_parenthesized hbuilds h ht ha).map fun _ _ hx => hx
    · exact (treads_arrayLiteral h ht ha).map fun _ _ hx => hx
    · refine runs_flags.bind fun f c hc => ?_
      obtain ⟨rfl, rfl⟩ := hc
      split
      · exact .pure (.refl c)
      · refine (runs_objectAhead _).bind fun x d hd => ?_
        obtain ⟨rfl, rfl⟩ := hd
        split
        · exact (treads_objectLiteral hbuilds h ht ha).map fun _ _ hx => hx
        · exact .pure (.refl d)
    · split
      · exact .pure (.refl b)
      · exact (treads_consume b ha).bind fun _ c hc =>
          (treads_claimComments.after hc ha).bind fun _ _ hd => .pure hd

theorem treads_postfixTurn (hbuilds : BuildsExpressions tokens (n + 1) expression)
    (h : TreadsExpressions tokens (n + 1) expression) (base : Expression Info) :
    Treads tokens flags n (postfixTurn expression base) := by
  intro a ha
  refine runs_nextKind.bind fun k? b hb => ?_
  obtain ⟨rfl, rfl⟩ := hb
  split
  · exact (treads_consume.bind fun _ => treads_requiredIdentifier.bind fun name =>
      (treads_infoAfter _).bind fun _ => .pure _) b ha
  next hkind =>
    obtain ⟨t, ht, -⟩ := Option.map_eq_some_iff.mp hkind
    exact treads_consumed ht ha <| (treads_items rfl (h _)).underFlags.bind fun arguments =>
      treads_closing (treads_infoAfter _)
  next hkind =>
    obtain ⟨t, ht, -⟩ := Option.map_eq_some_iff.mp hkind
    exact treads_consumed ht ha <| (treads_operand hbuilds h).underFlags.bind fun place =>
      treads_closing (treads_infoAfter _)
  · exact .pure (.refl b)

theorem treads_postfixed (hbuilds : BuildsExpressions tokens (n + 1) expression)
    (h : TreadsExpressions tokens (n + 1) expression) :
    TreadsExpressions tokens n (postfixed expression) := fun flags =>
  (treads_atom hbuilds h).bind fun base? => by
    cases base? with
    | none => exact .pure _
    | some base => exact (Treads.loop (treads_postfixTurn hbuilds h) base).map some

end

theorem treads_signs : Treads tokens flags n signs :=
  .loop (fun found => treads_nextKind.bind fun k? => by
    cases k?.bind UnaryOperator.ofKind? with
    | none => exact .pure _
    | some operator =>
      refine treads_consume.bind fun t? => ?_
      cases t? with
      | none => exact .pure _
      | some t => exact treads_claimComments.bind fun _ => .pure _) []

theorem treads_applySigns (operand : Expression Info) (found : List Sign) :
    Treads tokens flags n (applySigns operand found) := by
  induction found generalizing operand with
  | nil => exact .pure operand
  | cons s rest ih => exact (treads_infoFrom _ _).bind fun info => ih _

theorem treads_unary {operand : ExpressionRule}
    (hbuilds : ∀ flags, Builds tokens flags n
      (fun i => startsAtom flags (kindsFrom tokens i) = true) Expression.outline operand)
    (h : TreadsExpressions tokens n operand) : TreadsExpressions tokens n (unary operand) := by
  intro flags a ha
  refine ((treads_signs a ha).both runs_signs).bind fun found b hb => ?_
  obtain ⟨halong, -, hnone⟩ := hb
  have hn : n ≤ b.cursor := Nat.le_trans ha halong.le
  cases found with
  | nil => exact (h flags).after halong ha
  | cons s rest =>
    have hinner : Runs tokens flags b (required operand .missingExpression .missing)
        fun _ c => Along tokens a c := by
      refine runs_demand (d := .expression flags) ?_ rfl
      refine (((h flags).after halong ha).both (hbuilds flags b hn)).weaken fun x? c hx => ?_
      obtain ⟨hx, hanswer⟩ := hx
      refine ⟨hx, fun hx? hmet => ?_⟩
      subst hx?
      obtain ⟨rfl, hnot⟩ := hanswer
      -- Behind the prefix operators there is no further one, so an expression would be an atom.
      have hstarts : startsExpression flags (kindsFrom tokens c.cursor) = true := hmet
      rw [startsExpression, hnone, Bool.false_or] at hstarts
      exact hnot hstarts
    exact hinner.bind fun inner c hc =>
      ((treads_applySigns inner (s :: rest)).after hc ha).map fun _ _ hd => hd

section

variable {level : Precedence} {operand : ExpressionRule}

theorem runs_warnMixed_along {chain : Chain} {operator : BinaryOperator}
    (h : Along tokens a b) (ht : Latest tokens b.cursor t) (hkind : t.kind = operator.kind) :
    Runs tokens flags b (warnMixed chain operator t) fun _ c => Along tokens a c := by
  unfold warnMixed
  split
  · split
    next hmixed =>
      simp only [Bool.and_eq_true, decide_eq_true_eq] at hmixed
      refine (runs_report _ _ _).bind fun _ c hc => .pure ?_
      subst hc
      exact h.report (.mixed ht hkind hmixed.1.2)
    · exact .pure h
  · exact .pure h

theorem treads_chainTurn (hbuilds : BuildsExpressions tokens n operand)
    (h : TreadsExpressions tokens n operand) (chain : Chain) :
    Treads tokens flags n (chainTurn level operand chain) := by
  intro a ha
  refine runs_nextKind.bind fun k? b hb => ?_
  obtain ⟨rfl, rfl⟩ := hb
  cases hoperator : ((b.next? tokens).map Token.kind).bind BinaryOperator.ofKind? with
  | none => exact .pure (.refl b)
  | some operator =>
    dsimp only
    split
    · exact .pure (.refl b)
    · obtain ⟨k, hk, hoperator⟩ := Option.bind_eq_some_iff.mp hoperator
      obtain ⟨t, ht, rfl⟩ := Option.map_eq_some_iff.mp hk
      refine (runs_consume_next ht).bind fun t? c hc => ?_
      obtain ⟨rfl, rfl⟩ := hc
      refine (runs_warnMixed_along (.past ht) (Trail.latest_past ht)
        (BinaryOperator.kind_of_ofKind? hoperator).symm).bind fun warned d hd => ?_
      refine ((treads_operand hbuilds h).after hd ha).bind fun right e he => ?_
      exact ((treads_infoAfter _).after he ha).bind fun _ _ hf => .pure hf

theorem treads_binary (hbuilds : BuildsExpressions tokens n operand)
    (h : TreadsExpressions tokens n operand) :
    TreadsExpressions tokens n (binary level operand) := fun flags =>
  (h flags).bind fun left? => by
    cases left? with
    | none => exact .pure _
    | some left => exact (Treads.loop (treads_chainTurn hbuilds h) _).bind fun _ => .pure _

end

theorem treads_operators {expression : ExpressionRule}
    (hbuilds : BuildsExpressions tokens (n + 1) expression)
    (h : TreadsExpressions tokens (n + 1) expression) :
    TreadsExpressions tokens n (operators expression) := by
  have hunary : BuildsExpressions tokens n (unary (postfixed expression)) :=
    builds_unary fun _ => builds_postfixed hbuilds
  exact treads_binary (builds_binary <| builds_binary <| builds_binary hunary) <|
    treads_binary (builds_binary <| builds_binary hunary) <|
    treads_binary (builds_binary hunary) <| treads_binary hunary <|
    treads_unary (fun _ => builds_postfixed hbuilds) (treads_postfixed hbuilds h)

theorem treads_expressionWithin (depth : Nat) (h : tokens.size < n + depth) :
    TreadsExpressions tokens n (expressionWithin depth) := by
  induction depth generalizing n with
  | zero => exact fun _ => .pure none
  | succ depth ih =>
    have hinner : tokens.size < n + 1 + depth := by omega
    exact fun flags => (treads_operators (builds_expressionWithin depth hinner) (ih hinner)
      flags).remembered

theorem treads_expression : TreadsExpressions tokens n expression := fun _ _ ha =>
  runs_maxDepth.bind fun depth b hb => by
    obtain ⟨rfl, rfl⟩ := hb
    exact treads_expressionWithin _ (by omega) _ b ha

theorem treads_requiredExpression : Treads tokens flags n requiredExpression :=
  treads_operand builds_expression treads_expression

end Grammar

end Reparse
