import Reparse.Proofs.Grammar.Build.Types

/-!
# What the rules for expressions build

Whether an expression starts is told by the next token, but for an opening brace: there the two
tokens behind it tell an object literal from a block.
-/

namespace Reparse

open Reparse.Parser

namespace Grammar

variable {tokens : Array Token} {flags : Flags} {a b c : Trail} {n : Nat} {t : Token}
  {claimed : List Token}

def isWord (k : Kind) : Bool :=
  [Kind.integer, .float, .string, .trueWord, .falseWord, .nullWord, .identifier].contains k

def opensObject (allowEmpty : Bool) : List Kind → Bool
  | .rightBrace :: _ => allowEmpty
  | .identifier :: .colon :: _ => true
  | _ => false

def startsAtom (flags : Flags) : List Kind → Bool
  | [] => false
  | .leftBrace :: ks => !flags.noObject && opensObject true ks
  | k :: _ => k = .leftParen || k = .leftBracket || isWord k

def startsExpression (flags : Flags) (ks : List Kind) : Bool :=
  ks.head?.any (fun k => (UnaryOperator.ofKind? k).isSome) || startsAtom flags ks

def kindsFrom (tokens : Array Token) (i : Nat) : List Kind := (reals tokens i).map Token.kind

theorem kindsFrom_of_next (h : a.next? tokens = some t) :
    kindsFrom tokens a.cursor = t.kind :: kindsFrom tokens (a.past tokens).cursor := by
  rw [kindsFrom, reals_of_next h]
  rfl

theorem kindsFrom_of_next_none (h : a.next? tokens = none) : kindsFrom tokens a.cursor = [] := by
  rw [kindsFrom, reals_of_next_none h]
  rfl

theorem head?_kindsFrom (tokens : Array Token) (a : Trail) :
    (kindsFrom tokens a.cursor).head? = (a.next? tokens).map Token.kind := by
  cases h : a.next? tokens with
  | none => rw [kindsFrom_of_next_none h]; rfl
  | some t => rw [kindsFrom_of_next h]; rfl

theorem runs_consume_kinds : Runs tokens flags a consume fun _ b =>
    kindsFrom tokens b.cursor = (kindsFrom tokens a.cursor).tail := by
  refine runs_consume.weaken fun t? b h => ?_
  cases t? with
  | none =>
    obtain ⟨hnext, rfl⟩ := h
    rw [kindsFrom_of_next_none hnext]
    rfl
  | some t =>
    obtain ⟨hnext, rfl⟩ := h
    rw [kindsFrom_of_next hnext]
    rfl

theorem runs_nextKind_kinds : Runs tokens flags a nextKind fun k? b =>
    b = a ∧ k? = (kindsFrom tokens a.cursor).head? :=
  runs_nextKind.weaken fun _ _ h => ⟨h.1, h.2.trans (head?_kindsFrom tokens a).symm⟩

theorem runs_objectAhead (allowEmpty : Bool) :
    Runs tokens flags a (objectAhead allowEmpty) fun x b =>
      b = a ∧ x = opensObject allowEmpty (kindsFrom tokens a.cursor).tail := by
  refine (Runs.tentatively (Q := fun x _ =>
    x = opensObject allowEmpty (kindsFrom tokens a.cursor).tail) ?_).weaken
      fun x b h => ⟨h.1, h.2.choose_spec⟩
  refine runs_consume_kinds.bind fun _ b hb => runs_nextKind_kinds.bind fun k? c hc => ?_
  obtain ⟨rfl, rfl⟩ := hc
  rw [← show kindsFrom tokens c.cursor = (kindsFrom tokens a.cursor).tail from hb]
  cases hkinds : kindsFrom tokens c.cursor with
  | nil => exact .pure rfl
  | cons k ks =>
    simp only [List.head?_cons]
    split
    next heq =>
      cases heq
      exact .pure rfl
    next heq =>
      cases heq
      refine runs_consume_kinds.bind fun _ d hd => runs_nextKind_kinds.bind fun k? e he => .pure ?_
      obtain ⟨rfl, rfl⟩ := he
      rw [hd, hkinds, List.tail_cons]
      cases ks with
      | nil => rfl
      | cons k ks => cases k <;> rfl
    next hbrace hname =>
      refine .pure ?_
      cases k <;> first | rfl | exact absurd rfl hbrace | exact absurd rfl hname

abbrev BuildsExpressions (tokens : Array Token) (n : Nat) (rule : ExpressionRule) : Prop :=
  ∀ flags, Builds tokens flags n (fun i => startsExpression flags (kindsFrom tokens i) = true)
    Expression.outline rule

theorem isSome_wordOf? (t : Token) (info : Info) : (wordOf? t info).isSome = isWord t.kind := by
  unfold wordOf?
  cases t.kind <;> rfl

theorem built_wordOf? {e : Expression Info} (h : Opened tokens a b t claimed)
    (he : wordOf? t ⟨some (.single t), claimed⟩ = some e) : Built tokens a b e.outline := by
  unfold wordOf? at he
  split at he
  case h_7 =>
    cases he
    exact h.named rfl
  case h_8 => cases he
  all_goals
    cases he
    exact h.built _ rfl

section

variable {expression : ExpressionRule}

theorem makes_operand (hexpression : BuildsExpressions tokens n expression) :
    Makes tokens flags n (fun x => [x.outline])
      (required expression .missingExpression .missing) :=
  (hexpression flags).required rfl Outline.absent_expression

theorem makes_bracketed (hexpression : BuildsExpressions tokens n expression) :
    Makes tokens flags n (fun x => [x.outline])
      (inBrackets (required expression .missingExpression .missing)) :=
  (makes_operand hexpression).underFlags

theorem makes_elements (hexpression : BuildsExpressions tokens n expression) {shape : SeriesShape}
    (hshape : shape.resync = none) :
    Makes tokens flags n (fun xs => Expression.outlines xs)
      (inBrackets (items shape expression)) := by
  simp only [Expression.outlines_eq]
  exact (makes_items hshape (hexpression _)).underFlags

theorem runs_parenthesized (hexpression : BuildsExpressions tokens (n + 1) expression)
    (ht : a.next? tokens = some t) (hn : n ≤ a.cursor) :
    Runs tokens flags a (parenthesized expression t) fun x b => Built tokens a b x.outline := by
  refine (runs_opens ht).bind fun _ b hb => hb.claims.bind fun comments c hc => ?_
  refine ((makes_bracketed hexpression).since hc.since hn).bind fun inner d hd => ?_
  exact (hd.require .rightParen).bind fun _ e he => he.closes fun info hnode =>
    .pure (hnode .paren none rfl)

theorem runs_arrayLiteral (hexpression : BuildsExpressions tokens (n + 1) expression)
    (ht : a.next? tokens = some t) (hn : n ≤ a.cursor) :
    Runs tokens flags a (arrayLiteral expression t) fun x b => Built tokens a b x.outline := by
  refine (runs_opens ht).bind fun _ b hb => hb.claims.bind fun comments c hc => ?_
  refine ((makes_elements hexpression rfl).since hc.since hn).bind fun elements d hd => ?_
  exact (hd.require .rightBracket).bind fun _ e he => he.closes fun info hnode =>
    .pure (hnode .array none rfl)

theorem runs_objectLiteral (hexpression : BuildsExpressions tokens (n + 1) expression)
    (ht : a.next? tokens = some t) (hn : n ≤ a.cursor) :
    Runs tokens flags a (objectLiteral expression t) fun x b => Built tokens a b x.outline := by
  have hfields : Makes tokens flags (n + 1) (fun xs => Expression.fieldOutlines xs)
      (inBrackets (items (.commas .rightBrace)
        (field (required expression .missingExpression .missing) .missing))) := by
    simp only [Expression.fieldOutlines_eq]
    exact (makes_items rfl (builds_field ((makes_operand hexpression).mono (Nat.le_succ _))
      Outline.absent_expression rfl)).underFlags
  refine (runs_opens ht).bind fun _ b hb => hb.claims.bind fun comments c hc => ?_
  refine (hfields.since hc.since hn).bind fun fields d hd => ?_
  exact (hd.require .rightBrace).bind fun _ e he => he.closes fun info hnode =>
    .pure (hnode .object none rfl)

theorem runs_objectAtom (hexpression : BuildsExpressions tokens (n + 1) expression)
    (ht : a.next? tokens = some t) (hkind : t.kind = .leftBrace) (hn : n ≤ a.cursor) :
    Runs tokens flags a
      (do
        if (← Parser.flags).noObject then return none
        if ← objectAhead true then some <$> objectLiteral expression t else return none)
      (Answers tokens a (startsAtom flags (kindsFrom tokens a.cursor) = true)
        Expression.outline) := by
  have hstarts : startsAtom flags (kindsFrom tokens a.cursor) =
      (!flags.noObject && opensObject true (kindsFrom tokens a.cursor).tail) := by
    rw [kindsFrom_of_next ht, hkind]
    rfl
  refine runs_flags.bind fun f b hb => ?_
  obtain ⟨rfl, rfl⟩ := hb
  rw [hstarts]
  split
  next hno =>
    refine .pure ⟨rfl, ?_⟩
    simp [hno]
  next hno =>
    refine (runs_objectAhead true).bind fun x c hc => ?_
    obtain ⟨rfl, rfl⟩ := hc
    split
    next hopen =>
      refine (runs_objectLiteral hexpression ht hn).map fun x d hx => ⟨hx, ?_⟩
      simp [hno, hopen]
    next hopen =>
      refine .pure ⟨rfl, ?_⟩
      simp [hopen]

theorem runs_wordAtom (ht : a.next? tokens = some t) :
    Runs tokens flags a
      (do
        if (wordOf? t {}).isNone then return none
        let _ ← consume
        return wordOf? t { extent? := some (.single t), comments := ← claimComments })
      (Answers tokens a (isWord t.kind = true) Expression.outline) := by
  split
  next hword =>
    refine .pure ⟨rfl, ?_⟩
    rw [← isSome_wordOf? t {}, ← Option.not_isNone, hword]
    exact Bool.false_ne_true
  next hword =>
    have hisWord : isWord t.kind = true := by
      rw [← isSome_wordOf? t {}, ← Option.not_isNone, Bool.not_eq_true']
      exact Bool.eq_false_iff.mpr hword
    refine (runs_opens ht).bind fun _ b hb => hb.claims.bind fun comments c hc => .pure ?_
    cases he : wordOf? t ⟨some (.single t), comments⟩ with
    | none =>
      rw [← isSome_wordOf? t ⟨some (.single t), comments⟩, he] at hisWord
      cases hisWord
    | some e => exact ⟨built_wordOf? hc he, hisWord⟩

theorem builds_atom (hexpression : BuildsExpressions tokens (n + 1) expression) :
    Builds tokens flags n (fun i => startsAtom flags (kindsFrom tokens i) = true)
      Expression.outline (atom expression) := by
  intro a ha
  refine runs_nextToken.bind fun t? b h => ?_
  obtain ⟨rfl, rfl⟩ := h
  cases ht : b.next? tokens with
  | none =>
    refine .pure ⟨rfl, ?_⟩
    simp [kindsFrom_of_next_none ht, startsAtom]
  | some t =>
    have hkinds := kindsFrom_of_next ht
    dsimp only
    split
    next hkind =>
      refine (runs_parenthesized hexpression ht ha).map fun x c hx => ⟨hx, ?_⟩
      rw [hkinds, hkind]
      rfl
    next hkind =>
      refine (runs_arrayLiteral hexpression ht ha).map fun x c hx => ⟨hx, ?_⟩
      rw [hkinds, hkind]
      rfl
    next hkind => exact runs_objectAtom hexpression ht hkind ha
    next h₁ h₂ h₃ =>
      have hstarts : startsAtom flags (kindsFrom tokens b.cursor) = isWord t.kind := by
        rw [hkinds, startsAtom]
        · rw [decide_eq_false h₁, decide_eq_false h₂, Bool.or_self, Bool.false_or]
        · exact h₃
      rw [hstarts]
      exact runs_wordAtom ht

theorem runs_postfixTurn (hexpression : BuildsExpressions tokens (n + 1) expression)
    {base : Expression Info} (hbase : Built tokens a b base.outline) (hn : n ≤ a.cursor) :
    Runs tokens flags b (postfixTurn expression base)
      (TurnsTo b.cursor (fun x c => Built tokens a c x.outline)
        fun x c => Built tokens a c x.outline) := by
  have hnb : n ≤ b.cursor := Nat.le_trans hn hbase.advances.le
  refine runs_nextKind.bind fun k? c hc => ?_
  obtain ⟨rfl, rfl⟩ := hc
  split
  next hkind =>
    obtain ⟨t, ht, -⟩ := Option.map_eq_some_iff.mp hkind
    refine (runs_opens ht).bind fun _ d hd => ?_
    refine (makes_requiredIdentifier.since hd.since hnb).bind fun name e he => ?_
    exact hbase.closes base.info?_outline he.advances fun info hnode =>
      .pure ⟨hnode .member none rfl, he.lt⟩
  next hkind =>
    obtain ⟨t, ht, -⟩ := Option.map_eq_some_iff.mp hkind
    refine (runs_opens ht).bind fun _ d hd => ?_
    refine ((makes_elements hexpression rfl).since hd.since hnb).bind fun arguments e he => ?_
    refine (he.require .rightParen).bind fun _ f hf => ?_
    exact hbase.closes base.info?_outline hf.advances fun info hnode =>
      .pure ⟨hnode .invoke none rfl, hf.lt⟩
  next hkind =>
    obtain ⟨t, ht, -⟩ := Option.map_eq_some_iff.mp hkind
    refine (runs_opens ht).bind fun _ d hd => ?_
    refine ((makes_bracketed hexpression).since hd.since hnb).bind fun place e he => ?_
    refine (he.require .rightBracket).bind fun _ f hf => ?_
    exact hbase.closes base.info?_outline hf.advances fun info hnode =>
      .pure ⟨hnode .index none rfl, hf.lt⟩
  next => exact .pure hbase

theorem builds_postfixed (hexpression : BuildsExpressions tokens (n + 1) expression) :
    Builds tokens flags n (fun i => startsAtom flags (kindsFrom tokens i) = true)
      Expression.outline (postfixed expression) := by
  intro a ha
  refine (builds_atom hexpression a ha).bind fun base? b h => ?_
  cases base? with
  | none => exact .pure h
  | some base =>
    obtain ⟨hbase, hstarts⟩ := h
    refine Runs.map (Q := fun x c => Built tokens a c x.outline) ?_ fun _ _ hx => ⟨hx, hstarts⟩
    exact runs_loop (I := fun x c => Built tokens a c x.outline)
      (fun _ _ hx => runs_postfixTurn hexpression hx ha) hbase

end

def Signed (tokens : Array Token) (a : Trail) : List Sign → Trail → Prop
  | [], b => b = a
  | s :: rest, c => ∃ b, Signed tokens a rest b ∧ Since tokens b c s.token s.comments [] ∧
      UnaryOperator.ofKind? s.token.kind = some s.operator

theorem Signed.le {found : List Sign} (h : Signed tokens a found b) : a.cursor ≤ b.cursor := by
  induction found generalizing b with
  | nil => exact Nat.le_of_eq (congrArg Trail.cursor h).symm
  | cons s rest ih =>
    obtain ⟨c, hrest, hsince, -⟩ := h
    exact Nat.le_trans (ih hrest) (Nat.le_of_lt hsince.lt)

theorem Signed.starts {s : Sign} {found : List Sign} (h : Signed tokens a (s :: found) b) :
    startsExpression flags (kindsFrom tokens a.cursor) = true := by
  induction found generalizing s b with
  | nil =>
    obtain ⟨c, rfl, hsince, hsign⟩ := h
    simp [startsExpression, kindsFrom_of_next hsince.first, hsign]
  | cons s rest ih =>
    obtain ⟨c, hrest, -⟩ := h
    exact ih hrest

theorem runs_signs : Runs tokens flags a signs fun found b =>
    Signed tokens a found b ∧ ((kindsFrom tokens b.cursor).head?.any fun k =>
      (UnaryOperator.ofKind? k).isSome) = false := by
  refine runs_loop (I := Signed tokens a) (fun found b hfound => ?_) rfl
  refine runs_nextKind_kinds.bind fun k? c hc => ?_
  obtain ⟨rfl, rfl⟩ := hc
  cases hop : (kindsFrom tokens c.cursor).head?.bind UnaryOperator.ofKind? with
  | none =>
    refine .pure ⟨hfound, ?_⟩
    cases hhead : (kindsFrom tokens c.cursor).head? with
    | none => rfl
    | some k =>
      rw [hhead] at hop
      simpa using hop
  | some operator =>
    rw [head?_kindsFrom] at hop
    obtain ⟨k, hk, hsign⟩ := Option.bind_eq_some_iff.mp hop
    obtain ⟨t, ht, rfl⟩ := Option.map_eq_some_iff.mp hk
    refine (runs_consume_next ht).bind fun t? d hd => ?_
    obtain ⟨rfl, rfl⟩ := hd
    refine (Opened.of_next ht).claims.bind fun comments e he => .pure ?_
    exact ⟨⟨c, hfound, he.since, hsign⟩, he.since.lt⟩

theorem runs_applySigns {s : Sign} {found : List Sign} {operand : Expression Info}
    (hfound : Signed tokens a (s :: found) b)
    (hoperand : Advances tokens b c [] [operand.outline]) :
    Runs tokens flags c (applySigns operand (s :: found)) fun e d =>
      Built tokens a d e.outline := by
  induction found generalizing s operand b with
  | nil =>
    obtain ⟨d, rfl, hsince, -⟩ := hfound
    exact (hsince.trans hoperand).closes fun info hnode => .pure (hnode .unary _ rfl)
  | cons s' rest ih =>
    obtain ⟨d, hrest, hsince, -⟩ := hfound
    exact (hsince.trans hoperand).closes fun info hnode =>
      ih hrest (hnode .unary _ rfl).advances

theorem builds_unary {operand : ExpressionRule}
    (hoperand : ∀ flags, Builds tokens flags n
      (fun i => startsAtom flags (kindsFrom tokens i) = true) Expression.outline operand) :
    BuildsExpressions tokens n (unary operand) := by
  intro flags a ha
  refine runs_signs.bind fun found b h => ?_
  obtain ⟨hfound, hnone⟩ := h
  cases found with
  | nil =>
    obtain rfl : b = a := hfound
    refine (hoperand flags b ha).weaken fun x? c hx => ?_
    have hstarts : startsExpression flags (kindsFrom tokens b.cursor) =
        startsAtom flags (kindsFrom tokens b.cursor) := by
      rw [startsExpression, hnone, Bool.false_or]
    simpa only [hstarts] using hx
  | cons s rest =>
    have hb : n ≤ b.cursor := Nat.le_trans ha hfound.le
    have hinner : Makes tokens flags n (fun x => [Expression.outline x])
        (required operand .missingExpression .missing) :=
      (hoperand flags).required rfl Outline.absent_expression
    refine (hinner b hb).bind fun inner c hc => ?_
    exact (runs_applySigns hfound hc).map fun e d he => ⟨he, hfound.starts⟩

theorem runs_warnMixed (chain : Chain) (operator : BinaryOperator) (token : Token) :
    Runs tokens flags a (warnMixed chain operator token) fun _ b => Advances tokens a b [] [] := by
  unfold warnMixed
  split
  · split
    · refine (runs_report _ _ _).bind fun _ b hb => .pure ?_
      subst hb
      exact .report a rfl
    · exact .pure (.refl a)
  · exact .pure (.refl a)

section

variable {level : Precedence} {operand : ExpressionRule}

theorem runs_chainTurn (hoperand : BuildsExpressions tokens n operand) {chain : Chain}
    (hchain : Built tokens a b chain.left.outline) (hn : n ≤ a.cursor) :
    Runs tokens flags b (chainTurn level operand chain)
      (TurnsTo b.cursor (fun x c => Built tokens a c x.left.outline)
        fun x c => Built tokens a c x.left.outline) := by
  refine runs_nextKind.bind fun k? c hc => ?_
  obtain ⟨rfl, rfl⟩ := hc
  cases ((c.next? tokens).map Token.kind).bind BinaryOperator.ofKind? with
  | none => exact .pure hchain
  | some operator =>
    dsimp only
    split
    · exact .pure hchain
    · refine runs_consume.bind fun t? d hd => ?_
      cases t? with
      | none =>
        obtain ⟨-, rfl⟩ := hd
        exact .pure hchain
      | some token =>
        obtain ⟨ht, rfl⟩ := hd
        refine (runs_warnMixed chain operator token).bind fun warned e he => ?_
        have hsince := (Opened.of_next ht).since.trans he
        have hne : n ≤ e.cursor :=
          Nat.le_trans hn (Nat.le_trans hchain.advances.le (Nat.le_of_lt hsince.lt))
        refine (makes_operand hoperand e hne).bind fun right f hf => ?_
        have hright := hsince.trans hf
        exact hchain.closes chain.left.info?_outline hright.advances fun info hnode =>
          .pure ⟨hnode .binary _ rfl, hright.lt⟩

theorem builds_binary (hoperand : BuildsExpressions tokens n operand) :
    BuildsExpressions tokens n (binary level operand) := by
  intro flags a ha
  refine (hoperand flags a ha).bind fun left? b h => ?_
  cases left? with
  | none => exact .pure h
  | some left =>
    obtain ⟨hleft, hstarts⟩ := h
    refine Runs.bind (Q := fun x c => Built tokens a c x.left.outline) ?_ fun _ _ hx =>
      .pure ⟨hx, hstarts⟩
    exact runs_loop (I := fun x c => Built tokens a c x.left.outline)
      (fun _ _ hx => runs_chainTurn hoperand hx ha) hleft

end

theorem builds_operators {expression : ExpressionRule}
    (hexpression : BuildsExpressions tokens (n + 1) expression) :
    BuildsExpressions tokens n (operators expression) :=
  builds_binary <| builds_binary <| builds_binary <| builds_binary <|
    builds_unary fun _ => builds_postfixed hexpression

theorem builds_expressionWithin (depth : Nat) (h : tokens.size < n + depth) :
    BuildsExpressions tokens n (expressionWithin depth) := by
  induction depth generalizing n with
  | zero => exact fun _ a ha => .within fun hle => absurd (Nat.le_trans ha hle) (Nat.not_le.mpr h)
  | succ depth ih => exact fun flags => (builds_operators (ih (by omega)) flags).remembered

theorem builds_expression : BuildsExpressions tokens n expression := by
  intro flags a ha
  refine runs_maxDepth.bind fun depth b h => ?_
  obtain ⟨rfl, rfl⟩ := h
  exact builds_expressionWithin _ (by omega) flags b ha

theorem makes_requiredExpression :
    Makes tokens flags n (fun x => [x.outline]) requiredExpression :=
  makes_operand builds_expression

end Grammar

end Reparse
