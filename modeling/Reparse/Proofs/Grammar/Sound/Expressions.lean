import Reparse.Proofs.Grammar.Sound.Types

/-!
# Soundness of the grammar of expressions

A rule for expressions gives grammatical ones that hold together as tightly as the rule says. Where
a block may follow, none of them has an open object literal.
-/

namespace Reparse

open Reparse.Parser

variable {α β : Type} {tokens : Array Token} {flags : Flags} {given : Prop} {before : List Word}

namespace Expression

def Fits (flags : Flags) (least : Nat) (e : Expression α) : Prop :=
  e.isGrammatical = true ∧ least ≤ e.strength ∧ (flags.noObject = true → e.hasOpenObject = false)

theorem Fits.mono {least least' : Nat} {e : Expression α} (h : e.Fits flags least)
    (hle : least' ≤ least) : e.Fits flags least' := ⟨h.1, Nat.le_trans hle h.2.1, h.2.2⟩

theorem spellings_eq (es : List (Expression α)) : spellings es = es.map spelling := by
  induction es with
  | nil => rfl
  | cons e es ih => rw [spellings, ih, List.map_cons]

theorem fieldSpellings_eq (fields : List (Field α (Expression α))) :
    fieldSpellings fields = fields.map (Field.slots spelling) := by
  induction fields with
  | nil => rfl
  | cons field fields ih =>
    rw [fieldSpellings, ih, List.map_cons]
    rfl

theorem areGrammatical_of {es : List (Expression α)} {least : Nat}
    (h : ∀ e ∈ es, e.Fits flags least) : areGrammatical es = true := by
  induction es with
  | nil => rfl
  | cons e es ih =>
    obtain ⟨he, hes⟩ := List.forall_mem_cons.mp h
    simp [areGrammatical, he.1, ih hes]

theorem areFields_of {fields : List (Field α (Expression α))} {least : Nat}
    (h : ∀ f ∈ fields, f.Fits (Fits flags least)) : areFields fields = true := by
  induction fields with
  | nil => rfl
  | cons field fields ih =>
    obtain ⟨hfield, hfields⟩ := List.forall_mem_cons.mp h
    simp [areFields, hfield.1, hfield.2.1, ih hfields]

end Expression

namespace Grammar

theorem written_wordOf? {t : Token} {info : Info} {e : Expression Info} (ht : t.word.Proper)
    (h : wordOf? t info = some e) (rest : List Word) :
    Written (Expression.Fits flags 5) Expression.spelling (t.word :: rest) e rest := by
  have hword : ∀ k, t.kind = k → k.spelling?.isSome = true → t.word = .mark k :=
    fun k hk hs => ht.eq_mark hk hs
  unfold wordOf? at h
  split at h
  next hk =>
    cases h
    refine ⟨⟨rfl, Nat.le_refl 5, fun _ => rfl⟩, ?_⟩
    rw [Token.word, hk]
    exact .one _ _
  next hk =>
    cases h
    refine ⟨⟨rfl, Nat.le_refl 5, fun _ => rfl⟩, ?_⟩
    rw [Token.word, hk]
    exact .one _ _
  next hk =>
    cases h
    refine ⟨⟨rfl, Nat.le_refl 5, fun _ => rfl⟩, ?_⟩
    rw [Token.word, hk]
    exact .string .nil
  next hk =>
    cases h
    rw [hword _ hk rfl]
    exact ⟨⟨rfl, Nat.le_refl 5, fun _ => rfl⟩, .one _ _⟩
  next hk =>
    cases h
    rw [hword _ hk rfl]
    exact ⟨⟨rfl, Nat.le_refl 5, fun _ => rfl⟩, .one _ _⟩
  next hk =>
    cases h
    rw [hword _ hk rfl]
    exact ⟨⟨rfl, Nat.le_refl 5, fun _ => rfl⟩, .one _ _⟩
  next hk =>
    cases h
    refine ⟨⟨rfl, Nat.le_refl 5, fun _ => rfl⟩, ?_⟩
    rw [Token.word, hk]
    exact .one _ _
  next => cases h

theorem isNone_wordOf? (t : Token) (info info' : Info) :
    (wordOf? t info).isNone = (wordOf? t info').isNone := by
  unfold wordOf?
  split <;> rfl

theorem reads_objectAhead (allowEmpty : Bool) :
    Reads tokens flags given before (objectAhead allowEmpty) fun b after =>
      after = before ∧ (b = true → allowEmpty = false → lead before.tail = some .identifier) := by
  refine (Reads.tentatively
    (Q := fun b _ => b = true → allowEmpty = false → lead before.tail = some .identifier)
    ?_ ?_).weaken (fun h => h) fun _ b after h => ⟨h.1, h.2.choose_spec⟩
  · refine reads_consume.bind fun t? here => reads_nextKind.bind fun k? here' => ?_
    have htail : given ∧ Taken before t? here → here = before.tail := by
      rintro ⟨-, h⟩
      cases t? with
      | none => rw [h.1, h.2]; rfl
      | some t => rw [h.2]; rfl
    split
    · exact .pure fun _ hb hempty => absurd (hb.symm.trans hempty) (by decide)
    · refine reads_consume.bind fun _ _ => (reads_isNext _).weaken (fun h => h) ?_
      rintro ⟨⟨htaken, -, hlead⟩, -⟩ _ _ _ _ _
      rw [← htail htaken, ← hlead]
    · exact .pure fun _ hb => (Bool.false_ne_true hb).elim
  · intro c s
    rw [eval_bind, eval_bind]
    have hconsume := reports_consume c s
    split
    · exact hconsume
    · exact (reports_consume c _).trans hconsume
    · exact hconsume

def ReadsExpressions (tokens : Array Token) (least : Nat) (rule : ExpressionRule) : Prop :=
  ∀ flags here, Reads tokens flags True here rule
    (Yields (Written (Expression.Fits flags least) Expression.spelling here) here)

section

variable {expression : ExpressionRule}

theorem reads_bracketed (hexpression : ReadsExpressions tokens 0 expression) :
    Reads tokens flags given before
      (inBrackets (required expression .missingExpression .missing))
      (Written (fun e => e.isGrammatical = true) Expression.spelling before) :=
  Reads.underFlags ((reads_required (hexpression _ _) rfl).weaken (fun _ => trivial)
    fun _ _ _ h => ⟨h.1.1, h.2⟩)

theorem reads_parenthesized (hexpression : ReadsExpressions tokens 0 expression) (t : Token) :
    Reads tokens flags (lead before = some .leftParen) before (parenthesized expression t)
      (Written (Expression.Fits flags 5) Expression.spelling before) := by
  refine reads_consume.bind fun _ _ => reads_claimComments.bind fun comments _ => ?_
  refine (reads_bracketed hexpression).bind fun inner _ => (reads_require rfl).bind fun _ _ => ?_
  refine (reads_infoFrom t comments).bind fun info _ => .pure ?_
  rintro ⟨⟨⟨⟨⟨hlead, htaken⟩, rfl⟩, hok, hinner⟩, -, rfl⟩, rfl⟩
  rw [htaken.mark hlead rfl]
  exact ⟨⟨hok, Nat.le_refl 5, fun _ => rfl⟩, hinner.mark.snoc⟩

theorem reads_arrayLiteral (hexpression : ReadsExpressions tokens 0 expression) (t : Token) :
    Reads tokens flags (lead before = some .leftBracket) before (arrayLiteral expression t)
      (Written (Expression.Fits flags 5) Expression.spelling before) := by
  refine reads_consume.bind fun _ _ => reads_claimComments.bind fun comments _ => ?_
  refine Reads.bind (Reads.underFlags (reads_commas rfl rfl fun here =>
    (hexpression _ here).under fun _ => trivial)) fun elements _ => ?_
  refine (reads_require rfl).bind fun _ _ => (reads_infoFrom t comments).bind fun info _ => .pure ?_
  rintro ⟨⟨⟨⟨⟨hlead, htaken⟩, rfl⟩, hok, helements, -⟩, -, rfl⟩, rfl⟩
  rw [htaken.mark hlead rfl]
  refine ⟨⟨Expression.areGrammatical_of hok, Nat.le_refl 5, fun _ => rfl⟩, ?_⟩
  rw [Expression.spelling, Expression.spellings_eq]
  exact helements.mark.snoc

theorem reads_objectLiteral (hexpression : ReadsExpressions tokens 0 expression) (t : Token) :
    Reads tokens flags (lead before = some .leftBrace ∧ flags.noObject = false) before
      (objectLiteral expression t)
      (Written (Expression.Fits flags 5) Expression.spelling before) := by
  refine reads_consume.bind fun _ _ => reads_claimComments.bind fun comments _ => ?_
  refine Reads.bind (Reads.underFlags (reads_commas rfl rfl fun here => reads_field fun here =>
    reads_required (hexpression _ here) rfl)) fun fields _ => ?_
  refine (reads_require rfl).bind fun _ _ => (reads_infoFrom t comments).bind fun info _ => .pure ?_
  rintro ⟨⟨⟨⟨⟨⟨hlead, hopen⟩, htaken⟩, rfl⟩, hok, hfields, -⟩, -, rfl⟩, rfl⟩
  rw [htaken.mark hlead rfl]
  refine ⟨⟨Expression.areFields_of hok, Nat.le_refl 5, fun h => ?_⟩, ?_⟩
  · exact (Bool.false_ne_true (hopen.symm.trans h)).elim
  · rw [Expression.spelling, Expression.fieldSpellings_eq]
    exact hfields.mark.snoc

theorem reads_atom (hexpression : ReadsExpressions tokens 0 expression) :
    ReadsExpressions tokens 5 (atom expression) := by
  intro flags before
  refine reads_nextToken.bind fun t? _ => ?_
  cases t? with
  | none => exact .pure fun h => h.2.1
  | some t =>
    dsimp only
    split
    next hkind =>
      refine Reads.map ((reads_parenthesized hexpression t).under ?_) ?_
      · rintro ⟨-, rfl, hcomes⟩
        exact hcomes.lead.trans (congrArg some hkind)
      · rintro ⟨-, rfl, -⟩ _ _ h
        exact h
    next hkind =>
      refine Reads.map ((reads_arrayLiteral hexpression t).under ?_) ?_
      · rintro ⟨-, rfl, hcomes⟩
        exact hcomes.lead.trans (congrArg some hkind)
      · rintro ⟨-, rfl, -⟩ _ _ h
        exact h
    next hkind =>
      refine reads_flags.bind fun f _ => ?_
      split
      · exact .pure fun h => h.2.2.trans h.1.2.1
      next hopen =>
        refine (reads_objectAhead true).bind fun b _ => ?_
        cases b with
        | false => exact .pure fun h => h.2.1.trans (h.1.2.2.trans h.1.1.2.1)
        | true =>
          refine Reads.map ((reads_objectLiteral hexpression t).under ?_) ?_
          · rintro ⟨⟨⟨-, rfl, hcomes⟩, rfl, rfl⟩, rfl, -⟩
            exact ⟨hcomes.lead.trans (congrArg some hkind), Bool.eq_false_iff.mpr hopen⟩
          · rintro ⟨⟨⟨-, rfl, -⟩, -, rfl⟩, rfl, -⟩ _ _ h
            exact h
    next =>
      split
      · exact .pure fun h => h.2.1
      next hword =>
        refine reads_consume.bind fun _ _ => reads_claimComments.bind fun comments _ => .pure ?_
        rintro ⟨⟨⟨-, rfl, hcomes⟩, htaken⟩, rfl⟩
        cases he : wordOf? t { extent? := some (.single t), comments } with
        | none =>
          rw [isNone_wordOf? t {} { extent? := some (.single t), comments }, he] at hword
          exact (hword rfl).elim
        | some e =>
          rw [htaken.next hcomes]
          exact written_wordOf? hcomes.1 he _

theorem reads_postfixTurn (hexpression : ReadsExpressions tokens 0 expression)
    (base : Expression Info) (here : List Word) :
    Reads tokens flags
      (given ∧ Written (Expression.Fits flags 5) Expression.spelling before base here) here
      (postfixTurn expression base)
      (Turned (Written (Expression.Fits flags 5) Expression.spelling before)
        (Written (Expression.Fits flags 5) Expression.spelling before)) := by
  refine reads_nextKind.bind fun k? _ => ?_
  split
  · refine reads_consume.bind fun _ _ => reads_requiredIdentifier.bind fun name _ => ?_
    refine (reads_infoAfter _).bind fun info _ => .pure ?_
    rintro ⟨⟨⟨⟨⟨-, ⟨hok, hleast, hopen⟩, hbase⟩, rfl, hlead⟩, htaken⟩, hnamed, hname⟩, rfl⟩
    rw [htaken.mark hlead.symm rfl] at hbase
    refine ⟨⟨?_, Nat.le_refl 5, hopen⟩, hbase.append hname.mark⟩
    have hnamed : name.isNamed = true := hnamed
    simp [Expression.isGrammatical, hok, hleast, hnamed]
  · refine reads_consume.bind fun _ _ => ?_
    refine Reads.bind (Reads.underFlags (reads_commas rfl rfl fun here =>
      (hexpression _ here).under fun _ => trivial)) fun arguments _ => ?_
    refine (reads_require rfl).bind fun _ _ => (reads_infoAfter _).bind fun info _ => .pure ?_
    rintro ⟨⟨⟨⟨⟨⟨-, ⟨hok, hleast, hopen⟩, hbase⟩, rfl, hlead⟩, htaken⟩, harguments, -, hspells⟩,
      -, rfl⟩, rfl⟩
    rw [htaken.mark hlead.symm rfl] at hbase
    refine ⟨⟨?_, Nat.le_refl 5, hopen⟩, ?_⟩
    · simp [Expression.isGrammatical, hok, hleast, Expression.areGrammatical_of harguments]
    · rw [Expression.spelling, Expression.spellings_eq]
      exact (hbase.append (hspells rfl _ rfl rfl).mark).snoc
  · refine reads_consume.bind fun _ _ => (reads_bracketed hexpression).bind fun place _ => ?_
    refine (reads_require rfl).bind fun _ _ => (reads_infoAfter _).bind fun info _ => .pure ?_
    rintro ⟨⟨⟨⟨⟨⟨-, ⟨hok, hleast, hopen⟩, hbase⟩, rfl, hlead⟩, htaken⟩, hindex, hplace⟩, -, rfl⟩,
      rfl⟩
    rw [htaken.mark hlead.symm rfl] at hbase
    refine ⟨⟨?_, Nat.le_refl 5, hopen⟩, (hbase.append hplace.mark).snoc⟩
    simp [Expression.isGrammatical, hok, hleast, hindex]
  · refine .pure ?_
    rintro ⟨⟨-, hbase⟩, rfl, -⟩
    exact hbase

theorem reads_postfixed (hexpression : ReadsExpressions tokens 0 expression) :
    ReadsExpressions tokens 5 (postfixed expression) := by
  intro flags before
  refine (reads_atom hexpression flags before).bind fun base? _ => ?_
  cases base? with
  | none => exact .pure fun h => h.2
  | some base =>
    exact Reads.map (reads_loop_keeps (fun h => h.2) fun base here =>
      reads_postfixTurn hexpression base here) fun _ _ _ h => h

end

def Sign.slots (found : List Sign) : List Slot :=
  found.reverse.map fun s => .mark s.operator.kind

theorem Sign.slots_cons (s : Sign) (found : List Sign) :
    slots (s :: found) = slots found ++ [.mark s.operator.kind] := by
  simp [slots]

theorem reads_signs : Reads tokens flags given before signs
    fun found after => Spells (Sign.slots found) before after := by
  refine reads_loop_keeps (fun _ => .nil) fun found here => ?_
  refine reads_nextKind.bind fun k? _ => ?_
  cases hop : k?.bind UnaryOperator.ofKind? with
  | none =>
    refine .pure ?_
    rintro ⟨⟨-, hfound⟩, rfl, -⟩
    exact hfound
  | some operator =>
    obtain ⟨k, rfl, hk⟩ := Option.bind_eq_some_iff.mp hop
    have hkind := UnaryOperator.kind_of_ofKind? hk
    refine reads_consume.bind fun t? _ => ?_
    cases t? with
    | none =>
      refine .pure ?_
      rintro ⟨⟨⟨-, hfound⟩, rfl, hlead⟩, rfl, rfl⟩
      exact hfound
    | some token =>
      refine reads_claimComments.bind fun comments _ => .pure ?_
      rintro ⟨⟨⟨⟨-, hfound⟩, rfl, hlead⟩, htaken⟩, rfl⟩
      rw [htaken.mark hlead.symm (by rw [← hkind]; cases operator <;> rfl), ← hkind] at hfound
      simp only [Turned, Sign.slots_cons]
      exact hfound.snoc

theorem reads_applySigns (operand : Expression Info) (found : List Sign) :
    Reads tokens flags given before (applySigns operand found) fun e after =>
      after = before ∧ e.spelling = Sign.slots found ++ operand.spelling ∧
        (∀ least ≤ 4, operand.Fits flags 4 → e.Fits flags least) := by
  induction found generalizing operand given before with
  | nil =>
    exact .pure fun _ => ⟨rfl, rfl, fun least hle h => h.mono hle⟩
  | cons s rest ih =>
    refine (reads_infoFrom s.token s.comments).bind fun info _ => ?_
    refine (ih (.unary s.operator operand info)).weaken (fun h => h) ?_
    rintro ⟨-, rfl⟩ e after ⟨rfl, hspelling, hfits⟩
    refine ⟨rfl, ?_, fun least hle h => hfits least hle ⟨?_, Nat.le_refl 4, h.2.2⟩⟩
    · rw [hspelling, Sign.slots_cons, Expression.spelling, List.append_assoc, List.singleton_append]
    · simp [Expression.isGrammatical, h.1, h.2.1]

variable {operand : ExpressionRule}

theorem reads_unary (hoperand : ReadsExpressions tokens 5 operand) :
    ReadsExpressions tokens 4 (unary operand) := by
  intro flags before
  refine reads_signs.bind fun found _ => ?_
  cases found with
  | nil =>
    refine (hoperand flags _).weaken (fun _ => trivial) ?_
    rintro ⟨-, hfound⟩ e? after h
    cases hfound
    cases e? with
    | none => exact h
    | some e => exact ⟨h.1.mono (Nat.le_succ 4), h.2⟩
  | cons s rest =>
    refine (reads_required ((hoperand flags _).under fun _ => trivial) rfl).bind fun inner _ => ?_
    refine Reads.map (reads_applySigns inner (s :: rest)) ?_
    rintro ⟨⟨-, hfound⟩, hinner, hspells⟩ e after ⟨rfl, hspelling, hfits⟩
    refine ⟨hfits 4 (Nat.le_refl 4) (hinner.mono (Nat.le_succ 4)), ?_⟩
    rw [hspelling]
    exact hfound.append hspells

theorem reads_warnMixed (chain : Chain) (operator : BinaryOperator) (t : Token) :
    Reads tokens flags given before (warnMixed chain operator t) fun _ after => after = before := by
  simp only [warnMixed]
  cases chain.first? with
  | none => exact .pure fun _ => rfl
  | some first =>
    dsimp only
    split
    · exact (reads_warning _ _ _).bind fun _ _ => .pure fun h => h.2
    · exact .pure fun _ => rfl

theorem BinaryOperator.spelled (o : BinaryOperator) : o.kind.spelling?.isSome = true := by
  cases o <;> rfl

theorem reads_chainTurn {level : Precedence}
    (hoperand : ReadsExpressions tokens (level.strength + 1) operand) (chain : Chain)
    (here : List Word) :
    Reads tokens flags
      (given ∧ Written (Expression.Fits flags level.strength) Expression.spelling before chain.left
        here) here
      (chainTurn level operand chain)
      (Turned
        (fun c => Written (Expression.Fits flags level.strength) Expression.spelling before c.left)
        (fun c =>
          Written (Expression.Fits flags level.strength) Expression.spelling before c.left)) := by
  refine reads_nextKind.bind fun k? _ => ?_
  cases hop : k?.bind BinaryOperator.ofKind? with
  | none =>
    refine .pure ?_
    rintro ⟨⟨-, hleft⟩, rfl, -⟩
    exact hleft
  | some operator =>
    obtain ⟨k, rfl, hk⟩ := Option.bind_eq_some_iff.mp hop
    have hkind := BinaryOperator.kind_of_ofKind? hk
    dsimp only
    split
    · refine .pure ?_
      rintro ⟨⟨-, hleft⟩, rfl, -⟩
      exact hleft
    next hlevel =>
      have hlevel : operator.precedence = level := Decidable.not_not.mp hlevel
      refine reads_consume.bind fun t? _ => ?_
      cases t? with
      | none =>
        refine .pure ?_
        rintro ⟨⟨⟨-, hleft⟩, rfl, hlead⟩, rfl, rfl⟩
        exact hleft
      | some token =>
        refine (reads_warnMixed chain operator token).bind fun warned _ => ?_
        refine (reads_required ((hoperand flags _).under fun _ => trivial) rfl).bind fun right _ => ?_
        refine (reads_infoAfter _).bind fun info _ => .pure ?_
        rintro ⟨⟨⟨⟨⟨⟨-, ⟨hleft, hleast, hopen⟩, hspells⟩, rfl, hlead⟩, htaken⟩, rfl⟩,
          ⟨hright, hless, hopen'⟩, hspells'⟩, rfl⟩
        rw [htaken.mark hlead.symm (hkind ▸ BinaryOperator.spelled operator), ← hkind] at hspells
        refine ⟨⟨?_, ?_, fun h => ?_⟩, hspells.append hspells'.mark⟩
        · simp [Expression.isGrammatical, hlevel, hleft, hleast, hright, Nat.lt_of_succ_le hless]
        · exact Nat.le_of_eq (congrArg Precedence.strength hlevel.symm)
        · simp [Expression.hasOpenObject, hopen h, hopen' h]

theorem reads_binary (level : Precedence)
    (hoperand : ReadsExpressions tokens (level.strength + 1) operand) :
    ReadsExpressions tokens level.strength (binary level operand) := by
  intro flags before
  refine (hoperand flags before).bind fun left? _ => ?_
  cases left? with
  | none => exact .pure fun h => h.2
  | some left =>
    refine Reads.bind (reads_loop_keeps ?_ fun chain here =>
      reads_chainTurn hoperand chain here) fun chain _ => .pure fun h => h.2
    rintro ⟨-, hleft, hspells⟩
    exact ⟨hleft.mono (Nat.le_succ _), hspells⟩

theorem reads_operators {expression : ExpressionRule}
    (hexpression : ReadsExpressions tokens 0 expression) :
    ReadsExpressions tokens 0 (operators expression) :=
  reads_binary .logical <| reads_binary .comparison <|
    reads_binary .additive <| reads_binary .multiplicative <|
      reads_unary (reads_postfixed hexpression)

theorem reads_expressionWithin (depth : Nat) :
    ReadsExpressions tokens 0 (expressionWithin depth) := by
  induction depth with
  | zero => exact fun _ _ => .pure fun _ => rfl
  | succ depth ih => exact fun flags here => (reads_operators ih flags here).remembered

theorem reads_expression : ReadsExpressions tokens 0 expression := by
  intro flags before
  refine reads_maxDepth.bind fun depth _ => (reads_expressionWithin depth flags _).weaken
    (fun _ => trivial) ?_
  rintro ⟨-, -, rfl⟩ _ _ h
  exact h

theorem reads_requiredExpression : Reads tokens flags given before requiredExpression
    (Written (Expression.Fits flags 0) Expression.spelling before) :=
  reads_required ((reads_expression flags before).under fun _ => trivial) rfl

end Grammar

end Reparse
