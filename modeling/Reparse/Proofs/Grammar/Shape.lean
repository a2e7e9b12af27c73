import Reparse.Proofs.Grammar.Build.Definitions
import Reparse.Proofs.Parser.Results
import Reparse.Proofs.Tree.Shape

/-!
# The shape of what is parsed

Every rule gives well shaped trees, whatever tokens it meets. A level of operators gives what binds
as tightly as the level does, so it can stand where that is asked for.
-/

namespace Reparse

open Reparse.Parser

variable {β : Type} {tokens : Array Token} {flags : Flags} {a b : Trail}

theorem runs_requiredIdentifier_any :
    Runs tokens flags a Grammar.requiredIdentifier fun _ _ => True :=
  (Grammar.makes_requiredIdentifier a (Nat.zero_le _)).weaken fun _ _ _ => trivial

theorem runs_identifier_any : Runs tokens flags a Grammar.identifier fun _ _ => True :=
  (Grammar.builds_identifier a (Nat.zero_le _)).weaken fun _ _ _ => trivial

theorem runs_keyword_any : Runs tokens flags a Grammar.keyword fun _ _ => True := by
  refine runs_consume.bind fun t? b _ => ?_
  cases t? with
  | none => exact .pure trivial
  | some t => exact runs_claimComments.bind fun _ _ _ => .pure trivial

namespace Grammar

/-- Whatever the rule finds, `P` holds of it. -/
abbrev Affords (tokens : Array Token) (p : Parser (Option β)) (P : β → Prop) : Prop :=
  Ensures tokens p fun x? => ∀ x ∈ x?, P x

theorem affords_none {P : β → Prop} : ∀ y ∈ (none : Option β), P y :=
  fun _ hy => absurd hy (Option.not_mem_none _)

theorem affords_some {P : β → Prop} {x : β} (h : P x) : ∀ y ∈ some x, P y := by
  rintro y hy
  obtain rfl := Option.some.inj hy
  exact h

theorem ensures_behind {P : β → Prop} {value : Parser β} {standIn : β} (mark : Kind)
    (h : Ensures tokens value P) (hstandIn : P standIn) :
    Ensures tokens (behind mark value standIn) P := by
  refine fun flags a => (runs_require mark).bind fun t? b _ => ?_
  cases t? with
  | some t => exact h flags b
  | none => exact .pure hstandIn

theorem affords_field {P : β → Prop} {value : Parser β} {standIn : β}
    (h : Ensures tokens value P) (hstandIn : P standIn) :
    Affords tokens (field value standIn) fun f => P f.value := by
  refine fun flags a => runs_identifier_any.bind fun name? b _ => ?_
  cases name? with
  | none => exact .pure affords_none
  | some name =>
    have hvalue : Ensures tokens (behind .colon value standIn) P := ensures_behind .colon h hstandIn
    refine (hvalue flags b).bind fun value c hvalue => ?_
    exact (runs_infoAfter _).bind fun _ _ _ => .pure (affords_some hvalue)

section

variable {type : Parser (Option (TypeExpression Info))}

theorem affords_singleType (h : Affords tokens type TypeExpression.WellShaped) :
    Affords tokens (singleType type) TypeExpression.Firm := by
  have hinner : Ensures tokens (required type .missingType .missing) TypeExpression.WellShaped :=
    h.required .missing
  refine fun flags a => runs_nextToken.bind fun t? b _ => ?_
  cases t? with
  | none => exact .pure affords_none
  | some t =>
    dsimp only
    split
    · exact runs_consume.bind fun _ _ _ => runs_claimComments.bind fun _ _ _ =>
        .pure (affords_some ⟨.named, rfl, rfl⟩)
    · refine runs_consume.bind fun _ _ _ => runs_claimComments.bind fun _ c _ => ?_
      have hfields := (affords_field hinner .missing).items
        (.commas .rightBrace)
      refine (hfields flags c).bind fun fields _ hf => (runs_require _).bind fun _ _ _ => ?_
      exact (runs_infoFrom _ _).bind fun _ _ _ =>
        .pure (affords_some ⟨.record hf, rfl, rfl⟩)
    · refine runs_consume.bind fun _ _ _ => runs_claimComments.bind fun _ c _ => ?_
      refine (hinner flags c).bind fun inner _ hi => (runs_require _).bind fun _ _ _ => ?_
      exact (runs_infoFrom _ _).bind fun _ _ _ => .pure (affords_some ⟨hi.paren, rfl, rfl⟩)
    · exact .pure affords_none

theorem ensures_arrayTurn {element : TypeExpression Info} (h : element.Firm) :
    Ensures tokens (arrayTurn element) fun t => t.state.Firm := by
  refine fun flags a => (runs_accept _).bind fun t? b _ => ?_
  cases t? with
  | none => exact .pure h
  | some t =>
    exact (runs_require _).bind fun _ _ _ => (runs_infoAfter _).bind fun _ _ _ => .pure h.array

theorem affords_arrayOrSingle (h : Affords tokens type TypeExpression.WellShaped) :
    Affords tokens (arrayOrSingle type) TypeExpression.Firm := by
  refine fun flags a => (affords_singleType h flags a).bind fun atom? b hatom => ?_
  cases atom? with
  | none => exact .pure affords_none
  | some atom =>
    exact (Ensures.loop (fun _ hx => ensures_arrayTurn hx) (hatom atom rfl) flags b).map
      fun _ _ hx => affords_some hx

abbrev FitsUnion (t : TypeExpression Info) : Prop := t.WellShaped ∧ t.isUnion = false

theorem ensures_typeAlternatives (h : Affords tokens type TypeExpression.WellShaped) :
    Ensures tokens (typeAlternatives type) fun ts => ∀ t ∈ ts, FitsUnion t := by
  have hmember : Ensures tokens (required (arrayOrSingle type) .missingType .missing) FitsUnion :=
    Ensures.required (fun flags a => (affords_arrayOrSingle h flags a).weaken fun x? _ hx x hsome =>
      ⟨(hx x hsome).shaped, (hx x hsome).single⟩) ⟨.missing, rfl⟩
  intro flags a
  have hturn : ∀ ts : Array (TypeExpression Info), (∀ t ∈ ts.toList, FitsUnion t) →
      Ensures tokens (memberTurn type ts) fun t => ∀ u ∈ t.state.toList, FitsUnion u := by
    refine fun ts hts flags a => (runs_accept _).bind fun t? b _ => ?_
    cases t? with
    | none => exact .pure hts
    | some t =>
      refine (hmember flags b).bind fun member c hm => .pure ?_
      change ∀ u ∈ (ts.push member).toList, FitsUnion u
      rw [Array.toList_push]
      exact List.forall_mem_append.mpr ⟨hts, List.forall_mem_singleton.mpr hm⟩
  exact (Ensures.loop hturn (x := #[]) (fun _ ht => absurd ht List.not_mem_nil) flags a).bind
    fun _ _ hts => .pure hts

theorem affords_typeUnion (h : Affords tokens type TypeExpression.WellShaped) :
    Affords tokens (typeUnion type) TypeExpression.WellShaped := by
  refine fun flags a => (affords_arrayOrSingle h flags a).bind fun head? b hhead => ?_
  cases head? with
  | none => exact .pure affords_none
  | some head =>
    have hfirm := hhead head rfl
    refine (runs_isNext _).bind fun x c _ => ?_
    split
    · refine (ensures_typeAlternatives h flags c).bind fun rest d hrest => ?_
      refine (runs_infoAfter _).bind fun _ _ _ => .pure (affords_some (.union ?_))
      exact List.forall_mem_cons.mpr ⟨⟨hfirm.shaped, hfirm.single⟩, hrest⟩
    · exact .pure (affords_some hfirm.shaped)

end

theorem affords_typeWithin (depth : Nat) :
    Affords tokens (typeWithin depth) TypeExpression.WellShaped := by
  induction depth with
  | zero => exact fun _ _ => .pure affords_none
  | succ depth ih => exact (affords_typeUnion ih).remembered

theorem affords_typeExpression : Affords tokens typeExpression TypeExpression.WellShaped :=
  fun flags _ => runs_maxDepth.bind fun depth b _ => affords_typeWithin depth flags b

theorem ensures_requiredType : Ensures tokens requiredType TypeExpression.WellShaped :=
  affords_typeExpression.required .missing

section

variable {expression : ExpressionRule}

theorem ensures_operand (h : Affords tokens expression Expression.WellShaped) :
    Ensures tokens (required expression .missingExpression .missing) Expression.WellShaped :=
  h.required .missing

theorem binds_wordOf? {t : Token} {info : Info} {e : Expression Info}
    (he : wordOf? t info = some e) : e.Binds 5 := by
  unfold wordOf? at he
  split at he
  case h_7 =>
    cases he
    exact .name
  case h_8 => cases he
  all_goals
    cases he
    exact .literal

theorem affords_atom (h : Affords tokens expression Expression.WellShaped) :
    Affords tokens (atom expression) (Expression.Binds 5) := by
  refine fun flags a => runs_nextToken.bind fun t? b _ => ?_
  cases t? with
  | none => exact .pure affords_none
  | some t =>
    dsimp only
    split
    · refine Runs.map (Q := fun x _ => x.Binds 5) ?_ fun _ _ hx => affords_some hx
      refine runs_consume.bind fun _ _ _ => runs_claimComments.bind fun _ c _ => ?_
      refine ((ensures_operand h).underFlags _ _ flags c).bind fun inner _ hinner => ?_
      exact (runs_require _).bind fun _ _ _ => (runs_infoFrom _ _).bind fun _ _ _ =>
        .pure hinner.paren
    · refine Runs.map (Q := fun x _ => x.Binds 5) ?_ fun _ _ hx => affords_some hx
      refine runs_consume.bind fun _ _ _ => runs_claimComments.bind fun _ c _ => ?_
      refine ((h.items _).underFlags _ _ flags c).bind fun elements _ helements => ?_
      exact (runs_require _).bind fun _ _ _ => (runs_infoFrom _ _).bind fun _ _ _ =>
        .pure (.array helements)
    · refine runs_flags.bind fun f _ _ => ?_
      split
      · exact .pure affords_none
      · refine (runs_objectAhead _).bind fun x _ _ => ?_
        split
        · refine Runs.map (Q := fun x _ => x.Binds 5) ?_ fun _ _ hx => affords_some hx
          refine runs_consume.bind fun _ _ _ => runs_claimComments.bind fun _ c _ => ?_
          have hfields := (affords_field (ensures_operand h) .missing).items
            (.commas .rightBrace)
          refine (hfields.underFlags _ _ flags c).bind fun fields _ hf => ?_
          exact (runs_require _).bind fun _ _ _ => (runs_infoFrom _ _).bind fun _ _ _ =>
            .pure (.object hf)
        · exact .pure affords_none
    · split
      · exact .pure affords_none
      · exact runs_consume.bind fun _ _ _ => runs_claimComments.bind fun _ _ _ =>
          .pure fun _ he => binds_wordOf? he

theorem ensures_postfixTurn (h : Affords tokens expression Expression.WellShaped)
    {base : Expression Info} (hbase : base.Binds 5) :
    Ensures tokens (postfixTurn expression base) fun t => t.state.Binds 5 := by
  refine fun flags a => runs_nextKind.bind fun k? b _ => ?_
  split
  · exact runs_consume.bind fun _ _ _ => runs_requiredIdentifier_any.bind fun _ _ _ =>
      (runs_infoAfter _).bind fun _ _ _ => .pure hbase.member
  · refine runs_consume.bind fun _ c _ => ?_
    refine ((h.items _).underFlags _ _ flags c).bind fun arguments _ harguments => ?_
    exact (runs_require _).bind fun _ _ _ => (runs_infoAfter _).bind fun _ _ _ =>
      .pure (hbase.invoke harguments)
  · refine runs_consume.bind fun _ c _ => ?_
    refine ((ensures_operand h).underFlags _ _ flags c).bind fun place _ hplace => ?_
    exact (runs_require _).bind fun _ _ _ => (runs_infoAfter _).bind fun _ _ _ =>
      .pure (hbase.index hplace)
  · exact .pure hbase

theorem affords_postfixed (h : Affords tokens expression Expression.WellShaped) :
    Affords tokens (postfixed expression) (Expression.Binds 5) := by
  refine fun flags a => (affords_atom h flags a).bind fun base? b hbase => ?_
  cases base? with
  | none => exact .pure affords_none
  | some base =>
    exact (Ensures.loop (fun _ hx => ensures_postfixTurn h hx) (hbase base rfl) flags b).map
      fun _ _ hx => affords_some hx

end

theorem ensures_signs : Ensures tokens signs fun _ => True := by
  refine Ensures.loop (fun found _ flags a => runs_nextKind.bind fun k? b _ => ?_) trivial
  cases k?.bind UnaryOperator.ofKind? with
  | none => exact .pure trivial
  | some operator =>
    refine runs_consume.bind fun t? c _ => ?_
    cases t? with
    | none => exact .pure trivial
    | some t => exact runs_claimComments.bind fun _ _ _ => .pure trivial

theorem ensures_applySigns {s : Sign} {rest : List Sign} {operand : Expression Info}
    (h : operand.WellShaped) (htight : 4 ≤ operand.strength) :
    Ensures tokens (applySigns operand (s :: rest)) (Expression.Binds 4) := by
  induction rest generalizing s operand with
  | nil => exact fun flags a => (runs_infoFrom _ _).bind fun _ _ _ => .pure (h.unary htight)
  | cons s' rest ih =>
    refine fun flags a => (runs_infoFrom _ _).bind fun info b _ => ?_
    have hunary : (Expression.unary s.operator operand info).Binds 4 := h.unary htight
    exact ih hunary.shaped hunary.tight flags b

theorem ensures_tight {operand : ExpressionRule} {n : Nat} (hn : n ≤ 5)
    (h : Affords tokens operand (Expression.Binds n)) :
    Ensures tokens (required operand .missingExpression .missing)
      fun e => e.WellShaped ∧ n ≤ e.strength :=
  Ensures.required (fun flags a => (h flags a).weaken fun _ _ hx x hsome =>
    ⟨(hx x hsome).shaped, (hx x hsome).tight⟩) ⟨.missing, hn⟩

theorem affords_unary {operand : ExpressionRule} (h : Affords tokens operand (Expression.Binds 5)) :
    Affords tokens (unary operand) (Expression.Binds 4) := by
  refine fun flags a => (ensures_signs flags a).bind fun found b _ => ?_
  cases found with
  | nil => exact (h flags b).weaken fun _ _ hx x hsome => (hx x hsome).mono (by decide)
  | cons s rest =>
    refine (ensures_tight (Nat.le_refl 5) h flags b).bind fun inner c hinner => ?_
    exact (ensures_applySigns hinner.1 (Nat.le_of_succ_le hinner.2) flags c).map
      fun _ _ hx => affords_some hx

theorem runs_warnMixed_any (chain : Chain) (operator : BinaryOperator) (token : Token) :
    Runs tokens flags a (warnMixed chain operator token) fun _ _ => True :=
  (runs_warnMixed chain operator token).weaken fun _ _ _ => trivial

section

variable {level : Precedence} {operand : ExpressionRule}

theorem ensures_chainTurn
    (h : Affords tokens operand (Expression.Binds (level.strength + 1))) {chain : Chain}
    (hchain : chain.left.Binds level.strength) :
    Ensures tokens (chainTurn level operand chain) fun t =>
      t.state.left.Binds level.strength := by
  have hlevel : level.strength + 1 ≤ 5 := by cases level <;> decide
  refine fun flags a => runs_nextKind.bind fun k? b _ => ?_
  cases k?.bind BinaryOperator.ofKind? with
  | none => exact .pure hchain
  | some operator =>
    dsimp only
    split
    · exact .pure hchain
    next heq =>
      obtain rfl : operator.precedence = level := Decidable.of_not_not heq
      refine runs_consume.bind fun t? c _ => ?_
      cases t? with
      | none => exact .pure hchain
      | some token =>
        refine (runs_warnMixed_any _ _ _).bind fun warned d _ => ?_
        refine (ensures_tight hlevel h flags d).bind fun right e hright => ?_
        exact (runs_infoAfter _).bind fun _ _ _ => .pure (hchain.binary hright.1 hright.2)

theorem affords_binary (level : Precedence)
    (h : Affords tokens operand (Expression.Binds (level.strength + 1))) :
    Affords tokens (binary level operand) (Expression.Binds level.strength) := by
  refine fun flags a => (h flags a).bind fun left? b hleft => ?_
  cases left? with
  | none => exact .pure affords_none
  | some left =>
    have hstart : left.Binds level.strength := (hleft left rfl).mono (Nat.le_succ _)
    exact (Ensures.loop (I := fun chain : Chain => chain.left.Binds level.strength)
      (fun _ hx => ensures_chainTurn h hx) (x := { left }) hstart flags b).bind
        fun _ _ hx => .pure (affords_some hx)

end

theorem affords_comparison {expression : ExpressionRule}
    (h : Affords tokens expression Expression.WellShaped) :
    Affords tokens (binary .comparison <| binary .additive <| binary .multiplicative <|
      unary (postfixed expression)) (Expression.Binds 1) :=
  affords_binary .comparison <| affords_binary .additive <| affords_binary .multiplicative <|
    affords_unary (affords_postfixed h)

theorem affords_expressionWithin (depth : Nat) :
    Affords tokens (expressionWithin depth) Expression.WellShaped := by
  induction depth with
  | zero => exact fun _ _ => .pure affords_none
  | succ depth ih =>
    have hlogical := affords_binary .logical (affords_comparison ih)
    exact Ensures.remembered fun flags a => (hlogical flags a).weaken
      fun _ _ hx x hsome => (hx x hsome).shaped

theorem affords_expression : Affords tokens expression Expression.WellShaped :=
  fun flags _ => runs_maxDepth.bind fun depth b _ => affords_expressionWithin depth flags b

theorem ensures_requiredExpression :
    Ensures tokens requiredExpression Expression.WellShaped :=
  ensures_operand affords_expression

theorem ensures_assigned :
    Ensures tokens (behind .assign requiredExpression .missing) Expression.WellShaped :=
  ensures_behind _ ensures_requiredExpression .missing

theorem affords_markedType (k : Kind) :
    Affords tokens
      (do
        match ← accept k with
        | some _ => return some (← requiredType)
        | none => return none) TypeExpression.WellShaped := by
  refine fun flags a => (runs_accept k).bind fun t? b _ => ?_
  cases t? with
  | none => exact .pure affords_none
  | some t => exact (ensures_requiredType flags b).bind fun _ _ h => .pure (affords_some h)

theorem affords_annotation? : Affords tokens annotation? TypeExpression.WellShaped :=
  affords_markedType .colon

theorem affords_declaration : Affords tokens declaration Statement.WellShaped := by
  refine fun flags a => runs_keyword_any.bind fun word? b _ => ?_
  cases word? with
  | none => exact .pure affords_none
  | some word =>
    refine runs_requiredIdentifier_any.bind fun name c _ => ?_
    refine (affords_annotation? flags c).bind fun type? d htype => ?_
    refine (ensures_assigned flags d).bind fun value e hvalue => ?_
    refine (runs_require _).bind fun _ _ _ => (runs_infoFrom _ _).bind fun info _ _ =>
      .pure (affords_some (.of_inner (fun _ => rfl) (List.forall_mem_singleton.mpr hvalue) ?_))
    exact fun t ht => htype t (Option.mem_toList.mp ht)

theorem affords_returned : Affords tokens returned Expression.WellShaped := by
  refine fun flags a => runs_nextKind.bind fun k? b _ => ?_
  split
  · exact .pure affords_none
  · exact .pure affords_none
  · exact .pure affords_none
  · exact affords_expression flags b

theorem affords_returning : Affords tokens returning Statement.WellShaped := by
  refine fun flags a => runs_keyword_any.bind fun word? b _ => ?_
  cases word? with
  | none => exact .pure affords_none
  | some word =>
    refine runs_flags.bind fun f c _ => runs_stray_if fun d _ _ => ?_
    refine (affords_returned flags d).bind fun value? e hvalue => ?_
    refine (runs_require _).bind fun _ _ _ => (runs_infoFrom _ _).bind fun info _ _ =>
      .pure (affords_some (.of_inner (fun _ => rfl) ?_ nofun))
    exact fun e he => hvalue e (Option.mem_toList.mp he)

theorem affords_jump : Affords tokens jump Statement.WellShaped := by
  refine fun flags a => runs_keyword_any.bind fun word? b _ => ?_
  cases word? with
  | none => exact .pure affords_none
  | some word =>
    refine runs_flags.bind fun f c _ => runs_stray_if fun d _ _ => ?_
    refine (runs_require _).bind fun _ _ _ => (runs_infoFrom _ _).bind fun info _ _ =>
      .pure (affords_some ?_)
    split
    · exact .of_inner (fun _ => rfl) nofun nofun
    · exact .of_inner (fun _ => rfl) nofun nofun

theorem ensures_assignable {target : Expression Info} (h : target.WellShaped) :
    Ensures tokens (assignable target) Expression.WellShaped := by
  intro flags a
  unfold assignable
  split
  · exact .pure h
  · cases target.info?.bind Info.extent? with
    | none => exact .pure .missing
    | some extent => exact (runs_report _ _ _).bind fun _ _ _ => .pure .missing

theorem affords_evaluation : Affords tokens evaluation Statement.WellShaped := by
  refine fun flags a => (affords_expression flags a).bind fun value? b hvalue => ?_
  cases value? with
  | none => exact .pure affords_none
  | some value =>
    have hvalue : value.WellShaped := hvalue value rfl
    dsimp only
    cases value.info?.bind Info.extent? with
    | none => exact .pure affords_none
    | some extent =>
      refine (runs_accept _).bind fun t? c _ => ?_
      cases t? with
      | none =>
        exact (runs_require _).bind fun _ _ _ => (runs_infoFrom _ _).bind fun info _ _ =>
          .pure (affords_some (.of_inner (fun _ => rfl) (List.forall_mem_singleton.mpr hvalue)
            nofun))
      | some t =>
        refine (ensures_requiredExpression flags c).bind fun assigned d hassigned => ?_
        refine (ensures_assignable hvalue flags d).bind fun target e htarget => ?_
        exact (runs_require _).bind fun _ _ _ => (runs_infoFrom _ _).bind fun info _ _ =>
          .pure (affords_some (.of_inner (fun _ => rfl)
            (List.forall_mem_cons.mpr ⟨htarget, List.forall_mem_singleton.mpr hassigned⟩) nofun))

section

variable {statement : StatementRule}

theorem affords_block (h : Affords tokens statement Statement.WellShaped) :
    Affords tokens (block statement) Block.WellShaped := by
  refine Ensures.remembered fun flags a => (runs_accept _).bind fun t? b _ => ?_
  cases t? with
  | none => exact .pure affords_none
  | some t =>
    refine runs_claimComments.bind fun comments c _ => ?_
    refine (h.items _ flags c).bind fun statements d hs => (runs_require _).bind fun _ _ _ => ?_
    exact (runs_infoFrom _ _).bind fun info _ _ => .pure (affords_some (.braces hs))

theorem ensures_requiredBlock (h : Affords tokens statement Statement.WellShaped) :
    Ensures tokens (requiredBlock statement) Block.WellShaped :=
  (affords_block h).required fun _ _ hs => absurd hs List.not_mem_nil

theorem ensures_alternative (h : Affords tokens statement Statement.WellShaped) :
    Ensures tokens (alternative statement) Alternative.WellShaped := by
  have habsent : (Alternative.absent : Alternative Info).WellShaped :=
    fun _ _ hs => absurd hs List.not_mem_nil
  refine fun flags a => (runs_accept _).bind fun t? b _ => ?_
  cases t? with
  | none => exact .pure habsent
  | some t =>
    refine (runs_isNext _).bind fun x c _ => ?_
    split
    · refine (h flags c).bind fun s? d hs => .pure ?_
      cases s? with
      | none => exact habsent
      | some s => exact hs s rfl
    · exact (ensures_requiredBlock h flags c).bind fun body d hbody => .pure hbody

theorem affords_branch (h : Affords tokens statement Statement.WellShaped) :
    Affords tokens (branch statement) Statement.WellShaped := by
  refine fun flags a => runs_keyword_any.bind fun word? b _ => ?_
  cases word? with
  | none => exact .pure affords_none
  | some word =>
    refine (ensures_requiredExpression.underFlags _ _ flags b).bind fun condition c hc => ?_
    refine (ensures_requiredBlock h flags c).bind fun body d hbody => ?_
    refine (ensures_alternative h flags d).bind fun alternative e halternative => ?_
    exact (runs_infoFrom _ _).bind fun info _ _ =>
      .pure (affords_some (.branch hc hbody halternative))

theorem affords_whileLoop (h : Affords tokens statement Statement.WellShaped) :
    Affords tokens (whileLoop statement) Statement.WellShaped := by
  refine fun flags a => runs_keyword_any.bind fun word? b _ => ?_
  cases word? with
  | none => exact .pure affords_none
  | some word =>
    refine (ensures_requiredExpression.underFlags _ _ flags b).bind fun condition c hc => ?_
    refine ((ensures_requiredBlock h).underFlags _ _ flags c).bind fun body d hbody => ?_
    exact (runs_infoFrom _ _).bind fun info _ _ => .pure (affords_some (.loop hc hbody))

theorem affords_nestedBlock (h : Affords tokens statement Statement.WellShaped) :
    Affords tokens (nestedBlock statement) Statement.WellShaped := by
  refine fun flags a => (affords_block h flags a).bind fun body? b hbody => ?_
  cases body? with
  | none => exact .pure affords_none
  | some body => exact .pure (affords_some (.nested (hbody body rfl)))

theorem affords_anyStatement (h : Affords tokens statement Statement.WellShaped) :
    Affords tokens (anyStatement statement) Statement.WellShaped := by
  refine fun flags a => runs_nextKind.bind fun k? b _ => ?_
  split
  · exact .pure affords_none
  · exact affords_declaration flags b
  · exact affords_branch h flags b
  · exact affords_whileLoop h flags b
  · exact affords_returning flags b
  · exact affords_jump flags b
  · exact affords_jump flags b
  · refine (runs_objectAhead _).bind fun x c _ => ?_
    split
    · exact affords_evaluation flags c
    · exact affords_nestedBlock h flags c
  · exact affords_evaluation flags b

end

theorem affords_statementWithin (depth : Nat) :
    Affords tokens (statementWithin depth) Statement.WellShaped := by
  induction depth with
  | zero => exact fun _ _ => .pure affords_none
  | succ depth ih => exact (affords_anyStatement ih).remembered

theorem affords_statement : Affords tokens statement Statement.WellShaped :=
  fun flags _ => runs_maxDepth.bind fun depth b _ => affords_statementWithin depth flags b

abbrev IsTyped (p : Parameter Info) : Prop := ∀ t ∈ p.type?.toList, t.WellShaped

theorem affords_parameter : Affords tokens parameter IsTyped := by
  refine fun flags a => runs_identifier_any.bind fun name? b _ => ?_
  cases name? with
  | none => exact .pure affords_none
  | some name =>
    refine (affords_annotation? flags b).bind fun type? c htype => ?_
    refine (runs_infoAfter _).bind fun info _ _ => .pure (affords_some fun t ht => ?_)
    exact htype t (Option.mem_toList.mp ht)

theorem ensures_parameters :
    Ensures tokens parameters fun ps => ∀ p ∈ ps, IsTyped p := by
  refine fun flags a => (runs_require _).bind fun t? b _ => ?_
  cases t? with
  | none => exact .pure fun p hp => absurd hp List.not_mem_nil
  | some t =>
    exact (affords_parameter.items _ flags b).bind fun found c hfound =>
      (runs_require _).bind fun _ _ _ => .pure hfound

theorem ensures_callableBody : Ensures tokens callableBody Block.WellShaped :=
  (ensures_requiredBlock affords_statement).underFlags _ _

theorem affords_result? : Affords tokens result? TypeExpression.WellShaped :=
  affords_markedType .arrow

theorem ensures_aliased :
    Ensures tokens (behind .assign requiredType .missing) TypeExpression.WellShaped :=
  ensures_behind _ ensures_requiredType .missing

theorem types_of_parameters {ps : List (Parameter Info)} (h : ∀ p ∈ ps, IsTyped p) :
    ∀ t ∈ ps.flatMap fun p => p.type?.toList, t.WellShaped := by
  intro t ht
  obtain ⟨p, hp, ht⟩ := List.mem_flatMap.mp ht
  exact h p hp t ht

theorem wellShaped_of_body {d : Definition Info} {body : Block Info}
    {ts : List (TypeExpression Info)} (hbody : body.WellShaped) (hts : ∀ t ∈ ts, t.WellShaped)
    (he : d.expressions = (body.statements false).flatMap fun s => s.1.expressions)
    (ht : d.types = ts ++ (body.statements false).flatMap fun s => s.1.types) :
    d.WellShaped := by
  refine ⟨fun e h => ?_, fun t h => ?_⟩
  · rw [he] at h
    obtain ⟨s, hs, h⟩ := List.mem_flatMap.mp h
    exact (hbody false s hs).1 e h
  · rw [ht] at h
    rcases List.mem_append.mp h with h | h
    · exact hts t h
    · obtain ⟨s, hs, h⟩ := List.mem_flatMap.mp h
      exact (hbody false s hs).2 t h

theorem ensures_definitionRest (k : Kind) (word : Token) (comments : List Token) :
    Ensures tokens (definitionRest k (infoFrom word comments)) Definition.WellShaped := by
  refine fun flags a => runs_requiredIdentifier_any.bind fun name b _ => ?_
  split
  · refine (ensures_parameters flags b).bind fun parameters c hp => ?_
    refine (ensures_callableBody flags c).bind fun body d hbody => ?_
    exact (runs_infoFrom _ _).bind fun info _ _ =>
      .pure (wellShaped_of_body hbody (types_of_parameters hp) rfl rfl)
  · refine (ensures_parameters flags b).bind fun parameters c hp => ?_
    refine (affords_result? flags c).bind fun result? d hresult => ?_
    refine (ensures_callableBody flags d).bind fun body e hbody => ?_
    refine (runs_infoFrom _ _).bind fun info _ _ =>
      .pure (wellShaped_of_body hbody (List.forall_mem_append.mpr ⟨types_of_parameters hp, ?_⟩)
        rfl rfl)
    exact fun t ht => hresult t (Option.mem_toList.mp ht)
  · refine (affords_annotation? flags b).bind fun type? c htype => ?_
    refine (ensures_assigned flags c).bind fun value d hvalue => ?_
    refine (runs_require _).bind fun _ _ _ => (runs_infoFrom _ _).bind fun info _ _ =>
      .pure ⟨List.forall_mem_singleton.mpr hvalue, fun t ht => ?_⟩
    rw [Definition.types, Definition.statements, List.flatMap_nil, List.append_nil] at ht
    exact htype t (Option.mem_toList.mp ht)
  · refine (ensures_aliased flags b).bind fun type c htype => ?_
    exact (runs_require _).bind fun _ _ _ => (runs_infoFrom _ _).bind fun info _ _ =>
      .pure ⟨fun e he => absurd he List.not_mem_nil, List.forall_mem_singleton.mpr htype⟩

theorem affords_definition : Affords tokens definition Definition.WellShaped := by
  refine Ensures.remembered fun flags a => runs_nextKind.bind fun k? b _ => ?_
  cases k? with
  | none => exact .pure affords_none
  | some kind =>
    dsimp only
    split
    · exact .pure affords_none
    · refine runs_keyword_any.bind fun word? c _ => ?_
      cases word? with
      | none => exact .pure affords_none
      | some word =>
        exact (ensures_definitionRest kind word.1 word.2 flags c).map fun _ _ h => affords_some h

theorem ensures_program : Ensures tokens program fun p =>
    ∀ d ∈ p.definitions, d.WellShaped := by
  refine fun flags a => runs_consumeTrivia.bind fun _ _ _ => runs_claimComments.bind fun _ _ _ =>
    runs_nextToken.bind fun first? b _ => ?_
  refine (affords_definition.items _ flags b).bind fun definitions c hd => ?_
  have hrest : ∀ (extent? : Option Extent) (leading : List Token) (a : Trail), Runs tokens flags a
      (do
        consumeTrivia
        let trailing ← claimComments
        return (⟨definitions, extent?, leading ++ trailing⟩ : Program Info))
      fun p _ => ∀ d ∈ p.definitions, d.WellShaped := fun _ _ _ =>
    runs_consumeTrivia.bind fun _ _ _ => runs_claimComments.bind fun _ _ _ => .pure hd
  cases first? with
  | none => exact hrest none _ c
  | some first =>
    exact (runs_lastConsumed.map (R := fun _ _ => True) fun _ _ _ => trivial).bind
      fun _ d _ => hrest _ _ d

end Grammar

end Reparse
