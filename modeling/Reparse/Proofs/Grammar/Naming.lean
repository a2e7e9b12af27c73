import Reparse.Proofs.Grammar.Shape
import Reparse.Proofs.Tree.Identifiers

/-!
# Identifiers come from tokens

Wherever a rule puts an identifier into the tree, it has consumed a token of that kind, or a
stand-in takes its place. So what is not missing has the text of one token and lies on it.
-/

namespace Reparse

open Reparse.Parser
open Grammar (identifierOf)

variable {β : Type} {tokens : Array Token} {flags : Flags} {a b : Trail}

namespace Outline

def IsNameOf (o : Outline Info) (t : Token) : Prop :=
  t.kind = .identifier ∧ ∃ comments, o = (identifierOf t comments).outline

def Genuine (os : List (Outline Info)) : Prop := ∀ o ∈ named os, ∃ t, o.IsNameOf t

namespace Genuine

variable {o : Outline Info} {os ps : List (Outline Info)}

theorem nil : Genuine [] := fun _ ho => absurd ho List.not_mem_nil

theorem append (h : Genuine os) (h' : Genuine ps) : Genuine (os ++ ps) := by
  rw [Genuine, named_append]
  exact List.forall_mem_append.mpr ⟨h, h'⟩

theorem cons (h : Genuine [o]) (h' : Genuine os) : Genuine (o :: os) := h.append h'

theorem node {form : Form} (hform : form ≠ .identifier) {text? : Option Text} {info? : Option Info}
    (h : Genuine os) : Genuine [.node form text? info? os] := by
  rwa [Genuine, named_node hform]

theorem map {view : β → Outline Info} {xs : List β} (h : ∀ x ∈ xs, Genuine [view x]) :
    Genuine (xs.map view) := by
  induction xs with
  | nil => exact nil
  | cons x xs ih =>
    obtain ⟨hx, hxs⟩ := List.forall_mem_cons.mp h
    exact cons hx (ih hxs)

theorem option {view : β → Outline Info} {x? : Option β} (h : ∀ x ∈ x?, Genuine [view x]) :
    Genuine (x?.map view).toList := by
  cases x? with
  | none => exact nil
  | some x => exact h x rfl

theorem identifier {t : Token} (ht : t.kind = .identifier) (comments : List Token) :
    Genuine [(identifierOf t comments).outline] := by
  intro o ho
  obtain rfl := List.mem_singleton.mp (mem_named.mp ho).1
  exact ⟨t, ht, comments, rfl⟩

theorem missing (h : o.info? = none) (hchildren : o.children = []) : Genuine [o] := by
  intro p hp
  obtain ⟨hmem, -, hinfo⟩ := mem_named.mp hp
  rw [listNodes_cons, hchildren] at hmem
  obtain rfl := List.mem_singleton.mp hmem
  rw [h] at hinfo
  cases hinfo

end Genuine

end Outline

open Outline (Genuine)

namespace Grammar

theorem genuine_missingExpression : Genuine [(Expression.missing : Expression Info).outline] :=
  .missing rfl rfl

theorem genuine_missingType : Genuine [(TypeExpression.missing : TypeExpression Info).outline] :=
  .missing rfl rfl

theorem affords_identifier :
    Affords tokens identifier fun name => Genuine [name.outline] := by
  refine fun flags a => (runs_accept _).bind fun t? b ht => ?_
  cases t? with
  | none => exact .pure affords_none
  | some t =>
    exact runs_claimComments.bind fun comments _ _ =>
      .pure (affords_some (.identifier ht.2.1 comments))

theorem ensures_requiredIdentifier :
    Ensures tokens requiredIdentifier fun name => Genuine [name.outline] :=
  affords_identifier.required (.missing rfl rfl)

theorem affords_namedField {value : Parser β} {standIn : β} {view : β → Outline Info}
    (form : Form) (hform : form ≠ .identifier)
    (h : Ensures tokens value fun x => Genuine [view x]) (hstandIn : Genuine [view standIn]) :
    Affords tokens (field value standIn) fun f => Genuine [f.outline form view] := by
  refine fun flags a => (affords_identifier flags a).bind fun name? b hname => ?_
  cases name? with
  | none => exact .pure affords_none
  | some name =>
    refine (ensures_behind .colon h hstandIn flags b).bind fun value c hvalue => ?_
    exact (runs_infoAfter _).bind fun _ _ _ =>
      .pure (affords_some (.node hform ((hname name rfl).cons hvalue)))

abbrev NamesType (t : TypeExpression Info) : Prop := Genuine [t.outline]

section

variable {type : Parser (Option (TypeExpression Info))}

theorem names_singleType (h : Affords tokens type NamesType) :
    Affords tokens (singleType type) NamesType := by
  have hinner : Ensures tokens (required type .missingType .missing) NamesType :=
    h.required genuine_missingType
  refine fun flags a => runs_nextToken.bind fun t? b _ => ?_
  cases t? with
  | none => exact .pure affords_none
  | some t =>
    dsimp only
    split
    next hkind =>
      exact runs_consume.bind fun _ _ _ => runs_claimComments.bind fun _ _ _ =>
        .pure (affords_some (.node (by decide) (.identifier hkind [])))
    · refine runs_consume.bind fun _ _ _ => runs_claimComments.bind fun _ c _ => ?_
      have hfields := (affords_namedField .fieldType (by decide) hinner
        genuine_missingType).items (.commas .rightBrace)
      refine (hfields flags c).bind fun fields _ hf => (runs_require _).bind fun _ _ _ => ?_
      refine (runs_infoFrom _ _).bind fun _ _ _ => .pure (affords_some (.node (by decide) ?_))
      rw [TypeExpression.fieldOutlines_eq]
      exact .map hf
    · refine runs_consume.bind fun _ _ _ => runs_claimComments.bind fun _ c _ => ?_
      refine (hinner flags c).bind fun inner _ hi => (runs_require _).bind fun _ _ _ => ?_
      exact (runs_infoFrom _ _).bind fun _ _ _ =>
        .pure (affords_some (.node (by decide) hi))
    · exact .pure affords_none

theorem names_arrayOrSingle (h : Affords tokens type NamesType) :
    Affords tokens (arrayOrSingle type) NamesType := by
  refine fun flags a => (names_singleType h flags a).bind fun atom? b hatom => ?_
  cases atom? with
  | none => exact .pure affords_none
  | some atom =>
    have hturn : ∀ element, NamesType element →
        Ensures tokens (arrayTurn element) fun t => NamesType t.state := by
      refine fun element he flags a => (runs_accept _).bind fun t? b _ => ?_
      cases t? with
      | none => exact .pure he
      | some t =>
        exact (runs_require _).bind fun _ _ _ => (runs_infoAfter _).bind fun _ _ _ =>
          .pure (.node (by decide) he)
    exact (Ensures.loop hturn (hatom atom rfl) flags b).map fun _ _ hx => affords_some hx

theorem names_typeAlternatives (h : Affords tokens type NamesType) :
    Ensures tokens (typeAlternatives type) fun ts => ∀ t ∈ ts, NamesType t := by
  have hmember : Ensures tokens (required (arrayOrSingle type) .missingType .missing) NamesType :=
    (names_arrayOrSingle h).required genuine_missingType
  have hturn : ∀ ts : Array (TypeExpression Info), (∀ t ∈ ts.toList, NamesType t) →
      Ensures tokens (memberTurn type ts) fun t => ∀ u ∈ t.state.toList, NamesType u := by
    refine fun ts hts flags a => (runs_accept _).bind fun t? b _ => ?_
    cases t? with
    | none => exact .pure hts
    | some t =>
      refine (hmember flags b).bind fun member c hm => .pure ?_
      change ∀ u ∈ (ts.push member).toList, NamesType u
      rw [Array.toList_push]
      exact List.forall_mem_append.mpr ⟨hts, List.forall_mem_singleton.mpr hm⟩
  exact fun flags a => (Ensures.loop hturn (x := #[]) (fun _ ht => absurd ht List.not_mem_nil)
    flags a).bind fun _ _ hts => .pure hts

theorem names_typeUnion (h : Affords tokens type NamesType) :
    Affords tokens (typeUnion type) NamesType := by
  refine fun flags a => (names_arrayOrSingle h flags a).bind fun head? b hhead => ?_
  cases head? with
  | none => exact .pure affords_none
  | some head =>
    refine (runs_isNext _).bind fun x c _ => ?_
    split
    · refine (names_typeAlternatives h flags c).bind fun rest d hrest => ?_
      refine (runs_infoAfter _).bind fun _ _ _ => .pure (affords_some (.node (by decide) ?_))
      rw [TypeExpression.outlines_eq]
      exact .map (List.forall_mem_cons.mpr ⟨hhead head rfl, hrest⟩)
    · exact .pure hhead

end

theorem names_typeWithin (depth : Nat) : Affords tokens (typeWithin depth) NamesType := by
  induction depth with
  | zero => exact fun _ _ => .pure affords_none
  | succ depth ih => exact (names_typeUnion ih).remembered

theorem names_requiredType : Ensures tokens requiredType NamesType :=
  Ensures.required
    (fun flags _ => runs_maxDepth.bind fun depth b _ => names_typeWithin depth flags b)
    genuine_missingType

theorem names_markedType (k : Kind) :
    Affords tokens
      (do
        match ← accept k with
        | some _ => return some (← requiredType)
        | none => return none) NamesType := by
  refine fun flags a => (runs_accept k).bind fun t? b _ => ?_
  cases t? with
  | none => exact .pure affords_none
  | some t => exact (names_requiredType flags b).bind fun _ _ h => .pure (affords_some h)

abbrev NamesExpression (e : Expression Info) : Prop := Genuine [e.outline]

theorem names_wordOf? {t : Token} {info : Info} {e : Expression Info}
    (he : wordOf? t info = some e) : NamesExpression e := by
  unfold wordOf? at he
  split at he
  case h_7 hkind =>
    cases he
    exact .node (by decide) (.identifier hkind [])
  case h_8 => cases he
  all_goals
    cases he
    exact .node (Literal.form_ne_identifier _) .nil

section

variable {expression : ExpressionRule}

theorem names_operand (h : Affords tokens expression NamesExpression) :
    Ensures tokens (required expression .missingExpression .missing) NamesExpression :=
  h.required genuine_missingExpression

theorem names_atom (h : Affords tokens expression NamesExpression) :
    Affords tokens (atom expression) NamesExpression := by
  refine fun flags a => runs_nextToken.bind fun t? b _ => ?_
  cases t? with
  | none => exact .pure affords_none
  | some t =>
    dsimp only
    split
    · refine Runs.map (Q := fun x _ => NamesExpression x) ?_ fun _ _ hx => affords_some hx
      refine runs_consume.bind fun _ _ _ => runs_claimComments.bind fun _ c _ => ?_
      refine ((names_operand h).underFlags _ _ flags c).bind fun inner _ hinner => ?_
      exact (runs_require _).bind fun _ _ _ => (runs_infoFrom _ _).bind fun _ _ _ =>
        .pure (.node (by decide) hinner)
    · refine Runs.map (Q := fun x _ => NamesExpression x) ?_ fun _ _ hx => affords_some hx
      refine runs_consume.bind fun _ _ _ => runs_claimComments.bind fun _ c _ => ?_
      refine ((h.items _).underFlags _ _ flags c).bind fun elements _ helements => ?_
      refine (runs_require _).bind fun _ _ _ => (runs_infoFrom _ _).bind fun _ _ _ =>
        .pure (.node (by decide) ?_)
      rw [Expression.outlines_eq]
      exact .map helements
    · refine runs_flags.bind fun f _ _ => ?_
      split
      · exact .pure affords_none
      · refine (runs_objectAhead _).bind fun x _ _ => ?_
        split
        · refine Runs.map (Q := fun x _ => NamesExpression x) ?_ fun _ _ hx => affords_some hx
          refine runs_consume.bind fun _ _ _ => runs_claimComments.bind fun _ c _ => ?_
          have hfields := (affords_namedField .field (by decide) (names_operand h)
            genuine_missingExpression).items (.commas .rightBrace)
          refine (hfields.underFlags _ _ flags c).bind fun fields _ hf => ?_
          refine (runs_require _).bind fun _ _ _ => (runs_infoFrom _ _).bind fun _ _ _ =>
            .pure (.node (by decide) ?_)
          rw [Expression.fieldOutlines_eq]
          exact .map hf
        · exact .pure affords_none
    · split
      · exact .pure affords_none
      · exact runs_consume.bind fun _ _ _ => runs_claimComments.bind fun _ _ _ =>
          .pure fun _ he => names_wordOf? he

theorem names_postfixTurn (h : Affords tokens expression NamesExpression) {base : Expression Info}
    (hbase : NamesExpression base) :
    Ensures tokens (postfixTurn expression base) fun t => NamesExpression t.state := by
  refine fun flags a => runs_nextKind.bind fun k? b _ => ?_
  split
  · refine runs_consume.bind fun _ c _ => ?_
    exact (ensures_requiredIdentifier flags c).bind fun name _ hname =>
      (runs_infoAfter _).bind fun _ _ _ => .pure (.node (by decide) (hbase.cons hname))
  · refine runs_consume.bind fun _ c _ => ?_
    refine ((h.items _).underFlags _ _ flags c).bind fun arguments _ harguments => ?_
    refine (runs_require _).bind fun _ _ _ => (runs_infoAfter _).bind fun _ _ _ =>
      .pure (.node (by decide) (hbase.cons ?_))
    rw [Expression.outlines_eq]
    exact .map harguments
  · refine runs_consume.bind fun _ c _ => ?_
    refine ((names_operand h).underFlags _ _ flags c).bind fun place _ hplace => ?_
    exact (runs_require _).bind fun _ _ _ => (runs_infoAfter _).bind fun _ _ _ =>
      .pure (.node (by decide) (hbase.cons hplace))
  · exact .pure hbase

theorem names_postfixed (h : Affords tokens expression NamesExpression) :
    Affords tokens (postfixed expression) NamesExpression := by
  refine fun flags a => (names_atom h flags a).bind fun base? b hbase => ?_
  cases base? with
  | none => exact .pure affords_none
  | some base =>
    exact (Ensures.loop (fun _ hx => names_postfixTurn h hx) (hbase base rfl) flags b).map
      fun _ _ hx => affords_some hx

end

theorem names_applySigns (found : List Sign) {operand : Expression Info}
    (h : NamesExpression operand) :
    Ensures tokens (applySigns operand found) NamesExpression := by
  induction found generalizing operand with
  | nil => exact fun _ _ => .pure h
  | cons s rest ih =>
    refine fun flags a => (runs_infoFrom _ _).bind fun info b _ => ?_
    have hunary : NamesExpression (.unary s.operator operand info) := .node (by decide) h
    exact ih hunary flags b

theorem names_unary {operand : ExpressionRule} (h : Affords tokens operand NamesExpression) :
    Affords tokens (unary operand) NamesExpression := by
  refine fun flags a => (ensures_signs flags a).bind fun found b _ => ?_
  cases found with
  | nil => exact h flags b
  | cons s rest =>
    refine (names_operand h flags b).bind fun inner c hinner => ?_
    exact (names_applySigns (s :: rest) hinner flags c).map fun _ _ hx => affords_some hx

theorem names_binary (level : Precedence) {operand : ExpressionRule}
    (h : Affords tokens operand NamesExpression) :
    Affords tokens (binary level operand) NamesExpression := by
  have hturn : ∀ chain : Chain, NamesExpression chain.left →
      Ensures tokens (chainTurn level operand chain) fun t => NamesExpression t.state.left := by
    refine fun chain hchain flags a => runs_nextKind.bind fun k? b _ => ?_
    cases k?.bind BinaryOperator.ofKind? with
    | none => exact .pure hchain
    | some operator =>
      dsimp only
      split
      · exact .pure hchain
      · refine runs_consume.bind fun t? c _ => ?_
        cases t? with
        | none => exact .pure hchain
        | some token =>
          refine (runs_warnMixed_any _ _ _).bind fun warned d _ => ?_
          refine (names_operand h flags d).bind fun right e hright => ?_
          exact (runs_infoAfter _).bind fun _ _ _ =>
            .pure (.node (by decide) (hchain.cons hright))
  refine fun flags a => (h flags a).bind fun left? b hleft => ?_
  cases left? with
  | none => exact .pure affords_none
  | some left =>
    exact (Ensures.loop (I := fun chain : Chain => NamesExpression chain.left) hturn
      (x := { left }) (hleft left rfl) flags b).bind fun _ _ hx => .pure (affords_some hx)

theorem names_expressionWithin (depth : Nat) :
    Affords tokens (expressionWithin depth) NamesExpression := by
  induction depth with
  | zero => exact fun _ _ => .pure affords_none
  | succ depth ih =>
    exact Ensures.remembered <| names_binary _ <| names_binary _ <| names_binary _ <|
      names_binary _ <| names_unary <| names_postfixed ih

theorem names_expression : Affords tokens expression NamesExpression :=
  fun flags _ => runs_maxDepth.bind fun depth b _ => names_expressionWithin depth flags b

theorem names_requiredExpression : Ensures tokens requiredExpression NamesExpression :=
  names_operand names_expression

abbrev NamesStatement (s : Statement Info) : Prop := Genuine [s.outline]

abbrev NamesBlock (body : Block Info) : Prop := Genuine [body.outline]

theorem names_annotation? : Affords tokens annotation? NamesType := names_markedType .colon

theorem names_assigned :
    Ensures tokens (behind .assign requiredExpression .missing) NamesExpression :=
  ensures_behind _ names_requiredExpression genuine_missingExpression

theorem names_declaration : Affords tokens declaration NamesStatement := by
  refine fun flags a => runs_keyword_any.bind fun word? b _ => ?_
  cases word? with
  | none => exact .pure affords_none
  | some word =>
    refine (ensures_requiredIdentifier flags b).bind fun name c hname => ?_
    refine (names_annotation? flags c).bind fun type? d htype => ?_
    refine (names_assigned flags d).bind fun value e hvalue => ?_
    exact (runs_require _).bind fun _ _ _ => (runs_infoFrom _ _).bind fun info _ _ =>
      .pure (affords_some (.node (by decide) ((hname.cons (.option htype)).append hvalue)))

theorem names_returned : Affords tokens returned NamesExpression := by
  refine fun flags a => runs_nextKind.bind fun k? b _ => ?_
  split
  · exact .pure affords_none
  · exact .pure affords_none
  · exact .pure affords_none
  · exact names_expression flags b

theorem names_returning : Affords tokens returning NamesStatement := by
  refine fun flags a => runs_keyword_any.bind fun word? b _ => ?_
  cases word? with
  | none => exact .pure affords_none
  | some word =>
    refine runs_flags.bind fun f c _ => runs_stray_if fun d _ _ => ?_
    refine (names_returned flags d).bind fun value? e hvalue => ?_
    exact (runs_require _).bind fun _ _ _ => (runs_infoFrom _ _).bind fun info _ _ =>
      .pure (affords_some (.node (by decide) (.option hvalue)))

theorem names_jump : Affords tokens jump NamesStatement := by
  refine fun flags a => runs_keyword_any.bind fun word? b _ => ?_
  cases word? with
  | none => exact .pure affords_none
  | some word =>
    refine runs_flags.bind fun f c _ => runs_stray_if fun d _ _ => ?_
    refine (runs_require _).bind fun _ _ _ => (runs_infoFrom _ _).bind fun info _ _ =>
      .pure (affords_some ?_)
    split
    · exact .node (by decide) .nil
    · exact .node (by decide) .nil

theorem names_assignable {target : Expression Info} (h : NamesExpression target) :
    Ensures tokens (assignable target) NamesExpression := by
  intro flags a
  unfold assignable
  split
  · exact .pure h
  · cases target.info?.bind Info.extent? with
    | none => exact .pure genuine_missingExpression
    | some extent => exact (runs_report _ _ _).bind fun _ _ _ => .pure genuine_missingExpression

theorem names_evaluation : Affords tokens evaluation NamesStatement := by
  refine fun flags a => (names_expression flags a).bind fun value? b hvalue => ?_
  cases value? with
  | none => exact .pure affords_none
  | some value =>
    have hvalue : NamesExpression value := hvalue value rfl
    dsimp only
    cases value.info?.bind Info.extent? with
    | none => exact .pure affords_none
    | some extent =>
      refine (runs_accept _).bind fun t? c _ => ?_
      cases t? with
      | none =>
        exact (runs_require _).bind fun _ _ _ => (runs_infoFrom _ _).bind fun info _ _ =>
          .pure (affords_some (.node (by decide) hvalue))
      | some t =>
        refine (names_requiredExpression flags c).bind fun assigned d hassigned => ?_
        refine (names_assignable hvalue flags d).bind fun target e htarget => ?_
        exact (runs_require _).bind fun _ _ _ => (runs_infoFrom _ _).bind fun info _ _ =>
          .pure (affords_some (.node (by decide) (htarget.cons hassigned)))

section

variable {statement : StatementRule}

theorem names_block (h : Affords tokens statement NamesStatement) :
    Affords tokens (block statement) NamesBlock := by
  refine Ensures.remembered fun flags a => (runs_accept _).bind fun t? b _ => ?_
  cases t? with
  | none => exact .pure affords_none
  | some t =>
    refine runs_claimComments.bind fun comments c _ => ?_
    refine (h.items _ flags c).bind fun statements d hs => (runs_require _).bind fun _ _ _ => ?_
    refine (runs_infoFrom _ _).bind fun info _ _ => .pure (affords_some ?_)
    rw [NamesBlock, Block.outline, Statement.outlines_eq]
    exact .node (by decide) (.map hs)

theorem names_requiredBlock (h : Affords tokens statement NamesStatement) :
    Ensures tokens (requiredBlock statement) NamesBlock :=
  (names_block h).required (.missing rfl rfl)

theorem names_alternative (h : Affords tokens statement NamesStatement) :
    Ensures tokens (alternative statement) fun x => Genuine x.outlines := by
  refine fun flags a => (runs_accept _).bind fun t? b _ => ?_
  cases t? with
  | none => exact .pure .nil
  | some t =>
    refine (runs_isNext _).bind fun x c _ => ?_
    split
    · refine (h flags c).bind fun s? d hs => .pure ?_
      cases s? with
      | none => exact .nil
      | some s => exact hs s rfl
    · exact (names_requiredBlock h flags c).bind fun body d hbody => .pure hbody

theorem names_branch (h : Affords tokens statement NamesStatement) :
    Affords tokens (branch statement) NamesStatement := by
  refine fun flags a => runs_keyword_any.bind fun word? b _ => ?_
  cases word? with
  | none => exact .pure affords_none
  | some word =>
    refine (names_requiredExpression.underFlags _ _ flags b).bind fun condition c hc => ?_
    refine (names_requiredBlock h flags c).bind fun body d hbody => ?_
    refine (names_alternative h flags d).bind fun alternative e halternative => ?_
    refine (runs_infoFrom _ _).bind fun info _ _ => .pure (affords_some ?_)
    rw [NamesStatement, Statement.outline]
    exact .node (by decide) (hc.cons (hbody.cons halternative))

theorem names_whileLoop (h : Affords tokens statement NamesStatement) :
    Affords tokens (whileLoop statement) NamesStatement := by
  refine fun flags a => runs_keyword_any.bind fun word? b _ => ?_
  cases word? with
  | none => exact .pure affords_none
  | some word =>
    refine (names_requiredExpression.underFlags _ _ flags b).bind fun condition c hc => ?_
    refine ((names_requiredBlock h).underFlags _ _ flags c).bind fun body d hbody => ?_
    refine (runs_infoFrom _ _).bind fun info _ _ => .pure (affords_some ?_)
    rw [NamesStatement, Statement.outline]
    exact .node (by decide) (hc.cons hbody)

theorem names_nestedBlock (h : Affords tokens statement NamesStatement) :
    Affords tokens (nestedBlock statement) NamesStatement := by
  refine fun flags a => (names_block h flags a).bind fun body? b hbody => ?_
  cases body? with
  | none => exact .pure affords_none
  | some body =>
    refine .pure (affords_some ?_)
    rw [NamesStatement, Statement.outline]
    exact .node (by decide) (hbody body rfl)

theorem names_anyStatement (h : Affords tokens statement NamesStatement) :
    Affords tokens (anyStatement statement) NamesStatement := by
  refine fun flags a => runs_nextKind.bind fun k? b _ => ?_
  split
  · exact .pure affords_none
  · exact names_declaration flags b
  · exact names_branch h flags b
  · exact names_whileLoop h flags b
  · exact names_returning flags b
  · exact names_jump flags b
  · exact names_jump flags b
  · refine (runs_objectAhead _).bind fun x c _ => ?_
    split
    · exact names_evaluation flags c
    · exact names_nestedBlock h flags c
  · exact names_evaluation flags b

end

theorem names_statementWithin (depth : Nat) :
    Affords tokens (statementWithin depth) NamesStatement := by
  induction depth with
  | zero => exact fun _ _ => .pure affords_none
  | succ depth ih => exact (names_anyStatement ih).remembered

theorem names_statement : Affords tokens statement NamesStatement :=
  fun flags _ => runs_maxDepth.bind fun depth b _ => names_statementWithin depth flags b

theorem names_parameter : Affords tokens parameter fun p => Genuine [p.outline] := by
  refine fun flags a => (affords_identifier flags a).bind fun name? b hname => ?_
  cases name? with
  | none => exact .pure affords_none
  | some name =>
    refine (names_annotation? flags b).bind fun type? c htype => ?_
    exact (runs_infoAfter _).bind fun info _ _ =>
      .pure (affords_some (.node (by decide) ((hname name rfl).cons (.option htype))))

theorem names_parameters :
    Ensures tokens parameters fun ps => Genuine (ps.map Parameter.outline) := by
  refine fun flags a => (runs_require _).bind fun t? b _ => ?_
  cases t? with
  | none => exact .pure .nil
  | some t =>
    exact (names_parameter.items _ flags b).bind fun found c hfound =>
      (runs_require _).bind fun _ _ _ => .pure (.map hfound)

theorem names_callableBody : Ensures tokens callableBody NamesBlock :=
  (names_requiredBlock names_statement).underFlags _ _

theorem names_definitionRest (k : Kind) (word : Token) (comments : List Token) :
    Ensures tokens (definitionRest k (infoFrom word comments)) fun d => Genuine [d.outline] := by
  refine fun flags a => (ensures_requiredIdentifier flags a).bind fun name b hname => ?_
  split
  · refine (names_parameters flags b).bind fun parameters c hparameters => ?_
    refine (names_callableBody flags c).bind fun body d hbody => ?_
    exact (runs_infoFrom _ _).bind fun info _ _ =>
      .pure (.node (by decide) ((hname.cons hparameters).append hbody))
  · refine (names_parameters flags b).bind fun parameters c hparameters => ?_
    refine (names_markedType .arrow flags c).bind fun result? d hresult => ?_
    refine (names_callableBody flags d).bind fun body e hbody => ?_
    exact (runs_infoFrom _ _).bind fun info _ _ =>
      .pure (.node (by decide) (((hname.cons hparameters).append (.option hresult)).append hbody))
  · refine (names_annotation? flags b).bind fun type? c htype => ?_
    refine (names_assigned flags c).bind fun value d hvalue => ?_
    exact (runs_require _).bind fun _ _ _ => (runs_infoFrom _ _).bind fun info _ _ =>
      .pure (.node (by decide) ((hname.cons (.option htype)).append hvalue))
  · refine (ensures_behind .assign names_requiredType genuine_missingType flags b).bind
      fun type c htype => ?_
    exact (runs_require _).bind fun _ _ _ => (runs_infoFrom _ _).bind fun info _ _ =>
      .pure (.node (by decide) (hname.cons htype))

theorem names_definition : Affords tokens definition fun d => Genuine [d.outline] := by
  refine Ensures.remembered fun flags a => runs_nextKind.bind fun k? b _ => ?_
  cases k? with
  | none => exact .pure affords_none
  | some kind =>
    dsimp only
    split
    · exact .pure affords_none
    · refine runs_keyword_any.bind fun word? c _ => ?_
      cases word? with
      | none => exact .pure affords_none
      | some word =>
        exact (names_definitionRest kind word.1 word.2 flags c).map fun _ _ h => affords_some h

theorem names_program : Ensures tokens program fun p => Genuine [p.outline] := by
  refine fun flags a => runs_consumeTrivia.bind fun _ _ _ => runs_claimComments.bind fun _ _ _ =>
    runs_nextToken.bind fun first? b _ => ?_
  refine (names_definition.items _ flags b).bind fun definitions c hd => ?_
  have hrest : ∀ (extent? : Option Extent) (leading : List Token) (a : Trail), Runs tokens flags a
      (do
        consumeTrivia
        let trailing ← claimComments
        return (⟨definitions, extent?, leading ++ trailing⟩ : Program Info))
      fun p _ => Genuine [p.outline] := fun _ _ _ =>
    runs_consumeTrivia.bind fun _ _ _ => runs_claimComments.bind fun _ _ _ =>
      .pure (.node (by decide) (.map hd))
  cases first? with
  | none => exact hrest none _ c
  | some first =>
    exact (runs_lastConsumed.map (R := fun _ _ => True) fun _ _ _ => trivial).bind
      fun _ d _ => hrest _ _ d

end Grammar

end Reparse
