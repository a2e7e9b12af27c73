import Reparse.Proofs.Assembly
import Reparse.Proofs.Grammar.Courses.Expressions

/-!
# Courses of statements and programs

A jump or a return that is out of place is reported right behind its word, a target that nothing can
be assigned to behind the value that was to be assigned. The course of a program leads through all
tokens.
-/

namespace Reparse

open Reparse.Parser

variable {tokens : Array Token} {flags : Flags} {a b : Trail} {n : Nat}

namespace Grammar

theorem treads_keyword : Treads tokens flags n keyword := treads_consume.bind fun t? => by
  cases t? with
  | none => exact .pure _
  | some t => exact treads_claimComments.bind fun _ => .pure _

theorem treads_condition : Treads tokens flags n condition :=
  treads_requiredExpression.underFlags

theorem treads_annotation? : Treads tokens flags n annotation? := treads_markedType .colon

theorem treads_assigned : Treads tokens flags n (behind .assign requiredExpression .missing) :=
  treads_behind .assign treads_requiredExpression _

theorem treads_misplaced {β : Type} {misplaced : Flags → Bool}
    {rest : Token → List Token → Parser (Option β)}
    (hrest : ∀ word comments, Treads tokens flags n (rest word comments)) :
    Treads tokens flags n
      (do
        let some (word, comments) ← keyword | return none
        if misplaced (← Parser.flags) then reportStray word .strayToken
        rest word comments : Parser (Option β)) := by
  intro a ha
  refine Runs.bind (Q := fun word? b => Along tokens a b ∧
    ∀ word ∈ word?, Latest tokens b.cursor word.1) ?_ fun word? b hb => ?_
  · refine runs_consume.bind fun t? b hb => ?_
    cases t? with
    | none =>
      obtain ⟨-, rfl⟩ := hb
      exact .pure ⟨.refl b, nofun⟩
    | some t =>
      obtain ⟨ht, rfl⟩ := hb
      refine ((treads_claimComments.after (.past ht) ha).both runs_claimComments).bind
        fun comments c hc => .pure ⟨hc.1, ?_⟩
      rintro word ⟨⟩
      obtain ⟨-, -, rfl⟩ := hc
      exact Trail.latest_past ht
  · obtain ⟨halong, hword⟩ := hb
    cases word? with
    | none => exact .pure halong
    | some word =>
      refine runs_flags.bind fun f c hc => ?_
      obtain ⟨rfl, rfl⟩ := hc
      split
      · refine (runs_reportStray _ _).bind fun _ d hd => ?_
        subst hd
        exact (hrest _ _).after (halong.report (.stray rfl (hword word rfl))) ha
      · exact (hrest _ _).after halong ha

theorem treads_declaration : Treads tokens flags n declaration :=
  treads_keyword.bind fun word? => by
    cases word? with
    | none => exact .pure _
    | some word =>
      exact treads_requiredIdentifier.bind fun _ => treads_annotation?.bind fun _ =>
        treads_assigned.bind fun _ => treads_closing (treads_infoFrom _ _)

theorem treads_returned : Treads tokens flags n returned := treads_nextKind.bind fun k? => by
  split
  · exact .pure _
  · exact .pure _
  · exact .pure _
  · exact treads_expression flags

theorem treads_returning : Treads tokens flags n returning :=
  treads_misplaced fun _ _ => treads_returned.bind fun _ => treads_closing (treads_infoFrom _ _)

theorem treads_jump : Treads tokens flags n jump :=
  treads_misplaced fun _ _ => treads_closing (treads_infoFrom _ _)

theorem runs_assignable_along {target : Expression Info} {e : Extent} {j k : Nat}
    (h : Along tokens a b) (he : target.outline.extent? = some e) (hspans : e.Spans tokens j k)
    (hk : k < b.cursor) (hr : target.isAssignable = false → Rejected tokens target) :
    Runs tokens flags b (assignable target) fun _ c => Along tokens a c := by
  unfold assignable
  split
  · exact .pure h
  next hassignable =>
    have hrejected := hr (Bool.eq_false_iff.mpr hassignable)
    have hextent : target.info?.bind Info.extent? = some e := target.extent?_outline ▸ he
    have hrejection := Report.rejection_eq he
    simp only [hextent]
    refine (runs_report _ _ _).bind fun _ c hc => .pure ?_
    subst hc
    exact hrejection ▸ h.report (.rejected hrejected he hspans hk)

theorem treads_evaluation : Treads tokens flags n evaluation := by
  intro a ha
  -- The run is kept in sight: a rejected target has to be known as what some run read.
  refine ((treads_expression flags a ha).both (builds_expression flags a ha)).traced.bind
    fun value? b hb => ?_
  obtain ⟨⟨halong, hvalue⟩, s, s', hs, heval, htrail⟩ := hb
  cases value? with
  | none => exact .pure halong
  | some value =>
    obtain ⟨e, j, k, he, hspans, hk⟩ := hvalue.1.exists_spans
    have hextent : value.info?.bind Info.extent? = some e := value.extent?_outline ▸ he
    simp only [hextent]
    refine (runs_accept .assign).bind fun t? c hc => ?_
    cases t? with
    | none =>
      obtain ⟨rfl, -⟩ := hc
      exact (treads_closing (treads_infoFrom _ _)).after halong ha
    | some t =>
      obtain ⟨ht, hkind, rfl⟩ := hc
      have hassign : (s'.trail.next? tokens).map Token.kind = some .assign := by
        rw [htrail, ht, Option.map_some, hkind]
      have hpast : Along tokens b (b.past tokens) := .past ht
      refine (treads_requiredExpression (n := 0) _ (Nat.zero_le _)).bind fun assigned d hd => ?_
      have hbehind : k < d.cursor := Nat.lt_of_lt_of_le hk (hpast.trans hd).le
      refine (runs_assignable_along (halong.trans (hpast.trans hd)) he hspans hbehind fun hnot =>
        ⟨hnot, Option.isSome_of_eq_some he, flags, s, s', hs, heval, hassign⟩).bind
          fun target f hf => ?_
      exact (treads_closing (treads_infoFrom _ _)).after hf ha

abbrev TreadsStatements (tokens : Array Token) (n : Nat) (rule : StatementRule) : Prop :=
  ∀ flags, Treads tokens flags n rule

section

variable {statement : StatementRule}

theorem seeks_block (h : TreadsStatements tokens n statement) :
    Seeks tokens flags n .block (block statement) := by
  refine Seeks.remembered fun a ha => ?_
  refine (runs_accept .leftBrace).bind fun t? b hb => ?_
  cases t? with
  | none =>
    obtain ⟨rfl, hne⟩ := hb
    exact .pure ⟨.refl b, fun _ => not_leads_of_ne hne fun _ => of_decide_eq_true⟩
  | some t =>
    obtain ⟨ht, -, rfl⟩ := hb
    refine (treads_claimComments.after (.past ht) ha).bind fun comments c hc => ?_
    refine ((treads_items rfl (h flags)).after hc ha).bind fun statements d hd => ?_
    refine ((treads_require _).after hd ha).bind fun _ e he => ?_
    exact ((treads_infoFrom _ _).after he ha).bind fun info f hf => .pure ⟨hf, nofun⟩

theorem treads_requiredBlock (h : TreadsStatements tokens n statement) :
    Treads tokens flags n (requiredBlock statement) := (seeks_block h).required rfl _

theorem treads_alternative (h : TreadsStatements tokens n statement) :
    Treads tokens flags n (alternative statement) := (treads_accept _).bind fun t? => by
  cases t? with
  | none => exact .pure _
  | some t =>
    refine (treads_isNext _).bind fun x => ?_
    split
    · exact (h flags).bind fun _ => .pure _
    · exact (treads_requiredBlock h).bind fun _ => .pure _

theorem treads_branch (h : TreadsStatements tokens n statement) :
    Treads tokens flags n (branch statement) := treads_keyword.bind fun word? => by
  cases word? with
  | none => exact .pure _
  | some word =>
    exact treads_condition.bind fun _ => (treads_requiredBlock h).bind fun _ =>
      (treads_alternative h).bind fun _ => (treads_infoFrom _ _).bind fun _ => .pure _

theorem treads_whileLoop (h : TreadsStatements tokens n statement) :
    Treads tokens flags n (whileLoop statement) := treads_keyword.bind fun word? => by
  cases word? with
  | none => exact .pure _
  | some word =>
    exact treads_condition.bind fun _ => (treads_requiredBlock h).underFlags.bind fun _ =>
      (treads_infoFrom _ _).bind fun _ => .pure _

theorem treads_nestedBlock (h : TreadsStatements tokens n statement) :
    Treads tokens flags n (nestedBlock statement) := (seeks_block h).treads.bind fun body? => by
  cases body? with
  | none => exact .pure _
  | some body => exact .pure _

theorem treads_anyStatement (h : TreadsStatements tokens n statement) :
    TreadsStatements tokens n (anyStatement statement) := fun flags =>
  treads_nextKind.bind fun k? => by
    split
    · exact .pure _
    · exact treads_declaration
    · exact treads_branch h
    · exact treads_whileLoop h
    · exact treads_returning
    · exact treads_jump
    · exact treads_jump
    · refine Treads.bind (fun _ _ => (runs_objectAhead false).weaken fun _ _ hb => ?_) fun x => ?_
      · exact hb.1 ▸ .refl _
      · split
        · exact treads_evaluation
        · exact treads_nestedBlock h
    · exact treads_evaluation

end

theorem treads_statementWithin (depth : Nat) :
    TreadsStatements tokens n (statementWithin depth) := by
  induction depth with
  | zero => exact fun _ => .pure none
  | succ depth ih => exact fun flags => (treads_anyStatement ih flags).remembered

theorem treads_maxDepth : Treads tokens flags n maxDepth := fun _ _ =>
  runs_maxDepth.weaken fun _ _ hb => hb.1 ▸ .refl _

theorem treads_statement : TreadsStatements tokens n statement := fun flags =>
  treads_maxDepth.bind fun depth => treads_statementWithin depth flags

theorem treads_parameter : Treads tokens flags n parameter := treads_identifier.bind fun name? => by
  cases name? with
  | none => exact .pure _
  | some name =>
    exact treads_annotation?.bind fun _ => (treads_infoAfter _).bind fun _ => .pure _

theorem treads_parameters : Treads tokens flags n parameters := (treads_require _).bind fun t? => by
  cases t? with
  | none => exact .pure _
  | some t =>
    exact (treads_items rfl treads_parameter).bind fun _ =>
      (treads_require _).bind fun _ => .pure _

theorem treads_callableBody : Treads tokens flags n callableBody :=
  (treads_requiredBlock treads_statement).underFlags

theorem treads_result? : Treads tokens flags n result? := treads_markedType .arrow

theorem treads_definitionRest (k : Kind) (word : Token) (comments : List Token) :
    Treads tokens flags n (definitionRest k (infoFrom word comments)) :=
  treads_requiredIdentifier.bind fun name => by
    split
    · exact treads_parameters.bind fun _ => treads_callableBody.bind fun _ =>
        (treads_infoFrom _ _).bind fun _ => .pure _
    · exact treads_parameters.bind fun _ => treads_result?.bind fun _ =>
        treads_callableBody.bind fun _ => (treads_infoFrom _ _).bind fun _ => .pure _
    · exact treads_annotation?.bind fun _ => treads_assigned.bind fun _ =>
        treads_closing (treads_infoFrom _ _)
    · exact (treads_behind _ treads_requiredType _).bind fun _ =>
        treads_closing (treads_infoFrom _ _)

theorem treads_definition : Treads tokens flags n definition :=
  Treads.remembered <| treads_nextKind.bind fun k? => by
    cases k? with
    | none => exact .pure _
    | some kind =>
      dsimp only
      split
      · exact .pure _
      · refine treads_keyword.bind fun word? => ?_
        cases word? with
        | none => exact .pure _
        | some word => exact (treads_definitionRest kind word.1 word.2).map some

theorem runs_consumeTrivia_end (h : a.next? tokens = none) :
    Runs tokens flags a consumeTrivia fun _ b => b.cursor = tokens.size := by
  refine .within fun hle => runs_consumeTrivia.weaken fun _ b hb => ?_
  subst hb
  have hend : tokens.size ≤ nextReal tokens a.cursor := Array.getElem?_eq_none_iff.mp h
  exact Nat.le_antisymm (nextReal_le_size hle) hend

theorem runs_program_along : Runs tokens flags a program fun _ b =>
    Along tokens a b ∧ b.cursor = tokens.size := by
  have hn : 0 ≤ a.cursor := Nat.zero_le _
  refine (treads_consumeTrivia a hn).bind fun _ b hb => ?_
  refine (treads_claimComments.after hb hn).bind fun leading c hc => ?_
  refine (treads_nextToken.after hc hn).bind fun first? d hd => ?_
  refine (((treads_items rfl treads_definition).after hd hn).both
    (runs_recovering rfl rfl rfl rfl builds_definition (Nat.zero_le _))).bind
      fun definitions e he => ?_
  obtain ⟨he, -, hfinished⟩ := he
  have hend : e.next? tokens = none := by
    rcases hfinished with hend | ⟨t, -, ht⟩
    · exact hend
    · cases ht
  have hrest : ∀ extent? : Option Extent, Runs tokens flags e
      (do
        consumeTrivia
        let trailing ← claimComments
        return (⟨definitions, extent?, leading ++ trailing⟩ : Program Info))
      fun _ b => Along tokens a b ∧ b.cursor = tokens.size := fun extent? =>
    ((treads_consumeTrivia.after he hn).both (runs_consumeTrivia_end hend)).bind fun _ f hf =>
      runs_claimComments.bind fun trailing g hg => .pure (hg.2 ▸ hf)
  cases first? with
  | none => exact hrest none
  | some first =>
    refine Runs.bind (Q := fun _ f => f = e) (runs_lastConsumed.map fun _ _ hf => hf.1)
      fun extent? f hf => ?_
    subst hf
    exact hrest extent?

end Grammar

/-- The reports of a parse are made along a course through all tokens, whatever has been done to
the stream and the memo. -/
theorem Session.Valid.course {s : Session} (h : s.Valid) :
    Course s.stream.readAll.tokens 0 (parse s.stream s.memo).1.reports
      s.stream.readAll.tokens.size := by
  obtain ⟨b, hreports, ⟨rs, hrs, hcourse⟩, hend⟩ := h.parsed Grammar.runs_program_along
  obtain rfl : rs = (parse s.stream s.memo).1.reports := hrs.symm.trans hreports
  exact hend ▸ hcourse

end Reparse
