import Reparse.Proofs.Grammar.Build.Definitions
import Reparse.Proofs.Grammar.Realizations
import Reparse.Proofs.Parser.Headway

/-!
# Headway of the rules

Every rule decides. Of most rules this follows from what they build. A statement may also be looked
for where a brace must not open an object literal; a block need not be divided between its
statements then, but it is as true of it that it decides.
-/

namespace Reparse

open Reparse.Parser

variable {tokens : Array Token} {flags : Flags} {a : Trail}

namespace Grammar

theorem decisive_keyword : Decisive tokens flags keyword := by
  intro a
  refine runs_consume.bind fun t? b hb => ?_
  cases t? with
  | none => exact .pure hb.2
  | some t =>
    obtain ⟨ht, rfl⟩ := hb
    refine runs_claimComments.bind fun comments c hc => .pure ?_
    obtain ⟨-, rfl⟩ := hc
    exact gains_past ht

theorem BuildsFrom.gains {rule : StatementRule} {t : Token}
    (h : BuildsFrom tokens flags 0 rule) (ht : a.next? tokens = some t) :
    Runs tokens flags a rule (Decides tokens a) := by
  refine (h a t ht (Nat.zero_le _)).weaken fun s? b hs => ?_
  obtain ⟨s, rfl, hbuilt⟩ := hs
  obtain ⟨f, hwalk, -⟩ := hbuilt.advances
  exact hwalk.gains hbuilt.lt

section

variable {statement : StatementRule} (hstatement : ∀ flags, Decisive tokens flags statement)

include hstatement

theorem decisive_bracedStatements : Decisive tokens flags (bracedStatements statement) := by
  intro a
  refine (runs_accept .leftBrace).bind fun t? b hb => ?_
  cases t? with
  | none => exact .pure hb.1
  | some t =>
    obtain ⟨ht, -, rfl⟩ := hb
    refine runs_claimComments.bind fun comments b hb => ?_
    obtain ⟨-, rfl⟩ := hb
    have hopened : Gains tokens a.cursor { a.past tokens with comments := [] }.cursor :=
      gains_past ht
    refine (((hstatement flags).recovering rfl rfl rfl).behind hopened).bind fun statements c hc => ?_
    refine ((going_require .rightBrace).behind hc).bind fun _ d hd => ?_
    exact ((going_infoFrom t comments).behind hd).bind fun info e he => .pure he

theorem decisive_block : Decisive tokens flags (block statement) :=
  (decisive_bracedStatements hstatement).remembered

theorem going_requiredBlock : Going tokens flags (requiredBlock statement) :=
  (decisive_block hstatement).required .missingBlock .missing

theorem going_alternative : Going tokens flags (alternative statement) := by
  intro a
  refine (runs_accept .elseWord).bind fun t? b hb => ?_
  cases t? with
  | none => exact .pure (.inl (congrArg Trail.cursor hb.1))
  | some t =>
    obtain ⟨ht, -, rfl⟩ := hb
    have hpast := gains_past ht
    refine (runs_isNext .ifWord).bind fun x c hc => ?_
    obtain ⟨rfl, -⟩ := hc
    split
    · exact ((hstatement flags).going.behind hpast).bind fun s? d hd => .pure (.inr hd)
    · exact ((going_requiredBlock hstatement).behind hpast).bind fun body d hd => .pure (.inr hd)

theorem decisive_branch : Decisive tokens flags (branch statement) := by
  intro a
  refine (decisive_keyword a).bind fun word? b hb => ?_
  cases word? with
  | none => exact .pure hb
  | some word =>
    refine (makes_condition.going.behind hb).bind fun condition c hc => ?_
    refine ((going_requiredBlock hstatement).behind hc).bind fun body d hd => ?_
    refine ((going_alternative hstatement).behind hd).bind fun alternative e he => ?_
    exact ((going_infoFrom _ _).behind he).bind fun info f hf => .pure hf

theorem decisive_whileLoop : Decisive tokens flags (whileLoop statement) := by
  intro a
  refine (decisive_keyword a).bind fun word? b hb => ?_
  cases word? with
  | none => exact .pure hb
  | some word =>
    refine (makes_condition.going.behind hb).bind fun condition c hc => ?_
    refine ((going_requiredBlock hstatement).underFlags.behind hc).bind fun body d hd => ?_
    exact ((going_infoFrom _ _).behind hd).bind fun info e he => .pure he

theorem decisive_nestedBlock : Decisive tokens flags (nestedBlock statement) := by
  intro a
  refine (decisive_block hstatement a).bind fun body? b hb => ?_
  cases body? with
  | none => exact .pure hb
  | some body => exact .pure hb

theorem decisive_anyStatement : Decisive tokens flags (anyStatement statement) := by
  intro a
  refine runs_nextKind.bind fun k? b hb => ?_
  obtain ⟨rfl, rfl⟩ := hb
  cases ht : b.next? tokens with
  | none => exact .pure rfl
  | some t =>
    simp only [Option.map_some]
    split
    · exact .pure rfl
    · exact builds_declaration.gains ht
    · exact decisive_branch hstatement b
    · exact decisive_whileLoop hstatement b
    · exact builds_returning.gains ht
    · exact builds_jump.gains ht
    · exact builds_jump.gains ht
    · refine (runs_objectAhead false).bind fun x c hc => ?_
      obtain ⟨rfl, -⟩ := hc
      split
      · exact builds_evaluation.decisive c
      · exact decisive_nestedBlock hstatement c
    · exact builds_evaluation.decisive b

end

theorem decisive_statementWithin (depth : Nat) (flags : Flags) :
    Decisive tokens flags (statementWithin depth) := by
  induction depth generalizing flags with
  | zero => exact fun a => .pure rfl
  | succ depth ih => exact (decisive_anyStatement ih).remembered

theorem decisive_statement (flags : Flags) : Decisive tokens flags statement := by
  intro a
  refine runs_maxDepth.bind fun depth b hb => ?_
  obtain ⟨rfl, -⟩ := hb
  exact decisive_statementWithin depth flags b

theorem Nonterminal.decisive (n : Nonterminal) : Decisive tokens flags n.parser := by
  cases n with
  | definition => exact builds_definition.decisive
  | statement => exact decisive_statement flags
  | block => exact decisive_block decisive_statement
  | expression => exact (builds_expression flags).decisive
  | type => exact builds_typeExpression.decisive
  | identifier => exact builds_identifier.decisive
  | parameter => exact builds_parameter.decisive
  | objectField =>
    have hfield : Builds tokens flags 0 (Leads tokens isIdentifier)
        (Field.outline .field Expression.outline) (field requiredExpression .missing) :=
      builds_field makes_requiredExpression Outline.absent_expression rfl
    exact hfield.decisive
  | recordField =>
    have hfield : Builds tokens flags 0 (Leads tokens isIdentifier)
        (Field.outline .fieldType TypeExpression.outline) (field requiredType .missing) :=
      builds_field makes_requiredType Outline.absent_type rfl
    exact hfield.decisive

end Grammar

end Reparse
