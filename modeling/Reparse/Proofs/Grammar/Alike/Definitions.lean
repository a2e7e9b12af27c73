import Reparse.Grammar.Definitions
import Reparse.Proofs.Grammar.Alike.Statements

/-!
# Twin runs of the grammar of definitions and programs
-/

namespace Reparse.Grammar

open Reparse.Parser

variable {w : Window} {m : Nat}

theorem alike_parameter : AlikeRule w m parameter parameter := by
  refine alike_identifier.bind fun name? => ?_
  cases name? with
  | none => exact .pure rfl fun _ hc => hc
  | some name =>
    refine alike_annotation?.bind fun type? => ?_
    rw [Renumber.identifier_info?]
    exact (alike_infoAfter (Nat.le_add_left 1 m) name.info?).bind fun info =>
      .pure rfl fun _ hc => hc

theorem alike_parameters : AlikeStep w m parameters parameters := by
  refine (alike_require .leftParen).bind fun t? => ?_
  cases t? with
  | none => exact .pure rfl fun _ hc => hc
  | some t =>
    refine (alike_items _ fun x _ => alike_parameter).bind fun found => ?_
    exact (alike_require _).step.bind fun _ => .pure rfl fun _ hc => hc.mono (Nat.le_succ m)

theorem alike_callableBody : AlikeStep w m callableBody callableBody :=
  (alike_requiredBlock fun _ _ => nested_statement).underFlags _ _

theorem alike_result? : AlikeStep w m result? result? := by
  refine (alike_accept .arrow).bind fun t? => ?_
  cases t? with
  | none => exact .pure rfl fun _ hc => hc
  | some t =>
    exact (alike_requiredType (m := m + 1)).bind fun type =>
      .pure rfl fun _ hc => hc.mono (Nat.le_succ m)

theorem alike_definitionRest (word : Kind) {finish₁ finish₂ : Parser Info}
    (hfinish : AlikeStep w m finish₁ finish₂) :
    AlikeStep w m (definitionRest word finish₁) (definitionRest word finish₂) := by
  refine alike_requiredIdentifier.bind fun name => ?_
  split
  · refine alike_parameters.bind fun parameters => ?_
    refine alike_callableBody.bind fun body => ?_
    exact hfinish.bind fun info => .pure rfl fun _ hc => hc
  · refine alike_parameters.bind fun parameters => ?_
    refine alike_result?.bind fun result => ?_
    refine alike_callableBody.bind fun body => ?_
    exact hfinish.bind fun info => .pure rfl fun _ hc => hc
  · refine alike_annotation?.bind fun type? => ?_
    refine (alike_behind .assign (fun x _ => alike_requiredExpression) rfl).bind fun value => ?_
    refine (alike_require _).step.bind fun _ => ?_
    exact hfinish.bind fun info => .pure rfl fun _ hc => hc
  · refine (alike_behind .assign (fun x _ => alike_requiredType) rfl).bind fun type => ?_
    refine (alike_require _).step.bind fun _ => ?_
    exact hfinish.bind fun info => .pure rfl fun _ hc => hc

theorem alike_anyDefinition : AlikeRule w m anyDefinition anyDefinition := by
  refine alike_next_kind (.pure rfl fun _ hc => hc) fun k => ?_
  dsimp only
  split
  · exact .pure rfl fun _ hc => hc.1
  · refine alike_keyword.ready.bind fun word? => ?_
    rcases word? with _ | ⟨word, comments⟩
    · exact .pure rfl fun _ hc => hc
    · have hfinish : AlikeStep w (m + 1) (infoFrom word comments)
          (infoFrom (renumber w.number word) (renumber w.number comments)) :=
        alike_infoFrom (Nat.le_add_left 1 m) word comments
      exact (alike_definitionRest _ hfinish).map (fun _ => rfl) fun _ _ hc => hc

theorem alike_definition : AlikeRule w m definition definition :=
  alike_remembered rfl Looks.nextKind.bind (fun _ _ => alike_anyDefinition)
    (fun _ _ => alike_anyDefinition) fun _ _ => alike_anyDefinition

def programEnd (definitions : List (Definition Info)) (leading : List Token)
    (extent? : Option Extent) : Parser (Program Info) := do
  consumeTrivia
  let trailing ← claimComments
  return ⟨definitions, { extent?, comments := leading ++ trailing }⟩

theorem alike_programEnd (definitions : List (Definition Info)) (leading : List Token)
    (extent? : Option Extent) :
    AlikeStep w m (programEnd definitions leading extent?) (programEnd
      (renumber w.number definitions) (renumber w.number leading) (renumber w.number extent?)) := by
  refine alike_consumeTrivia.bind fun _ => ?_
  refine alike_claimComments.bind fun trailing => .pure ?_ fun _ hc => hc
  rw [← Renumber.renumber_append]
  rfl

theorem alike_program (hi : w.i = 0) (hj : w.j = 0) : AlikeStep w 0 program program := by
  refine alike_consumeTrivia.bind fun _ => ?_
  refine alike_claimComments.bind fun leading => ?_
  refine (alike_nextToken.weaken (fun _ hc => hc) fun _ _ hc => hc.1).bind fun first? => ?_
  refine (alike_items _ fun x _ => alike_definition).bind fun definitions => ?_
  cases first? with
  | none => exact alike_programEnd definitions leading none
  | some first =>
    exact (alike_extentFrom (.inr ⟨hi, hj⟩) first).bind
      fun extent? => alike_programEnd definitions leading extent?

end Reparse.Grammar
