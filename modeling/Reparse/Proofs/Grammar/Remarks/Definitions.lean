import Reparse.Proofs.Assembly
import Reparse.Proofs.Grammar.Remarks.Statements

/-!
# Remarks on programs

The body of a definition is in no loop and within a function, whatever is around the definition.
From the start of a text on, what is reported is what the whole program calls for.
-/

namespace Reparse

open Reparse.Parser

variable {tokens : Array Token} {flags : Flags} {a b c : Trail} {n : Nat}

def Definition.remarks (d : Definition Info) : Remarks where
  changes := d.expressions.flatMap Expression.changes
  jumps := d.statements.filter fun q => q.1.word?.isSome

def Program.remarks (p : Program Info) : Remarks where
  changes := p.expressions.flatMap Expression.changes
  jumps := p.statements.filter fun q => q.1.word?.isSome

theorem Definition.remarks_of_body {d : Definition Info} {body : Block Info}
    (hstatements : d.statements = body.statements false)
    (hexpressions : d.expressions = d.statements.flatMap fun q => q.1.expressions) :
    d.remarks = body.remarks false := by
  rw [remarks, hexpressions, List.flatMap_assoc, hstatements]
  rfl

theorem Program.remarks_eq (p : Program Info) :
    p.remarks = .all Definition.remarks p.definitions := by
  rw [remarks, expressions, statements, List.flatMap_assoc, List.filter_flatMap]
  rfl

namespace Grammar

theorem quiet_parameter : Quiet tokens parameter := quiet_identifier.bind fun name? => by
  cases name? with
  | none => exact .pure _
  | some name =>
    exact quiet_annotation?.bind fun _ => (quiet_infoAfter _).bind fun _ => .pure _

theorem quiet_parameters : Quiet tokens parameters := (quiet_require _).bind fun t? => by
  cases t? with
  | none => exact .pure _
  | some t =>
    exact (quiet_parameter.items rfl (by decide) (by decide)).bind fun _ =>
      (quiet_require _).bind fun _ => .pure _

theorem quiet_result? : Quiet tokens result? := quiet_markedType .arrow

theorem quiet_aliased : Quiet tokens (behind .assign requiredType .missing) :=
  quiet_behind quiet_requiredType _

theorem notes_callableBody : Notes tokens flags n (Block.remarks false) callableBody := by
  let inside := flags.adjust { inFunction := true } { inLoop := true, noObject := true }
  have hloop : inside.inLoop = false := by simp [inside, Flags.adjust]
  have hbody : Notes tokens inside n (Block.remarks inside.inLoop) (requiredBlock statement) :=
    notes_requiredBlock builds_statement notes_statement (by simp [inside, Flags.adjust])
      (by simp [inside, Flags.adjust])
  rw [hloop] at hbody
  exact hbody.underFlags

theorem notes_definitionRest (k : Kind) (word : Token) (comments : List Token) :
    Notes tokens flags n Definition.remarks (definitionRest k (infoFrom word comments)) := by
  intro a ha
  refine (quiet_requiredIdentifier flags a).bind fun name b hb => ?_
  split
  · refine (quiet_parameters.after hb).bind fun parameters c hc => ?_
    refine (notes_callableBody.after hc ha).bind fun body d hd => ?_
    refine ((quiet_infoFrom _ _).after hd).bind fun info e he => .pure ?_
    rw [Definition.remarks_of_body rfl rfl]
    exact he
  · refine (quiet_parameters.after hb).bind fun parameters c hc => ?_
    refine (quiet_result?.after hc).bind fun result? d hd => ?_
    refine (notes_callableBody.after hd ha).bind fun body e he => ?_
    refine ((quiet_infoFrom _ _).after he).bind fun info f hf => .pure ?_
    rw [Definition.remarks_of_body rfl rfl]
    exact hf
  · refine (quiet_annotation?.after hb).bind fun type? c hc => ?_
    refine (notes_assigned.after hc ha).bind fun value d hd => ?_
    refine ((quiet_require _).after hd).bind fun _ e he => ?_
    refine ((quiet_infoFrom _ _).after he).bind fun info f hf => .pure ?_
    have hvalue : (Definition.global name type? value info).remarks = value.remarks :=
      congrArg (Remarks.mk · []) (List.flatMap_singleton ..)
    rw [hvalue]
    exact hf
  · refine (quiet_aliased.after hb).bind fun type c hc => ?_
    refine ((quiet_require _).after hc).bind fun _ d hd => ?_
    exact ((quiet_infoFrom _ _).after hd).bind fun info e he => .pure he

theorem notes_definition : Notes tokens flags n (.optional Definition.remarks) definition := by
  refine Notes.remembered fun a ha => ?_
  refine (quiet_nextKind flags a).bind fun k? b hb => ?_
  cases k? with
  | none => exact .pure hb
  | some kind =>
    dsimp only
    split
    · exact .pure hb
    · refine (quiet_keyword.after hb).bind fun word? c hc => ?_
      cases word? with
      | none => exact .pure hc
      | some word =>
        exact ((notes_definitionRest kind word.1 word.2).after hc ha).map fun _ _ hx => hx

theorem quiet_consumeTrivia : Quiet tokens consumeTrivia := fun _ a =>
  runs_consumeTrivia.weaken fun _ b hb => by
    subst hb
    exact .of_eq (le_nextReal tokens a.cursor) rfl

theorem quiet_extentFrom (first : Token) : Quiet tokens (extentFrom first) := fun _ _ =>
  runs_lastConsumed.map fun _ b hb => hb.1 ▸ .refl b

theorem notes_program : Notes tokens flags n Program.remarks program := by
  intro a ha
  have hdefinitions : Notes tokens flags n (.all Definition.remarks)
      (items { SeriesShape.unending with resync := some .definitionEnds, stray := .strayInput }
        definition) :=
    notes_items nofun (by decide) fun b hb => (notes_definition b hb).weaken
      fun _ _ hx => ⟨hx, nofun⟩
  refine (quiet_consumeTrivia flags a).bind fun _ b hb => ?_
  refine (quiet_claimComments.after hb).bind fun leading c hc => ?_
  refine (quiet_nextToken.after hc).bind fun first? d hd => ?_
  refine (hdefinitions.after hd ha).bind fun definitions e he => ?_
  have hrest : ∀ (extent? : Option Extent) (b : Trail),
      Remarked tokens a b (.all Definition.remarks definitions) → Runs tokens flags b
      (do
        consumeTrivia
        let trailing ← claimComments
        return (⟨definitions, extent?, leading ++ trailing⟩ : Program Info))
      fun p c => Remarked tokens a c p.remarks := fun extent? b hb =>
    (quiet_consumeTrivia.after hb).bind fun _ c hc => (quiet_claimComments.after hc).bind
      fun trailing d hd => .pure (Program.remarks_eq _ ▸ hd)
  cases first? with
  | none => exact hrest none e he
  | some first =>
    exact ((quiet_extentFrom first).after he).bind fun extent? f hf => hrest extent? f hf

end Grammar

/-- What a parse reports is what the program that it gives calls for, whatever has been done to the
stream and the memo. -/
theorem Session.Valid.noted {s : Session} (h : s.Valid) :
    ∃ j, Noted s.stream.readAll.tokens 0 j (parse s.stream s.memo).1.reports
      (parse s.stream s.memo).1.program.remarks := by
  obtain ⟨b, hreports, -, reports, hb, hnoted⟩ :=
    h.parsed (Grammar.notes_program (n := 0) ⟨0, [], []⟩ (Nat.zero_le _))
  obtain rfl : reports = (parse s.stream s.memo).1.reports := hb.symm.trans hreports
  exact ⟨b.cursor, hnoted⟩

end Reparse
