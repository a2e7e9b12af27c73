import Reparse.Proofs.Grammar.Sound.Statements

/-!
# Soundness of the grammar of definitions
-/

namespace Reparse.Grammar

open Reparse.Parser

variable {tokens : Array Token} {flags : Flags} {given : Prop} {before : List Word}

def IsParameter (p : Parameter Info) : Prop := p.isGrammatical = true

theorem reads_parameter : Reads tokens flags given before parameter
    (Yields (Written IsParameter Parameter.spelling before) before) := by
  refine reads_identifier.bind fun name? _ => ?_
  cases name? with
  | none => exact .pure fun h => h.2
  | some name =>
    refine reads_annotation?.bind fun type? _ => (reads_infoAfter _).bind fun info _ => .pure ?_
    rintro ⟨⟨⟨-, hnamed, hname⟩, htyped, htype⟩, rfl⟩
    refine ⟨?_, hname.append htype⟩
    have hnamed : name.isNamed = true := hnamed
    simp [IsParameter, Parameter.isGrammatical, hnamed, htyped]

theorem reads_parameters : Reads tokens flags given before parameters
    (Written (fun ps => ps.all Parameter.isGrammatical = true) Parameter.listSpelling before) := by
  refine (reads_require rfl).bind fun t? _ => ?_
  cases t? with
  | none => exact .pure fun h => (Bool.false_ne_true h.2.1).elim
  | some t =>
    refine (reads_commas rfl rfl fun here => reads_parameter).bind fun found _ => ?_
    refine (reads_require rfl).bind fun _ _ => .pure ?_
    rintro ⟨⟨⟨-, -, rfl⟩, hok, hfound, -⟩, -, rfl⟩
    exact ⟨List.all_eq_true.mpr hok, hfound.mark.snoc⟩

theorem reads_result? : Reads tokens flags given before result?
    (Written (fun t? => t?.all TypeExpression.isGrammatical = true)
      (fun t? => Slot.behind .arrow (t?.map TypeExpression.spelling)) before) :=
  reads_markedType rfl

theorem reads_callableBody : Reads tokens flags given before callableBody
    (Written (fun b => b.isGrammatical false = true) Block.spelling before) := by
  have hbody : Reads tokens
      (flags.adjust { inFunction := true } { inLoop := true, noObject := true }) given before
      (requiredBlock statement) (Written (IsBlock _) Block.spelling before) :=
    reads_requiredBlock (reads_statement before.length) fun _ => Nat.le_refl _
  have hloop : (flags.adjust { inFunction := true } { inLoop := true, noObject := true }).inLoop =
      false := by
    simp [Flags.adjust]
  refine hbody.underFlags.weaken (fun h => h) fun _ b after h => ⟨?_, h.2⟩
  have hok := h.1
  rwa [IsBlock, hloop] at hok

def IsDefinition (d : Definition Info) : Prop := d.isGrammatical = true

theorem startsDefinition_cases {k : Kind} (h : startsDefinition k = true) :
    k = .onWord ∨ k = .fnWord ∨ k = .letWord ∨ k = .typeWord := by
  simpa [startsDefinition, or_assoc] using h

theorem reads_definitionRest {word : Kind} {finish : Parser Info}
    (hword : startsDefinition word = true)
    (hfinish : ∀ here, Reads tokens flags True here finish fun _ after => after = here) :
    Reads tokens flags given before (definitionRest word finish)
      (Written IsDefinition Definition.spelling (.mark word :: before)) := by
  refine reads_requiredIdentifier.bind fun name _ => ?_
  split
  · refine reads_parameters.bind fun parameters _ => reads_callableBody.bind fun body _ => ?_
    refine ((hfinish _).under fun _ => trivial).bind fun info _ => .pure ?_
    rintro ⟨⟨⟨⟨-, hnamed, hname⟩, hok, hparameters⟩, hbody, hspells⟩, rfl⟩
    refine ⟨?_, (hname.mark.append hparameters).append hspells⟩
    have hnamed : name.isNamed = true := hnamed
    rw [IsDefinition, Definition.isGrammatical, hnamed, hok, hbody]
    rfl
  · refine reads_parameters.bind fun parameters _ => reads_result?.bind fun type? _ => ?_
    refine reads_callableBody.bind fun body _ => ?_
    refine ((hfinish _).under fun _ => trivial).bind fun info _ => .pure ?_
    rintro ⟨⟨⟨⟨⟨-, hnamed, hname⟩, hok, hparameters⟩, htyped, htype⟩, hbody, hspells⟩, rfl⟩
    refine ⟨?_, ((hname.mark.append hparameters).append htype).append hspells⟩
    have hnamed : name.isNamed = true := hnamed
    rw [IsDefinition, Definition.isGrammatical, hnamed, hok, htyped, hbody]
    rfl
  · refine reads_annotation?.bind fun type? _ => ?_
    refine (reads_behind rfl fun here => reads_requiredExpression).bind fun value _ => ?_
    refine (reads_require rfl).bind fun _ _ => ?_
    refine ((hfinish _).under fun _ => trivial).bind fun info _ => .pure ?_
    rintro ⟨⟨⟨⟨⟨-, hnamed, hname⟩, htyped, htype⟩, mid, rfl, hok, hvalue⟩, -, rfl⟩, rfl⟩
    refine ⟨?_, ((hname.mark.append htype).append hvalue.mark).snoc⟩
    have hnamed : name.isNamed = true := hnamed
    rw [IsDefinition, Definition.isGrammatical, hnamed, htyped, hok.1]
    rfl
  next hon hfn hlet =>
    refine (reads_behind rfl fun here => reads_requiredType).bind fun type _ => ?_
    refine (reads_require rfl).bind fun _ _ => ?_
    refine ((hfinish _).under fun _ => trivial).bind fun info _ => .pure ?_
    rintro ⟨⟨⟨⟨-, hnamed, hname⟩, mid, rfl, hok, htype⟩, -, rfl⟩, rfl⟩
    have hkind : word = .typeWord := by
      rcases startsDefinition_cases hword with rfl | rfl | rfl | rfl
      · exact (hon rfl).elim
      · exact (hfn rfl).elim
      · exact (hlet rfl).elim
      · rfl
    subst hkind
    refine ⟨?_, (hname.mark.append htype.mark).snoc⟩
    have hnamed : name.isNamed = true := hnamed
    have hok : type.isGrammatical = true := hok
    rw [IsDefinition, Definition.isGrammatical, hnamed, hok]
    rfl

theorem reads_anyDefinition : Reads tokens flags given before anyDefinition
    (Yields (Written IsDefinition Definition.spelling before) before) := by
  refine reads_nextKind.bind fun k? _ => ?_
  cases k? with
  | none => exact .pure fun h => h.2.1
  | some k =>
    dsimp only
    split
    · exact .pure fun h => h.2.1
    next hstart =>
      have hstart : startsDefinition k = true := by simpa using hstart
      have hspelled : k.spelling?.isSome = true := by
        rcases startsDefinition_cases hstart with rfl | rfl | rfl | rfl <;> rfl
      refine ((reads_keyword hspelled).under ?_).bind fun word? _ => ?_
      · rintro ⟨-, rfl, hlead⟩
        exact hlead.symm
      rcases word? with _ | ⟨word, comments⟩
      · exact .pure fun h => h.2.elim
      · refine Reads.map (reads_definitionRest hstart fun here => reads_infoFrom word comments) ?_
        rintro ⟨⟨-, rfl, -⟩, -, rfl⟩ d after h
        exact h

theorem reads_definition : Reads tokens flags given before definition
    (Yields (Written IsDefinition Definition.spelling before) before) :=
  reads_anyDefinition.remembered

theorem exists_word_spelling {α : Type} (d : Definition α) : ∃ w, Slot.word w ∈ d.spelling := by
  cases d with
  | handler name parameters body info =>
    exact ⟨_, List.mem_append_left _ (List.mem_append_left _ List.mem_cons_self)⟩
  | function name parameters result? body info =>
    exact ⟨_, List.mem_append_left _ (List.mem_append_left _
      (List.mem_append_left _ List.mem_cons_self))⟩
  | global name type? value info => exact ⟨_, List.mem_append_right _ (List.mem_singleton_self _)⟩
  | typeAlias name type info => exact ⟨_, List.mem_append_right _ (List.mem_singleton_self _)⟩

theorem reads_definitions : Reads tokens flags given before
    (items { SeriesShape.unending with resync := some .definitionEnds, stray := .strayInput }
      definition)
    fun ds after => after = [] ∧ (∀ d ∈ ds, IsDefinition d) ∧
      Spells (ds.flatMap Definition.spelling) before [] := by
  refine (reads_run False IsDefinition Definition.spelling rfl rfl rfl
    fun here => ?_).weaken (fun h => h) ?_
  · refine reads_definition.weaken (fun h => h) fun _ d? after h => ?_
    cases d? with
    | none => exact fun hhere hnil => hhere (h.symm.trans hnil)
    | some d =>
      obtain ⟨w, hw⟩ := exists_word_spelling d
      exact ⟨h.2.length_lt hw, h⟩
  · rintro - ds after ⟨hrun, hend⟩
    obtain rfl := hend rfl
    rcases hrun with ⟨hlost, -⟩ | hrun
    · exact hlost.elim
    · exact ⟨rfl, hrun⟩

theorem reads_closing (definitions : List (Definition Info)) (extent? : Option Extent)
    (leading : List Token) (words : List Word) :
    Reads tokens flags
      (before = [] ∧ (∀ d ∈ definitions, IsDefinition d) ∧
        Spells (definitions.flatMap Definition.spelling) words []) before
      (do
        consumeTrivia
        let trailing ← claimComments
        return (⟨definitions, { extent?, comments := leading ++ trailing }⟩ : Program Info))
      fun p after => after = [] ∧ p.isGrammatical = true ∧ Spells p.spelling words [] := by
  refine reads_consumeTrivia.bind fun _ _ => reads_claimComments.bind fun trailing _ => .pure ?_
  rintro ⟨⟨⟨rfl, hok, hspells⟩, rfl⟩, rfl⟩
  exact ⟨rfl, List.all_eq_true.mpr hok, hspells⟩

theorem reads_program : Reads tokens flags given before program fun p after =>
    after = [] ∧ p.isGrammatical = true ∧ Spells p.spelling before [] := by
  refine reads_consumeTrivia.bind fun _ _ => reads_claimComments.bind fun leading _ => ?_
  refine reads_nextToken.bind fun first? _ => reads_definitions.bind fun definitions _ => ?_
  cases first? with
  | none =>
    refine (reads_closing definitions none leading before).under ?_
    rintro ⟨⟨⟨⟨-, rfl⟩, rfl⟩, rfl, -⟩, h⟩
    exact h
  | some first =>
    refine (reads_extentFrom first).bind fun extent? _ => ?_
    refine (reads_closing definitions extent? leading before).under ?_
    rintro ⟨⟨⟨⟨⟨-, rfl⟩, rfl⟩, rfl, -⟩, h⟩, rfl⟩
    exact h

end Reparse.Grammar
