import Reparse.Proofs.Grammar.Complete.Statements
import Reparse.Proofs.Grammar.Sound.Definitions

/-!
# Completeness of the grammar of definitions

A definition is the first thing that is read, so a run that gets to it need not have consumed
anything yet. From its keyword on, what was consumed last is known.
-/

namespace Reparse.Grammar

open Reparse.Parser

variable {β : Type} {tokens : Array Token} {flags : Flags} {least bound : Nat}
  {before after rest : List Word} {w : Word}

theorem finds_parameter {p : Parameter Unit} (hp : p.isGrammatical = true) :
    FindsItem tokens flags 1 parameter bound
      (fun there => lead there = some .comma ∨ lead there = some .rightParen)
      Parameter.spelling (Parameter.map Info.erase) p := by
  intro here there h _ hthere
  obtain ⟨name, type?, info⟩ := p
  simp only [Parameter.isGrammatical, Bool.and_eq_true] at hp
  obtain ⟨_, hname, htype⟩ := h.split
  refine (finds_identifier hp.1 hname).bind ?_
  rintro _ ⟨name', rfl, hname'⟩
  have hthere' : AfterType there ∧ lead there ≠ some .colon := by
    rcases hthere with hthere | hthere <;> simp [AfterType, hthere]
  refine (finds_annotation? hp.2 htype hthere'.1 hthere'.2).bind fun type' htype' => ?_
  refine (finds_infoAfter _).bind fun info _ => .pure ⟨_, rfl, ?_⟩
  simp only [Parameter.map, hname', htype']

theorem finds_parameters {ps : List (Parameter Unit)} (hps : ps.all Parameter.isGrammatical = true)
    (h : Spells (Parameter.listSpelling ps) before after) :
    Finds tokens flags 1 before parameters after
      fun found => found.map (Parameter.map Info.erase) = ps := by
  obtain ⟨words, hinner, rfl⟩ := h.enclosed
  rw [← Slot.commas_true] at hinner
  have hok := List.all_eq_true.mp hps
  refine (finds_require rfl).bind ?_
  rintro _ ⟨t, rfl, -⟩
  refine (finds_commas (.commas .rightParen) rfl rfl (by decide) rfl
    (fun p hp here there hspells => ?_) (fun p hp => finds_parameter (hok p hp)) hinner
    (Nat.lt_succ_self _)).bind fun found hfound => ?_
  · have hp := hok p hp
    simp only [Parameter.isGrammatical, Bool.and_eq_true] at hp
    obtain ⟨_, hname, -⟩ := hspells.split
    obtain ⟨_, -, rfl⟩ := Identifier.spells hp.1 hname
    exact ⟨.identifier, rfl, by decide⟩
  · exact (finds_require rfl).bind fun _ _ => .pure hfound

theorem finds_callableBody {b : Block Unit} (hb : b.isGrammatical false = true)
    (h : Spells b.spelling before after) :
    Finds tokens flags 1 before callableBody after fun n => n.map Info.erase = b := by
  have hflags :
      InBody (flags.adjust { inFunction := true } { inLoop := true, noObject := true }) := by
    simp [InBody, Flags.adjust]
  have hloop : (flags.adjust { inFunction := true } { inLoop := true, noObject := true }).inLoop =
      false := by
    simp [Flags.adjust]
  refine Finds.underFlags (finds_requiredBlock (finds_statement before.length) hflags ?_ h
    (Nat.lt_succ_self _))
  rw [hloop]
  exact hb

theorem finds_definitionRest (tokens : Array Token) (flags : Flags)
    (hopen : flags.noObject = false) {d : Definition Unit}
    (hd : d.isGrammatical = true) (h : Spells d.spelling before after) :
    ∃ (k : Kind) (words : List Word), before = .mark k :: words ∧ startsDefinition k = true ∧
      ∀ finish : Parser Info, (∀ here, Finds tokens flags 1 here finish here fun _ => True) →
        Finds tokens flags 1 words (definitionRest k finish) after
          fun n => n.map Info.erase = d := by
  cases d with
  | handler name parameters body info =>
    simp only [Definition.isGrammatical, Bool.and_eq_true] at hd
    obtain ⟨_, hstart, hbody⟩ := h.split
    obtain ⟨_, hnamed, hparameters⟩ := hstart.split
    obtain ⟨words, rfl, hname⟩ := Spells.mark_iff.mp hnamed
    refine ⟨_, words, rfl, rfl, fun finish hfinish => ?_⟩
    refine (finds_requiredIdentifier hd.1.1 hname).bind fun name' hname' => ?_
    refine (finds_parameters hd.1.2 hparameters).bind fun parameters' hparameters' => ?_
    refine (finds_callableBody hd.2 hbody).bind fun body' hbody' => ?_
    refine (hfinish _).bind fun info _ => .pure ?_
    simp only [Definition.map, hname', hparameters', hbody']
  | function name parameters result? body info =>
    simp only [Definition.isGrammatical, Bool.and_eq_true] at hd
    obtain ⟨_, hheader, hbody⟩ := h.split
    obtain ⟨_, hstart, hresult⟩ := hheader.split
    obtain ⟨_, hnamed, hparameters⟩ := hstart.split
    obtain ⟨words, rfl, hname⟩ := Spells.mark_iff.mp hnamed
    have hbrace := Block.lead_eq hd.2 hbody
    refine ⟨_, words, rfl, rfl, fun finish hfinish => ?_⟩
    refine (finds_requiredIdentifier hd.1.1.1 hname).bind fun name' hname' => ?_
    refine (finds_parameters hd.1.1.2 hparameters).bind fun parameters' hparameters' => ?_
    refine (finds_markedType hd.1.2 hresult (by simp [AfterType, hbrace])
      (by simp [hbrace])).bind fun result' hresult' => ?_
    refine (finds_callableBody hd.2 hbody).bind fun body' hbody' => ?_
    refine (hfinish _).bind fun info _ => .pure ?_
    simp only [Definition.map, hname', hparameters', hresult', hbody']
  | global name type? value info =>
    simp only [Definition.isGrammatical, Bool.and_eq_true] at hd
    obtain ⟨_, htyped, hassigned⟩ := h.ended.split
    obtain ⟨_, hnamed, htype⟩ := htyped.split
    obtain ⟨words, rfl, hname⟩ := Spells.mark_iff.mp hnamed
    obtain ⟨_, rfl, hvalue⟩ := Spells.mark_iff.mp hassigned
    refine ⟨_, words, rfl, rfl, fun finish hfinish => ?_⟩
    refine (finds_requiredIdentifier hd.1.1 hname).bind fun name' hname' => ?_
    refine (finds_annotation? hd.1.2 htype (by simp [AfterType])
      (by simp)).bind fun type' htype' => ?_
    refine (finds_behind (finds_requiredExpression (Expression.fits_of_isGrammatical hd.2 hopen)
      hvalue (stops_of_lead rfl (by decide) 0))).bind fun value' hvalue' => ?_
    refine (finds_require rfl).bind fun _ _ => (hfinish _).bind fun info _ => .pure ?_
    simp only [Definition.map, hname', htype', hvalue'.1]
  | typeAlias name type info =>
    simp only [Definition.isGrammatical, Bool.and_eq_true] at hd
    obtain ⟨_, hnamed, hassigned⟩ := h.ended.split
    obtain ⟨words, rfl, hname⟩ := Spells.mark_iff.mp hnamed
    obtain ⟨_, rfl, htype⟩ := Spells.mark_iff.mp hassigned
    refine ⟨_, words, rfl, rfl, fun finish hfinish => ?_⟩
    refine (finds_requiredIdentifier hd.1 hname).bind fun name' hname' => ?_
    refine (finds_behind (finds_requiredType hd.2 htype
      (by simp [AfterType]))).bind fun type' htype' => ?_
    refine (finds_require rfl).bind fun _ _ => (hfinish _).bind fun info _ => .pure ?_
    simp only [Definition.map, hname', htype']

theorem finds_keyword_bind {q : Option (Token × List Token) → Parser β} {R : β → Prop}
    (hq : ∀ t comments, Finds tokens flags (least + 1) rest (q (some (t, comments))) after R) :
    Finds tokens flags least (w :: rest) (keyword >>= q) after R := by
  rw [keyword, bind_assoc]
  refine finds_consume_bind fun t _ => ?_
  refine Finds.bind (Q := fun word? => ∃ comments, word? = some (t, comments))
    (finds_claimComments.bind fun comments _ => .pure ⟨comments, rfl⟩) ?_
  rintro _ ⟨comments, rfl⟩
  exact hq t comments

theorem finds_definition {d : Definition Unit} (hd : d.isGrammatical = true) :
    FindsItem tokens {} 0 definition bound (fun _ => True) Definition.spelling
      (Definition.map Info.erase) d := by
  intro here there h _ _
  obtain ⟨k, words, rfl, hstart, hrest⟩ := finds_definitionRest tokens {} rfl hd h
  refine Finds.remembered (finds_nextKind.bind ?_)
  rintro _ rfl
  have hlead : lead (.mark k :: words) = some k := rfl
  simp only [hlead, hstart, Bool.not_true, Bool.false_eq_true, if_false]
  refine finds_keyword_bind fun word comments => ?_
  exact Finds.map (hrest _ fun here => (finds_infoFrom word comments).weaken fun _ _ => trivial)
    fun n hn => ⟨n, rfl, hn⟩

theorem finds_anyExtent (t : Token) :
    Finds tokens flags least before (extentFrom t) before fun _ => True := by
  have hstate : ∀ s, ((extentFrom t).eval (.bare tokens flags) s).2 = s := by
    intro s
    simp only [extentFrom, eval_bind, eval_lastConsumed]
    rfl
  refine .of_still (fun s => ?_) (fun s => ?_) (fun s => ?_) (fun s hs => ?_) fun _ _ => trivial
  · rw [hstate]
  · rw [hstate]
  · rw [hstate]
  · rw [hstate, hs]

theorem finds_program {p : Program Unit} (hp : p.isGrammatical = true)
    (h : Spells p.spelling before []) :
    Finds tokens {} 0 before program [] fun n => n.map Info.erase = p := by
  have hok := List.all_eq_true.mp hp
  refine finds_consumeTrivia.bind fun _ _ => finds_claimComments.bind fun leading _ => ?_
  refine finds_nextToken.bind fun first? _ => ?_
  refine (finds_run
    { SeriesShape.unending with resync := some .definitionEnds, stray := .strayInput }
    (fun _ => True) rfl (.inl rfl) trivial (fun d hd here there hspells => ?_)
    (fun d hd => finds_definition (hok d hd)) h (Nat.lt_succ_self _)).bind fun found hfound => ?_
  · obtain ⟨w, hw⟩ := exists_word_spelling d
    obtain ⟨k, words, rfl, -, -⟩ :=
      finds_definitionRest tokens {} rfl (hok d hd) hspells
    exact ⟨trivial, hspells.length_lt hw, k, rfl, (Option.some_ne_none k).symm⟩
  · have hclosing : ∀ extent?, Finds tokens {} 0 [] (do
        consumeTrivia
        let trailing ← claimComments
        return (⟨found, { extent?, comments := leading ++ trailing }⟩ : Program Info)) []
        fun n => n.map Info.erase = p := fun extent? =>
      finds_consumeTrivia.bind fun _ _ => finds_claimComments.bind fun trailing _ => .pure (by
        simp only [Program.map, hfound])
    cases first? with
    | none => exact hclosing none
    | some first => exact (finds_anyExtent first).bind fun extent? _ => hclosing extent?

end Reparse.Grammar
