import Reparse.Proofs.Grammar.Build.Statements

/-!
# What the rules for definitions build

A program divides all real tokens into those of its definitions and skipped runs. The comments that
none of its definitions took are its own.
-/

namespace Reparse

open Reparse.Parser

variable {tokens : Array Token} {flags : Flags} {a b c : Trail} {n : Nat} {t : Token}
  {claimed : List Token}

namespace Grammar

theorem builds_parameter :
    Builds tokens flags n (Leads tokens isIdentifier) Parameter.outline parameter := by
  intro a ha
  refine (builds_identifier a ha).bind fun name? b h => ?_
  cases name? with
  | none => exact .pure h
  | some name =>
    obtain ⟨hname, hstarts⟩ := h
    have hn : n ≤ b.cursor := Nat.le_trans ha hname.advances.le
    refine (makes_annotation? b hn).bind fun type? c hc => ?_
    exact hname.closes name.info?_outline hc fun info hnode =>
      .pure ⟨hnode .parameter none rfl, hstarts⟩

theorem makes_parameters :
    Makes tokens flags n (fun ps => ps.map Parameter.outline) parameters := by
  intro a ha
  refine (runs_require .leftParen).bind fun t? b h => ?_
  cases t? with
  | none => exact .pure h.advances
  | some t =>
    refine ((makes_items rfl builds_parameter).behind h.advances ha).bind fun found c hc => ?_
    exact (hc.require .rightParen).bind fun _ d hd => .pure hd

theorem makes_callableBody : Makes tokens flags n (fun x => [x.outline]) callableBody := by
  refine Makes.underFlags (makes_requiredBlock builds_statement ?_)
  simp [Flags.adjust]

theorem makes_result? : Makes tokens flags n
    (fun type? => (type?.map TypeExpression.outline).toList) result? := makes_markedType .arrow

theorem makes_aliased : Makes tokens flags n (fun x => [x.outline])
    (behind .assign requiredType .missing) :=
  makes_behind makes_requiredType fun _ ho => List.mem_singleton.mp ho ▸ Outline.absent_type

theorem runs_definitionRest (h : Since tokens a b t claimed []) (word : Kind) :
    Runs tokens flags b (definitionRest word (infoFrom t claimed))
      fun x c => Built tokens a c x.outline := by
  have ha : 0 ≤ a.cursor := Nat.zero_le _
  refine (makes_requiredIdentifier.since h ha).bind fun name c hc => ?_
  split
  · refine (makes_parameters.since hc ha).bind fun parameters d hd => ?_
    refine (makes_callableBody.since hd ha).bind fun body e he => ?_
    exact he.closes fun info hnode => .pure (hnode .handler none rfl)
  · refine (makes_parameters.since hc ha).bind fun parameters d hd => ?_
    refine (makes_result?.since hd ha).bind fun result? e he => ?_
    refine (makes_callableBody.since he ha).bind fun body f hf => ?_
    exact hf.closes fun info hnode => .pure (hnode .function none rfl)
  · refine (makes_annotation?.since hc ha).bind fun type? d hd => ?_
    refine (makes_assigned.since hd ha).bind fun value e he => ?_
    exact (he.require .semicolon).bind fun _ f hf => hf.closes fun info hnode =>
      .pure (hnode .global none rfl)
  · refine (makes_aliased.since hc ha).bind fun type d hd => ?_
    exact (hd.require .semicolon).bind fun _ e he => he.closes fun info hnode =>
      .pure (hnode .typeAlias none rfl)

theorem builds_anyDefinition :
    Builds tokens flags n (Leads tokens startsDefinition) Definition.outline anyDefinition := by
  intro a ha
  refine runs_nextKind.bind fun k? b h => ?_
  obtain ⟨rfl, rfl⟩ := h
  cases ht : b.next? tokens with
  | none => exact .pure ⟨rfl, not_leads ht⟩
  | some t =>
    have hleads : Leads tokens startsDefinition b.cursor ↔ startsDefinition t.kind = true :=
      leads_iff ht
    simp only [Option.map_some]
    split
    next hnot =>
      refine .pure ⟨rfl, fun hlead => ?_⟩
      rw [hleads.mp hlead] at hnot
      cases hnot
    next hstarts =>
      refine (runs_keyword ht).bind fun word? c hc => ?_
      obtain ⟨comments, rfl, hc⟩ := hc
      refine (runs_definitionRest hc.since t.kind).map fun x d hx => ⟨hx, hleads.mpr ?_⟩
      simpa using hstarts

theorem builds_definition :
    Builds tokens flags n (Leads tokens startsDefinition) Definition.outline definition :=
  builds_anyDefinition.remembered

end Grammar

/-- What holds of the program that is made of some tokens, and of what is found to report. -/
structure Assembled (tokens : Array Token) (p : Program Info) (f : Findings) : Prop where
  told : f.Told tokens
  strays : f.strays.Sublist tokens.toList
  kept : ∀ t, (tokens.toList.filter Token.isComment).count t =
    (Outline.gathered [p.outline]).count t + f.dropped.count t
  ordered : ∀ o ∈ p.outline.nodes, o.comments.Sublist tokens.toList
  empty : reals tokens 0 = [] → p.info.extent? = none ∧ p.definitions = []
  lies : reals tokens 0 ≠ [] → ∃ e i j, p.info.extent? = some e ∧ e.Spans tokens i j ∧
    Outline.InRow tokens i (j + 1) (p.definitions.map Definition.outline)
  laid : ∀ o ∈ Outline.listNodes (p.definitions.map Definition.outline), o.Laid tokens
  blocks : ∀ o ∈ p.outline.nodes, o.BlockDivided tokens f.reports
  divided : Divided Grammar.startsDefinition .definitionEnds
    (p.definitions.map Definition.outline) f.input (reals tokens 0) []

theorem Walk.stretches {claimed : List Token} {nodes : List (Outline Info)} {f : Findings}
    (h : Walk tokens b c claimed nodes f) (hstart : b.cursor = nextReal tokens 0)
    (hend : c.next? tokens = none) :
    stretch tokens 0 (nextReal tokens 0) ++ (stretch tokens b.cursor c.cursor ++
      stretch tokens c.cursor (nextReal tokens c.cursor)) = tokens.toList := by
  have hle := le_nextReal tokens c.cursor
  rw [stretch_append h.le hle, hstart,
    stretch_append (Nat.zero_le _) (hstart ▸ Nat.le_trans h.le hle),
    stretch_eq_drop (Nat.zero_le _) hend]
  rfl

theorem Recovers.assembled {xs : List (Definition Info)} {extent? : Option Extent}
    (h : Recovers tokens Grammar.startsDefinition .definitionEnds .strayInput b Definition.outline
      xs c)
    (hb : b = ⟨nextReal tokens 0, [], []⟩) (hend : c.next? tokens = none)
    (hextent : extent? = (b.next? tokens).bind fun first =>
      (tokens[c.cursor - 1]?).map fun last => ⟨first, last⟩) :
    ∃ f, c.reports = f.reports ∧ Assembled tokens
      ⟨xs, extent?, (stretch tokens 0 (nextReal tokens 0)).filter Token.isComment ++
        (c.upTo tokens (nextReal tokens c.cursor)).comments⟩ f := by
  obtain ⟨f, strays, hwalk, hdivided, hinput, -⟩ := h
  have hcursor : b.cursor = nextReal tokens 0 := congrArg Trail.cursor hb
  have hcomments : b.comments = [] := congrArg Trail.comments hb
  have hreports : b.reports = [] := congrArg Trail.reports hb
  have hfirst : reals tokens b.cursor = reals tokens 0 := by rw [hcursor, reals_nextReal]
  have hlast : reals tokens c.cursor = [] := reals_of_next_none hend
  have hall := hwalk.stretches hcursor hend
  rw [if_pos rfl] at hinput
  subst hinput
  have hordered : ∀ {ts : List Token}, ts.Sublist (b.comments ++ stretch tokens b.cursor c.cursor) →
      ts.Sublist (stretch tokens b.cursor c.cursor) := fun hts => by
    rwa [hcomments, List.nil_append] at hts
  refine ⟨f, ?_,
    { told := hwalk.told
      strays := hwalk.strays.trans (stretch_sublist ..)
      kept := fun t => ?_
      ordered := fun o ho => ?_
      empty := fun hempty => ?_
      lies := fun hne => ?_
      laid := hwalk.laid
      blocks := fun o ho => ?_
      divided := ?_ }⟩
  · rw [hwalk.reports, hreports, List.nil_append]
  · have hkept := hwalk.kept t
    rw [Program.outline, Outline.gathered_node, ← hall]
    simp only [hcomments, Trail.upTo, List.filter_append, List.count_append, List.count_nil]
      at hkept ⊢
    omega
  · rw [Outline.nodes_eq] at ho
    rcases List.mem_cons.mp ho with rfl | ho
    · rw [← hall]
      exact List.filter_sublist.append ((hordered hwalk.waiting).append List.filter_sublist)
    · exact (hordered (hwalk.ordered o ho)).trans (stretch_sublist ..)
  · rw [hfirst] at hdivided
    refine ⟨?_, List.map_eq_nil_iff.mp (hdivided.eq_nil hempty).1⟩
    cases hnext : b.next? tokens with
    | none => rw [hextent, hnext]; rfl
    | some t =>
      rw [← hfirst, reals_of_next hnext] at hempty
      cases hempty
  · rw [← hfirst] at hne
    cases hnext : b.next? tokens with
    | none => exact absurd (reals_of_next_none hnext) hne
    | some first =>
      have hlt := hwalk.lt_of_reals (hlast ▸ hne)
      obtain ⟨last, hlast, -⟩ := hwalk.last hlt
      refine ⟨⟨first, last⟩, nextReal tokens b.cursor, c.cursor - 1, ?_,
        hwalk.spans hlt hnext hlast⟩
      rw [hextent, hnext, hlast]
      rfl
  · rw [Outline.nodes_eq] at ho
    rcases List.mem_cons.mp ho with rfl | ho
    · intro e hform
      cases hform
    · exact hwalk.blocks o ho
  · rwa [hfirst, hlast] at hdivided

namespace Grammar

theorem runs_program : Runs tokens flags ⟨0, [], []⟩ program fun p b =>
    ∃ f, b.reports = f.reports ∧ Assembled tokens p f := by
  refine runs_consumeTrivia.bind fun _ a ha => runs_claimComments.bind fun leading b hb => ?_
  obtain ⟨rfl, rfl⟩ := hb
  subst ha
  change Runs tokens flags ⟨nextReal tokens 0, [], []⟩ _ _
  generalize hb : (⟨nextReal tokens 0, [], []⟩ : Trail) = b
  refine runs_nextToken.bind fun first? b' hfirst => ?_
  obtain ⟨rfl, rfl⟩ := hfirst
  refine (runs_recovering rfl rfl rfl rfl builds_definition
    (Nat.zero_le _)).bind fun definitions c hc => ?_
  obtain ⟨hitems, hfinished⟩ := hc
  have hend : c.next? tokens = none := by
    rcases hfinished with hend | ⟨t, -, ht⟩
    · exact hend
    · cases ht
  have hrest : ∀ extent?, (extent? = (b'.next? tokens).bind fun first =>
      (tokens[c.cursor - 1]?).map fun last => ⟨first, last⟩) →
      Runs tokens flags c
        (do
          consumeTrivia
          let trailing ← claimComments
          return ⟨definitions, extent?,
            (stretch tokens 0 (nextReal tokens 0)).filter Token.isComment ++ trailing⟩)
        fun p b => ∃ f, b.reports = f.reports ∧ Assembled tokens p f := by
    intro extent? hextent
    refine runs_consumeTrivia.bind fun _ d hd => runs_claimComments.bind fun trailing e he =>
      .pure ?_
    subst hd
    obtain ⟨rfl, rfl⟩ := he
    exact hitems.assembled hb.symm hend hextent
  cases hnext : b'.next? tokens with
  | none => exact hrest none (by rw [hnext]; rfl)
  | some first =>
    have hpos : 0 < c.cursor := by
      obtain ⟨f, strays, hwalk, -⟩ := hitems
      refine Nat.zero_lt_of_lt (hwalk.lt_of_reals ?_)
      rw [reals_of_next hnext, reals_of_next_none hend]
      exact List.cons_ne_nil _ _
    refine (runs_extentFrom first hpos).bind fun extent? d hd => ?_
    obtain ⟨rfl, rfl⟩ := hd
    exact hrest _ (by rw [hnext]; rfl)

end Grammar

end Reparse
