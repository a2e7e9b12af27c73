import Reparse.Proofs.Assembly

/-!
# Nothing is skipped silently

All real tokens of a text are those of its definitions or of skipped runs, and those between the
braces of a block are those of its statements or of skipped runs. Every skipped run is led by a
token that nothing starts with, and there is one report about that token.
-/

namespace Reparse

open Reparse.Parser

theorem Assembled.exists_extent {tokens : Array Token} {p : Program Info} {f : Findings}
    (h : Assembled tokens p f) {o : Outline Info} (ho : o ∈ p.outline.nodes)
    (hform : o.form = .block) (hpresent : o.isStandIn = false) : ∃ e, o.extent? = some e := by
  rw [Outline.nodes_eq] at ho
  rcases List.mem_cons.mp ho with rfl | ho
  · cases hform
  · rcases (h.laid o ho).cases with ⟨-, hstandIn, -⟩ | ⟨e, -, -, he, -⟩
    · exact absurd (hpresent.symm.trans hstandIn) Bool.false_ne_true
    · exact ⟨e, he⟩

theorem Findings.Told.filter_stray {tokens : Array Token} {f : Findings} (h : f.Told tokens)
    (hnodup : f.strays.Nodup) {t : Token} (ht : Report.stray .strayToken t ∈ f.reports) :
    (f.reports.filter fun r => r.anchor = some (.token t) && r.code = .strayToken) =
      [.stray .strayToken t] := by
  have hmem : Report.stray .strayToken t ∈ f.strays.map (.stray .strayToken) := by
    rw [← h.strays]
    exact List.mem_filter.mpr ⟨ht, rfl⟩
  obtain ⟨u, hu, heq⟩ := List.mem_map.mp hmem
  obtain rfl : u = t := Anchor.token.inj (Option.some.inj (congrArg Report.anchor heq))
  have hanchor : (fun r : Report Anchor => decide (r.anchor = some (.token u))) ∘
      Report.stray .strayToken = fun v => v == u := by
    funext v
    rw [Bool.eq_iff_iff]
    simp [Report.stray]
  rw [← List.filter_filter, h.strays, List.filter_map, hanchor, List.filter_beq,
    List.count_eq_one_of_mem hnodup hu]
  rfl

/-- The tokens of a text are divided among its definitions and skipped runs, those of a block that
does not stand in for a missing one among its statements and skipped runs. Each skipped run has its
one report, and nothing else is reported as stray input. -/
theorem Session.divided_parse (source : Text) (ops : List SessionOp) :
    let s := (ofSource source).run ops
    let result := parse s.stream s.memo
    let tokens := result.2.1.tokens
    let reports := result.1.reports
    let tree := result.1.program.outline
    (∃ strays, Divided Grammar.startsDefinition .definitionEnds tree.children strays
        (reals tokens 0) [] ∧
      (reports.filter fun r => r.code = .strayInput) = strays.map (.stray .strayInput)) ∧
    ∀ o ∈ tree.nodes, o.form = .block → o.isStandIn = false →
      ∃ e before here strays after, o.extent? = some e ∧ e.first.kind = .leftBrace ∧
        reals tokens 0 = before ++ e.first :: here ∧
        Divided Grammar.startsStatement (KindSet.statementEnds.insert .rightBrace) o.children strays
          here after ∧
        (after = [] ∨ e.last.kind = .rightBrace ∧ ∃ rest, after = e.last :: rest) ∧
        ∀ t ∈ strays, (reports.filter fun r =>
          r.anchor = some (.token t) && r.code = .strayToken) = [.stray .strayToken t] := by
  intro s result tokens reports tree
  have hvalid : s.Valid := (valid_ofSource source).run ops
  have hnumbered := (TokenStream.follows_readAll hvalid.numbered).numbered
  obtain ⟨f, hreports, h⟩ := hvalid.assembled
  have hreports : reports = f.reports := hreports
  have hnodup : f.strays.Nodup := hnumbered.nodup_tokens.sublist h.strays
  refine ⟨⟨f.input, h.divided, by rw [hreports, h.told.input]⟩, fun o ho hform hpresent => ?_⟩
  obtain ⟨e, he⟩ := h.exists_extent ho hform hpresent
  obtain ⟨hfirst, before, here, strays, after, hreals, hdivided, hafter, hstrays⟩ :=
    h.blocks o ho e hform he
  refine ⟨e, before, here, strays, after, he, hfirst, hreals, hdivided, hafter, fun t ht => ?_⟩
  rw [hreports, h.told.filter_stray hnodup (hstrays t ht)]

end Reparse
