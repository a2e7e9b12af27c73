import Reparse.Proofs.Assembly
import Reparse.Proofs.Grammar.Shape

/-!
# Precedence

On well formed input or not, and with whatever memo, the trees that a parse gives have the shape
that the precedence of operators gives them.
-/

namespace Reparse

namespace Session

theorem Valid.shaped {s : Session} (h : s.Valid) :
    ∀ d ∈ (parse s.stream s.memo).1.program.definitions, d.WellShaped := by
  obtain ⟨b, -, hshaped⟩ := h.parsed (Grammar.ensures_program {} _)
  exact hshaped

/-- In a parsed tree no operand is looser than its place allows, no object and no callee is an
operation or missing, and no array is one of a union or of nothing. Parentheses, brackets and braces
are the only way to nest something looser in something tighter. -/
theorem shaped_parse (source : Text) (ops : List SessionOp) :
    let s := (ofSource source).run ops
    let program := (parse s.stream s.memo).1.program
    (∀ root ∈ program.expressions, ∀ e ∈ root.parts,
      e.Shaped ∧ ∀ d ∈ e.exposed, e.strength ≤ d.strength) ∧
    ∀ root ∈ program.types, ∀ t ∈ root.parts, t.Shaped := by
  intro s program
  have hshaped := ((valid_ofSource source).run ops).shaped
  refine ⟨fun root hroot e he => ?_, fun root hroot t ht => ?_⟩
  · obtain ⟨d, hd, hroot⟩ := List.mem_flatMap.mp hroot
    have hwhole := (hshaped d hd).expressions root hroot
    exact ⟨hwhole e he, e.strength_le_of_exposed fun d hd =>
      hwhole d (Expression.parts_subset he hd)⟩
  · obtain ⟨d, hd, hroot⟩ := List.mem_flatMap.mp hroot
    exact (hshaped d hd).types root hroot t ht

theorem shaped_parse_broken :
    let s := (ofSource
      "fn f(a: (b | c)[] | []) \x7b let d = -(1 || ) * [2 && - == 3](4 < .g".toList).run
      [.parse, .edit 40 1 []]
    let program := (parse s.stream s.memo).1.program
    ((program.expressions.flatMap Expression.parts).length = 18 ∧
      (program.types.flatMap TypeExpression.parts).length = 7) ∧
    (∀ root ∈ program.expressions, ∀ e ∈ root.parts,
      e.Shaped ∧ ∀ d ∈ e.exposed, e.strength ≤ d.strength) ∧
    ∀ root ∈ program.types, ∀ t ∈ root.parts, t.Shaped :=
  ⟨by decide +kernel, shaped_parse _ _⟩

end Session

end Reparse
