import Reparse.Proofs.Parser.Layout

/-!
# Skipped tokens

Where no item starts, a recovering series skips a run of tokens: one that starts no item, and all
behind it up to where an item may start again. So the tokens that such a series goes over fall into
the runs of its items and skipped runs, in the order of the source.
-/

namespace Reparse

/-- How skipping ends when the tokens of `run` are skipped and those of `rest` come behind them: at
the end of input, before a token of the set, or through a semicolon of the set. -/
inductive Skips (ends : KindSet) : (run rest : List Token) → Prop
  | toEnd {run : List Token} : (∀ t ∈ run, t.kind ∉ ends) → Skips ends run []
  | before {run rest : List Token} {t : Token} : (∀ t ∈ run, t.kind ∉ ends) → t.kind ∈ ends →
      t.kind ≠ .semicolon → Skips ends run (t :: rest)
  | through {run rest : List Token} {t : Token} : (∀ t ∈ run, t.kind ∉ ends) → t.kind ∈ ends →
      t.kind = .semicolon → Skips ends (run ++ [t]) rest

/-- The real tokens `here` up to `after` fall into the runs of some nodes, each from the first token
of its node through the last one, and skipped runs, each led by one of the tokens `strays`. -/
inductive Divided (starts : Kind → Bool) (ends : KindSet) :
    (nodes : List (Outline Info)) → (strays here after : List Token) → Prop
  | done {after : List Token} : Divided starts ends [] [] after after
  | node {o : Outline Info} {os : List (Outline Info)} {strays rest after : List Token} {e : Extent}
      (run : List Token) : o.extent? = some e → run.head? = some e.first →
      run.getLast? = some e.last → Divided starts ends os strays rest after →
      Divided starts ends (o :: os) strays (run ++ rest) after
  | skipped {t : Token} {os : List (Outline Info)} {strays run rest after : List Token} :
      starts t.kind = false → Skips ends run rest → Divided starts ends os strays rest after →
      Divided starts ends os (t :: strays) (t :: (run ++ rest)) after

namespace Divided

variable {starts : Kind → Bool} {ends : KindSet} {os ps : List (Outline Info)}
  {strays more here mid after : List Token}

theorem trans (h : Divided starts ends os strays here mid)
    (h' : Divided starts ends ps more mid after) :
    Divided starts ends (os ++ ps) (strays ++ more) here after := by
  induction h with
  | done => exact h'
  | node run he hfirst hlast _ ih => exact .node run he hfirst hlast (ih h')
  | skipped hstart hskips _ ih => exact .skipped hstart hskips (ih h')

theorem eq_nil (h : Divided starts ends os strays here after) (hhere : here = []) :
    os = [] ∧ strays = [] := by
  cases h with
  | done => exact ⟨rfl, rfl⟩
  | node run he hfirst hlast hrest =>
    obtain ⟨rfl, -⟩ := List.append_eq_nil_iff.mp hhere
    cases hfirst
  | skipped hstart hskips hrest => cases hhere

end Divided

end Reparse
