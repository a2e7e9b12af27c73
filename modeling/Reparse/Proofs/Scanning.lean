import Reparse.Proofs.Lexeme.LongestMatch

/-!
# Scanning

What scanning from an offset on finds. Each mark is that of the longest match of the lexical grammar
at its place, and the marks before a layout token stay whatever stands behind that token.
-/

namespace Reparse

namespace Mark

theorem allFrom_size_append (a b : Text) :
    allFrom (Text.size a) (a ++ b) = (Lexeme.all b).map ofLexeme := by
  rw [allFrom, Text.takeBytes_size_append, Text.dropBytes_size_append, Nat.sub_self]
  rfl

theorem allFrom_zero (t : Text) : allFrom 0 t = (Lexeme.all t).map ofLexeme :=
  allFrom_size_append [] t

theorem offsetAfter_map_ofLexeme (start : Nat) (ls : List Lexeme) :
    offsetAfter start (ls.map ofLexeme) = start + Text.size (Lexeme.joined ls) := by
  induction ls generalizing start with
  | nil => rfl
  | cons l ls ih =>
    rw [Lexeme.joined_cons, Text.size_append, ← Nat.add_assoc]
    exact ih (start + l.size)

/-- Scanning from a boundary on goes step by step: at the end of the text it stops, and before it
there is one longest match, which it takes to go on behind it. -/
theorem allFrom_longest (a b : Text) :
    (b = [] → allFrom (Text.size a) (a ++ b) = []) ∧
      (b ≠ [] → ∃ l, Lexeme.Longest b l ∧ (∀ l', Lexeme.Longest b l' → l' = l) ∧
        allFrom (Text.size a) (a ++ b) =
          ofLexeme l :: allFrom (Text.size (a ++ l.text)) (a ++ b)) := by
  refine ⟨fun hb => ?_, fun hb => ?_⟩
  · rw [allFrom_size_append, hb]
    rfl
  · cases b with
    | nil => exact absurd rfl hb
    | cons c cs =>
      refine ⟨Lexeme.leading c cs, Lexeme.longest_iff.mpr rfl, fun _ => Lexeme.longest_iff.mp, ?_⟩
      have htext := Lexeme.leading_text c cs
      have hbehind := allFrom_size_append (a ++ (Lexeme.leading c cs).text)
        (cs.drop (Lexeme.leading c cs).rest.length)
      rw [List.append_assoc, htext] at hbehind
      have hcuts : Lexeme.Cuts (c :: cs)
          (Lexeme.leading c cs :: Lexeme.all (cs.drop (Lexeme.leading c cs).rest.length)) [] :=
        .cons (.all _)
      rw [allFrom_size_append, hbehind, (Lexeme.Cuts.all (c :: cs)).unique hcuts]
      rfl

/-- However a text goes on behind a layout token, scanning finds the same marks before that token and
goes on where it starts. -/
theorem allFrom_of_layout (p s s' : Text) (before after : List Mark) (layout : Mark)
    (hscan : allFrom 0 (p ++ s) = before ++ layout :: after)
    (hlayout : layout.kind.isLayout = true)
    (hend : offsetAfter 0 (before ++ [layout]) ≤ Text.size p) :
    allFrom 0 (p ++ s') = before ++ allFrom (offsetAfter 0 before) (p ++ s') ∧
      Text.onBoundary (offsetAfter 0 before) (p ++ s') = true := by
  rw [allFrom_zero] at hscan
  obtain ⟨ls, rest, hall, rfl, hrest⟩ := List.map_eq_append_iff.mp hscan
  obtain ⟨l, ms, rfl, rfl, rfl⟩ := List.map_eq_cons_iff.mp hrest
  have hsize : Text.size (Lexeme.joined (ls ++ [l])) ≤ Text.size p := by
    have hmarks := offsetAfter_map_ofLexeme 0 (ls ++ [l])
    rw [List.map_append, Nat.zero_add] at hmarks
    exact hmarks ▸ hend
  have hcuts := Lexeme.Cuts.all (p ++ s)
  rw [hall] at hcuts
  -- The layout token is part of `p`, so `p` is what was cut up to its end and a remainder.
  obtain ⟨m, hp, -⟩ : ∃ m, p = Lexeme.joined (ls ++ [l]) ++ m ∧ Lexeme.joined ms = m ++ s := by
    refine Text.exists_between ?_ hsize
    have hjoined := hcuts.joined
    rw [List.append_nil, List.append_cons, Lexeme.joined_append] at hjoined
    exact hjoined.symm
  have htext : p ++ s' = Lexeme.joined ls ++ (l.text ++ (m ++ s')) := by
    rw [hp, Lexeme.joined_append, Lexeme.joined_cons, Lexeme.joined_nil, List.append_nil]
    simp only [List.append_assoc]
  have hoffset : offsetAfter 0 (ls.map ofLexeme) = Text.size (Lexeme.joined ls) := by
    rw [offsetAfter_map_ofLexeme, Nat.zero_add]
  have hbefore := hcuts.stable_of_layout hlayout (m ++ s')
  rw [hoffset, htext, allFrom_zero, allFrom_size_append]
  refine ⟨?_, Text.onBoundary_size_append ..⟩
  rw [(Lexeme.Cuts.all _).unique (hbefore.append (.all _)), List.map_append]

theorem allFrom_of_layout_blank :
    allFrom 0 (['1', '.', ' '] ++ ['2']) =
        [⟨.integer, 1, none⟩, ⟨.dot, 1, none⟩] ++ ⟨.whitespace, 1, none⟩ :: [⟨.integer, 1, none⟩] ∧
      allFrom 0 (['1', '.', ' '] ++ [' ', 'e']) =
        [⟨.integer, 1, none⟩, ⟨.dot, 1, none⟩] ++
          allFrom 2 (['1', '.', ' '] ++ [' ', 'e']) := by
  have hscan : allFrom 0 (['1', '.', ' '] ++ ['2']) =
      [⟨.integer, 1, none⟩, ⟨.dot, 1, none⟩] ++
        ⟨.whitespace, 1, none⟩ :: [⟨.integer, 1, none⟩] := by
    decide
  exact ⟨hscan, (allFrom_of_layout _ _ _ _ _ _ hscan rfl (by decide)).1⟩

end Mark

end Reparse
