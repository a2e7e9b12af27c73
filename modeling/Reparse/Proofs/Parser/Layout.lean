import Reparse.Proofs.Parser.Trails
import Reparse.Proofs.Tree.Nodes

/-!
# Where nodes lie

A node lies on the tokens from its first through its last one. Nodes lie in a row if each begins
behind the end of the one before; the children of a node lie in a row within it. Nodes that stand in
for something missing lie nowhere.
-/

namespace Reparse

open Reparse.Parser

variable {tokens : Array Token} {i j k : Nat}

structure Extent.Spans (tokens : Array Token) (e : Extent) (i j : Nat) : Prop where
  le : i ≤ j
  first : tokens[i]? = some e.first
  last : tokens[j]? = some e.last
  first_real : e.first.isTrivia = false
  last_real : e.last.isTrivia = false

theorem nextReal_le_of_real {t : Token} (h : i ≤ j) (ht : tokens[j]? = some t)
    (hreal : t.isTrivia = false) : nextReal tokens i ≤ j := by
  refine Nat.le_of_not_lt fun hlt => ?_
  obtain ⟨u, hu, htrivia⟩ := nextReal_trivia h hlt
  obtain rfl : t = u := Option.some.inj (ht.symm.trans hu)
  rw [hreal] at htrivia
  cases htrivia

namespace Outline

/-- The nodes lie one behind the other on tokens from index `i` on and before index `j`. -/
def InRow (tokens : Array Token) (i j : Nat) : List (Outline Info) → Prop
  | [] => i ≤ j
  | o :: os =>
    match o.extent? with
    | none => InRow tokens i j os
    | some e => ∃ k l, i ≤ k ∧ e.Spans tokens k l ∧ InRow tokens (l + 1) j os

theorem inRow_cons_of_none {o : Outline Info} (ho : o.extent? = none) (os : List (Outline Info)) :
    InRow tokens i j (o :: os) ↔ InRow tokens i j os := by
  simp only [InRow, ho]

theorem inRow_cons_of_some {o : Outline Info} {e : Extent} (ho : o.extent? = some e)
    (os : List (Outline Info)) : InRow tokens i j (o :: os) ↔
      ∃ k l, i ≤ k ∧ e.Spans tokens k l ∧ InRow tokens (l + 1) j os := by
  simp only [InRow, ho]

theorem InRow.le {os : List (Outline Info)} (h : InRow tokens i j os) : i ≤ j := by
  induction os generalizing i with
  | nil => exact h
  | cons o os ih =>
    cases ho : o.extent? with
    | none => exact ih ((inRow_cons_of_none ho os).mp h)
    | some e =>
      obtain ⟨k, l, hik, hspans, hrest⟩ := (inRow_cons_of_some ho os).mp h
      have hle := ih hrest
      have hkl := hspans.le
      omega

theorem InRow.room {os : List (Outline Info)} (h : InRow tokens i j os) (hki : k ≤ i) :
    InRow tokens k j os := by
  induction os with
  | nil => exact Nat.le_trans hki h
  | cons o os ih =>
    cases ho : o.extent? with
    | none =>
      rw [inRow_cons_of_none ho] at h ⊢
      exact ih h
    | some e =>
      rw [inRow_cons_of_some ho] at h ⊢
      obtain ⟨m, l, him, hrest⟩ := h
      exact ⟨m, l, Nat.le_trans hki him, hrest⟩

theorem InRow.append {os ps : List (Outline Info)} (h : InRow tokens i j os)
    (h' : InRow tokens j k ps) : InRow tokens i k (os ++ ps) := by
  induction os generalizing i with
  | nil => exact h'.room h
  | cons o os ih =>
    rw [List.cons_append]
    cases ho : o.extent? with
    | none =>
      rw [inRow_cons_of_none ho] at h ⊢
      exact ih h
    | some e =>
      rw [inRow_cons_of_some ho] at h ⊢
      obtain ⟨m, l, him, hspans, hrest⟩ := h
      exact ⟨m, l, him, hspans, ih hrest⟩

theorem InRow.nextReal {os : List (Outline Info)} (h : InRow tokens i j os)
    (hj : nextReal tokens i ≤ j) : InRow tokens (nextReal tokens i) j os := by
  induction os with
  | nil => exact hj
  | cons o os ih =>
    cases ho : o.extent? with
    | none =>
      rw [inRow_cons_of_none ho] at h ⊢
      exact ih h
    | some e =>
      rw [inRow_cons_of_some ho] at h ⊢
      obtain ⟨m, l, him, hspans, hrest⟩ := h
      exact ⟨m, l, nextReal_le_of_real him hspans.first hspans.first_real, hspans, hrest⟩

/-- A node stands in for something, or it lies on some tokens and its children in a row within. The
name of an identifier is the text of its token. -/
structure Laid (tokens : Array Token) (o : Outline Info) : Prop where
  standIn : o.info? = none → o.isStandIn = true ∧ o.children = []
  lies : ∀ info, o.info? = some info → o.form ≠ .missingExpression ∧ o.form ≠ .missingType ∧
    ∃ e i j, info.extent? = some e ∧ e.Spans tokens i j ∧ InRow tokens i (j + 1) o.children ∧
      (o.form = .identifier → o.text? = some e.first.text)

theorem Laid.cases {o : Outline Info} (h : o.Laid tokens) :
    o.extent? = none ∧ o.isStandIn = true ∧ o.children = [] ∨
      ∃ e i j, o.extent? = some e ∧ e.Spans tokens i j ∧ InRow tokens i (j + 1) o.children := by
  cases hinfo : o.info? with
  | none => exact .inl ⟨by rw [extent?, hinfo]; rfl, h.standIn hinfo⟩
  | some info =>
    obtain ⟨-, -, e, i, j, he, hspans, hrow, -⟩ := h.lies info hinfo
    exact .inr ⟨e, i, j, by rw [extent?, hinfo, Option.bind_some, he], hspans, hrow⟩

structure Absent (o : Outline Info) : Prop where
  info : o.info? = none
  children : o.children = []
  standIn : o.isStandIn = true

theorem Absent.laid {o : Outline Info} (h : o.Absent) : o.Laid tokens where
  standIn _ := ⟨h.standIn, h.children⟩
  lies info hinfo := by
    rw [h.info] at hinfo
    cases hinfo

theorem Absent.extent? {o : Outline Info} (h : o.Absent) : o.extent? = none := by
  rw [Outline.extent?, h.info]
  rfl

theorem Absent.comments {o : Outline Info} (h : o.Absent) : o.comments = [] := by
  rw [Outline.comments, h.info]
  rfl

section

variable {os : List (Outline Info)}

theorem listNodes_of_absent (h : ∀ o ∈ os, o.Absent) : listNodes os = os := by
  induction os with
  | nil => rfl
  | cons o os ih =>
    obtain ⟨ho, hos⟩ := List.forall_mem_cons.mp h
    rw [listNodes_cons, ho.children, listNodes_nil, List.nil_append, ih hos]

theorem gathered_of_absent (h : ∀ o ∈ os, o.Absent) : gathered os = [] := by
  rw [gathered, listNodes_of_absent h]
  exact List.flatMap_eq_nil_iff.mpr fun o ho => (h o ho).comments

theorem inRow_of_absent (h : ∀ o ∈ os, o.Absent) (hij : i ≤ j) : InRow tokens i j os := by
  induction os with
  | nil => exact hij
  | cons o os ih =>
    obtain ⟨ho, hos⟩ := List.forall_mem_cons.mp h
    exact (inRow_cons_of_none ho.extent? os).mpr (ih hos)

end

theorem absent_identifier : (Identifier.missing : Identifier Info).outline.Absent := ⟨rfl, rfl, rfl⟩

theorem absent_type : (TypeExpression.missing : TypeExpression Info).outline.Absent :=
  ⟨rfl, rfl, rfl⟩

theorem absent_expression : (Expression.missing : Expression Info).outline.Absent := ⟨rfl, rfl, rfl⟩

theorem absent_block : (Block.missing : Block Info).outline.Absent := ⟨rfl, rfl, rfl⟩

end Outline

end Reparse
