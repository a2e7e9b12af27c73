import Reparse.Proofs.Grammar.Grammatical
import Reparse.Tree.Outline

/-!
# Wholeness

A tree is whole if none of its nodes stands in for something missing. Grammatical trees are whole.
-/

namespace Reparse

variable {α : Type}

/-- No node stands in for something missing. -/
def Outline.IsWhole (o : Outline α) : Prop := ∀ row ∈ o.rows 0, row.info?.isSome = true

namespace Outline

mutual

theorem info?_of_mem_rows {P : Option α → Prop} (o : Outline α) (d d' : Nat)
    (h : ∀ row ∈ o.rows d, P row.info?) : ∀ row ∈ o.rows d', P row.info? := by
  cases o with
  | node form text? info? children =>
    simp only [rows, List.mem_cons, forall_eq_or_imp] at h ⊢
    exact ⟨h.1, info?_of_mem_listRows children (d + 1) (d' + 1) h.2⟩

theorem info?_of_mem_listRows {P : Option α → Prop} (os : List (Outline α)) (d d' : Nat)
    (h : ∀ row ∈ listRows d os, P row.info?) : ∀ row ∈ listRows d' os, P row.info? := by
  cases os with
  | nil => exact fun _ hrow => absurd hrow List.not_mem_nil
  | cons o os =>
    simp only [listRows, List.mem_append] at h ⊢
    rintro row (hrow | hrow)
    · exact info?_of_mem_rows o d d' (fun r hr => h r (.inl hr)) row hrow
    · exact info?_of_mem_listRows os d d' (fun r hr => h r (.inr hr)) row hrow

end

theorem mem_listRows {d : Nat} {os : List (Outline α)} {row : Row α}
    (h : row ∈ listRows d os) : ∃ o ∈ os, row ∈ o.rows d := by
  induction os with
  | nil => exact absurd h List.not_mem_nil
  | cons o os ih =>
    rw [listRows] at h
    rcases List.mem_append.mp h with h | h
    · exact ⟨o, List.mem_cons_self, h⟩
    · obtain ⟨o', ho, hrow⟩ := ih h
      exact ⟨o', List.mem_cons_of_mem _ ho, hrow⟩

theorem isWhole_node {form : Form} {text? : Option Text} {info : α} {children : List (Outline α)}
    (h : ∀ o ∈ children, o.IsWhole) : (node form text? (some info) children).IsWhole := by
  intro row hrow
  rw [rows] at hrow
  rcases List.mem_cons.mp hrow with rfl | hrow
  · rfl
  · obtain ⟨o, ho, hmem⟩ := mem_listRows hrow
    exact info?_of_mem_rows (P := fun i => i.isSome = true) o 0 (0 + 1) (h o ho) row hmem

end Outline

theorem Identifier.isWhole_outline {n : Identifier α} (h : n.isNamed = true) :
    n.outline.IsWhole := by
  cases n with
  | named name info => exact Outline.isWhole_node fun _ ho => absurd ho List.not_mem_nil
  | missing => cases h

mutual

theorem TypeExpression.isWhole_outline {t : TypeExpression α} (h : t.isGrammatical = true) :
    t.outline.IsWhole := by
  cases t with
  | named name info =>
    exact Outline.isWhole_node (by simpa [outline] using Identifier.isWhole_outline h)
  | array element info =>
    simp only [isGrammatical, Bool.and_eq_true] at h
    exact Outline.isWhole_node (by simpa using element.isWhole_outline h.1)
  | union members info =>
    simp only [isGrammatical, Bool.and_eq_true] at h
    exact Outline.isWhole_node (isWhole_outlines h.2)
  | record fields info => exact Outline.isWhole_node (isWhole_fieldOutlines h)
  | paren inner info => exact Outline.isWhole_node (by simpa using inner.isWhole_outline h)
  | missing => cases h

theorem TypeExpression.isWhole_outlines {ts : List (TypeExpression α)}
    (h : areMembers ts = true) : ∀ o ∈ outlines ts, o.IsWhole := by
  cases ts with
  | nil => exact fun _ ho => absurd ho List.not_mem_nil
  | cons t ts =>
    simp only [areMembers, Bool.and_eq_true] at h
    exact List.forall_mem_cons.mpr ⟨t.isWhole_outline h.1.1, isWhole_outlines h.2⟩

theorem TypeExpression.isWhole_fieldOutlines {fields : List (Field α (TypeExpression α))}
    (h : areFields fields = true) : ∀ o ∈ fieldOutlines fields, o.IsWhole := by
  cases fields with
  | nil => exact fun _ ho => absurd ho List.not_mem_nil
  | cons field fields =>
    obtain ⟨key, value, info⟩ := field
    simp only [areFields, Bool.and_eq_true] at h
    have hkey := Identifier.isWhole_outline h.1.1
    have hvalue := value.isWhole_outline h.1.2
    refine List.forall_mem_cons.mpr ⟨Outline.isWhole_node ?_, isWhole_fieldOutlines h.2⟩
    simpa using ⟨hkey, hvalue⟩

end

mutual

theorem Expression.isWhole_outline {e : Expression α} (h : e.isGrammatical = true) :
    e.outline.IsWhole := by
  cases e with
  | literal value info => exact Outline.isWhole_node fun _ ho => absurd ho List.not_mem_nil
  | name identifier info =>
    exact Outline.isWhole_node (by simpa using Identifier.isWhole_outline h)
  | binary operator left right info =>
    simp only [isGrammatical, Bool.and_eq_true] at h
    have hleft := left.isWhole_outline h.1.1.1
    have hright := right.isWhole_outline h.1.2
    exact Outline.isWhole_node (by simpa using ⟨hleft, hright⟩)
  | unary operator operand info =>
    simp only [isGrammatical, Bool.and_eq_true] at h
    exact Outline.isWhole_node (by simpa using operand.isWhole_outline h.1)
  | member base field info =>
    simp only [isGrammatical, Bool.and_eq_true] at h
    have hbase := base.isWhole_outline h.1.1
    have hfield := Identifier.isWhole_outline h.2
    exact Outline.isWhole_node (by simpa using ⟨hbase, hfield⟩)
  | invoke callee arguments info =>
    simp only [isGrammatical, Bool.and_eq_true] at h
    have hcallee := callee.isWhole_outline h.1.1
    exact Outline.isWhole_node (List.forall_mem_cons.mpr ⟨hcallee, isWhole_outlines h.2⟩)
  | index base place info =>
    simp only [isGrammatical, Bool.and_eq_true] at h
    have hbase := base.isWhole_outline h.1.1
    have hplace := place.isWhole_outline h.2
    exact Outline.isWhole_node (by simpa using ⟨hbase, hplace⟩)
  | paren inner info => exact Outline.isWhole_node (by simpa using inner.isWhole_outline h)
  | array items info => exact Outline.isWhole_node (isWhole_outlines h)
  | object fields info => exact Outline.isWhole_node (isWhole_fieldOutlines h)
  | missing => cases h

theorem Expression.isWhole_outlines {es : List (Expression α)}
    (h : areGrammatical es = true) : ∀ o ∈ outlines es, o.IsWhole := by
  cases es with
  | nil => exact fun _ ho => absurd ho List.not_mem_nil
  | cons e es =>
    simp only [areGrammatical, Bool.and_eq_true] at h
    exact List.forall_mem_cons.mpr ⟨e.isWhole_outline h.1, isWhole_outlines h.2⟩

theorem Expression.isWhole_fieldOutlines {fields : List (Field α (Expression α))}
    (h : areFields fields = true) : ∀ o ∈ fieldOutlines fields, o.IsWhole := by
  cases fields with
  | nil => exact fun _ ho => absurd ho List.not_mem_nil
  | cons field fields =>
    obtain ⟨key, value, info⟩ := field
    simp only [areFields, Bool.and_eq_true] at h
    have hkey := Identifier.isWhole_outline h.1.1
    have hvalue := value.isWhole_outline h.1.2
    refine List.forall_mem_cons.mpr ⟨Outline.isWhole_node ?_, isWhole_fieldOutlines h.2⟩
    simpa using ⟨hkey, hvalue⟩

end

theorem TypeExpression.isWhole_annotation {type? : Option (TypeExpression α)}
    (h : type?.all isGrammatical = true) :
    ∀ o ∈ (type?.map TypeExpression.outline).toList, o.IsWhole := by
  cases type? with
  | none => exact fun _ ho => absurd ho List.not_mem_nil
  | some type => simpa using type.isWhole_outline h

mutual

theorem Statement.isWhole_outline {inLoop : Bool} {s : Statement α}
    (h : s.isGrammatical inLoop = true) : s.outline.IsWhole := by
  cases s with
  | declare name type? value info =>
    simp only [Statement.isGrammatical, Bool.and_eq_true] at h
    refine Outline.isWhole_node fun o ho => ?_
    rcases List.mem_append.mp ho with ho | ho
    · rcases List.mem_cons.mp ho with rfl | ho
      · exact Identifier.isWhole_outline h.1.1
      · exact TypeExpression.isWhole_annotation h.1.2 o ho
    · rw [List.mem_singleton.mp ho]
      exact Expression.isWhole_outline h.2
  | assign target value info =>
    simp only [Statement.isGrammatical, Expression.startsStatement, Bool.and_eq_true] at h
    have htarget := target.isWhole_outline h.1.1.1
    have hvalue := value.isWhole_outline h.2
    exact Outline.isWhole_node (by simpa using ⟨htarget, hvalue⟩)
  | evaluate value info =>
    simp only [Statement.isGrammatical, Expression.startsStatement, Bool.and_eq_true] at h
    exact Outline.isWhole_node (by simpa using value.isWhole_outline h.1)
  | branch condition body alternative info =>
    simp only [Statement.isGrammatical, Expression.isCondition, Bool.and_eq_true] at h
    refine Outline.isWhole_node (List.forall_mem_cons.mpr ⟨?_, List.forall_mem_cons.mpr ⟨?_, ?_⟩⟩)
    · exact condition.isWhole_outline h.1.1.1
    · exact body.isWhole_outline h.1.2
    · exact alternative.isWhole_outlines h.2
  | loop condition body info =>
    simp only [Statement.isGrammatical, Expression.isCondition, Bool.and_eq_true] at h
    have hcondition := condition.isWhole_outline h.1.1
    have hbody := body.isWhole_outline h.2
    exact Outline.isWhole_node (by simpa using ⟨hcondition, hbody⟩)
  | «return» value? info =>
    refine Outline.isWhole_node fun o ho => ?_
    cases value? with
    | none => cases ho
    | some value =>
      rw [List.mem_singleton.mp ho]
      exact value.isWhole_outline h
  | «break» info => exact Outline.isWhole_node fun _ ho => absurd ho List.not_mem_nil
  | «continue» info => exact Outline.isWhole_node fun _ ho => absurd ho List.not_mem_nil
  | nested body info =>
    exact Outline.isWhole_node (by simpa using body.isWhole_outline h)

theorem Statement.isWhole_outlines {inLoop : Bool} {ss : List (Statement α)}
    (h : Statement.areGrammatical inLoop ss = true) :
    ∀ o ∈ Statement.outlines ss, o.IsWhole := by
  cases ss with
  | nil => exact fun _ ho => absurd ho List.not_mem_nil
  | cons s ss =>
    simp only [Statement.areGrammatical, Bool.and_eq_true] at h
    exact List.forall_mem_cons.mpr ⟨s.isWhole_outline h.1, Statement.isWhole_outlines h.2⟩

theorem Block.isWhole_outline {inLoop : Bool} {b : Block α} (h : b.isGrammatical inLoop = true) :
    b.outline.IsWhole := by
  cases b with
  | braces statements info => exact Outline.isWhole_node (Statement.isWhole_outlines h)
  | missing => cases h

theorem Alternative.isWhole_outlines {inLoop : Bool} {a : Alternative α}
    (h : a.isGrammatical inLoop = true) : ∀ o ∈ a.outlines, o.IsWhole := by
  cases a with
  | absent => exact fun _ ho => absurd ho List.not_mem_nil
  | elseIf statement =>
    simp only [Alternative.isGrammatical, Bool.and_eq_true] at h
    simpa [Alternative.outlines] using statement.isWhole_outline h.2
  | elseBlock body => simpa [Alternative.outlines] using body.isWhole_outline h

end

theorem Parameter.isWhole_outline {p : Parameter α} (h : p.isGrammatical = true) :
    p.outline.IsWhole := by
  simp only [isGrammatical, Bool.and_eq_true] at h
  exact Outline.isWhole_node (List.forall_mem_cons.mpr
    ⟨Identifier.isWhole_outline h.1, TypeExpression.isWhole_annotation h.2⟩)

theorem Parameter.isWhole_outlines {ps : List (Parameter α)}
    (h : ps.all isGrammatical = true) : ∀ o ∈ ps.map outline, o.IsWhole := by
  intro o ho
  obtain ⟨p, hp, rfl⟩ := List.mem_map.mp ho
  exact p.isWhole_outline (List.all_eq_true.mp h p hp)

theorem Definition.isWhole_outline {d : Definition α} (h : d.isGrammatical = true) :
    d.outline.IsWhole := by
  cases d with
  | handler name parameters body info =>
    simp only [isGrammatical, Bool.and_eq_true] at h
    refine Outline.isWhole_node fun o ho => ?_
    rcases List.mem_append.mp ho with ho | ho
    · rcases List.mem_cons.mp ho with rfl | ho
      · exact Identifier.isWhole_outline h.1.1
      · exact Parameter.isWhole_outlines h.1.2 o ho
    · rw [List.mem_singleton.mp ho]
      exact body.isWhole_outline h.2
  | function name parameters result? body info =>
    simp only [isGrammatical, Bool.and_eq_true] at h
    refine Outline.isWhole_node fun o ho => ?_
    rcases List.mem_append.mp ho with ho | ho
    · rcases List.mem_append.mp ho with ho | ho
      · rcases List.mem_cons.mp ho with rfl | ho
        · exact Identifier.isWhole_outline h.1.1.1
        · exact Parameter.isWhole_outlines h.1.1.2 o ho
      · exact TypeExpression.isWhole_annotation h.1.2 o ho
    · rw [List.mem_singleton.mp ho]
      exact body.isWhole_outline h.2
  | global name type? value info =>
    simp only [isGrammatical, Bool.and_eq_true] at h
    refine Outline.isWhole_node fun o ho => ?_
    rcases List.mem_append.mp ho with ho | ho
    · rcases List.mem_cons.mp ho with rfl | ho
      · exact Identifier.isWhole_outline h.1.1
      · exact TypeExpression.isWhole_annotation h.1.2 o ho
    · rw [List.mem_singleton.mp ho]
      exact Expression.isWhole_outline h.2
  | typeAlias name type info =>
    simp only [isGrammatical, Bool.and_eq_true] at h
    have hname := Identifier.isWhole_outline h.1
    have htype := type.isWhole_outline h.2
    exact Outline.isWhole_node (by simpa using ⟨hname, htype⟩)

theorem Program.isWhole_outline {p : Program α} (h : p.isGrammatical = true) :
    p.outline.IsWhole := by
  refine Outline.isWhole_node fun o ho => ?_
  obtain ⟨d, hd, rfl⟩ := List.mem_map.mp ho
  exact d.isWhole_outline (List.all_eq_true.mp h d hd)

end Reparse
