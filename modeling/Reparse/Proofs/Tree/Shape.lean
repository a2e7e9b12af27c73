import Reparse.Proofs.Grammar.Grammatical
import Reparse.Proofs.Tree.Parts

/-!
# Shapes of types and expressions

A tree has the shape that precedence gives it if each operand binds as tightly as its place asks
for, and what members, calls, elements and array brackets follow is there. Names may be missing, and
operands, so this says less than that the tree is grammatical.
-/

namespace Reparse

variable {α : Type}

namespace TypeExpression

def isMissing : TypeExpression α → Bool
  | .missing => true
  | _ => false

/-- An array is one of something, and no union stands where it would have to be in parentheses. -/
def Shaped : TypeExpression α → Prop
  | .array element _ => element.isUnion = false ∧ element.isMissing = false
  | .union members _ => ∀ m ∈ members, m.isUnion = false
  | _ => True

def WellShaped (t : TypeExpression α) : Prop := ∀ u ∈ t.parts, u.Shaped

structure Firm (t : TypeExpression α) : Prop where
  shaped : t.WellShaped
  single : t.isUnion = false
  present : t.isMissing = false

variable {t element : TypeExpression α} {info : α}

theorem WellShaped.missing : (TypeExpression.missing : TypeExpression α).WellShaped :=
  List.forall_mem_singleton.mpr trivial

theorem WellShaped.named {name : Identifier α} : (TypeExpression.named name info).WellShaped :=
  List.forall_mem_singleton.mpr trivial

theorem WellShaped.paren (h : t.WellShaped) : (TypeExpression.paren t info).WellShaped :=
  List.forall_mem_cons.mpr ⟨trivial, h⟩

theorem Firm.array (h : element.Firm) : (TypeExpression.array element info).Firm :=
  ⟨List.forall_mem_cons.mpr ⟨⟨h.single, h.present⟩, h.shaped⟩, rfl, rfl⟩

theorem WellShaped.union {members : List (TypeExpression α)}
    (h : ∀ m ∈ members, m.WellShaped ∧ m.isUnion = false) :
    (TypeExpression.union members info).WellShaped := by
  refine List.forall_mem_cons.mpr ⟨fun m hm => (h m hm).2, fun u hu => ?_⟩
  rw [inner, listParts_eq] at hu
  obtain ⟨m, hm, hu⟩ := List.mem_flatMap.mp hu
  exact (h m hm).1 u hu

theorem WellShaped.record {fields : List (Field α (TypeExpression α))}
    (h : ∀ f ∈ fields, f.value.WellShaped) : (TypeExpression.record fields info).WellShaped := by
  refine List.forall_mem_cons.mpr ⟨trivial, fun u hu => ?_⟩
  rw [inner, fieldParts_eq] at hu
  obtain ⟨f, hf, hu⟩ := List.mem_flatMap.mp hu
  exact h f hf u hu

end TypeExpression

namespace Expression

def isMissing : Expression α → Bool
  | .missing => true
  | _ => false

/-- What an operator, a member, a call or an element is around binds as tightly as its place asks
for. To the right of an operator that is more tightly than the operator itself. -/
def Shaped : Expression α → Prop
  | .binary operator left right _ =>
    operator.precedence.strength ≤ left.strength ∧ operator.precedence.strength < right.strength
  | .unary _ operand _ => 4 ≤ operand.strength
  | .member base _ _ | .invoke base _ _ | .index base _ _ =>
    5 ≤ base.strength ∧ base.isMissing = false
  | _ => True

def WellShaped (e : Expression α) : Prop := ∀ d ∈ e.parts, d.Shaped

structure Binds (n : Nat) (e : Expression α) : Prop where
  shaped : e.WellShaped
  tight : n ≤ e.strength
  present : e.isMissing = false

variable {e left right operand base : Expression α} {info : α} {m n : Nat}

theorem Binds.mono (h : e.Binds n) (hm : m ≤ n) : e.Binds m :=
  ⟨h.shaped, Nat.le_trans hm h.tight, h.present⟩

theorem WellShaped.missing : (Expression.missing : Expression α).WellShaped :=
  List.forall_mem_singleton.mpr trivial

theorem Binds.literal {value : Literal} : (Expression.literal value info).Binds 5 :=
  ⟨List.forall_mem_singleton.mpr trivial, Nat.le_refl 5, rfl⟩

theorem Binds.name {identifier : Identifier α} : (Expression.name identifier info).Binds 5 :=
  ⟨List.forall_mem_singleton.mpr trivial, Nat.le_refl 5, rfl⟩

theorem WellShaped.paren (h : e.WellShaped) : (Expression.paren e info).Binds 5 :=
  ⟨List.forall_mem_cons.mpr ⟨trivial, h⟩, Nat.le_refl 5, rfl⟩

theorem shaped_of_mem_listParts {es : List (Expression α)} (h : ∀ e ∈ es, e.WellShaped) :
    ∀ d ∈ listParts es, d.Shaped := by
  intro d hd
  rw [listParts_eq] at hd
  obtain ⟨e, he, hd⟩ := List.mem_flatMap.mp hd
  exact h e he d hd

theorem Binds.array {items : List (Expression α)} (h : ∀ e ∈ items, e.WellShaped) :
    (Expression.array items info).Binds 5 :=
  ⟨List.forall_mem_cons.mpr ⟨trivial, shaped_of_mem_listParts h⟩, Nat.le_refl 5, rfl⟩

theorem Binds.object {fields : List (Field α (Expression α))}
    (h : ∀ f ∈ fields, f.value.WellShaped) : (Expression.object fields info).Binds 5 := by
  refine ⟨List.forall_mem_cons.mpr ⟨trivial, fun d hd => ?_⟩, Nat.le_refl 5, rfl⟩
  rw [inner, fieldParts_eq] at hd
  obtain ⟨f, hf, hd⟩ := List.mem_flatMap.mp hd
  exact h f hf d hd

theorem Binds.member (h : base.Binds 5) {field : Identifier α} :
    (Expression.member base field info).Binds 5 :=
  ⟨List.forall_mem_cons.mpr ⟨⟨h.tight, h.present⟩, h.shaped⟩, Nat.le_refl 5, rfl⟩

theorem Binds.invoke (h : base.Binds 5) {arguments : List (Expression α)}
    (harguments : ∀ e ∈ arguments, e.WellShaped) :
    (Expression.invoke base arguments info).Binds 5 :=
  ⟨List.forall_mem_cons.mpr ⟨⟨h.tight, h.present⟩,
    List.forall_mem_append.mpr ⟨h.shaped, shaped_of_mem_listParts harguments⟩⟩, Nat.le_refl 5, rfl⟩

theorem Binds.index (h : base.Binds 5) {place : Expression α} (hplace : place.WellShaped) :
    (Expression.index base place info).Binds 5 :=
  ⟨List.forall_mem_cons.mpr ⟨⟨h.tight, h.present⟩,
    List.forall_mem_append.mpr ⟨h.shaped, hplace⟩⟩, Nat.le_refl 5, rfl⟩

theorem WellShaped.unary (h : operand.WellShaped) (htight : 4 ≤ operand.strength)
    {operator : UnaryOperator} : (Expression.unary operator operand info).Binds 4 :=
  ⟨List.forall_mem_cons.mpr ⟨htight, h⟩, Nat.le_refl 4, rfl⟩

theorem Binds.binary {operator : BinaryOperator} (h : left.Binds operator.precedence.strength)
    (hright : right.WellShaped) (htight : operator.precedence.strength < right.strength) :
    (Expression.binary operator left right info).Binds operator.precedence.strength :=
  ⟨List.forall_mem_cons.mpr ⟨⟨h.tight, htight⟩,
    List.forall_mem_append.mpr ⟨h.shaped, hright⟩⟩, Nat.le_refl _, rfl⟩

theorem strength_le_of_exposed : (e : Expression α) → e.WellShaped →
    ∀ d ∈ e.exposed, e.strength ≤ d.strength
  | .literal .., _ | .name .., _ | .paren .., _ | .array .., _ | .object .., _ | .missing, _ =>
    List.forall_mem_singleton.mpr (Nat.le_refl _)
  | .binary operator left right info, h => by
    obtain ⟨⟨hleft, hright⟩, hinner⟩ := List.forall_mem_cons.mp h
    obtain ⟨hl, hr⟩ := List.forall_mem_append.mp hinner
    refine List.forall_mem_cons.mpr ⟨Nat.le_refl _, List.forall_mem_append.mpr ⟨?_, ?_⟩⟩
    · exact fun d hd => Nat.le_trans hleft (strength_le_of_exposed left hl d hd)
    · exact fun d hd => Nat.le_trans (Nat.le_of_lt hright) (strength_le_of_exposed right hr d hd)
  | .unary operator operand info, h => by
    obtain ⟨htight, hinner⟩ := List.forall_mem_cons.mp h
    refine List.forall_mem_cons.mpr ⟨Nat.le_refl _, fun d hd => ?_⟩
    exact Nat.le_trans htight (strength_le_of_exposed operand hinner d hd)
  | .member base field info, h => by
    obtain ⟨⟨htight, -⟩, hinner⟩ := List.forall_mem_cons.mp h
    refine List.forall_mem_cons.mpr ⟨Nat.le_refl _, fun d hd => ?_⟩
    exact Nat.le_trans htight (strength_le_of_exposed base hinner d hd)
  | .invoke base arguments info, h => by
    obtain ⟨⟨htight, -⟩, hinner⟩ := List.forall_mem_cons.mp h
    refine List.forall_mem_cons.mpr ⟨Nat.le_refl _, fun d hd => ?_⟩
    have hbase := (List.forall_mem_append.mp hinner).1
    exact Nat.le_trans htight (strength_le_of_exposed base hbase d hd)
  | .index base place info, h => by
    obtain ⟨⟨htight, -⟩, hinner⟩ := List.forall_mem_cons.mp h
    refine List.forall_mem_cons.mpr ⟨Nat.le_refl _, fun d hd => ?_⟩
    have hbase := (List.forall_mem_append.mp hinner).1
    exact Nat.le_trans htight (strength_le_of_exposed base hbase d hd)

end Expression

namespace Statement

def AllShaped (ss : List (Statement α × Bool)) : Prop :=
  ∀ s ∈ ss, (∀ e ∈ s.1.expressions, e.WellShaped) ∧ ∀ t ∈ s.1.types, t.WellShaped

def WellShaped (s : Statement α) : Prop := ∀ looped, AllShaped (s.parts looped)

end Statement

def Block.WellShaped (b : Block α) : Prop := ∀ looped, Statement.AllShaped (b.statements looped)

def Alternative.WellShaped (a : Alternative α) : Prop :=
  ∀ looped, Statement.AllShaped (a.statements looped)

namespace Statement

variable {info : α} {value condition : Expression α} {body : Block α}

theorem WellShaped.of_inner {s : Statement α} (hinner : ∀ looped, s.inner looped = [])
    (he : ∀ e ∈ s.expressions, e.WellShaped) (ht : ∀ t ∈ s.types, t.WellShaped) :
    s.WellShaped := fun looped => by
  rw [parts, hinner]
  exact List.forall_mem_singleton.mpr ⟨he, ht⟩

theorem WellShaped.branch (h : condition.WellShaped) (hbody : body.WellShaped)
    {alternative : Alternative α} (halternative : alternative.WellShaped) :
    (Statement.branch condition body alternative info).WellShaped := fun looped =>
  List.forall_mem_cons.mpr ⟨⟨List.forall_mem_singleton.mpr h, nofun⟩,
    List.forall_mem_append.mpr ⟨hbody looped, halternative looped⟩⟩

theorem WellShaped.loop (h : condition.WellShaped) (hbody : body.WellShaped) :
    (Statement.loop condition body info).WellShaped := fun _ =>
  List.forall_mem_cons.mpr ⟨⟨List.forall_mem_singleton.mpr h, nofun⟩, hbody true⟩

theorem WellShaped.nested (hbody : body.WellShaped) :
    (Statement.nested body info).WellShaped := fun looped =>
  List.forall_mem_cons.mpr ⟨⟨nofun, nofun⟩, hbody looped⟩

end Statement

theorem Block.WellShaped.braces {ss : List (Statement α)} {info : α} (h : ∀ s ∈ ss, s.WellShaped) :
    (Block.braces ss info).WellShaped := fun looped q hq => by
  rw [Block.statements, Statement.listParts_eq] at hq
  obtain ⟨s, hs, hq⟩ := List.mem_flatMap.mp hq
  exact h s hs looped q hq

structure Definition.WellShaped (d : Definition α) : Prop where
  expressions : ∀ e ∈ d.expressions, e.WellShaped
  types : ∀ t ∈ d.types, t.WellShaped

end Reparse
