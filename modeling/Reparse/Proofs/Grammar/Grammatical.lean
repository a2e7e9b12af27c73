import Reparse.Tree

/-!
# Grammatical trees

What the grammar asks of a tree beyond the sorts of its parts: nothing is missing, operators bind as
tightly as they are nested, and some constructs stand only in certain places.
-/

namespace Reparse

variable {α : Type}

def Identifier.isNamed (n : Identifier α) : Bool := n.info?.isSome

namespace TypeExpression

def isUnion : TypeExpression α → Bool
  | .union .. => true
  | _ => false

mutual

/-- Unions have several members and stand in no place that binds more tightly than they do. -/
def isGrammatical : TypeExpression α → Bool
  | .named name _ => name.isNamed
  | .array element _ => element.isGrammatical && !element.isUnion
  | .union members _ => decide (2 ≤ members.length) && areMembers members
  | .record fields _ => areFields fields
  | .paren inner _ => inner.isGrammatical
  | .missing => false

def areMembers : List (TypeExpression α) → Bool
  | [] => true
  | t :: ts => t.isGrammatical && !t.isUnion && areMembers ts

def areFields : List (Field α (TypeExpression α)) → Bool
  | [] => true
  | ⟨key, value, _⟩ :: fields => key.isNamed && value.isGrammatical && areFields fields

end

end TypeExpression

def Precedence.strength : Precedence → Nat
  | .logical => 0
  | .comparison => 1
  | .additive => 2
  | .multiplicative => 3

namespace Expression

def strength : Expression α → Nat
  | .binary operator .. => operator.precedence.strength
  | .unary .. => 4
  | _ => 5

def hasOpenObject : Expression α → Bool
  | .binary _ left right _ => left.hasOpenObject || right.hasOpenObject
  | .unary _ operand _ => operand.hasOpenObject
  | .member base _ _ | .invoke base _ _ | .index base _ _ => base.hasOpenObject
  | .object .. => true
  | _ => false

def startsWithEmptyObject : Expression α → Bool
  | .binary _ left _ _ => left.startsWithEmptyObject
  | .member base _ _ | .invoke base _ _ | .index base _ _ => base.startsWithEmptyObject
  | .object fields _ => fields.isEmpty
  | _ => false

mutual

/-- An operand binds as tightly as its place asks for: a chain of operators of one precedence groups
to the left. -/
def isGrammatical : Expression α → Bool
  | .literal .. => true
  | .name identifier _ => identifier.isNamed
  | .binary operator left right _ =>
    left.isGrammatical && decide (operator.precedence.strength ≤ left.strength) &&
      right.isGrammatical && decide (operator.precedence.strength < right.strength)
  | .unary _ operand _ => operand.isGrammatical && decide (4 ≤ operand.strength)
  | .member base field _ => base.isGrammatical && decide (5 ≤ base.strength) && field.isNamed
  | .invoke callee arguments _ =>
    callee.isGrammatical && decide (5 ≤ callee.strength) && areGrammatical arguments
  | .index base place _ =>
    base.isGrammatical && decide (5 ≤ base.strength) && place.isGrammatical
  | .paren inner _ => inner.isGrammatical
  | .array items _ => areGrammatical items
  | .object fields _ => areFields fields
  | .missing => false

def areGrammatical : List (Expression α) → Bool
  | [] => true
  | e :: es => e.isGrammatical && areGrammatical es

def areFields : List (Field α (Expression α)) → Bool
  | [] => true
  | ⟨key, value, _⟩ :: fields => key.isNamed && value.isGrammatical && areFields fields

end

/-- Where a block follows, an opening brace is taken for the start of the block. -/
def isCondition (e : Expression α) : Bool := e.isGrammatical && !e.hasOpenObject

/-- At the start of a statement a pair of braces is taken for a block. -/
def startsStatement (e : Expression α) : Bool := e.isGrammatical && !e.startsWithEmptyObject

end Expression

def Statement.isBranch : Statement α → Bool
  | .branch .. => true
  | _ => false

mutual

def Statement.isGrammatical (inLoop : Bool) : Statement α → Bool
  | .declare name type? value _ =>
    name.isNamed && type?.all TypeExpression.isGrammatical && value.isGrammatical
  | .assign target value _ =>
    target.startsStatement && target.isAssignable && value.isGrammatical
  | .evaluate value _ => value.startsStatement
  | .branch condition body alternative _ =>
    condition.isCondition && body.isGrammatical inLoop && alternative.isGrammatical inLoop
  | .loop condition body _ => condition.isCondition && body.isGrammatical true
  | .return value? _ => value?.all Expression.isGrammatical
  | .break _ | .continue _ => inLoop
  | .nested body _ => body.isGrammatical inLoop

def Statement.areGrammatical (inLoop : Bool) : List (Statement α) → Bool
  | [] => true
  | s :: ss => s.isGrammatical inLoop && Statement.areGrammatical inLoop ss

def Block.isGrammatical (inLoop : Bool) : Block α → Bool
  | .braces statements _ => Statement.areGrammatical inLoop statements
  | .missing => false

def Alternative.isGrammatical (inLoop : Bool) : Alternative α → Bool
  | .absent => true
  | .elseIf statement => statement.isBranch && statement.isGrammatical inLoop
  | .elseBlock body => body.isGrammatical inLoop

end

def Parameter.isGrammatical (p : Parameter α) : Bool :=
  p.name.isNamed && p.type?.all TypeExpression.isGrammatical

def Definition.isGrammatical : Definition α → Bool
  | .handler name parameters body _ =>
    name.isNamed && parameters.all Parameter.isGrammatical && body.isGrammatical false
  | .function name parameters result? body _ =>
    name.isNamed && parameters.all Parameter.isGrammatical &&
      result?.all TypeExpression.isGrammatical && body.isGrammatical false
  | .global name type? value _ =>
    name.isNamed && type?.all TypeExpression.isGrammatical && value.isGrammatical
  | .typeAlias name type _ => name.isNamed && type.isGrammatical

def Program.isGrammatical (p : Program α) : Bool := p.definitions.all Definition.isGrammatical

end Reparse
