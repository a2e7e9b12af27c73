import Reparse.Operator
import Reparse.Text

/-!
# Syntax trees

The programs of the language: handlers, functions, globals and type aliases, made of statements,
expressions and types. Every node carries an annotation of type `α`, such as the tokens it was read
from; with `Unit` for `α` a tree is the bare program. A node that stands in for something missing
carries none.
-/

namespace Reparse

variable {α : Type}

inductive Identifier (α : Type)
  | named (name : Text) (info : α)
  | missing
  deriving Repr

namespace Identifier

def name : Identifier α → Text
  | named name _ => name
  | missing => []

def info? : Identifier α → Option α
  | named _ info => some info
  | missing => none

end Identifier

/-- Numbers are kept as they are written, strings as what they stand for. -/
inductive Literal
  | integer (text : Text)
  | float (text : Text)
  | string (contents : Text)
  | boolean (value : Bool)
  | null
  deriving DecidableEq, Repr

structure Field (α β : Type) where
  name : Identifier α
  value : β
  info : α
  deriving Repr

inductive TypeExpression (α : Type)
  | named (name : Identifier α) (info : α)
  | array (element : TypeExpression α) (info : α)
  | union (members : List (TypeExpression α)) (info : α)
  | record (fields : List (Field α (TypeExpression α))) (info : α)
  | paren (inner : TypeExpression α) (info : α)
  | missing
  deriving Repr

def TypeExpression.info? : TypeExpression α → Option α
  | named _ info | array _ info | union _ info | record _ info | paren _ info => some info
  | missing => none

inductive Expression (α : Type)
  | literal (value : Literal) (info : α)
  | name (identifier : Identifier α) (info : α)
  | binary (operator : BinaryOperator) (left right : Expression α) (info : α)
  | unary (operator : UnaryOperator) (operand : Expression α) (info : α)
  | member (object : Expression α) (field : Identifier α) (info : α)
  | invoke (callee : Expression α) (arguments : List (Expression α)) (info : α)
  | index (object index : Expression α) (info : α)
  | paren (inner : Expression α) (info : α)
  | array (items : List (Expression α)) (info : α)
  | object (fields : List (Field α (Expression α))) (info : α)
  | missing
  deriving Repr

namespace Expression

def info? : Expression α → Option α
  | literal _ info | name _ info | binary _ _ _ info | unary _ _ info | member _ _ info
  | invoke _ _ info | index _ _ info | paren _ info | array _ info | object _ info => some info
  | missing => none

def isAssignable : Expression α → Bool
  | name .. | member .. | index .. => true
  | _ => false

end Expression

mutual

inductive Statement (α : Type)
  | declare (name : Identifier α) (type? : Option (TypeExpression α)) (value : Expression α)
      (info : α)
  | assign (target value : Expression α) (info : α)
  | evaluate (value : Expression α) (info : α)
  | branch (condition : Expression α) (body : Block α) (alternative : Alternative α) (info : α)
  | loop (condition : Expression α) (body : Block α) (info : α)
  | return (value? : Option (Expression α)) (info : α)
  | break (info : α)
  | continue (info : α)
  | nested (body : Block α) (info : α)
  deriving Repr

inductive Block (α : Type)
  | braces (statements : List (Statement α)) (info : α)
  | missing
  deriving Repr

inductive Alternative (α : Type)
  | absent
  | elseIf (statement : Statement α)
  | elseBlock (body : Block α)
  deriving Repr

end

def Statement.info : Statement α → α
  | .declare _ _ _ info | .assign _ _ info | .evaluate _ info | .branch _ _ _ info | .loop _ _ info
  | .return _ info | .break info | .continue info | .nested _ info => info

def Block.info? : Block α → Option α
  | .braces _ info => some info
  | .missing => none

structure Parameter (α : Type) where
  name : Identifier α
  type? : Option (TypeExpression α)
  info : α
  deriving Repr

inductive Definition (α : Type)
  | handler (name : Identifier α) (parameters : List (Parameter α)) (body : Block α) (info : α)
  | function (name : Identifier α) (parameters : List (Parameter α))
      (result? : Option (TypeExpression α)) (body : Block α) (info : α)
  | global (name : Identifier α) (type? : Option (TypeExpression α)) (value : Expression α)
      (info : α)
  | typeAlias (name : Identifier α) (type : TypeExpression α) (info : α)
  deriving Repr

namespace Definition

def name : Definition α → Identifier α
  | handler name _ _ _ | function name _ _ _ _ | global name _ _ _ | typeAlias name _ _ => name

def info : Definition α → α
  | handler _ _ _ info | function _ _ _ _ info | global _ _ _ info | typeAlias _ _ info => info

end Definition

structure Program (α : Type) where
  definitions : List (Definition α)
  info : α
  deriving Repr

end Reparse
