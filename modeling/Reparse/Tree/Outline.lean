import Reparse.Tree

/-!
# Outlines

The outline of a tree keeps the form, the text and the annotation of every node, and forgets which
part of its parent a node is. Whatever goes over all nodes of a tree alike goes over its outline.
Children stand in the order of the source.
-/

namespace Reparse

inductive NodeSort
  | program
  | definition
  | parameter
  | block
  | statement
  | expression
  | type
  | identifier
  deriving DecidableEq, Repr

def NodeSort.name : NodeSort → Text
  | .program => "program".toList
  | .definition => "definition".toList
  | .parameter => "parameter".toList
  | .block => "block".toList
  | .statement => "statement".toList
  | .expression => "expression".toList
  | .type => "type".toList
  | .identifier => "identifier".toList

inductive Form
  | program
  | handler
  | function
  | global
  | typeAlias
  | parameter
  | identifier
  | block
  | declare
  | assign
  | evaluate
  | branch
  | loop
  | return
  | break
  | continue
  | nested
  | integer
  | float
  | string
  | boolean
  | null
  | name
  | binary
  | unary
  | member
  | invoke
  | index
  | paren
  | array
  | object
  | field
  | missingExpression
  | namedType
  | arrayType
  | unionType
  | recordType
  | fieldType
  | parenType
  | missingType
  deriving DecidableEq, Repr

namespace Form

def sort? : Form → Option NodeSort
  | .program => some .program
  | .handler | .function | .global | .typeAlias => some .definition
  | .parameter => some .parameter
  | .identifier => some .identifier
  | .block => some .block
  | .declare | .assign | .evaluate | .branch | .loop | .return | .break | .continue | .nested =>
    some .statement
  | .integer | .float | .string | .boolean | .null | .name | .binary | .unary | .member | .invoke
  | .index | .paren | .array | .object | .missingExpression => some .expression
  | .namedType | .arrayType | .unionType | .recordType | .parenType | .missingType => some .type
  | .field | .fieldType => none

def label : Form → Text
  | .program => "program".toList
  | .handler => "handler".toList
  | .function => "function".toList
  | .global => "global".toList
  | .typeAlias => "alias".toList
  | .parameter => "param".toList
  | .identifier => "ident".toList
  | .block => "block".toList
  | .declare => "let".toList
  | .assign => "assign".toList
  | .evaluate => "expr_stmt".toList
  | .branch => "if".toList
  | .loop => "while".toList
  | .return => "return".toList
  | .break => "break".toList
  | .continue => "continue".toList
  | .nested => "block_stmt".toList
  | .integer => "int".toList
  | .float => "float".toList
  | .string => "string".toList
  | .boolean => "bool".toList
  | .null => "null".toList
  | .name => "name".toList
  | .binary => "binary".toList
  | .unary => "unary".toList
  | .member => "member".toList
  | .invoke => "invoke".toList
  | .index => "index".toList
  | .paren => "paren".toList
  | .array => "array".toList
  | .object => "object".toList
  | .field => "field".toList
  | .missingExpression => "missing_expr".toList
  | .namedType => "t_named".toList
  | .arrayType => "t_array".toList
  | .unionType => "t_union".toList
  | .recordType => "t_record".toList
  | .fieldType => "t_field".toList
  | .parenType => "t_paren".toList
  | .missingType => "t_missing".toList

def isAssignable : Form → Bool
  | .name | .member | .index => true
  | _ => false

end Form

/-- A node that stands in for something missing has no annotation. -/
inductive Outline (α : Type)
  | node (form : Form) (text? : Option Text) (info? : Option α) (children : List (Outline α))
  deriving Repr

variable {α β : Type}

def Identifier.outline (n : Identifier α) : Outline α := .node .identifier (some n.name) n.info? []

def Literal.form : Literal → Form
  | .integer _ => .integer
  | .float _ => .float
  | .string _ => .string
  | .boolean _ => .boolean
  | .null => .null

def Literal.text? : Literal → Option Text
  | .integer text | .float text | .string text => some text
  | .boolean value => (if value then Kind.trueWord else Kind.falseWord).spelling?
  | .null => none

mutual

def TypeExpression.outline : TypeExpression α → Outline α
  | .named name info => .node .namedType none (some info) [name.outline]
  | .array element info => .node .arrayType none (some info) [element.outline]
  | .union members info => .node .unionType none (some info) (outlines members)
  | .record fields info => .node .recordType none (some info) (fieldOutlines fields)
  | .paren inner info => .node .parenType none (some info) [inner.outline]
  | .missing => .node .missingType none none []

def TypeExpression.outlines : List (TypeExpression α) → List (Outline α)
  | [] => []
  | t :: ts => t.outline :: outlines ts

def TypeExpression.fieldOutlines : List (Field α (TypeExpression α)) → List (Outline α)
  | [] => []
  | ⟨key, value, info⟩ :: fields =>
    .node .fieldType none (some info) [key.outline, value.outline] :: fieldOutlines fields

end

mutual

def Expression.outline : Expression α → Outline α
  | .literal value info => .node value.form value.text? (some info) []
  | .name identifier info => .node .name none (some info) [identifier.outline]
  | .binary operator left right info =>
    .node .binary (some operator.symbol) (some info) [left.outline, right.outline]
  | .unary operator operand info => .node .unary (some operator.name) (some info) [operand.outline]
  | .member base field info => .node .member none (some info) [base.outline, field.outline]
  | .invoke callee arguments info =>
    .node .invoke none (some info) (callee.outline :: outlines arguments)
  | .index base place info => .node .index none (some info) [base.outline, place.outline]
  | .paren inner info => .node .paren none (some info) [inner.outline]
  | .array items info => .node .array none (some info) (outlines items)
  | .object fields info => .node .object none (some info) (fieldOutlines fields)
  | .missing => .node .missingExpression none none []

def Expression.outlines : List (Expression α) → List (Outline α)
  | [] => []
  | e :: es => e.outline :: outlines es

def Expression.fieldOutlines : List (Field α (Expression α)) → List (Outline α)
  | [] => []
  | ⟨key, value, info⟩ :: fields =>
    .node .field none (some info) [key.outline, value.outline] :: fieldOutlines fields

end

mutual

def Statement.outline : Statement α → Outline α
  | .declare name type? value info =>
    .node .declare none (some info)
      (name.outline :: (type?.map TypeExpression.outline).toList ++ [value.outline])
  | .assign target value info => .node .assign none (some info) [target.outline, value.outline]
  | .evaluate value info => .node .evaluate none (some info) [value.outline]
  | .branch condition body alternative info =>
    .node .branch none (some info) (condition.outline :: body.outline :: alternative.outlines)
  | .loop condition body info => .node .loop none (some info) [condition.outline, body.outline]
  | .return value? info => .node .return none (some info) (value?.map Expression.outline).toList
  | .break info => .node .break none (some info) []
  | .continue info => .node .continue none (some info) []
  | .nested body info => .node .nested none (some info) [body.outline]

def Statement.outlines : List (Statement α) → List (Outline α)
  | [] => []
  | s :: ss => s.outline :: Statement.outlines ss

def Block.outline : Block α → Outline α
  | .braces statements info => .node .block none (some info) (Statement.outlines statements)
  | .missing => .node .block none none []

def Alternative.outlines : Alternative α → List (Outline α)
  | .absent => []
  | .elseIf statement => [statement.outline]
  | .elseBlock body => [body.outline]

end

def Parameter.outline (p : Parameter α) : Outline α :=
  .node .parameter none (some p.info)
    (p.name.outline :: (p.type?.map TypeExpression.outline).toList)

def Definition.outline : Definition α → Outline α
  | .handler name parameters body info =>
    .node .handler none (some info)
      (name.outline :: parameters.map Parameter.outline ++ [body.outline])
  | .function name parameters result? body info =>
    .node .function none (some info)
      (name.outline :: parameters.map Parameter.outline ++
        (result?.map TypeExpression.outline).toList ++ [body.outline])
  | .global name type? value info =>
    .node .global none (some info)
      (name.outline :: (type?.map TypeExpression.outline).toList ++ [value.outline])
  | .typeAlias name type info => .node .typeAlias none (some info) [name.outline, type.outline]

def Program.outline (p : Program α) : Outline α :=
  .node .program none (some p.info) (p.definitions.map Definition.outline)

structure Row (α : Type) where
  depth : Nat
  form : Form
  text? : Option Text
  info? : Option α
  deriving DecidableEq, Repr

def Row.map (f : α → β) (r : Row α) : Row β := { r with info? := r.info?.map f }

namespace Outline

def form : Outline α → Form
  | node form _ _ _ => form

def info? : Outline α → Option α
  | node _ _ info? _ => info?

mutual

def rows (depth : Nat) : Outline α → List (Row α)
  | node form text? info? children => ⟨depth, form, text?, info?⟩ :: listRows (depth + 1) children

def listRows (depth : Nat) : List (Outline α) → List (Row α)
  | [] => []
  | o :: os => rows depth o ++ listRows depth os

end

def identifierNames (o : Outline α) : List Text :=
  (o.rows 0).filterMap fun r => if r.form = .identifier then r.text? else none

mutual

/-- The nodes that a visitor comes past that does not go below nodes of the sorts in `stop`. -/
def visits (stop : List NodeSort) : Outline α → List (Form × Option α)
  | node form _ info? children =>
    (form, info?) :: if form.sort?.any stop.contains then [] else listVisits stop children

def listVisits (stop : List NodeSort) : List (Outline α) → List (Form × Option α)
  | [] => []
  | o :: os => visits stop o ++ listVisits stop os

end

mutual

/-- The innermost node that `covers` holds of, going down from the root through such nodes only. Of
two children that both qualify the later one counts. Nodes of no sort are looked through. -/
def innermost? (covers : α → Bool) : Outline α → Option (Form × α)
  | node form _ info? children =>
    match form.sort?, info? with
    | some _, some info =>
      if covers info then (listInnermost? covers children).or (some (form, info)) else none
    | some _, none => none
    | none, _ => listInnermost? covers children

def listInnermost? (covers : α → Bool) : List (Outline α) → Option (Form × α)
  | [] => none
  | o :: os => (listInnermost? covers os).or (innermost? covers o)

end

end Outline

end Reparse
