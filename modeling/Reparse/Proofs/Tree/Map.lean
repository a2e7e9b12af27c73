import Reparse.Tree

/-!
# Mapping annotations

A tree with a function applied to every annotation keeps its shape. Renumbering tokens, placing them
and erasing them are all maps of this kind, so two trees are compared by mapping both to the same
type of annotation.
-/

namespace Reparse

variable {α β γ δ : Type}

def Identifier.map (f : α → β) : Identifier α → Identifier β
  | .named name info => .named name (f info)
  | .missing => .missing

def Field.map (f : α → β) (g : γ → δ) (x : Field α γ) : Field β δ :=
  ⟨x.name.map f, g x.value, f x.info⟩

mutual

def TypeExpression.map (f : α → β) : TypeExpression α → TypeExpression β
  | .named name info => .named (name.map f) (f info)
  | .array element info => .array (element.map f) (f info)
  | .union members info => .union (mapAll f members) (f info)
  | .record fields info => .record (mapFields f fields) (f info)
  | .paren inner info => .paren (inner.map f) (f info)
  | .missing => .missing

def TypeExpression.mapAll (f : α → β) : List (TypeExpression α) → List (TypeExpression β)
  | [] => []
  | t :: ts => t.map f :: mapAll f ts

def TypeExpression.mapFields (f : α → β) :
    List (Field α (TypeExpression α)) → List (Field β (TypeExpression β))
  | [] => []
  | ⟨key, value, info⟩ :: fields => ⟨key.map f, value.map f, f info⟩ :: mapFields f fields

end

mutual

def Expression.map (f : α → β) : Expression α → Expression β
  | .literal value info => .literal value (f info)
  | .name identifier info => .name (identifier.map f) (f info)
  | .binary operator left right info => .binary operator (left.map f) (right.map f) (f info)
  | .unary operator operand info => .unary operator (operand.map f) (f info)
  | .member base field info => .member (base.map f) (field.map f) (f info)
  | .invoke callee arguments info => .invoke (callee.map f) (mapAll f arguments) (f info)
  | .index base place info => .index (base.map f) (place.map f) (f info)
  | .paren inner info => .paren (inner.map f) (f info)
  | .array items info => .array (mapAll f items) (f info)
  | .object fields info => .object (mapFields f fields) (f info)
  | .missing => .missing

def Expression.mapAll (f : α → β) : List (Expression α) → List (Expression β)
  | [] => []
  | e :: es => e.map f :: mapAll f es

def Expression.mapFields (f : α → β) :
    List (Field α (Expression α)) → List (Field β (Expression β))
  | [] => []
  | ⟨key, value, info⟩ :: fields => ⟨key.map f, value.map f, f info⟩ :: mapFields f fields

end

mutual

def Statement.map (f : α → β) : Statement α → Statement β
  | .declare name type? value info =>
    .declare (name.map f) (type?.map (TypeExpression.map f)) (value.map f) (f info)
  | .assign target value info => .assign (target.map f) (value.map f) (f info)
  | .evaluate value info => .evaluate (value.map f) (f info)
  | .branch condition body alternative info =>
    .branch (condition.map f) (body.map f) (alternative.map f) (f info)
  | .loop condition body info => .loop (condition.map f) (body.map f) (f info)
  | .return value? info => .return (value?.map (Expression.map f)) (f info)
  | .break info => .break (f info)
  | .continue info => .continue (f info)
  | .nested body info => .nested (body.map f) (f info)

def Statement.mapAll (f : α → β) : List (Statement α) → List (Statement β)
  | [] => []
  | s :: ss => s.map f :: Statement.mapAll f ss

def Block.map (f : α → β) : Block α → Block β
  | .braces statements info => .braces (Statement.mapAll f statements) (f info)
  | .missing => .missing

def Alternative.map (f : α → β) : Alternative α → Alternative β
  | .absent => .absent
  | .elseIf statement => .elseIf (statement.map f)
  | .elseBlock body => .elseBlock (body.map f)

end

def Parameter.map (f : α → β) (p : Parameter α) : Parameter β :=
  ⟨p.name.map f, p.type?.map (TypeExpression.map f), f p.info⟩

def Definition.map (f : α → β) : Definition α → Definition β
  | .handler name parameters body info =>
    .handler (name.map f) (parameters.map (Parameter.map f)) (body.map f) (f info)
  | .function name parameters result? body info =>
    .function (name.map f) (parameters.map (Parameter.map f))
      (result?.map (TypeExpression.map f)) (body.map f) (f info)
  | .global name type? value info =>
    .global (name.map f) (type?.map (TypeExpression.map f)) (value.map f) (f info)
  | .typeAlias name type info => .typeAlias (name.map f) (type.map f) (f info)

def Program.map (f : α → β) (p : Program α) : Program β :=
  ⟨p.definitions.map (Definition.map f), f p.info⟩

theorem TypeExpression.mapAll_eq (f : α → β) (ts : List (TypeExpression α)) :
    TypeExpression.mapAll f ts = ts.map (TypeExpression.map f) := by
  induction ts with
  | nil => rfl
  | cons t ts ih => simp [mapAll, ih]

theorem TypeExpression.mapFields_eq (f : α → β) (fields : List (Field α (TypeExpression α))) :
    TypeExpression.mapFields f fields = fields.map (Field.map f (TypeExpression.map f)) := by
  induction fields with
  | nil => rfl
  | cons x fields ih => simp [mapFields, ih, Field.map]

theorem Expression.mapAll_eq (f : α → β) (es : List (Expression α)) :
    Expression.mapAll f es = es.map (Expression.map f) := by
  induction es with
  | nil => rfl
  | cons e es ih => simp [mapAll, ih]

theorem Expression.mapFields_eq (f : α → β) (fields : List (Field α (Expression α))) :
    Expression.mapFields f fields = fields.map (Field.map f (Expression.map f)) := by
  induction fields with
  | nil => rfl
  | cons x fields ih => simp [mapFields, ih, Field.map]

theorem Statement.mapAll_eq (f : α → β) (ss : List (Statement α)) :
    Statement.mapAll f ss = ss.map (Statement.map f) := by
  induction ss with
  | nil => rfl
  | cons s ss ih => simp [Statement.mapAll, ih]

@[simp] theorem Identifier.info?_map (f : α → β) (n : Identifier α) :
    (n.map f).info? = n.info?.map f := by cases n <;> rfl

@[simp] theorem TypeExpression.info?_map (f : α → β) (t : TypeExpression α) :
    (t.map f).info? = t.info?.map f := by cases t <;> rfl

@[simp] theorem Expression.info?_map (f : α → β) (e : Expression α) :
    (e.map f).info? = e.info?.map f := by cases e <;> rfl

@[simp] theorem Expression.isAssignable_map (f : α → β) (e : Expression α) :
    (e.map f).isAssignable = e.isAssignable := by cases e <;> rfl

@[simp] theorem Block.info?_map (f : α → β) (b : Block α) :
    (b.map f).info? = b.info?.map f := by cases b <;> rfl

@[simp] theorem Identifier.map_map (g : β → γ) (f : α → β) (n : Identifier α) :
    (n.map f).map g = n.map (g ∘ f) := by cases n <;> rfl

@[simp] theorem Identifier.map_id (n : Identifier α) : n.map id = n := by cases n <;> rfl

mutual

theorem TypeExpression.map_map (g : β → γ) (f : α → β) (t : TypeExpression α) :
    (t.map f).map g = t.map (g ∘ f) := by
  cases t with
  | named name info => simp [TypeExpression.map]
  | array element info => simp [TypeExpression.map, TypeExpression.map_map g f element]
  | union members info => simp [TypeExpression.map, TypeExpression.mapAll_mapAll g f members]
  | record fields info => simp [TypeExpression.map, TypeExpression.mapFields_mapFields g f fields]
  | paren inner info => simp [TypeExpression.map, TypeExpression.map_map g f inner]
  | missing => rfl

theorem TypeExpression.mapAll_mapAll (g : β → γ) (f : α → β) (ts : List (TypeExpression α)) :
    TypeExpression.mapAll g (TypeExpression.mapAll f ts) = TypeExpression.mapAll (g ∘ f) ts := by
  cases ts with
  | nil => rfl
  | cons t ts =>
    simp [TypeExpression.mapAll, TypeExpression.map_map g f t,
      TypeExpression.mapAll_mapAll g f ts]

theorem TypeExpression.mapFields_mapFields (g : β → γ) (f : α → β)
    (fields : List (Field α (TypeExpression α))) :
    TypeExpression.mapFields g (TypeExpression.mapFields f fields) =
      TypeExpression.mapFields (g ∘ f) fields := by
  match fields with
  | [] => rfl
  | ⟨key, value, info⟩ :: fields =>
    simp [TypeExpression.mapFields, TypeExpression.map_map g f value,
      TypeExpression.mapFields_mapFields g f fields]

end

mutual

theorem TypeExpression.map_id (t : TypeExpression α) : t.map id = t := by
  cases t with
  | named name info => simp [TypeExpression.map]
  | array element info => simp [TypeExpression.map, TypeExpression.map_id element]
  | union members info => simp [TypeExpression.map, TypeExpression.mapAll_id members]
  | record fields info => simp [TypeExpression.map, TypeExpression.mapFields_id fields]
  | paren inner info => simp [TypeExpression.map, TypeExpression.map_id inner]
  | missing => rfl

theorem TypeExpression.mapAll_id (ts : List (TypeExpression α)) :
    TypeExpression.mapAll id ts = ts := by
  cases ts with
  | nil => rfl
  | cons t ts =>
    simp [TypeExpression.mapAll, TypeExpression.map_id t, TypeExpression.mapAll_id ts]

theorem TypeExpression.mapFields_id (fields : List (Field α (TypeExpression α))) :
    TypeExpression.mapFields id fields = fields := by
  match fields with
  | [] => rfl
  | ⟨key, value, info⟩ :: fields =>
    simp [TypeExpression.mapFields, TypeExpression.map_id value,
      TypeExpression.mapFields_id fields]

end

mutual

theorem Expression.map_map (g : β → γ) (f : α → β) (e : Expression α) :
    (e.map f).map g = e.map (g ∘ f) := by
  cases e with
  | literal value info => rfl
  | name identifier info => simp [Expression.map]
  | binary operator left right info =>
    simp [Expression.map, Expression.map_map g f left, Expression.map_map g f right]
  | unary operator operand info => simp [Expression.map, Expression.map_map g f operand]
  | member object field info => simp [Expression.map, Expression.map_map g f object]
  | invoke callee arguments info =>
    simp [Expression.map, Expression.map_map g f callee, Expression.mapAll_mapAll g f arguments]
  | index object place info =>
    simp [Expression.map, Expression.map_map g f object, Expression.map_map g f place]
  | paren inner info => simp [Expression.map, Expression.map_map g f inner]
  | array items info => simp [Expression.map, Expression.mapAll_mapAll g f items]
  | object fields info => simp [Expression.map, Expression.mapFields_mapFields g f fields]
  | missing => rfl

theorem Expression.mapAll_mapAll (g : β → γ) (f : α → β) (es : List (Expression α)) :
    Expression.mapAll g (Expression.mapAll f es) = Expression.mapAll (g ∘ f) es := by
  cases es with
  | nil => rfl
  | cons e es =>
    simp [Expression.mapAll, Expression.map_map g f e, Expression.mapAll_mapAll g f es]

theorem Expression.mapFields_mapFields (g : β → γ) (f : α → β)
    (fields : List (Field α (Expression α))) :
    Expression.mapFields g (Expression.mapFields f fields) =
      Expression.mapFields (g ∘ f) fields := by
  match fields with
  | [] => rfl
  | ⟨key, value, info⟩ :: fields =>
    simp [Expression.mapFields, Expression.map_map g f value,
      Expression.mapFields_mapFields g f fields]

end

mutual

theorem Expression.map_id (e : Expression α) : e.map id = e := by
  cases e with
  | literal value info => rfl
  | name identifier info => simp [Expression.map]
  | binary operator left right info =>
    simp [Expression.map, Expression.map_id left, Expression.map_id right]
  | unary operator operand info => simp [Expression.map, Expression.map_id operand]
  | member object field info => simp [Expression.map, Expression.map_id object]
  | invoke callee arguments info =>
    simp [Expression.map, Expression.map_id callee, Expression.mapAll_id arguments]
  | index object place info =>
    simp [Expression.map, Expression.map_id object, Expression.map_id place]
  | paren inner info => simp [Expression.map, Expression.map_id inner]
  | array items info => simp [Expression.map, Expression.mapAll_id items]
  | object fields info => simp [Expression.map, Expression.mapFields_id fields]
  | missing => rfl

theorem Expression.mapAll_id (es : List (Expression α)) : Expression.mapAll id es = es := by
  cases es with
  | nil => rfl
  | cons e es => simp [Expression.mapAll, Expression.map_id e, Expression.mapAll_id es]

theorem Expression.mapFields_id (fields : List (Field α (Expression α))) :
    Expression.mapFields id fields = fields := by
  match fields with
  | [] => rfl
  | ⟨key, value, info⟩ :: fields =>
    simp [Expression.mapFields, Expression.map_id value, Expression.mapFields_id fields]

end

mutual

theorem Statement.map_map (g : β → γ) (f : α → β) (s : Statement α) :
    (s.map f).map g = s.map (g ∘ f) := by
  cases s with
  | declare name type? value info =>
    cases type? <;> simp [Statement.map, TypeExpression.map_map, Expression.map_map]
  | assign target value info => simp [Statement.map, Expression.map_map]
  | evaluate value info => simp [Statement.map, Expression.map_map]
  | branch condition body alternative info =>
    simp [Statement.map, Expression.map_map, Block.map_map g f body,
      Alternative.map_map g f alternative]
  | loop condition body info => simp [Statement.map, Expression.map_map, Block.map_map g f body]
  | «return» value? info => cases value? <;> simp [Statement.map, Expression.map_map]
  | «break» info => rfl
  | «continue» info => rfl
  | nested body info => simp [Statement.map, Block.map_map g f body]

theorem Statement.mapAll_mapAll (g : β → γ) (f : α → β) (ss : List (Statement α)) :
    Statement.mapAll g (Statement.mapAll f ss) = Statement.mapAll (g ∘ f) ss := by
  cases ss with
  | nil => rfl
  | cons s ss =>
    simp [Statement.mapAll, Statement.map_map g f s, Statement.mapAll_mapAll g f ss]

theorem Block.map_map (g : β → γ) (f : α → β) (b : Block α) :
    (b.map f).map g = b.map (g ∘ f) := by
  cases b with
  | braces statements info => simp [Block.map, Statement.mapAll_mapAll g f statements]
  | missing => rfl

theorem Alternative.map_map (g : β → γ) (f : α → β) (a : Alternative α) :
    (a.map f).map g = a.map (g ∘ f) := by
  cases a with
  | absent => rfl
  | elseIf statement => simp [Alternative.map, Statement.map_map g f statement]
  | elseBlock body => simp [Alternative.map, Block.map_map g f body]

end

mutual

theorem Statement.map_id (s : Statement α) : s.map id = s := by
  cases s with
  | declare name type? value info =>
    cases type? <;> simp [Statement.map, TypeExpression.map_id, Expression.map_id]
  | assign target value info => simp [Statement.map, Expression.map_id]
  | evaluate value info => simp [Statement.map, Expression.map_id]
  | branch condition body alternative info =>
    simp [Statement.map, Expression.map_id, Block.map_id body, Alternative.map_id alternative]
  | loop condition body info => simp [Statement.map, Expression.map_id, Block.map_id body]
  | «return» value? info => cases value? <;> simp [Statement.map, Expression.map_id]
  | «break» info => rfl
  | «continue» info => rfl
  | nested body info => simp [Statement.map, Block.map_id body]

theorem Statement.mapAll_id (ss : List (Statement α)) : Statement.mapAll id ss = ss := by
  cases ss with
  | nil => rfl
  | cons s ss => simp [Statement.mapAll, Statement.map_id s, Statement.mapAll_id ss]

theorem Block.map_id (b : Block α) : b.map id = b := by
  cases b with
  | braces statements info => simp [Block.map, Statement.mapAll_id statements]
  | missing => rfl

theorem Alternative.map_id (a : Alternative α) : a.map id = a := by
  cases a with
  | absent => rfl
  | elseIf statement => simp [Alternative.map, Statement.map_id statement]
  | elseBlock body => simp [Alternative.map, Block.map_id body]

end

attribute [simp] TypeExpression.map_map TypeExpression.map_id Expression.map_map Expression.map_id
  Statement.map_map Statement.map_id Block.map_map Block.map_id

@[simp] theorem Parameter.map_map (g : β → γ) (f : α → β) (p : Parameter α) :
    (p.map f).map g = p.map (g ∘ f) := by
  obtain ⟨name, type?, info⟩ := p
  cases type? <;> simp [Parameter.map]

@[simp] theorem Parameter.map_id (p : Parameter α) : p.map id = p := by
  obtain ⟨name, type?, info⟩ := p
  cases type? <;> simp [Parameter.map]

@[simp] theorem Definition.map_map (g : β → γ) (f : α → β) (d : Definition α) :
    (d.map f).map g = d.map (g ∘ f) := by
  cases d with
  | handler name parameters body info => simp [Definition.map]
  | function name parameters result? body info => cases result? <;> simp [Definition.map]
  | global name type? value info => cases type? <;> simp [Definition.map]
  | typeAlias name type info => simp [Definition.map]

@[simp] theorem Definition.map_id (d : Definition α) : d.map id = d := by
  have hp : (Parameter.map id : Parameter α → Parameter α) = id := funext Parameter.map_id
  cases d with
  | handler name parameters body info => simp [Definition.map, hp]
  | function name parameters result? body info => cases result? <;> simp [Definition.map, hp]
  | global name type? value info => cases type? <;> simp [Definition.map]
  | typeAlias name type info => simp [Definition.map]

@[simp] theorem Program.map_map (g : β → γ) (f : α → β) (p : Program α) :
    (p.map f).map g = p.map (g ∘ f) := by simp [Program.map]

@[simp] theorem Program.map_id (p : Program α) : p.map id = p := by
  have hd : (Definition.map id : Definition α → Definition α) = id := funext Definition.map_id
  simp [Program.map, hd]

end Reparse
