import Reparse.Tree

/-!
# Parts of trees

Which types, expressions and statements a tree is made of. A statement comes with whether a loop is
around it.
-/

namespace Reparse

variable {α : Type}

namespace TypeExpression

mutual

def inner : TypeExpression α → List (TypeExpression α)
  | .named .. | .missing => []
  | .array element _ => element :: element.inner
  | .union members _ => listParts members
  | .record fields _ => fieldParts fields
  | .paren type _ => type :: type.inner

def listParts : List (TypeExpression α) → List (TypeExpression α)
  | [] => []
  | t :: ts => t :: t.inner ++ listParts ts

def fieldParts : List (Field α (TypeExpression α)) → List (TypeExpression α)
  | [] => []
  | ⟨_, value, _⟩ :: fields => value :: value.inner ++ fieldParts fields

end

def parts (t : TypeExpression α) : List (TypeExpression α) := t :: t.inner

theorem listParts_eq (ts : List (TypeExpression α)) : listParts ts = ts.flatMap parts := by
  induction ts with
  | nil => rfl
  | cons t ts ih => rw [listParts, ih, List.flatMap_cons]; rfl

theorem fieldParts_eq (fields : List (Field α (TypeExpression α))) :
    fieldParts fields = fields.flatMap fun f => f.value.parts := by
  induction fields with
  | nil => rfl
  | cons f fields ih => rw [fieldParts, ih, List.flatMap_cons]; rfl

end TypeExpression

namespace Expression

mutual

def inner : Expression α → List (Expression α)
  | .literal .. | .name .. | .missing => []
  | .binary _ left right _ => left :: left.inner ++ right :: right.inner
  | .unary _ operand _ => operand :: operand.inner
  | .member base _ _ => base :: base.inner
  | .invoke callee arguments _ => callee :: callee.inner ++ listParts arguments
  | .index base place _ => base :: base.inner ++ place :: place.inner
  | .paren body _ => body :: body.inner
  | .array items _ => listParts items
  | .object fields _ => fieldParts fields

def listParts : List (Expression α) → List (Expression α)
  | [] => []
  | e :: es => e :: e.inner ++ listParts es

def fieldParts : List (Field α (Expression α)) → List (Expression α)
  | [] => []
  | ⟨_, value, _⟩ :: fields => value :: value.inner ++ fieldParts fields

end

def parts (e : Expression α) : List (Expression α) := e :: e.inner

theorem listParts_eq (es : List (Expression α)) : listParts es = es.flatMap parts := by
  induction es with
  | nil => rfl
  | cons e es ih => rw [listParts, ih, List.flatMap_cons]; rfl

theorem fieldParts_eq (fields : List (Field α (Expression α))) :
    fieldParts fields = fields.flatMap fun f => f.value.parts := by
  induction fields with
  | nil => rfl
  | cons f fields ih => rw [fieldParts, ih, List.flatMap_cons]; rfl

theorem parts_subset_of_inner {d e : Expression α} (hinner : d ∈ e.inner → d.parts ⊆ e.inner)
    (h : d ∈ e.parts) : d.parts ⊆ e.parts := by
  rcases List.mem_cons.mp h with rfl | h
  · exact List.Subset.refl _
  · exact List.Subset.trans (hinner h) (List.subset_cons_self ..)

theorem parts_subset_append {d : Expression α} {as bs : List (Expression α)}
    (ha : d ∈ as → d.parts ⊆ as) (hb : d ∈ bs → d.parts ⊆ bs) (h : d ∈ as ++ bs) :
    d.parts ⊆ as ++ bs := by
  rcases List.mem_append.mp h with h | h
  · exact List.Subset.trans (ha h) (List.subset_append_left ..)
  · exact List.Subset.trans (hb h) (List.subset_append_right ..)

mutual

theorem parts_subset_inner {d : Expression α} : (e : Expression α) → d ∈ e.inner → d.parts ⊆ e.inner
  | .literal .., h | .name .., h | .missing, h => absurd h List.not_mem_nil
  | .binary _ left right _, h =>
    parts_subset_append (parts_subset_of_inner (parts_subset_inner left))
      (parts_subset_of_inner (parts_subset_inner right)) h
  | .unary _ operand _, h => parts_subset_of_inner (parts_subset_inner operand) h
  | .member base _ _, h => parts_subset_of_inner (parts_subset_inner base) h
  | .invoke callee arguments _, h =>
    parts_subset_append (parts_subset_of_inner (parts_subset_inner callee))
      (parts_subset_listParts arguments) h
  | .index base place _, h =>
    parts_subset_append (parts_subset_of_inner (parts_subset_inner base))
      (parts_subset_of_inner (parts_subset_inner place)) h
  | .paren body _, h => parts_subset_of_inner (parts_subset_inner body) h
  | .array items _, h => parts_subset_listParts items h
  | .object fields _, h => parts_subset_fieldParts fields h

theorem parts_subset_listParts {d : Expression α} :
    (es : List (Expression α)) → d ∈ listParts es → d.parts ⊆ listParts es
  | [], h => absurd h List.not_mem_nil
  | e :: es, h =>
    parts_subset_append (parts_subset_of_inner (parts_subset_inner e)) (parts_subset_listParts es) h

theorem parts_subset_fieldParts {d : Expression α} :
    (fields : List (Field α (Expression α))) → d ∈ fieldParts fields → d.parts ⊆ fieldParts fields
  | [], h => absurd h List.not_mem_nil
  | ⟨_, value, _⟩ :: fields, h =>
    parts_subset_append (parts_subset_of_inner (parts_subset_inner value))
      (parts_subset_fieldParts fields) h

end

theorem parts_subset {d e : Expression α} (h : d ∈ e.parts) : d.parts ⊆ e.parts :=
  parts_subset_of_inner (parts_subset_inner e) h

/-- The parts that no parentheses, brackets or braces are around. -/
def exposed : Expression α → List (Expression α)
  | .binary operator left right info =>
    .binary operator left right info :: (left.exposed ++ right.exposed)
  | .unary operator operand info => .unary operator operand info :: operand.exposed
  | .member base field info => .member base field info :: base.exposed
  | .invoke callee arguments info => .invoke callee arguments info :: callee.exposed
  | .index base place info => .index base place info :: base.exposed
  | e => [e]

end Expression

namespace Statement

def expressions : Statement α → List (Expression α)
  | .declare _ _ value _ => [value]
  | .assign target value _ => [target, value]
  | .evaluate value _ => [value]
  | .branch condition _ _ _ | .loop condition _ _ => [condition]
  | .return value? _ => value?.toList
  | .break _ | .continue _ | .nested .. => []

def types : Statement α → List (TypeExpression α)
  | .declare _ type? _ _ => type?.toList
  | _ => []

end Statement

mutual

def Statement.inner (looped : Bool) : Statement α → List (Statement α × Bool)
  | .branch _ body alternative _ => body.statements looped ++ alternative.statements looped
  | .loop _ body _ => body.statements true
  | .nested body _ => body.statements looped
  | _ => []

def Statement.listParts (looped : Bool) : List (Statement α) → List (Statement α × Bool)
  | [] => []
  | s :: ss => (s, looped) :: s.inner looped ++ Statement.listParts looped ss

def Block.statements (looped : Bool) : Block α → List (Statement α × Bool)
  | .braces statements _ => Statement.listParts looped statements
  | .missing => []

def Alternative.statements (looped : Bool) : Alternative α → List (Statement α × Bool)
  | .absent => []
  | .elseIf statement => (statement, looped) :: statement.inner looped
  | .elseBlock body => body.statements looped

end

def Statement.parts (looped : Bool) (s : Statement α) : List (Statement α × Bool) :=
  (s, looped) :: s.inner looped

theorem Statement.listParts_eq (looped : Bool) (ss : List (Statement α)) :
    listParts looped ss = ss.flatMap (parts looped) := by
  induction ss with
  | nil => rfl
  | cons s ss ih => rw [listParts, ih, List.flatMap_cons]; rfl

namespace Definition

/-- The statements of a definition. No loop reaches into a definition. -/
def statements : Definition α → List (Statement α × Bool)
  | .handler _ _ body _ | .function _ _ _ body _ => body.statements false
  | .global .. | .typeAlias .. => []

def expressions (d : Definition α) : List (Expression α) :=
  (match d with
  | .global _ _ value _ => [value]
  | _ => []) ++ d.statements.flatMap fun s => s.1.expressions

def types (d : Definition α) : List (TypeExpression α) :=
  (match d with
  | .handler _ parameters _ _ => parameters.flatMap fun p => p.type?.toList
  | .function _ parameters result? _ _ =>
    (parameters.flatMap fun p => p.type?.toList) ++ result?.toList
  | .global _ type? _ _ => type?.toList
  | .typeAlias _ type _ => [type]) ++ d.statements.flatMap fun s => s.1.types

end Definition

namespace Program

def statements (p : Program α) : List (Statement α × Bool) :=
  p.definitions.flatMap Definition.statements

def expressions (p : Program α) : List (Expression α) :=
  p.definitions.flatMap Definition.expressions

def types (p : Program α) : List (TypeExpression α) := p.definitions.flatMap Definition.types

end Program

end Reparse
