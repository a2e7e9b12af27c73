import Reparse.Parser.Series
import Reparse.Proofs.Tree.Map

/-!
# Renumbering tokens

Two streams that hold the same text have the same tokens under different numbers. Everything that
is built from tokens can be renumbered, and renumbering changes nothing but the numbers.
-/

namespace Reparse

/-- Values that tokens occur in. -/
class Renumber (β : Type) where
  renumber : (TokenId → TokenId) → β → β
  renumber_id : ∀ b, renumber id b = b

export Renumber (renumber)

attribute [simp] Renumber.renumber_id

namespace Renumber

variable {β γ : Type}

@[reducible] def fixed : Renumber β := ⟨fun _ b => b, fun _ => rfl⟩

theorem renumber_id_eq [Renumber β] : (renumber id : β → β) = id := funext renumber_id

instance : Renumber Unit := fixed
instance : Renumber Bool := fixed
instance : Renumber Nat := fixed
instance : Renumber Kind := fixed
instance : Renumber Code := fixed
instance : Renumber Flags := fixed
instance : Renumber BinaryOperator := fixed
instance : Renumber SeriesEnd := fixed

instance : Renumber Token := ⟨fun ρ t => { t with id := ρ t.id }, fun _ => rfl⟩

instance [Renumber β] : Renumber (Option β) :=
  ⟨fun ρ => Option.map (renumber ρ), fun o => by rw [renumber_id_eq]; exact Option.map_id_apply⟩

instance [Renumber β] : Renumber (List β) :=
  ⟨fun ρ => List.map (renumber ρ), fun l => by rw [renumber_id_eq]; exact List.map_id l⟩

instance [Renumber β] : Renumber (Array β) :=
  ⟨fun ρ => Array.map (renumber ρ), fun a => by rw [renumber_id_eq]; exact Array.map_id a⟩

instance [Renumber β] [Renumber γ] : Renumber (β × γ) :=
  ⟨fun ρ p => (renumber ρ p.1, renumber ρ p.2), fun p => by simp⟩

instance : Renumber Extent :=
  ⟨fun ρ s => ⟨renumber ρ s.first, renumber ρ s.last⟩, fun s => by simp⟩

instance : Renumber Info :=
  ⟨fun ρ i => ⟨renumber ρ i.extent?, renumber ρ i.comments⟩, fun i => by simp⟩

instance : Renumber (Identifier Info) :=
  ⟨fun ρ => Identifier.map (renumber ρ), fun n => by rw [renumber_id_eq]; exact n.map_id⟩

instance : Renumber (TypeExpression Info) :=
  ⟨fun ρ => TypeExpression.map (renumber ρ), fun t => by rw [renumber_id_eq]; exact t.map_id⟩

instance : Renumber (Expression Info) :=
  ⟨fun ρ => Expression.map (renumber ρ), fun e => by rw [renumber_id_eq]; exact e.map_id⟩

instance : Renumber (Statement Info) :=
  ⟨fun ρ => Statement.map (renumber ρ), fun s => by rw [renumber_id_eq]; exact s.map_id⟩

instance : Renumber (Block Info) :=
  ⟨fun ρ => Block.map (renumber ρ), fun b => by rw [renumber_id_eq]; exact b.map_id⟩

instance : Renumber (Alternative Info) :=
  ⟨fun ρ => Alternative.map (renumber ρ), fun a => by rw [renumber_id_eq]; exact a.map_id⟩

instance : Renumber (Parameter Info) :=
  ⟨fun ρ => Parameter.map (renumber ρ), fun p => by rw [renumber_id_eq]; exact p.map_id⟩

instance : Renumber (Definition Info) :=
  ⟨fun ρ => Definition.map (renumber ρ), fun d => by rw [renumber_id_eq]; exact d.map_id⟩

instance : Renumber (Program Info) :=
  ⟨fun ρ => Program.map (renumber ρ), fun p => by rw [renumber_id_eq]; exact p.map_id⟩

instance [Renumber β] : Renumber (Field Info β) :=
  ⟨fun ρ => Field.map (renumber ρ) (renumber ρ), fun x => by
    simp [Field.map, renumber_id_eq]⟩

instance : Renumber Anchor where
  renumber ρ
    | .token t => .token (renumber ρ t)
    | .tokens first last => .tokens (renumber ρ first) (renumber ρ last)
    | .behind t => .behind (renumber ρ t)
    | .fixed l => .fixed l
  renumber_id a := by cases a <;> rfl

instance : Renumber (Report Anchor) :=
  ⟨fun ρ r => { r with anchor := renumber ρ r.anchor }, fun r => by simp⟩

instance : Renumber Outcome where
  renumber ρ
    | .definition node => .definition (renumber ρ node)
    | .statement node => .statement (renumber ρ node)
    | .block node => .block (renumber ρ node)
    | .expression node => .expression (renumber ρ node)
    | .type node => .type (renumber ρ node)
    | .noMatch => .noMatch
  renumber_id o := by cases o <;> simp

instance [Renumber β] : Renumber (Parser.Turn β) where
  renumber ρ
    | .again s => .again (renumber ρ s)
    | .done s => .done (renumber ρ s)
  renumber_id t := by cases t <;> simp

instance [Renumber β] : Renumber (Series β) :=
  ⟨fun ρ s => { s with items := renumber ρ s.items }, fun s => by simp⟩

variable (ρ : TokenId → TokenId)

@[simp] theorem renumber_none [Renumber β] : renumber ρ (none : Option β) = none := rfl

@[simp] theorem renumber_some [Renumber β] (b : β) :
    renumber ρ (some b) = some (renumber ρ b) := rfl

@[simp] theorem renumber_nil [Renumber β] : renumber ρ ([] : List β) = [] := rfl

@[simp] theorem renumber_cons [Renumber β] (b : β) (bs : List β) :
    renumber ρ (b :: bs) = renumber ρ b :: renumber ρ bs := rfl

@[simp] theorem renumber_append [Renumber β] (as bs : List β) :
    renumber ρ (as ++ bs) = renumber ρ as ++ renumber ρ bs := List.map_append

@[simp] theorem renumber_pair [Renumber β] [Renumber γ] (b : β) (c : γ) :
    renumber ρ (b, c) = (renumber ρ b, renumber ρ c) := rfl

@[simp] theorem renumber_bool (b : Bool) : renumber ρ b = b := rfl

@[simp] theorem renumber_kind (k : Kind) : renumber ρ k = k := rfl

@[simp] theorem renumber_flags (f : Flags) : renumber ρ f = f := rfl

@[simp] theorem toArray_renumber [Renumber β] (bs : List β) :
    (renumber ρ bs).toArray = renumber ρ bs.toArray := by
  simp [renumber]

@[simp] theorem toList_renumber [Renumber β] (bs : Array β) :
    (renumber ρ bs).toList = renumber ρ bs.toList := by
  simp [renumber]

@[simp] theorem renumber_array_append [Renumber β] (as bs : Array β) :
    renumber ρ (as ++ bs) = renumber ρ as ++ renumber ρ bs := by
  simp [renumber]

@[simp] theorem renumber_push [Renumber β] (as : Array β) (b : β) :
    renumber ρ (as.push b) = (renumber ρ as).push (renumber ρ b) := by
  simp [renumber]

@[simp] theorem renumber_empty [Renumber β] : renumber ρ (#[] : Array β) = #[] := by
  simp [renumber]

@[simp] theorem token_kind (t : Token) : (renumber ρ t).kind = t.kind := rfl

@[simp] theorem token_text (t : Token) : (renumber ρ t).text = t.text := rfl

@[simp] theorem token_isTrivia (t : Token) : (renumber ρ t).isTrivia = t.isTrivia := rfl

@[simp] theorem identifier_info? (n : Identifier Info) :
    (renumber ρ n).info? = renumber ρ n.info? := Identifier.info?_map _ n

@[simp] theorem type_info? (t : TypeExpression Info) :
    (renumber ρ t).info? = renumber ρ t.info? := TypeExpression.info?_map _ t

@[simp] theorem expression_info? (e : Expression Info) :
    (renumber ρ e).info? = renumber ρ e.info? := Expression.info?_map _ e

@[simp] theorem expression_isAssignable (e : Expression Info) :
    (renumber ρ e).isAssignable = e.isAssignable := Expression.isAssignable_map _ e

@[simp] theorem block_info? (b : Block Info) :
    (renumber ρ b).info? = renumber ρ b.info? := Block.info?_map _ b

@[simp] theorem bind_extent? (info? : Option Info) :
    (renumber ρ info?).bind Info.extent? = renumber ρ (info?.bind Info.extent?) := by
  cases info? <;> rfl

theorem type_record (fields : List (Field Info (TypeExpression Info))) (info : Info) :
    renumber ρ (TypeExpression.record fields info) =
      .record (renumber ρ fields) (renumber ρ info) :=
  congrArg (TypeExpression.record · (renumber ρ info))
    (TypeExpression.mapFields_eq (renumber ρ) fields)

theorem type_union (members : List (TypeExpression Info)) (info : Info) :
    renumber ρ (TypeExpression.union members info) =
      .union (renumber ρ members) (renumber ρ info) :=
  congrArg (TypeExpression.union · (renumber ρ info)) (TypeExpression.mapAll_eq (renumber ρ) members)

theorem expression_invoke (callee : Expression Info) (arguments : List (Expression Info))
    (info : Info) : renumber ρ (Expression.invoke callee arguments info) =
      .invoke (renumber ρ callee) (renumber ρ arguments) (renumber ρ info) :=
  congrArg (Expression.invoke (renumber ρ callee) · (renumber ρ info))
    (Expression.mapAll_eq (renumber ρ) arguments)

theorem expression_array (items : List (Expression Info)) (info : Info) :
    renumber ρ (Expression.array items info) = .array (renumber ρ items) (renumber ρ info) :=
  congrArg (Expression.array · (renumber ρ info)) (Expression.mapAll_eq (renumber ρ) items)

theorem expression_object (fields : List (Field Info (Expression Info))) (info : Info) :
    renumber ρ (Expression.object fields info) = .object (renumber ρ fields) (renumber ρ info) :=
  congrArg (Expression.object · (renumber ρ info)) (Expression.mapFields_eq (renumber ρ) fields)

theorem block_braces (statements : List (Statement Info)) (info : Info) :
    renumber ρ (Block.braces statements info) =
      .braces (renumber ρ statements) (renumber ρ info) :=
  congrArg (Block.braces · (renumber ρ info)) (Statement.mapAll_eq (renumber ρ) statements)

theorem series_empty [Renumber β] : renumber ρ ({} : Series β) = {} :=
  congrArg (Series.mk · .aborted) (renumber_empty ρ)

theorem series_push [Renumber β] (s : Series β) (b : β) :
    ({ renumber ρ s with items := (renumber ρ s).items.push (renumber ρ b) } : Series β) =
      renumber ρ { s with items := s.items.push b } :=
  congrArg (Series.mk · s.stop) (renumber_push ρ s.items b).symm

end Renumber

class RenumberNode (β : Type) [RuleNode β] [Renumber β] : Prop where
  renumber_wrap : ∀ (ρ : TokenId → TokenId) (node : β),
    renumber ρ (RuleNode.wrap node) = RuleNode.wrap (renumber ρ node)

instance : RenumberNode (Definition Info) := ⟨fun _ _ => rfl⟩
instance : RenumberNode (Statement Info) := ⟨fun _ _ => rfl⟩
instance : RenumberNode (Block Info) := ⟨fun _ _ => rfl⟩
instance : RenumberNode (Expression Info) := ⟨fun _ _ => rfl⟩
instance : RenumberNode (TypeExpression Info) := ⟨fun _ _ => rfl⟩

theorem unwrap?_renumber {β : Type} [RuleNode β] [Renumber β] [RenumberNode β]
    (ρ : TokenId → TokenId) (node? : Option β) :
    RuleNode.unwrap? (((renumber ρ node?).map RuleNode.wrap).getD .noMatch) = renumber ρ node? := by
  cases node? with
  | none => exact RuleNode.unwrap?_noMatch
  | some node => exact RuleNode.unwrap?_wrap (renumber ρ node)

end Reparse
