import Reparse.Tree.Info

/-!
# Nodes

What can be asked of a tree node by node: which nodes there are, which of them stand in for
something missing, and which comments they carry.
-/

namespace Reparse

variable {α : Type}

namespace Outline

def text? : Outline α → Option Text
  | node _ text? _ _ => text?

def children : Outline α → List (Outline α)
  | node _ _ _ children => children

mutual

def nodes : Outline α → List (Outline α)
  | node form text? info? children => node form text? info? children :: listNodes children

def listNodes : List (Outline α) → List (Outline α)
  | [] => []
  | o :: os => nodes o ++ listNodes os

end

theorem nodes_eq (o : Outline α) : o.nodes = o :: listNodes o.children := by
  cases o
  rfl

@[simp] theorem listNodes_nil : listNodes ([] : List (Outline α)) = [] := rfl

@[simp] theorem listNodes_cons (o : Outline α) (os : List (Outline α)) :
    listNodes (o :: os) = o :: (listNodes o.children ++ listNodes os) := by
  rw [listNodes, nodes_eq]
  rfl

@[simp] theorem listNodes_append (os ps : List (Outline α)) :
    listNodes (os ++ ps) = listNodes os ++ listNodes ps := by
  induction os with
  | nil => rfl
  | cons o os ih => simp [ih]

theorem forall_listNodes_cons {P : Outline α → Prop} {o : Outline α} {os : List (Outline α)} :
    (∀ p ∈ listNodes (o :: os), P p) ↔
      P o ∧ (∀ p ∈ listNodes o.children, P p) ∧ ∀ p ∈ listNodes os, P p := by
  rw [listNodes_cons, List.forall_mem_cons, List.forall_mem_append]

mutual

theorem listNodes_children_subset {o : Outline α} :
    (p : Outline α) → o ∈ nodes p → listNodes o.children ⊆ nodes p
  | node form text? info? children, h => by
    rw [nodes] at h ⊢
    rcases List.mem_cons.mp h with rfl | h
    · exact List.subset_cons_self ..
    · exact List.Subset.trans (listNodes_children_subset_list children h) (List.subset_cons_self ..)

theorem listNodes_children_subset_list {o : Outline α} :
    (ps : List (Outline α)) → o ∈ listNodes ps → listNodes o.children ⊆ listNodes ps
  | [], h => absurd h List.not_mem_nil
  | p :: ps, h => by
    rw [listNodes] at h ⊢
    rcases List.mem_append.mp h with h | h
    · exact List.Subset.trans (listNodes_children_subset p h) (List.subset_append_left ..)
    · exact List.Subset.trans (listNodes_children_subset_list ps h) (List.subset_append_right ..)

end

theorem subset_listNodes (os : List (Outline α)) : os ⊆ listNodes os := by
  induction os with
  | nil => exact List.Subset.refl _
  | cons o os ih =>
    rw [listNodes_cons]
    exact List.cons_subset_cons o (List.Subset.trans ih (List.subset_append_right ..))

/-- The children that a visitor comes to: nodes of no sort are looked through. -/
def visited (o : Outline α) : List (Outline α) :=
  o.children.flatMap fun c => if c.form.sort?.isNone then c.children else [c]

/-- Whether the node stands in for something missing. Only names of missing identifiers are empty,
and a missing block has no annotation. -/
def isStandIn (o : Outline α) : Bool :=
  o.form = .missingExpression || o.form = .missingType ||
    (o.form = .identifier && o.text? = some []) || (o.form = .block && o.info?.isNone)

def extent? (o : Outline Info) : Option Extent := o.info?.bind Info.extent?

def comments (o : Outline Info) : List Token := (o.info?.map Info.comments).getD []

def gathered (os : List (Outline Info)) : List Token := (listNodes os).flatMap comments

@[simp] theorem gathered_nil : gathered [] = [] := rfl

theorem gathered_append (os ps : List (Outline Info)) :
    gathered (os ++ ps) = gathered os ++ gathered ps := by
  rw [gathered, listNodes_append, List.flatMap_append]
  rfl

theorem gathered_node (form : Form) (text? : Option Text) (info : Info)
    (children : List (Outline Info)) :
    gathered [node form text? (some info) children] = info.comments ++ gathered children := by
  rw [gathered, listNodes_cons, listNodes_nil, List.append_nil, List.flatMap_cons]
  rfl

end Outline

theorem TypeExpression.outlines_eq (ts : List (TypeExpression α)) :
    outlines ts = ts.map outline := by
  induction ts with
  | nil => rfl
  | cons t ts ih => rw [outlines, ih, List.map_cons]

theorem Expression.outlines_eq (es : List (Expression α)) : outlines es = es.map outline := by
  induction es with
  | nil => rfl
  | cons e es ih => rw [outlines, ih, List.map_cons]

theorem Statement.outlines_eq (ss : List (Statement α)) : outlines ss = ss.map outline := by
  induction ss with
  | nil => rfl
  | cons s ss ih => rw [outlines, ih, List.map_cons]

def Field.outline {β : Type} (form : Form) (value : β → Outline α) (f : Field α β) : Outline α :=
  .node form none (some f.info) [f.name.outline, value f.value]

theorem TypeExpression.fieldOutlines_eq (fields : List (Field α (TypeExpression α))) :
    fieldOutlines fields = fields.map (Field.outline .fieldType outline) := by
  induction fields with
  | nil => rfl
  | cons f fields ih =>
    rw [fieldOutlines, ih, List.map_cons]
    rfl

theorem Expression.fieldOutlines_eq (fields : List (Field α (Expression α))) :
    fieldOutlines fields = fields.map (Field.outline .field outline) := by
  induction fields with
  | nil => rfl
  | cons f fields ih =>
    rw [fieldOutlines, ih, List.map_cons]
    rfl

theorem Identifier.info?_outline (n : Identifier α) : n.outline.info? = n.info? := by
  cases n <;> rfl

theorem TypeExpression.info?_outline (t : TypeExpression α) : t.outline.info? = t.info? := by
  cases t <;> rfl

theorem Expression.info?_outline (e : Expression α) : e.outline.info? = e.info? := by
  cases e <;> rfl

theorem Expression.extent?_outline (e : Expression Info) :
    e.outline.extent? = e.info?.bind Info.extent? := by
  rw [Outline.extent?, e.info?_outline]

theorem Statement.info?_outline (s : Statement α) : s.outline.info? = some s.info := by
  cases s <;> rfl

theorem Block.info?_outline (b : Block α) : b.outline.info? = b.info? := by
  cases b <;> rfl

end Reparse
