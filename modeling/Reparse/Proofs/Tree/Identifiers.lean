import Reparse.Proofs.Grammar.Spelling
import Reparse.Proofs.Parser.Layout

/-!
# The identifiers of trees

A visitor that looks at identifiers alone comes to those of a tree one by one. The ones that stand
for no missing name are told by what is written: they lie on the source one behind the other, and a
spelling of the tree has their names and no others.
-/

namespace Reparse

open Reparse.Parser

variable {α γ : Type}

namespace Outline

/-- The identifiers of some trees, in the order in which a visitor comes to them. -/
def identifiers (os : List (Outline α)) : List (Outline α) :=
  (listNodes os).filter fun o => o.form = .identifier

def named (os : List (Outline α)) : List (Outline α) :=
  (identifiers os).filter fun o => o.info?.isSome

def names (os : List (Outline α)) : List Text := (named os).filterMap text?

section

variable {os ps : List (Outline α)} {form : Form} {text? : Option Text} {info? : Option α}

@[simp] theorem names_nil : names ([] : List (Outline α)) = [] := rfl

theorem named_append (os ps : List (Outline α)) : named (os ++ ps) = named os ++ named ps := by
  rw [named, identifiers, listNodes_append, List.filter_append, List.filter_append]
  rfl

theorem names_append (os ps : List (Outline α)) : names (os ++ ps) = names os ++ names ps := by
  rw [names, named_append, List.filterMap_append]
  rfl

theorem named_cons (o : Outline α) (os : List (Outline α)) :
    named (o :: os) = named [o] ++ named os := named_append [o] os

theorem names_cons (o : Outline α) (os : List (Outline α)) :
    names (o :: os) = names [o] ++ names os := names_append [o] os

theorem named_node (h : form ≠ .identifier) (children : List (Outline α)) :
    named [node form text? info? children] = named children := by
  have hform : ¬decide (form = .identifier) = true := fun heq => h (of_decide_eq_true heq)
  rw [named, identifiers, listNodes_cons, listNodes_nil, List.append_nil]
  exact congrArg (List.filter _) (List.filter_cons_of_neg hform)

theorem names_node (h : form ≠ .identifier) (children : List (Outline α)) :
    names [node form text? info? children] = names children := by
  rw [names, named_node h]
  rfl

theorem names_map (view : γ → Outline α) (xs : List γ) :
    names (xs.map view) = xs.flatMap fun x => names [view x] := by
  induction xs with
  | nil => rfl
  | cons x xs ih => rw [List.map_cons, names_cons, ih, List.flatMap_cons]

theorem mem_named {o : Outline α} :
    o ∈ named os ↔ o ∈ listNodes os ∧ o.form = .identifier ∧ o.info?.isSome = true := by
  rw [named, identifiers, List.mem_filter, List.mem_filter, decide_eq_true_eq, and_assoc]

end

mutual

theorem filterMap_rows (view : Form → Option Text → Option α → Option γ) (d : Nat) :
    (o : Outline α) → (o.rows d).filterMap (fun r => view r.form r.text? r.info?) =
      o.nodes.filterMap fun n => view n.form n.text? n.info?
  | node form text? info? children => by
    rw [rows, nodes, List.filterMap_cons, List.filterMap_cons,
      filterMap_listRows view (d + 1) children]
    rfl

theorem filterMap_listRows (view : Form → Option Text → Option α → Option γ) (d : Nat) :
    (os : List (Outline α)) → (listRows d os).filterMap (fun r => view r.form r.text? r.info?) =
      (listNodes os).filterMap fun n => view n.form n.text? n.info?
  | [] => rfl
  | o :: os => by
    rw [listRows, listNodes, List.filterMap_append, List.filterMap_append,
      filterMap_rows view d o, filterMap_listRows view d os]

end

mutual

theorem visits_nil : (o : Outline α) → o.visits [] = o.nodes.map fun n => (n.form, n.info?)
  | node form text? info? children => by
    have hgoes : ¬form.sort?.any [].contains = true := by cases form.sort? <;> nofun
    rw [visits, nodes, if_neg hgoes, listVisits_nil children, List.map_cons]
    rfl

theorem listVisits_nil :
    (os : List (Outline α)) → listVisits [] os = (listNodes os).map fun n => (n.form, n.info?)
  | [] => rfl
  | o :: os => by
    rw [listVisits, listNodes, List.map_append, visits_nil o, listVisits_nil os]

end

theorem nodes_eq_listNodes (o : Outline α) : o.nodes = listNodes [o] := (List.append_nil _).symm

theorem identifierNames_eq (o : Outline α) :
    o.identifierNames = (identifiers [o]).filterMap text? := by
  have hrows := filterMap_rows
    (fun form text? _ => if form = .identifier then text? else none) 0 o
  rw [identifierNames, hrows, identifiers, ← nodes_eq_listNodes, List.filterMap_filter]
  simp only [decide_eq_true_eq]

theorem filter_visits (o : Outline α) :
    (o.visits []).filter (fun v => v.1 = .identifier) =
      (identifiers [o]).map fun n => (.identifier, n.info?) := by
  rw [visits_nil, List.filter_map, identifiers, ← nodes_eq_listNodes]
  refine List.map_congr_left fun n hn => ?_
  exact congrArg (·, n.info?) (of_decide_eq_true (List.mem_filter.mp hn).2)

end Outline

def Word.name? (w : Word) : Option Text := if w.kind = .identifier then some w.text else none

def Slot.name? : Slot → Option Text
  | .word w => w.name?
  | _ => none

def Slot.names (slots : List Slot) : List Text := slots.filterMap Slot.name?

theorem Spells.names {slots : List Slot} {words rest : List Word} (h : Spells slots words rest) :
    words.filterMap Word.name? = Slot.names slots ++ rest.filterMap Word.name? := by
  induction h with
  | nil => rfl
  | @word w slots words rest _ ih =>
    have hslot : (Slot.word w).name? = w.name? := rfl
    rw [List.filterMap_cons, ih, Slot.names, Slot.names, List.filterMap_cons, hslot]
    cases w.name? <;> rfl
  | string _ ih => exact ih
  | comma _ ih => exact ih
  | noComma _ ih => exact ih

namespace Slot

variable {slots more : List Slot} {k : Kind}

@[simp] theorem names_nil : names [] = [] := rfl

@[simp] theorem names_append (slots more : List Slot) :
    names (slots ++ more) = names slots ++ names more := List.filterMap_append

theorem names_mark_cons (hk : k ≠ .identifier) (slots : List Slot) :
    names (mark k :: slots) = names slots :=
  List.filterMap_cons_none (if_neg hk)

theorem names_ended (hk : k ≠ .identifier) (slots : List Slot) :
    names (slots ++ [mark k]) = names slots := by
  rw [names_append, names_mark_cons hk, names_nil, List.append_nil]

theorem names_separated (hk : k ≠ .identifier) (parts : List (List Slot)) :
    names (separated k parts) = parts.flatMap names := by
  cases parts with
  | nil => rfl
  | cons part parts =>
    have hrest : names (parts.flatMap (mark k :: ·)) = parts.flatMap names := by
      rw [names, List.filterMap_flatMap]
      exact congrArg (List.flatMap · parts) (funext fun p => names_mark_cons hk p)
    rw [separated_cons, names_append, hrest, List.flatMap_cons]

theorem names_listed (parts : List (List Slot)) : names (listed parts) = parts.flatMap names := by
  cases parts with
  | nil => rfl
  | cons part parts =>
    have hcomma : names [comma?] = [] := rfl
    rw [listed, names_append, names_separated (by decide), hcomma, List.append_nil]

end Slot

theorem Identifier.names_spelling (n : Identifier α) :
    Slot.names n.spelling = Outline.names [n.outline] := by
  cases n <;> rfl

mutual

theorem TypeExpression.names_spelling :
    (t : TypeExpression α) → Slot.names t.spelling = Outline.names [t.outline]
  | .named name _ => by
    rw [spelling, outline, Outline.names_node (by decide), name.names_spelling]
  | .array element _ => by
    rw [spelling, outline, Outline.names_node (by decide), Slot.names_append,
      element.names_spelling]
    exact List.append_nil _
  | .union members _ => by
    rw [spelling, outline, Outline.names_node (by decide), Slot.names_separated (by decide),
      names_spellings members]
  | .record fields _ => by
    rw [spelling, outline, Outline.names_node (by decide), Slot.names_ended (by decide),
      Slot.names_mark_cons (by decide), Slot.names_listed, names_fieldSpellings fields]
  | .paren inner _ => by
    rw [spelling, outline, Outline.names_node (by decide), Slot.names_ended (by decide),
      Slot.names_mark_cons (by decide), inner.names_spelling]
  | .missing => rfl

theorem TypeExpression.names_spellings :
    (ts : List (TypeExpression α)) →
      (spellings ts).flatMap Slot.names = Outline.names (outlines ts)
  | [] => rfl
  | t :: ts => by
    rw [spellings, outlines, List.flatMap_cons, Outline.names_cons, t.names_spelling,
      names_spellings ts]

theorem TypeExpression.names_fieldSpellings : (fields : List (Field α (TypeExpression α))) →
    (fieldSpellings fields).flatMap Slot.names = Outline.names (fieldOutlines fields)
  | [] => rfl
  | ⟨key, value, _⟩ :: fields => by
    rw [fieldSpellings, fieldOutlines, List.flatMap_cons, Outline.names_cons,
      Outline.names_node (by decide), Outline.names_cons, Slot.names_append,
      Slot.names_mark_cons (by decide), key.names_spelling, value.names_spelling,
      names_fieldSpellings fields]

end

theorem Slot.names_behind {k : Kind} (hk : k ≠ .identifier)
    (type? : Option (TypeExpression α)) :
    names (behind k (type?.map TypeExpression.spelling)) =
      Outline.names (type?.map TypeExpression.outline).toList := by
  cases type? with
  | none => rfl
  | some type => exact (names_mark_cons hk type.spelling).trans type.names_spelling

theorem TypeExpression.names_annotationSpelling (type? : Option (TypeExpression α)) :
    Slot.names (annotationSpelling type?) = Outline.names (type?.map outline).toList :=
  Slot.names_behind (by decide) type?

theorem Literal.names_spelling (l : Literal) : Slot.names l.spelling = [] := by
  cases l with
  | boolean value => cases value <;> rfl
  | _ => rfl

theorem BinaryOperator.kind_ne_identifier (o : BinaryOperator) : o.kind ≠ .identifier := by
  cases o <;> decide

theorem UnaryOperator.kind_ne_identifier (o : UnaryOperator) : o.kind ≠ .identifier := by
  cases o <;> decide

theorem Literal.form_ne_identifier (l : Literal) : l.form ≠ .identifier := by
  cases l <;> nofun

mutual

theorem Expression.names_spelling :
    (e : Expression α) → Slot.names e.spelling = Outline.names [e.outline]
  | .literal value _ => by
    rw [spelling, outline, Outline.names_node value.form_ne_identifier, value.names_spelling]
    rfl
  | .name identifier _ => by
    rw [spelling, outline, Outline.names_node (by decide), identifier.names_spelling]
  | .binary operator left right _ => by
    rw [spelling, outline, Outline.names_node (by decide), Slot.names_append,
      Slot.names_mark_cons operator.kind_ne_identifier, Outline.names_cons, left.names_spelling,
      right.names_spelling]
  | .unary operator operand _ => by
    rw [spelling, outline, Outline.names_node (by decide),
      Slot.names_mark_cons operator.kind_ne_identifier, operand.names_spelling]
  | .member base field _ => by
    rw [spelling, outline, Outline.names_node (by decide), Slot.names_append,
      Slot.names_mark_cons (by decide), Outline.names_cons, base.names_spelling,
      field.names_spelling]
  | .invoke callee arguments _ => by
    rw [spelling, outline, Outline.names_node (by decide), Slot.names_ended (by decide),
      Slot.names_append, Slot.names_mark_cons (by decide), Slot.names_separated (by decide),
      Outline.names_cons, callee.names_spelling, names_spellings arguments]
  | .index base place _ => by
    rw [spelling, outline, Outline.names_node (by decide), Slot.names_ended (by decide),
      Slot.names_append, Slot.names_mark_cons (by decide), Outline.names_cons, base.names_spelling,
      place.names_spelling]
  | .paren inner _ => by
    rw [spelling, outline, Outline.names_node (by decide), Slot.names_ended (by decide),
      Slot.names_mark_cons (by decide), inner.names_spelling]
  | .array items _ => by
    rw [spelling, outline, Outline.names_node (by decide), Slot.names_ended (by decide),
      Slot.names_mark_cons (by decide), Slot.names_listed, names_spellings items]
  | .object fields _ => by
    rw [spelling, outline, Outline.names_node (by decide), Slot.names_ended (by decide),
      Slot.names_mark_cons (by decide), Slot.names_listed, names_fieldSpellings fields]
  | .missing => rfl

theorem Expression.names_spellings :
    (es : List (Expression α)) → (spellings es).flatMap Slot.names = Outline.names (outlines es)
  | [] => rfl
  | e :: es => by
    rw [spellings, outlines, List.flatMap_cons, Outline.names_cons, e.names_spelling,
      names_spellings es]

theorem Expression.names_fieldSpellings : (fields : List (Field α (Expression α))) →
    (fieldSpellings fields).flatMap Slot.names = Outline.names (fieldOutlines fields)
  | [] => rfl
  | ⟨key, value, _⟩ :: fields => by
    rw [fieldSpellings, fieldOutlines, List.flatMap_cons, Outline.names_cons,
      Outline.names_node (by decide), Outline.names_cons, Slot.names_append,
      Slot.names_mark_cons (by decide), key.names_spelling, value.names_spelling,
      names_fieldSpellings fields]

end

mutual

theorem Statement.names_spelling :
    (s : Statement α) → Slot.names s.spelling = Outline.names [s.outline]
  | .declare name type? value _ => by
    rw [Statement.spelling, Statement.outline, Outline.names_node (by decide),
      Slot.names_ended (by decide), Slot.names_append, Slot.names_append,
      Slot.names_mark_cons (by decide), Slot.names_mark_cons (by decide), Outline.names_append,
      Outline.names_cons, name.names_spelling, TypeExpression.names_annotationSpelling,
      value.names_spelling]
  | .assign target value _ => by
    rw [Statement.spelling, Statement.outline, Outline.names_node (by decide),
      Slot.names_ended (by decide), Slot.names_append, Slot.names_mark_cons (by decide),
      Outline.names_cons, target.names_spelling, value.names_spelling]
  | .evaluate value _ => by
    rw [Statement.spelling, Statement.outline, Outline.names_node (by decide),
      Slot.names_ended (by decide), value.names_spelling]
  | .branch condition body alternative _ => by
    rw [Statement.spelling, Statement.outline, Outline.names_node (by decide), Slot.names_append,
      Slot.names_append, Slot.names_mark_cons (by decide), Outline.names_cons,
      Outline.names_cons body.outline, condition.names_spelling, body.names_spelling,
      alternative.names_spelling, List.append_assoc]
  | .loop condition body _ => by
    rw [Statement.spelling, Statement.outline, Outline.names_node (by decide), Slot.names_append,
      Slot.names_mark_cons (by decide), Outline.names_cons, condition.names_spelling,
      body.names_spelling]
  | .return value? _ => by
    rw [Statement.spelling, Statement.outline, Outline.names_node (by decide),
      Slot.names_ended (by decide), Slot.names_mark_cons (by decide)]
    cases value? with
    | none => rfl
    | some value => exact value.names_spelling
  | .break _ | .continue _ => rfl
  | .nested body _ => by
    rw [Statement.spelling, Statement.outline, Outline.names_node (by decide), body.names_spelling]

theorem Statement.names_spellings :
    (ss : List (Statement α)) →
      Slot.names (Statement.spellings ss) = Outline.names (Statement.outlines ss)
  | [] => rfl
  | s :: ss => by
    rw [Statement.spellings, Statement.outlines, Slot.names_append, Outline.names_cons,
      s.names_spelling, Statement.names_spellings ss]

theorem Block.names_spelling :
    (b : Block α) → Slot.names b.spelling = Outline.names [b.outline]
  | .braces statements _ => by
    rw [Block.spelling, Block.outline, Outline.names_node (by decide), Slot.names_ended (by decide),
      Slot.names_mark_cons (by decide), Statement.names_spellings statements]
  | .missing => rfl

theorem Alternative.names_spelling :
    (a : Alternative α) → Slot.names a.spelling = Outline.names a.outlines
  | .absent => rfl
  | .elseIf statement => by
    rw [Alternative.spelling, Alternative.outlines, Slot.names_mark_cons (by decide),
      statement.names_spelling]
  | .elseBlock body => by
    rw [Alternative.spelling, Alternative.outlines, Slot.names_mark_cons (by decide),
      body.names_spelling]

end

theorem Parameter.names_spelling (p : Parameter α) :
    Slot.names p.spelling = Outline.names [p.outline] := by
  rw [spelling, outline, Outline.names_node (by decide), Slot.names_append, Outline.names_cons,
    p.name.names_spelling, TypeExpression.names_annotationSpelling]

theorem Parameter.names_listSpelling (parameters : List (Parameter α)) :
    Slot.names (listSpelling parameters) = Outline.names (parameters.map outline) := by
  rw [listSpelling, Slot.names_ended (by decide), Slot.names_mark_cons (by decide),
    Slot.names_listed, List.flatMap_map, Outline.names_map]
  exact congrArg (List.flatMap · parameters) (funext fun p => p.names_spelling)

theorem Definition.names_spelling (d : Definition α) :
    Slot.names d.spelling = Outline.names [d.outline] := by
  cases d with
  | handler name parameters body info =>
    rw [spelling, outline, Outline.names_node (by decide), Slot.names_append, Slot.names_append,
      Slot.names_mark_cons (by decide), Outline.names_append, Outline.names_cons,
      name.names_spelling, Parameter.names_listSpelling, body.names_spelling]
  | function name parameters result? body info =>
    rw [spelling, outline, Outline.names_node (by decide), Slot.names_append, Slot.names_append,
      Slot.names_append, Slot.names_mark_cons (by decide), Outline.names_append,
      Outline.names_append, Outline.names_cons, name.names_spelling, Parameter.names_listSpelling,
      Slot.names_behind (by decide), body.names_spelling]
  | global name type? value info =>
    rw [spelling, outline, Outline.names_node (by decide), Slot.names_ended (by decide),
      Slot.names_append, Slot.names_append, Slot.names_mark_cons (by decide),
      Slot.names_mark_cons (by decide), Outline.names_append, Outline.names_cons,
      name.names_spelling, TypeExpression.names_annotationSpelling, value.names_spelling]
  | typeAlias name type info =>
    rw [spelling, outline, Outline.names_node (by decide), Slot.names_ended (by decide),
      Slot.names_append, Slot.names_mark_cons (by decide),
      Slot.names_mark_cons (by decide), Outline.names_cons, name.names_spelling,
      type.names_spelling]

theorem Program.names_spelling (p : Program α) :
    Slot.names p.spelling = Outline.names [p.outline] := by
  rw [spelling, outline, Outline.names_node (by decide), Slot.names, List.filterMap_flatMap,
    Outline.names_map]
  exact congrArg (List.flatMap · p.definitions) (funext fun d => d.names_spelling)

end Reparse
