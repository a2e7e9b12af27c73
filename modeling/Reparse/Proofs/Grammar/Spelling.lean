import Reparse.Grammar.Definitions

/-!
# Spellings of trees

How a tree is written. A tree fixes its words one by one, up to two freedoms: a string literal may
be written with any escapes that stand for its contents, and a list in a bracket of its own may end
in a comma. The arguments of a call may not.
-/

namespace Reparse

/-- A real token without its number. -/
structure Word where
  kind : Kind
  text : Text
  deriving DecidableEq, Repr

namespace Word

def mark (k : Kind) : Word := ⟨k, k.spelling?.getD []⟩

def Proper (w : Word) : Prop := ∀ text, w.kind.spelling? = some text → w.text = text

theorem Proper.eq_mark {w : Word} (h : w.Proper) {k : Kind} (hk : w.kind = k)
    (hs : k.spelling?.isSome = true) : w = mark k := by
  subst hk
  obtain ⟨text, htext⟩ := Option.isSome_iff_exists.mp hs
  rw [mark, htext, Option.getD_some, ← h text htext]

end Word

def Token.word (t : Token) : Word := ⟨t.kind, t.text⟩

def Token.words (ts : List Token) : List Word :=
  (ts.filter fun t => !t.isTrivia).map word

/-- One place in the writing of a tree. -/
inductive Slot
  | word (w : Word)
  | string (contents : Text)
  | comma?
  deriving DecidableEq, Repr

def Slot.mark (k : Kind) : Slot := .word (.mark k)

/-- A sequence of words begins with a writing of the slots, and `rest` is what follows. -/
inductive Spells : List Slot → (words rest : List Word) → Prop
  | nil {rest} : Spells [] rest rest
  | word {w slots words rest} : Spells slots words rest → Spells (.word w :: slots) (w :: words) rest
  | string {text slots words rest} : Spells slots words rest →
      Spells (.string (Grammar.unescape text) :: slots) (⟨.string, text⟩ :: words) rest
  | comma {slots words rest} : Spells slots words rest →
      Spells (.comma? :: slots) (.mark .comma :: words) rest
  | noComma {slots words rest} : Spells slots words rest → Spells (.comma? :: slots) words rest

namespace Spells

variable {slots more : List Slot} {words mid rest : List Word} {k : Kind}

theorem append (h : Spells slots words mid) (h' : Spells more mid rest) :
    Spells (slots ++ more) words rest := by
  induction h with
  | nil => exact h'
  | word _ ih => exact .word (ih h')
  | string _ ih => exact .string (ih h')
  | comma _ ih => exact .comma (ih h')
  | noComma _ ih => exact .noComma (ih h')

theorem mark (h : Spells slots words rest) : Spells (.mark k :: slots) (.mark k :: words) rest :=
  .word h

theorem one (w : Word) (rest : List Word) : Spells [.word w] (w :: rest) rest := .word .nil

theorem snoc (h : Spells slots words (.mark k :: rest)) : Spells (slots ++ [.mark k]) words rest :=
  h.append (.mark .nil)

theorem exists_append (h : Spells slots words rest) : ∃ ws, words = ws ++ rest := by
  induction h with
  | nil => exact ⟨[], rfl⟩
  | word _ ih =>
    obtain ⟨ws, rfl⟩ := ih
    exact ⟨_ :: ws, rfl⟩
  | string _ ih =>
    obtain ⟨ws, rfl⟩ := ih
    exact ⟨_ :: ws, rfl⟩
  | comma _ ih =>
    obtain ⟨ws, rfl⟩ := ih
    exact ⟨_ :: ws, rfl⟩
  | noComma _ ih => exact ih

theorem word_iff {w : Word} :
    Spells (.word w :: slots) words rest ↔ ∃ ws, words = w :: ws ∧ Spells slots ws rest := by
  constructor
  · intro h
    cases h with
    | word h => exact ⟨_, rfl, h⟩
  · rintro ⟨ws, rfl, h⟩
    exact .word h

theorem mark_iff :
    Spells (.mark k :: slots) words rest ↔ ∃ ws, words = .mark k :: ws ∧ Spells slots ws rest :=
  word_iff

theorem length_le (h : Spells slots words rest) : rest.length ≤ words.length := by
  obtain ⟨ws, rfl⟩ := h.exists_append
  rw [List.length_append]
  exact Nat.le_add_left ..

end Spells

namespace Slot

def separated (k : Kind) : List (List Slot) → List Slot
  | [] => []
  | [part] => part
  | part :: parts => part ++ mark k :: separated k parts

def listed : List (List Slot) → List Slot
  | [] => []
  | part :: parts => separated .comma (part :: parts) ++ [comma?]

def terminated (k : Kind) (parts : List (List Slot)) : List Slot :=
  parts.flatMap fun part => part ++ [mark k]

end Slot

namespace Slot

variable {k : Kind}

theorem separated_append (parts : List (List Slot)) (part : List Slot) :
    separated k (parts ++ [part]) = terminated k parts ++ part := by
  induction parts with
  | nil => rfl
  | cons p parts ih =>
    cases parts with
    | nil => simp [separated, terminated]
    | cons q parts =>
      show p ++ mark k :: separated k ((q :: parts) ++ [part]) = _
      rw [ih]
      simp [terminated]

theorem separated_cons (part : List Slot) (parts : List (List Slot)) :
    separated k (part :: parts) = part ++ parts.flatMap (mark k :: ·) := by
  induction parts generalizing part with
  | nil => simp [separated]
  | cons p parts ih =>
    show part ++ mark k :: separated k (p :: parts) = _
    rw [ih, List.flatMap_cons, List.cons_append]

theorem terminated_append (parts : List (List Slot)) (part : List Slot) :
    terminated k (parts ++ [part]) = separated k (parts ++ [part]) ++ [mark k] := by
  rw [separated_append, terminated, List.flatMap_append, List.flatMap_singleton, ← List.append_assoc]
  rfl

theorem listed_append (parts : List (List Slot)) (part : List Slot) :
    listed (parts ++ [part]) = separated .comma (parts ++ [part]) ++ [comma?] := by
  cases parts <;> rfl

end Slot

namespace Spells

variable {slots more : List Slot} {parts : List (List Slot)} {part : List Slot}
  {words mid rest : List Word}

theorem split (h : Spells (slots ++ more) words rest) :
    ∃ mid, Spells slots words mid ∧ Spells more mid rest := by
  induction slots generalizing words with
  | nil => exact ⟨words, .nil, h⟩
  | cons slot slots ih =>
    cases h with
    | word h =>
      obtain ⟨mid, h₁, h₂⟩ := ih h
      exact ⟨mid, .word h₁, h₂⟩
    | string h =>
      obtain ⟨mid, h₁, h₂⟩ := ih h
      exact ⟨mid, .string h₁, h₂⟩
    | comma h =>
      obtain ⟨mid, h₁, h₂⟩ := ih h
      exact ⟨mid, .comma h₁, h₂⟩
    | noComma h =>
      obtain ⟨mid, h₁, h₂⟩ := ih h
      exact ⟨mid, .noComma h₁, h₂⟩

theorem ended {k : Kind} (h : Spells (slots ++ [.mark k]) words rest) :
    Spells slots words (.mark k :: rest) := by
  obtain ⟨mid, hslots, hclose⟩ := h.split
  obtain ⟨_, rfl, hnil⟩ := mark_iff.mp hclose
  cases hnil
  exact hslots

theorem enclosed {k j : Kind} (h : Spells (.mark k :: slots ++ [.mark j]) words rest) :
    ∃ inner, Spells slots inner (.mark j :: rest) ∧ words = .mark k :: inner := by
  obtain ⟨inner, rfl, hinner⟩ := mark_iff.mp h.ended
  exact ⟨inner, hinner, rfl⟩

theorem enclosedBehind {k j : Kind} {front : List Slot}
    (h : Spells (front ++ (.mark k :: slots ++ [.mark j])) words rest) :
    ∃ inner, Spells front words (.mark k :: inner) ∧ Spells slots inner (.mark j :: rest) ∧
      inner.length < words.length ∧ rest.length < inner.length := by
  obtain ⟨mid, hfront, hrest⟩ := h.split
  obtain ⟨inner, hinner, rfl⟩ := hrest.enclosed
  exact ⟨inner, hfront, hinner, hfront.length_le, hinner.length_le⟩

theorem length_lt (h : Spells slots words rest) {w : Word} (hw : Slot.word w ∈ slots) :
    rest.length < words.length := by
  obtain ⟨before, behind, rfl⟩ := List.append_of_mem hw
  obtain ⟨mid, h₁, h₂⟩ := h.split
  cases h₂ with
  | word h₂ =>
    have hle := h₁.length_le
    have hle' := h₂.length_le
    rw [List.length_cons] at hle
    omega

theorem separated_snoc {k : Kind} (h : Spells (Slot.terminated k parts) words mid)
    (hpart : Spells part mid rest) : Spells (Slot.separated k (parts ++ [part])) words rest := by
  rw [Slot.separated_append]
  exact h.append hpart

theorem terminated_snoc {k : Kind} (h : Spells (Slot.terminated k parts) words mid)
    (hpart : Spells part mid (.mark k :: rest)) :
    Spells (Slot.terminated k (parts ++ [part])) words rest := by
  rw [Slot.terminated_append]
  exact (h.separated_snoc hpart).snoc

theorem listed_snoc (h : Spells (Slot.terminated .comma parts) words mid)
    (hpart : Spells part mid rest) : Spells (Slot.listed (parts ++ [part])) words rest := by
  rw [Slot.listed_append]
  exact (h.separated_snoc hpart).append (.noComma .nil)

theorem listed_of_terminated (h : Spells (Slot.terminated .comma parts) words rest) :
    Spells (Slot.listed parts) words rest := by
  rcases List.eq_nil_or_concat parts with rfl | ⟨parts, part, rfl⟩
  · exact h
  · rw [List.concat_eq_append] at h ⊢
    rw [Slot.terminated_append] at h
    obtain ⟨mid, h₁, h₂⟩ := h.split
    rw [Slot.listed_append]
    cases h₂ with
    | word h₂ => exact h₁.append (.comma h₂)

end Spells

variable {α : Type}

open Slot (mark)

def Identifier.spelling : Identifier α → List Slot
  | .named name _ => [.word ⟨.identifier, name⟩]
  | .missing => []

mutual

def TypeExpression.spelling : TypeExpression α → List Slot
  | .named name _ => name.spelling
  | .array element _ => element.spelling ++ [mark .leftBracket, mark .rightBracket]
  | .union members _ => Slot.separated .pipe (spellings members)
  | .record fields _ =>
    mark .leftBrace :: Slot.listed (fieldSpellings fields) ++ [mark .rightBrace]
  | .paren inner _ => mark .leftParen :: inner.spelling ++ [mark .rightParen]
  | .missing => []

def TypeExpression.spellings : List (TypeExpression α) → List (List Slot)
  | [] => []
  | t :: ts => t.spelling :: spellings ts

def TypeExpression.fieldSpellings : List (Field α (TypeExpression α)) → List (List Slot)
  | [] => []
  | ⟨key, value, _⟩ :: fields =>
    (key.spelling ++ mark .colon :: value.spelling) :: fieldSpellings fields

end

def Literal.spelling : Literal → List Slot
  | .integer text => [.word ⟨.integer, text⟩]
  | .float text => [.word ⟨.float, text⟩]
  | .string contents => [.string contents]
  | .boolean value => [mark (if value then .trueWord else .falseWord)]
  | .null => [mark .nullWord]

mutual

def Expression.spelling : Expression α → List Slot
  | .literal value _ => value.spelling
  | .name identifier _ => identifier.spelling
  | .binary operator left right _ => left.spelling ++ mark operator.kind :: right.spelling
  | .unary operator operand _ => mark operator.kind :: operand.spelling
  | .member base field _ => base.spelling ++ mark .dot :: field.spelling
  | .invoke callee arguments _ =>
    callee.spelling ++ mark .leftParen :: Slot.separated .comma (spellings arguments) ++
      [mark .rightParen]
  | .index base place _ =>
    base.spelling ++ mark .leftBracket :: place.spelling ++ [mark .rightBracket]
  | .paren inner _ => mark .leftParen :: inner.spelling ++ [mark .rightParen]
  | .array items _ => mark .leftBracket :: Slot.listed (spellings items) ++ [mark .rightBracket]
  | .object fields _ =>
    mark .leftBrace :: Slot.listed (fieldSpellings fields) ++ [mark .rightBrace]
  | .missing => []

def Expression.spellings : List (Expression α) → List (List Slot)
  | [] => []
  | e :: es => e.spelling :: spellings es

def Expression.fieldSpellings : List (Field α (Expression α)) → List (List Slot)
  | [] => []
  | ⟨key, value, _⟩ :: fields =>
    (key.spelling ++ mark .colon :: value.spelling) :: fieldSpellings fields

end

def Slot.behind (k : Kind) (part? : Option (List Slot)) : List Slot :=
  part?.elim [] fun part => mark k :: part

def TypeExpression.annotationSpelling (type? : Option (TypeExpression α)) : List Slot :=
  Slot.behind .colon (type?.map spelling)

mutual

def Statement.spelling : Statement α → List Slot
  | .declare name type? value _ =>
    mark .letWord :: name.spelling ++ TypeExpression.annotationSpelling type? ++
      mark .assign :: value.spelling ++ [mark .semicolon]
  | .assign target value _ =>
    target.spelling ++ mark .assign :: value.spelling ++ [mark .semicolon]
  | .evaluate value _ => value.spelling ++ [mark .semicolon]
  | .branch condition body alternative _ =>
    mark .ifWord :: condition.spelling ++ body.spelling ++ alternative.spelling
  | .loop condition body _ => mark .whileWord :: condition.spelling ++ body.spelling
  | .return value? _ =>
    mark .returnWord :: (value?.map Expression.spelling).getD [] ++ [mark .semicolon]
  | .break _ => [mark .breakWord, mark .semicolon]
  | .continue _ => [mark .continueWord, mark .semicolon]
  | .nested body _ => body.spelling

def Statement.spellings : List (Statement α) → List Slot
  | [] => []
  | s :: ss => s.spelling ++ Statement.spellings ss

def Block.spelling : Block α → List Slot
  | .braces statements _ =>
    mark .leftBrace :: Statement.spellings statements ++ [mark .rightBrace]
  | .missing => []

def Alternative.spelling : Alternative α → List Slot
  | .absent => []
  | .elseIf statement => mark .elseWord :: statement.spelling
  | .elseBlock body => mark .elseWord :: body.spelling

end

def Parameter.spelling (p : Parameter α) : List Slot :=
  p.name.spelling ++ TypeExpression.annotationSpelling p.type?

def Parameter.listSpelling (parameters : List (Parameter α)) : List Slot :=
  mark .leftParen :: Slot.listed (parameters.map spelling) ++ [mark .rightParen]

def Definition.spelling : Definition α → List Slot
  | .handler name parameters body _ =>
    mark .onWord :: name.spelling ++ Parameter.listSpelling parameters ++ body.spelling
  | .function name parameters result? body _ =>
    mark .fnWord :: name.spelling ++ Parameter.listSpelling parameters ++
      Slot.behind .arrow (result?.map TypeExpression.spelling) ++ body.spelling
  | .global name type? value _ =>
    mark .letWord :: name.spelling ++ TypeExpression.annotationSpelling type? ++
      mark .assign :: value.spelling ++ [mark .semicolon]
  | .typeAlias name type _ =>
    mark .typeWord :: name.spelling ++ mark .assign :: type.spelling ++ [mark .semicolon]

def Program.spelling (p : Program α) : List Slot := p.definitions.flatMap Definition.spelling

end Reparse
