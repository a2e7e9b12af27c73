import Reparse.Proofs.Parser.TwinRules

/-!
# Twin runs of the grammar of types
-/

namespace Reparse.Grammar

open Reparse.Parser

variable {w : Window} {m : Nat} {β : Type} [Renumber β]

theorem alike_identifier : AlikeRule w m identifier identifier := by
  refine (alike_accept .identifier).bind fun t? => ?_
  cases t? with
  | none => exact .pure rfl fun _ hc => hc
  | some t => exact alike_claimComments.bind fun comments => .pure rfl fun _ hc => hc

theorem alike_requiredIdentifier : AlikeStep w m requiredIdentifier requiredIdentifier :=
  alike_required alike_identifier rfl

theorem alike_behind (mark : Kind) {value₁ value₂ : Parser β} {standIn : β}
    (hvalue : ∀ x ≥ m, AlikeStep w x value₁ value₂) (hs : renumber w.number standIn = standIn) :
    AlikeStep w m (behind mark value₁ standIn) (behind mark value₂ standIn) := by
  refine (alike_require mark).bind fun t? => ?_
  cases t? with
  | none => exact .pure hs.symm fun _ hc => hc
  | some t =>
    exact (hvalue (m + 1) (Nat.le_succ m)).weaken (fun _ hc => hc)
      fun _ _ hc => hc.mono (Nat.le_succ m)

theorem alike_field {value₁ value₂ : Parser β} {standIn : β}
    (hvalue : ∀ x ≥ m, AlikeStep w x value₁ value₂) (hs : renumber w.number standIn = standIn) :
    AlikeRule w m (field value₁ standIn) (field value₂ standIn) := by
  refine alike_identifier.bind fun name? => ?_
  cases name? with
  | none => exact .pure rfl fun _ hc => hc
  | some name =>
    refine (alike_behind .colon (fun x hx => hvalue x (Nat.le_of_succ_le hx)) hs).bind
      fun value => ?_
    rw [Renumber.identifier_info?]
    exact (alike_infoAfter (Nat.le_add_left 1 m) name.info?).bind fun info =>
      .pure rfl fun _ hc => hc

variable {type₁ type₂ : Parser (Option (TypeExpression Info))}

theorem alike_singleType (htype : ∀ x ≥ 1, AlikeRule w x type₁ type₂) :
    AlikeRule w m (singleType type₁) (singleType type₂) := by
  refine alike_next (.pure rfl fun _ hc => hc) fun t => ?_
  simp only [Renumber.token_kind]
  split
  · exact .taken fun _ => alike_claimComments.bind fun comments => .pure rfl fun _ hc => hc
  · refine .taken fun _ => alike_claimComments.bind fun comments => ?_
    refine (alike_items _ fun x hx =>
      alike_field (fun y hy => alike_required (htype y (by omega)) rfl) rfl).bind fun fields => ?_
    refine (alike_require _).step.bind fun _ => ?_
    refine (alike_infoFrom (Nat.le_add_left 1 m) t comments).bind fun info => ?_
    exact .pure (congrArg some (Renumber.type_record _ fields info).symm) fun _ hc => hc
  · refine .taken fun _ => alike_claimComments.bind fun comments => ?_
    refine (alike_required (htype (m + 1) (by omega)) rfl).bind fun inner => ?_
    refine (alike_require _).step.bind fun _ => ?_
    exact (alike_infoFrom (Nat.le_add_left 1 m) t comments).bind fun info =>
      .pure rfl fun _ hc => hc
  · exact .pure rfl fun _ hc => hc.1

theorem alike_arrayOrSingle (htype : ∀ x ≥ 1, AlikeRule w x type₁ type₂) :
    AlikeRule w m (arrayOrSingle type₁) (arrayOrSingle type₂) := by
  refine (alike_singleType htype).bind fun atom? => ?_
  cases atom? with
  | none => exact .pure rfl fun _ hc => hc
  | some atom =>
    refine Alike.map (alike_loop (fun x hx element => ?_) rfl) (fun _ => rfl) fun _ _ hc => hc
    refine (alike_accept _).bind fun t? => ?_
    cases t? with
    | none => exact .pure rfl fun _ hc => hc
    | some t =>
      refine (alike_require _).step.bind fun _ => ?_
      rw [Renumber.type_info?]
      exact (alike_infoAfter (Nat.le_add_left 1 x) element.info?).bind fun info =>
        .pure rfl fun _ hc => hc

theorem alike_typeAlternatives (htype : ∀ x ≥ 1, AlikeRule w x type₁ type₂) :
    AlikeStep w m (typeAlternatives type₁) (typeAlternatives type₂) := by
  refine Alike.bind (alike_loop (fun x _ members => ?_) (Renumber.renumber_empty _).symm)
    fun members => .pure (Renumber.toList_renumber _ members) fun _ hc => hc
  refine (alike_accept .pipe).bind fun t? => ?_
  cases t? with
  | none => exact .pure rfl fun _ hc => hc
  | some t =>
    have hsingle : AlikeRule w (x + 1) (arrayOrSingle type₁) (arrayOrSingle type₂) :=
      alike_arrayOrSingle htype
    refine (alike_required hsingle rfl).bind fun member => .pure ?_ fun _ hc => hc
    exact congrArg Turn.again (Renumber.renumber_push _ members member).symm

theorem alike_typeUnion (htype : ∀ x ≥ 1, AlikeRule w x type₁ type₂) :
    AlikeRule w m (typeUnion type₁) (typeUnion type₂) := by
  refine (alike_arrayOrSingle htype).bind fun head? => ?_
  cases head? with
  | none => exact .pure rfl fun _ hc => hc
  | some head =>
    refine ((alike_isNext _).weaken (fun _ hc => hc) fun _ _ hc => hc.1).bind fun b => ?_
    cases b with
    | false => exact .pure rfl fun _ hc => hc
    | true =>
      refine (alike_typeAlternatives htype).bind fun rest => ?_
      rw [Renumber.type_info?]
      refine (alike_infoAfter (Nat.le_add_left 1 m) head.info?).bind fun info => ?_
      exact .pure (congrArg some (Renumber.type_union _ (head :: rest) info).symm) fun _ hc => hc

theorem nesting_type : Nesting typeWithin typeUnion where
  zero := .pure none
  succ _ := rfl
  bare _ := rfl
  looks _ := Looks.nextToken.bind.bind.bind
  alike _ _ _ h := alike_typeUnion fun _ hx => h.here hx

theorem eval_maxDepth {γ : Type} (p : Nat → Parser γ) (c : ParseContext) (s : ParseState) :
    (maxDepth >>= p).eval c s = (p (c.tokens.size + 1)).eval c s := rfl

theorem onward_maxDepth {γ : Type} {p : Nat → Parser γ} (h : ∀ d, Onward (p d)) :
    Onward (maxDepth >>= p) := fun c s => h _ c s

theorem alike_typeExpression : AlikeRule w m typeExpression typeExpression := by
  have hwithin : AlikeRule w m (typeWithin (w.left.size + 1)) (typeWithin (w.right.size + 1)) :=
    nesting_type.alike_within (by omega) (by omega)
  exact hwithin.congr (onward_maxDepth nesting_type.onward) (fun _ _ => eval_maxDepth ..)
    fun _ _ _ => eval_maxDepth ..

theorem alike_requiredType : AlikeStep w m requiredType requiredType :=
  alike_required alike_typeExpression rfl

theorem alike_annotation? : AlikeStep w m annotation? annotation? := by
  refine (alike_accept .colon).bind fun t? => ?_
  cases t? with
  | none => exact .pure rfl fun _ hc => hc
  | some t =>
    exact (alike_requiredType (m := m + 1)).bind fun type =>
      .pure rfl fun _ hc => hc.mono (Nat.le_succ m)

end Reparse.Grammar
