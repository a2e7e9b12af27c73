import Reparse.Proofs.Parser.AgreeLoops

/-!
# Agreement in the grammar of types
-/

namespace Reparse.Grammar

open Reparse.Parser

variable {tokens : Array Token} {next : TokenId} {n : Nat} {β : Type}

theorem agree_identifier : AgreeRule tokens next n identifier identifier := by
  refine (agree_accept .identifier).bind fun t? => ?_
  cases t? with
  | none => exact .pure fun _ hc => hc
  | some t => exact Still.claimComments.agree.bind fun comments => .pure fun _ hc => hc

theorem agree_requiredIdentifier :
    AgreeFrom tokens next n requiredIdentifier requiredIdentifier :=
  agree_required agree_identifier.step

theorem agree_behind (mark : Kind) {value value' : Parser β} {standIn : β}
    (hvalue : AgreeFrom tokens next n value value') :
    AgreeFrom tokens next n (behind mark value standIn) (behind mark value' standIn) := by
  refine (agree_require mark).step.bind fun t? => ?_
  cases t? with
  | none => exact .pure fun _ hc => hc
  | some t => exact hvalue

theorem agree_field {value value' : Parser β} {standIn : β}
    (hvalue : AgreeFrom tokens next n value value') :
    AgreeFrom tokens next n (field value standIn) (field value' standIn) := by
  refine agree_identifier.step.bind fun name? => ?_
  cases name? with
  | none => exact .pure fun _ hc => hc
  | some name =>
    exact (agree_behind .colon hvalue).bind fun value =>
      (Still.infoAfter name.info?).agree.bind fun info => .pure fun _ hc => hc

theorem agree_closing {R : β → Nat → Prop} (mark : Kind) {finish : Parser Info}
    (hfinish : Still finish) {build : Info → β} (hR : ∀ info c, n ≤ c → R (build info) c) :
    Agree tokens next (n ≤ ·) (do let _ ← require mark; return build (← finish))
      (do let _ ← require mark; return build (← finish)) R :=
  (agree_require mark).step.bind fun _ => hfinish.agree.bind fun info => .pure (hR info)

variable {type type' : Parser (Option (TypeExpression Info))}

theorem agree_singleType (htype : AgreeFrom tokens next (n + 1) type type') :
    AgreeFrom tokens next n (singleType type) (singleType type') := by
  refine agree_next (.pure fun _ hc => hc) fun t => ?_
  dsimp only
  split
  · exact agree_taken fun _ => Still.claimComments.agree.bind fun comments =>
      .pure fun _ hc => Nat.le_of_succ_le hc
  · exact agree_taken fun _ => Still.claimComments.agree.bind fun comments =>
      (agree_items _ (agree_field (agree_required htype))).bind fun fields =>
        agree_closing _ (.infoFrom t comments) fun _ _ hc => Nat.le_of_succ_le hc
  · exact agree_taken fun _ => Still.claimComments.agree.bind fun comments =>
      (agree_required htype).bind fun inner =>
        agree_closing _ (.infoFrom t comments) fun _ _ hc => Nat.le_of_succ_le hc
  · exact .pure fun _ hc => hc.1

theorem agree_arrayTurn : AgreeTurns tokens next n arrayTurn arrayTurn := by
  intro m _ element
  refine (agree_accept .leftBracket).bind fun t? => ?_
  cases t? with
  | none => exact .pure fun _ hc => hc
  | some t => exact agree_closing _ (.infoAfter element.info?) fun _ _ hc => hc

theorem agree_arrayOrSingle (htype : AgreeFrom tokens next (n + 1) type type') :
    AgreeFrom tokens next n (arrayOrSingle type) (arrayOrSingle type') := by
  refine (agree_singleType htype).bind fun atom? => ?_
  cases atom? with
  | none => exact .pure fun _ hc => hc
  | some atom => exact (agree_loop agree_arrayTurn atom).map fun _ _ hc => hc

theorem agree_memberTurn (htype : AgreeFrom tokens next (n + 1) type type') :
    AgreeTurns tokens next n (memberTurn type) (memberTurn type') := by
  intro m hm _
  refine (agree_accept .pipe).bind fun t? => ?_
  cases t? with
  | none => exact .pure fun _ hc => hc
  | some t =>
    have hsingle : AgreeFrom tokens next (m + 1) (arrayOrSingle type) (arrayOrSingle type') :=
      agree_arrayOrSingle (htype.mono (by omega))
    exact (agree_required hsingle).bind fun member => .pure fun _ hc => hc

theorem agree_typeAlternatives (htype : AgreeFrom tokens next (n + 1) type type') :
    AgreeFrom tokens next n (typeAlternatives type) (typeAlternatives type') :=
  (agree_loop (agree_memberTurn htype) #[]).bind fun _ => .pure fun _ hc => hc

theorem agree_typeUnion (htype : AgreeFrom tokens next (n + 1) type type') :
    AgreeFrom tokens next n (typeUnion type) (typeUnion type') := by
  refine (agree_arrayOrSingle htype).bind fun head? => ?_
  cases head? with
  | none => exact .pure fun _ hc => hc
  | some head =>
    refine (Still.isNext .pipe).agree.bind fun b => ?_
    cases b with
    | false => exact .pure fun _ hc => hc
    | true =>
      exact (agree_typeAlternatives htype).bind fun rest =>
        (Still.infoAfter head.info?).agree.bind fun info => .pure fun _ hc => hc

theorem agree_typeWithin {d d' : Nat} (hd : tokens.size < n + d) (hd' : tokens.size < n + d') :
    AgreeFrom tokens next n (typeWithin d) (typeWithin d') :=
  agree_within (fun _ => rfl) (fun h => Rule.noConfusion h) (fun _ _ _ => agree_typeUnion) hd hd'

theorem agree_maxDepth {p : Nat → Parser β} {p' : Parser β}
    (h : AgreeFrom tokens next n (p (tokens.size + 1)) p') :
    AgreeFrom tokens next n (maxDepth >>= p) p' := by
  intro flags s hs hn
  rw [eval_maxDepth]
  exact h flags s hs hn

theorem agree_typeExpression_within {d : Nat} (hd : tokens.size < n + d) :
    AgreeFrom tokens next n typeExpression (typeWithin d) :=
  agree_maxDepth (agree_typeWithin (by omega) hd)

theorem agree_typeExpression : AgreeFrom tokens next n typeExpression typeExpression :=
  (agree_typeExpression_within (d := tokens.size + 1) (by omega)).left

theorem agree_requiredType : AgreeFrom tokens next n requiredType requiredType :=
  agree_required agree_typeExpression

theorem agree_annotation? : AgreeFrom tokens next n annotation? annotation? := by
  refine (agree_accept .colon).step.bind fun t? => ?_
  cases t? with
  | none => exact .pure fun _ hc => hc
  | some t => exact agree_requiredType.bind fun type => .pure fun _ hc => hc

end Reparse.Grammar
