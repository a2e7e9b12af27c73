import Reparse.Proofs.Grammar.Build.Definitions
import Reparse.Proofs.Parser.Remarks

/-!
# Quiet rules

In names and types there is nothing to remark on, and of a field only the value is.
-/

namespace Reparse

open Reparse.Parser

variable {β : Type} {tokens : Array Token} {flags : Flags} {a b : Trail} {n : Nat}

namespace Grammar

theorem quiet_identifier : Quiet tokens identifier := (quiet_accept .identifier).bind fun t? => by
  cases t? with
  | none => exact .pure _
  | some t => exact quiet_claimComments.bind fun _ => .pure _

theorem quiet_requiredIdentifier : Quiet tokens requiredIdentifier :=
  quiet_identifier.required (by decide) (by decide)

theorem notes_behind {mark : Kind} {value : Parser β} {standIn : β} {view : β → Remarks}
    (h : Notes tokens flags n view value) (hstandIn : view standIn = {}) :
    Notes tokens flags n view (behind mark value standIn) := fun a ha =>
  (quiet_require mark flags a).bind fun t? b hb => by
    cases t? with
    | some t => exact h.after hb ha
    | none =>
      refine .pure ?_
      rwa [hstandIn]

theorem notes_field {value : Parser β} {standIn : β} {view : β → Remarks}
    (h : Notes tokens flags n view value) (hstandIn : view standIn = {}) :
    Notes tokens flags n (.optional fun f => view f.value) (field value standIn) := fun a ha =>
  (quiet_identifier flags a).bind fun name? b hb => by
    cases name? with
    | none => exact .pure hb
    | some name =>
      have hvalue : Notes tokens flags n view (behind .colon value standIn) :=
        notes_behind h hstandIn
      exact (hvalue.after hb ha).bind fun value c hc =>
        ((quiet_infoAfter _).after hc).bind fun _ _ hd => .pure hd

theorem quiet_behind {mark : Kind} {value : Parser β} (h : Quiet tokens value) (standIn : β) :
    Quiet tokens (behind mark value standIn) := (quiet_require mark).bind fun t? => by
  cases t? with
  | some t => exact h
  | none => exact .pure _

theorem quiet_field {value : Parser β} (h : Quiet tokens value) (standIn : β) :
    Quiet tokens (field value standIn) := quiet_identifier.bind fun name? => by
  cases name? with
  | none => exact .pure _
  | some name =>
    exact (quiet_behind h standIn).bind fun _ => (quiet_infoAfter _).bind fun _ => .pure _

section

variable {type : Parser (Option (TypeExpression Info))}

theorem quiet_singleType (h : Quiet tokens type) : Quiet tokens (singleType type) := by
  have hinner : Quiet tokens (required type .missingType .missing) :=
    h.required (by decide) (by decide)
  refine quiet_nextToken.bind fun t? => ?_
  cases t? with
  | none => exact .pure _
  | some t =>
    dsimp only
    split
    · exact quiet_consume.bind fun _ => quiet_claimComments.bind fun _ => .pure _
    · refine quiet_consume.bind fun _ => quiet_claimComments.bind fun _ => ?_
      refine ((quiet_field hinner _).items rfl (by decide) (by decide)).bind fun _ => ?_
      exact (quiet_require _).bind fun _ => (quiet_infoFrom _ _).bind fun _ => .pure _
    · exact quiet_consume.bind fun _ => quiet_claimComments.bind fun _ => hinner.bind fun _ =>
        (quiet_require _).bind fun _ => (quiet_infoFrom _ _).bind fun _ => .pure _
    · exact .pure _

theorem quiet_arrayTurn (element : TypeExpression Info) : Quiet tokens (arrayTurn element) :=
  (quiet_accept _).bind fun t? => by
    cases t? with
    | none => exact .pure _
    | some t =>
      exact (quiet_require _).bind fun _ => (quiet_infoAfter _).bind fun _ => .pure _

theorem quiet_arrayOrSingle (h : Quiet tokens type) : Quiet tokens (arrayOrSingle type) :=
  (quiet_singleType h).bind fun atom? => by
    cases atom? with
    | none => exact .pure _
    | some atom => exact (Quiet.loop quiet_arrayTurn atom).map some

theorem quiet_typeAlternatives (h : Quiet tokens type) : Quiet tokens (typeAlternatives type) := by
  have hmember : Quiet tokens (required (arrayOrSingle type) .missingType .missing) :=
    (quiet_arrayOrSingle h).required (by decide) (by decide)
  refine Quiet.bind (Quiet.loop (fun members => ?_) #[]) fun _ => .pure _
  refine (quiet_accept _).bind fun t? => ?_
  cases t? with
  | none => exact .pure _
  | some t => exact hmember.bind fun _ => .pure _

theorem quiet_typeUnion (h : Quiet tokens type) : Quiet tokens (typeUnion type) :=
  (quiet_arrayOrSingle h).bind fun head? => by
    cases head? with
    | none => exact .pure _
    | some head =>
      refine (quiet_isNext _).bind fun x => ?_
      split
      · exact (quiet_typeAlternatives h).bind fun _ => (quiet_infoAfter _).bind fun _ => .pure _
      · exact .pure _

end

theorem quiet_typeWithin (depth : Nat) : Quiet tokens (typeWithin depth) := by
  induction depth with
  | zero => exact .pure none
  | succ depth ih => exact (quiet_typeUnion ih).remembered

theorem quiet_maxDepth : Quiet tokens maxDepth := fun _ _ => runs_maxDepth.weaken fun _ b hb => by
  obtain ⟨rfl, -⟩ := hb
  exact .refl b

theorem quiet_typeExpression : Quiet tokens typeExpression :=
  quiet_maxDepth.bind quiet_typeWithin

theorem quiet_requiredType : Quiet tokens requiredType :=
  quiet_typeExpression.required (by decide) (by decide)

theorem quiet_markedType (k : Kind) : Quiet tokens
    (do
      match ← accept k with
      | some _ => return some (← requiredType)
      | none => return none : Parser (Option (TypeExpression Info))) :=
  (quiet_accept k).bind fun t? => by
    cases t? with
    | none => exact .pure _
    | some t => exact quiet_requiredType.bind fun _ => .pure _

end Grammar

end Reparse
