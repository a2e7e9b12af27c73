import Reparse.Proofs.Grammar.Grammatical
import Reparse.Proofs.Parser.ReadSeries

/-!
# Soundness of the grammar of types
-/

namespace Reparse

open Reparse.Parser

variable {α β : Type} {tokens : Array Token} {flags : Flags} {given : Prop} {before : List Word}

def Field.slots (slots : β → List Slot) (f : Field α β) : List Slot :=
  f.name.spelling ++ .mark .colon :: slots f.value

def Field.Fits (ok : β → Prop) (f : Field α β) : Prop := f.name.isNamed = true ∧ ok f.value

namespace TypeExpression

theorem spellings_eq (ts : List (TypeExpression α)) : spellings ts = ts.map spelling := by
  induction ts with
  | nil => rfl
  | cons t ts ih => rw [spellings, ih, List.map_cons]

theorem fieldSpellings_eq (fields : List (Field α (TypeExpression α))) :
    fieldSpellings fields = fields.map (Field.slots spelling) := by
  induction fields with
  | nil => rfl
  | cons field fields ih =>
    rw [fieldSpellings, ih, List.map_cons]
    rfl

theorem areMembers_of {ts : List (TypeExpression α)}
    (h : ∀ t ∈ ts, t.isGrammatical = true ∧ t.isUnion = false) : areMembers ts = true := by
  induction ts with
  | nil => rfl
  | cons t ts ih =>
    obtain ⟨ht, hts⟩ := List.forall_mem_cons.mp h
    simp [areMembers, ht.1, ht.2, ih hts]

theorem areFields_of {fields : List (Field α (TypeExpression α))}
    (h : ∀ f ∈ fields, f.Fits fun t => t.isGrammatical = true) : areFields fields = true := by
  induction fields with
  | nil => rfl
  | cons field fields ih =>
    obtain ⟨hfield, hfields⟩ := List.forall_mem_cons.mp h
    simp [areFields, hfield.1, hfield.2, ih hfields]

end TypeExpression

namespace Grammar

def IsName (n : Identifier α) : Prop := n.isNamed = true

theorem reads_identifier : Reads tokens flags given before identifier
    (Yields (Written IsName Identifier.spelling before) before) := by
  refine (reads_accept .identifier).bind fun t? _ => ?_
  cases t? with
  | none => exact .pure fun h => h.2.1
  | some t =>
    refine reads_claimComments.bind fun comments _ => .pure ?_
    rintro ⟨⟨-, hkind, -, rfl⟩, rfl⟩
    refine ⟨rfl, ?_⟩
    rw [Token.word, hkind]
    exact .one _ _

theorem reads_requiredIdentifier : Reads tokens flags given before requiredIdentifier
    (Written IsName Identifier.spelling before) :=
  reads_required reads_identifier rfl

theorem reads_behind {mark : Kind} {value : Parser β} {standIn : β}
    {W : List Word → β → List Word → Prop} (hmark : mark.spelling?.isSome = true)
    (hvalue : ∀ here, Reads tokens flags True here value (W here)) :
    Reads tokens flags given before (behind mark value standIn)
      fun b after => ∃ mid, before = .mark mark :: mid ∧ W mid b after := by
  refine (reads_require hmark).bind fun t? mid => ?_
  cases t? with
  | none => exact .pure fun h => (Bool.false_ne_true h.2.1).elim
  | some t => exact (hvalue mid).weaken (fun _ => trivial) fun h b after hb => ⟨mid, h.2.2, hb⟩

theorem reads_field {value : Parser β} {standIn : β} {ok : β → Prop} {slots : β → List Slot}
    (hvalue : ∀ here, Reads tokens flags True here value (Written ok slots here)) :
    Reads tokens flags given before (field value standIn)
      (Yields (Written (Field.Fits ok) (Field.slots slots) before) before) := by
  refine reads_identifier.bind fun name? _ => ?_
  cases name? with
  | none => exact .pure fun h => h.2
  | some name =>
    refine (reads_behind rfl hvalue).bind fun value _ => ?_
    refine (reads_infoAfter _).bind fun info _ => .pure ?_
    rintro ⟨⟨⟨-, hname, hspells⟩, mid, rfl, hok, hvalue⟩, rfl⟩
    exact ⟨⟨hname, hok⟩, hspells.append (.mark hvalue)⟩

def IsType (t : TypeExpression α) : Prop := t.isGrammatical = true

def IsMember (t : TypeExpression α) : Prop := t.isGrammatical = true ∧ t.isUnion = false

def ReadsTypes (tokens : Array Token) (flags : Flags)
    (type : Parser (Option (TypeExpression Info))) : Prop :=
  ∀ here, Reads tokens flags True here type
    (Yields (Written IsType TypeExpression.spelling here) here)

variable {type : Parser (Option (TypeExpression Info))}

theorem reads_singleType (htype : ReadsTypes tokens flags type) :
    Reads tokens flags given before (singleType type)
      (Yields (Written IsMember TypeExpression.spelling before) before) := by
  refine reads_nextToken.bind fun t? _ => ?_
  cases t? with
  | none => exact .pure fun h => h.2.1
  | some t =>
    dsimp only
    split
    next hkind =>
      refine reads_consume.bind fun _ _ => reads_claimComments.bind fun comments _ => .pure ?_
      rintro ⟨⟨⟨-, rfl, hcomes⟩, htaken⟩, rfl⟩
      refine ⟨⟨rfl, rfl⟩, ?_⟩
      rw [htaken.next hcomes, Token.word, hkind]
      exact .one _ _
    next hkind =>
      refine reads_consume.bind fun _ _ => reads_claimComments.bind fun comments _ => ?_
      refine (reads_commas rfl rfl fun here =>
        reads_field fun here => reads_required (htype here) rfl).bind fun fields _ => ?_
      refine (reads_require rfl).bind fun _ _ => ?_
      refine (reads_infoFrom t comments).bind fun info _ => .pure ?_
      rintro ⟨⟨⟨⟨⟨⟨-, rfl, hcomes⟩, htaken⟩, rfl⟩, hok, hfields, -⟩, -, rfl⟩, rfl⟩
      rw [htaken.mark (hcomes.lead.trans (congrArg some hkind)) rfl]
      refine ⟨⟨TypeExpression.areFields_of hok, rfl⟩, ?_⟩
      rw [TypeExpression.spelling, TypeExpression.fieldSpellings_eq]
      exact hfields.mark.snoc
    next hkind =>
      refine reads_consume.bind fun _ _ => reads_claimComments.bind fun comments _ => ?_
      refine ((reads_required (htype _) rfl).under fun _ => trivial).bind fun inner _ => ?_
      refine (reads_require rfl).bind fun _ _ => ?_
      refine (reads_infoFrom t comments).bind fun info _ => .pure ?_
      rintro ⟨⟨⟨⟨⟨⟨-, rfl, hcomes⟩, htaken⟩, rfl⟩, hok, hinner⟩, -, rfl⟩, rfl⟩
      rw [htaken.mark (hcomes.lead.trans (congrArg some hkind)) rfl]
      exact ⟨⟨hok, rfl⟩, hinner.mark.snoc⟩
    next => exact .pure fun h => h.2.1

theorem reads_arrayOrSingle (htype : ReadsTypes tokens flags type) :
    Reads tokens flags given before (arrayOrSingle type)
      (Yields (Written IsMember TypeExpression.spelling before) before) := by
  refine (reads_singleType htype).bind fun atom? _ => ?_
  cases atom? with
  | none => exact .pure fun h => h.2
  | some atom =>
    refine Reads.map (Q := Written IsMember TypeExpression.spelling before) ?_ fun _ _ _ h => h
    refine reads_loop_keeps (fun h => h.2) fun element here => ?_
    refine (reads_acceptMark rfl).bind fun t? _ => ?_
    cases t? with
    | none =>
      refine .pure ?_
      rintro ⟨⟨-, helement⟩, rfl, -⟩
      exact helement
    | some t =>
      refine (reads_require rfl).bind fun _ _ => (reads_infoAfter _).bind fun info _ => .pure ?_
      rintro ⟨⟨⟨⟨-, ⟨hok, hunion⟩, helement⟩, rfl⟩, -, rfl⟩, rfl⟩
      refine ⟨⟨?_, rfl⟩, helement.append (.mark (.mark .nil))⟩
      simp [TypeExpression.isGrammatical, hok, hunion]

theorem reads_typeAlternatives (htype : ReadsTypes tokens flags type) :
    Reads tokens flags given before (typeAlternatives type) fun members after =>
      (∀ t ∈ members, IsMember t) ∧
        Spells (members.flatMap fun t => .mark .pipe :: t.spelling) before after ∧
        (members = [] → lead before ≠ some .pipe) := by
  refine Reads.bind (Q := fun members after => (∀ t ∈ members.toList, IsMember t) ∧
    Spells (members.toList.flatMap fun t => .mark .pipe :: t.spelling) before after ∧
    (members.toList = [] → lead before ≠ some .pipe)) ?_ fun members _ => .pure fun h => h.2
  refine reads_loop
    (I := fun n members here => (∀ t ∈ members.toList, IsMember t) ∧
      Spells (members.toList.flatMap fun t => .mark .pipe :: t.spelling) before here ∧
      (members.toList = [] → here = before ∧ 0 < n)) ?_ (fun n members here => ?_) ?_
  · intro _ n hn
    exact ⟨fun _ ht => absurd ht List.not_mem_nil, .nil, fun _ => ⟨rfl, Nat.zero_lt_of_lt hn⟩⟩
  · refine (reads_acceptMark rfl).bind fun t? _ => ?_
    cases t? with
    | none =>
      refine .pure ?_
      rintro ⟨⟨-, hmembers, hspells, hfirst⟩, rfl, hlead⟩
      refine ⟨hmembers, hspells, fun hnil => ?_⟩
      rwa [← (hfirst hnil).1]
    | some t =>
      refine (reads_required (reads_arrayOrSingle htype) rfl).bind fun member _ => .pure ?_
      rintro ⟨⟨⟨-, hmembers, hspells, -⟩, rfl⟩, hmember, hwritten⟩
      simp only [Turned, Array.toList_push]
      refine ⟨fun x hx => ?_, ?_, fun hnil => ?_⟩
      · rcases List.mem_append.mp hx with hx | hx
        · exact hmembers x hx
        · exact List.mem_singleton.mp hx ▸ hmember
      · rw [List.flatMap_append, List.flatMap_singleton]
        exact hspells.append hwritten.mark
      · exact (List.append_ne_nil_of_right_ne_nil _ (List.cons_ne_nil _ _) hnil).elim
  · rintro _ members here ⟨hmembers, hspells, hfirst⟩
    exact ⟨hmembers, hspells, fun hnil => absurd (hfirst hnil).2 (Nat.lt_irrefl 0)⟩

theorem reads_typeUnion (htype : ReadsTypes tokens flags type) :
    Reads tokens flags given before (typeUnion type)
      (Yields (Written IsType TypeExpression.spelling before) before) := by
  refine (reads_arrayOrSingle htype).bind fun head? _ => ?_
  cases head? with
  | none => exact .pure fun h => h.2
  | some head =>
    refine (reads_isNext _).bind fun b _ => ?_
    cases b with
    | false =>
      refine .pure ?_
      rintro ⟨⟨-, ⟨hok, -⟩, hhead⟩, rfl, -⟩
      exact ⟨hok, hhead⟩
    | true =>
      refine (reads_typeAlternatives htype).bind fun rest _ => ?_
      refine (reads_infoAfter _).bind fun info _ => .pure ?_
      rintro ⟨⟨⟨⟨-, hhead, hwritten⟩, rfl, hnext⟩, hrest, hspells, hsome⟩, rfl⟩
      constructor
      · cases rest with
        | nil => exact (hsome rfl (of_decide_eq_true hnext.symm)).elim
        | cons t ts =>
          have hmembers := TypeExpression.areMembers_of (List.forall_mem_cons.mpr ⟨hhead, hrest⟩)
          simp [IsType, TypeExpression.isGrammatical, hmembers]
      · rw [TypeExpression.spelling, TypeExpression.spellings_eq, List.map_cons,
          Slot.separated_cons, List.flatMap_map]
        exact hwritten.append hspells

theorem reads_typeWithin (depth : Nat) (before : List Word) :
    Reads tokens flags given before (typeWithin depth)
      (Yields (Written IsType TypeExpression.spelling before) before) := by
  induction depth generalizing given before with
  | zero => exact .pure fun _ => rfl
  | succ depth ih => exact (reads_typeUnion fun here => ih here).remembered

theorem reads_maxDepth : Reads tokens flags given before maxDepth
    fun depth after => depth = tokens.size + 1 ∧ after = before :=
  .of_still (fun _ _ => rfl) (fun _ => rfl) (fun _ => rfl) (fun _ h => h) fun _ _ _ _ => ⟨rfl, rfl⟩

theorem reads_typeExpression : Reads tokens flags given before typeExpression
    (Yields (Written IsType TypeExpression.spelling before) before) := by
  refine reads_maxDepth.bind fun depth _ => (reads_typeWithin depth _).weaken (fun h => h) ?_
  rintro ⟨-, -, rfl⟩ _ _ h
  exact h

theorem reads_requiredType : Reads tokens flags given before requiredType
    (Written IsType TypeExpression.spelling before) :=
  reads_required reads_typeExpression rfl

theorem reads_markedType {k : Kind} (hk : k.spelling?.isSome = true) :
    Reads tokens flags given before
      (do
        match ← accept k with
        | some _ => return some (← requiredType)
        | none => return none)
      (Written (fun t? => t?.all TypeExpression.isGrammatical = true)
        (fun t? => Slot.behind k (t?.map TypeExpression.spelling)) before) := by
  refine (reads_acceptMark hk).bind fun t? _ => ?_
  cases t? with
  | none =>
    refine .pure ?_
    rintro ⟨-, rfl, -⟩
    exact ⟨rfl, .nil⟩
  | some t =>
    refine reads_requiredType.bind fun type _ => .pure ?_
    rintro ⟨⟨-, rfl⟩, hok, htype⟩
    exact ⟨hok, htype.mark⟩

theorem reads_annotation? : Reads tokens flags given before annotation?
    (Written (fun t? => t?.all TypeExpression.isGrammatical = true)
      TypeExpression.annotationSpelling before) :=
  reads_markedType rfl

end Grammar

end Reparse
