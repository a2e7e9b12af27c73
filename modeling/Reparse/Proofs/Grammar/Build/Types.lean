import Reparse.Proofs.Parser.BuildSeries

/-!
# What the rules for types build
-/

namespace Reparse

open Reparse.Parser

namespace Grammar

variable {β : Type} {tokens : Array Token} {flags : Flags} {n : Nat}

def isIdentifier (k : Kind) : Bool := k = .identifier

theorem builds_identifier :
    Builds tokens flags n (Leads tokens isIdentifier) Identifier.outline identifier := by
  intro a _
  refine (runs_accept .identifier).bind fun t? b h => ?_
  cases t? with
  | none =>
    obtain ⟨rfl, hne⟩ := h
    exact .pure ⟨rfl, not_leads_of_ne hne fun _ => of_decide_eq_true⟩
  | some t =>
    obtain ⟨ht, hkind, rfl⟩ := h
    refine (Opened.of_next ht).claims.bind fun comments c hc => .pure ⟨hc.identifier, t, ht, ?_⟩
    exact decide_eq_true hkind

theorem makes_requiredIdentifier :
    Makes tokens flags n (fun x => [x.outline]) requiredIdentifier :=
  builds_identifier.required rfl Outline.absent_identifier

theorem makes_behind {mark : Kind} {value : Parser β} {standIn : β}
    {view : β → List (Outline Info)} (hvalue : Makes tokens flags n view value)
    (habsent : ∀ o ∈ view standIn, o.Absent) :
    Makes tokens flags n view (behind mark value standIn) := by
  intro a ha
  refine (makes_require mark n a ha).bind fun t? b h => ?_
  cases t? with
  | none => exact .pure (h.trans (.absent b habsent))
  | some t => exact hvalue.behind h ha

theorem builds_field {value : Parser β} {standIn : β} {view : β → Outline Info} {form : Form}
    (hvalue : Makes tokens flags (n + 1) (fun x => [view x]) value)
    (habsent : (view standIn).Absent) (hform : form.isOrdinary = true) :
    Builds tokens flags n (Leads tokens isIdentifier) (Field.outline form view)
      (field value standIn) := by
  intro a ha
  refine (builds_identifier a ha).bind fun name? b h => ?_
  cases name? with
  | none => exact .pure h
  | some name =>
    obtain ⟨hname, hstarts⟩ := h
    have hvalue' : Makes tokens flags (n + 1) (fun x => [view x]) (behind .colon value standIn) :=
      makes_behind hvalue fun o ho => List.mem_singleton.mp ho ▸ habsent
    refine (hvalue' b (Nat.lt_of_le_of_lt ha hname.lt)).bind fun x c hx => ?_
    exact hname.closes name.info?_outline hx fun info hnode =>
      .pure ⟨hnode form none hform, hstarts⟩

def startsType (k : Kind) : Bool := k = .identifier || k = .leftBrace || k = .leftParen

section

variable {type : Parser (Option (TypeExpression Info))}

abbrev BuildsTypes (tokens : Array Token) (flags : Flags) (n : Nat)
    (type : Parser (Option (TypeExpression Info))) : Prop :=
  Builds tokens flags n (Leads tokens startsType) TypeExpression.outline type

theorem builds_singleType (htype : BuildsTypes tokens flags (n + 1) type) :
    BuildsTypes tokens flags n (singleType type) := by
  have hinner : Makes tokens flags (n + 1) (fun x => [x.outline])
      (required type .missingType .missing) := htype.required rfl Outline.absent_type
  intro a ha
  refine runs_nextToken.bind fun t? b h => ?_
  obtain ⟨rfl, rfl⟩ := h
  cases ht : b.next? tokens with
  | none => exact .pure ⟨rfl, not_leads ht⟩
  | some t =>
    have hstarts : Leads tokens startsType b.cursor ↔ startsType t.kind = true := leads_iff ht
    dsimp only
    split
    next hkind =>
      refine (runs_opens ht).bind fun _ c hc => hc.claims.bind fun comments d hd => .pure ⟨?_, ?_⟩
      · exact hd.named rfl
      · exact hstarts.mpr (by rw [hkind]; rfl)
    next hkind =>
      refine (runs_opens ht).bind fun _ c hc => hc.claims.bind fun comments d hd => ?_
      have hfields : Makes tokens flags (n + 1)
          (fun xs => xs.map (Field.outline .fieldType TypeExpression.outline))
          (items (.commas .rightBrace) (field (required type .missingType .missing) .missing)) :=
        makes_items rfl (builds_field (hinner.mono (Nat.le_succ _)) Outline.absent_type rfl)
      refine (hfields.since hd.since ha).bind fun fields e he => ?_
      refine (he.require .rightBrace).bind fun _ f hf => ?_
      refine hf.closes fun info hnode => .pure ⟨?_, hstarts.mpr (by rw [hkind]; rfl)⟩
      rw [TypeExpression.outline, TypeExpression.fieldOutlines_eq]
      exact hnode .recordType none rfl
    next hkind =>
      refine (runs_opens ht).bind fun _ c hc => hc.claims.bind fun comments d hd => ?_
      refine (hinner.since hd.since ha).bind fun inner e he => ?_
      refine (he.require .rightParen).bind fun _ f hf => ?_
      exact hf.closes fun info hnode =>
        .pure ⟨hnode .parenType none rfl, hstarts.mpr (by rw [hkind]; rfl)⟩
    next h₁ h₂ h₃ =>
      refine .pure ⟨rfl, fun hlead => ?_⟩
      have hkind := hstarts.mp hlead
      simp only [startsType, Bool.or_eq_true, decide_eq_true_eq] at hkind
      rcases hkind with (h | h) | h
      · exact h₁ h
      · exact h₂ h
      · exact h₃ h

theorem builds_arrayOrSingle (htype : BuildsTypes tokens flags (n + 1) type) :
    BuildsTypes tokens flags n (arrayOrSingle type) := by
  intro a ha
  refine (builds_singleType htype a ha).bind fun atom? b h => ?_
  cases atom? with
  | none => exact .pure h
  | some atom =>
    obtain ⟨hatom, hstarts⟩ := h
    refine Runs.map (Q := fun x c => Built tokens a c x.outline) ?_ fun _ _ hx => ⟨hx, hstarts⟩
    refine runs_loop (I := fun x c => Built tokens a c x.outline)
      (fun element c helement => ?_) hatom
    refine (runs_accept .leftBracket).bind fun t? d hd => ?_
    cases t? with
    | none =>
      obtain ⟨rfl, -⟩ := hd
      exact .pure helement
    | some t =>
      obtain ⟨ht, -, rfl⟩ := hd
      refine ((Opened.of_next ht).since.require .rightBracket).bind fun _ e he => ?_
      exact helement.closes element.info?_outline he.advances fun info hnode =>
        .pure ⟨hnode .arrayType none rfl, he.lt⟩

theorem makes_typeAlternatives (htype : BuildsTypes tokens flags (n + 1) type) :
    Makes tokens flags n (fun members => members.map TypeExpression.outline)
      (typeAlternatives type) := by
  have hmember : Makes tokens flags n (fun x => [x.outline])
      (required (arrayOrSingle type) .missingType .missing) :=
    (builds_arrayOrSingle htype).required rfl Outline.absent_type
  intro a ha
  refine Runs.bind (Q := fun members b =>
    Advances tokens a b [] (members.toList.map TypeExpression.outline)) ?_ fun _ _ h => .pure h
  refine runs_loop (I := fun members b =>
    Advances tokens a b [] (members.toList.map TypeExpression.outline)) (fun members b hb => ?_)
    (.refl a)
  refine (runs_accept .pipe).bind fun t? c hc => ?_
  cases t? with
  | none =>
    obtain ⟨rfl, -⟩ := hc
    exact .pure hb
  | some t =>
    obtain ⟨ht, -, rfl⟩ := hc
    have hopen := (Opened.of_next ht).since
    have hn : n ≤ (b.past tokens).cursor := Nat.le_trans ha (hb.next hopen.advances).le
    refine (hmember (b.past tokens) hn).bind fun member d hd => .pure ⟨?_, ?_⟩
    · have hmembers : Advances tokens a d [] (members.toList.map TypeExpression.outline ++
          [member].map TypeExpression.outline) := (hb.next hopen.advances).trans hd
      rwa [← List.map_append, ← Array.toList_push] at hmembers
    · exact Nat.lt_of_lt_of_le hopen.lt hd.le

theorem builds_typeUnion (htype : BuildsTypes tokens flags (n + 1) type) :
    BuildsTypes tokens flags n (typeUnion type) := by
  intro a ha
  refine (builds_arrayOrSingle htype a ha).bind fun head? b h => ?_
  cases head? with
  | none => exact .pure h
  | some head =>
    obtain ⟨hhead, hstarts⟩ := h
    refine (runs_isNext .pipe).bind fun x c hc => ?_
    obtain ⟨rfl, -⟩ := hc
    split
    · have hn : n ≤ c.cursor := Nat.le_trans ha hhead.advances.le
      refine (makes_typeAlternatives htype c hn).bind fun rest d hd => ?_
      refine hhead.closes head.info?_outline hd fun info hnode => .pure ⟨?_, hstarts⟩
      rw [TypeExpression.outline, TypeExpression.outlines_eq, List.map_cons]
      exact hnode .unionType none rfl
    · exact .pure ⟨hhead, hstarts⟩

end

theorem builds_typeWithin (depth : Nat) (h : tokens.size < n + depth) :
    BuildsTypes tokens flags n (typeWithin depth) := by
  induction depth generalizing n with
  | zero => exact fun a ha => .within fun hle => absurd (Nat.le_trans ha hle) (Nat.not_le.mpr h)
  | succ depth ih => exact (builds_typeUnion (ih (by omega))).remembered

theorem runs_maxDepth {a : Trail} :
    Runs tokens flags a maxDepth fun depth b => b = a ∧ depth = tokens.size + 1 := by
  refine runs_read.bind fun c b h => .pure ?_
  obtain ⟨rfl, rfl⟩ := h
  exact ⟨rfl, rfl⟩

theorem builds_typeExpression : BuildsTypes tokens flags n typeExpression := by
  intro a ha
  refine runs_maxDepth.bind fun depth b h => ?_
  obtain ⟨rfl, rfl⟩ := h
  exact builds_typeWithin _ (by omega) b ha

theorem makes_requiredType : Makes tokens flags n (fun x => [x.outline]) requiredType :=
  builds_typeExpression.required rfl Outline.absent_type

theorem makes_markedType (k : Kind) :
    Makes tokens flags n (fun type? => (type?.map TypeExpression.outline).toList)
      (do
        match ← accept k with
        | some _ => return some (← requiredType)
        | none => return none) := by
  intro a ha
  refine (runs_accept k).bind fun t? b h => ?_
  cases t? with
  | none =>
    obtain ⟨rfl, -⟩ := h
    exact .pure (.refl b)
  | some t =>
    obtain ⟨ht, -, rfl⟩ := h
    exact (makes_requiredType.behind (.past ht) ha).bind fun type c hc => .pure hc

end Grammar

end Reparse
