import Reparse.Proofs.Grammar.Sound.Expressions

/-!
# Soundness of the grammar of statements

A statement consumes a word at least, so a run of statements ends. What follows `else` without a
brace is read by the rule for statements, which is nested deeply enough to read it: a nested rule
has more depth left than there are words ahead.
-/

namespace Reparse

open Reparse.Parser

variable {α β : Type} {tokens : Array Token} {flags : Flags} {given : Prop} {before : List Word}

theorem Expression.spelling_of_startsWithEmptyObject :
    ∀ e : Expression α, e.startsWithEmptyObject = true →
      ∃ more, e.spelling = .mark .leftBrace :: .mark .rightBrace :: more
  | .binary operator left right info, h => by
    obtain ⟨more, hmore⟩ := spelling_of_startsWithEmptyObject left h
    exact ⟨more ++ .mark operator.kind :: right.spelling, by rw [spelling, hmore]; rfl⟩
  | .member base field info, h => by
    obtain ⟨more, hmore⟩ := spelling_of_startsWithEmptyObject base h
    exact ⟨more ++ .mark .dot :: field.spelling, by rw [spelling, hmore]; rfl⟩
  | .invoke callee arguments info, h => by
    obtain ⟨more, hmore⟩ := spelling_of_startsWithEmptyObject callee h
    exact ⟨_, by rw [spelling, hmore]; rfl⟩
  | .index base place info, h => by
    obtain ⟨more, hmore⟩ := spelling_of_startsWithEmptyObject base h
    exact ⟨_, by rw [spelling, hmore]; rfl⟩
  | .object fields info, h => by
    cases fields with
    | nil => exact ⟨[], rfl⟩
    | cons => cases h

theorem Expression.startsStatement_of {e : Expression α} {after : List Word}
    (hok : e.isGrammatical = true) (hspells : Spells e.spelling before after)
    (hbrace : lead before = some .leftBrace → lead before.tail = some .identifier) :
    e.startsStatement = true := by
  cases hempty : e.startsWithEmptyObject with
  | false => simp [startsStatement, hok, hempty]
  | true =>
    obtain ⟨more, hmore⟩ := e.spelling_of_startsWithEmptyObject hempty
    rw [hmore] at hspells
    cases hspells with
    | word hspells =>
      cases hspells with
      | word hspells => cases (hbrace rfl : some Kind.rightBrace = some Kind.identifier)

theorem Statement.spellings_eq (ss : List (Statement α)) :
    Statement.spellings ss = ss.flatMap Statement.spelling := by
  induction ss with
  | nil => rfl
  | cons s ss ih => rw [Statement.spellings, ih, List.flatMap_cons]

theorem Statement.areGrammatical_of {inLoop : Bool} {ss : List (Statement α)}
    (h : ∀ s ∈ ss, s.isGrammatical inLoop = true) : Statement.areGrammatical inLoop ss = true := by
  induction ss with
  | nil => rfl
  | cons s ss ih =>
    obtain ⟨hs, hss⟩ := List.forall_mem_cons.mp h
    simp [Statement.areGrammatical, hs, ih hss]

theorem Statement.exists_word {inLoop : Bool} {s : Statement α}
    (h : s.isGrammatical inLoop = true) : ∃ w, Slot.word w ∈ s.spelling := by
  cases s with
  | nested body info =>
    cases body with
    | braces statements info => exact ⟨_, List.mem_cons_self⟩
    | missing => cases h
  | declare name type? value info => exact ⟨_, List.mem_append_right _ (List.mem_singleton_self _)⟩
  | assign target value info => exact ⟨_, List.mem_append_right _ (List.mem_singleton_self _)⟩
  | evaluate value info => exact ⟨_, List.mem_append_right _ (List.mem_singleton_self _)⟩
  | «return» value? info => exact ⟨_, List.mem_append_right _ (List.mem_singleton_self _)⟩
  | branch condition body alternative info =>
    exact ⟨_, List.mem_append_left _ (List.mem_append_left _ List.mem_cons_self)⟩
  | loop condition body info => exact ⟨_, List.mem_append_left _ List.mem_cons_self⟩
  | «break» info => exact ⟨_, List.mem_cons_self⟩
  | «continue» info => exact ⟨_, List.mem_cons_self⟩

namespace Grammar

def Gives (W : β → List Word → Prop) : Option β → List Word → Prop
  | none, _ => False
  | some b, after => W b after

def IsStatement (flags : Flags) (s : Statement α) : Prop := s.isGrammatical flags.inLoop = true

def IsBlock (flags : Flags) (b : Block α) : Prop := b.isGrammatical flags.inLoop = true

theorem reads_keyword {k : Kind} (hk : k.spelling?.isSome = true) :
    Reads tokens flags (lead before = some k) before keyword
      (Gives fun word after => word.1.kind = k ∧ before = .mark k :: after) := by
  refine reads_consume.bind fun t? _ => ?_
  cases t? with
  | none =>
    refine .pure ?_
    rintro ⟨hlead, rfl, -⟩
    cases hlead
  | some t =>
    refine reads_claimComments.bind fun comments _ => .pure ?_
    rintro ⟨⟨hlead, htaken⟩, rfl⟩
    refine ⟨?_, htaken.mark hlead hk⟩
    rw [htaken.2] at hlead
    exact Option.some.inj hlead

theorem noObject_adjust (flags : Flags) :
    (flags.adjust { noObject := true } {}).noObject = true := by
  simp [Flags.adjust]

theorem reads_condition : Reads tokens flags given before condition
    (Written (fun e => e.isCondition = true) Expression.spelling before) :=
  Reads.underFlags (reads_requiredExpression.weaken (fun h => h) fun _ e _ h =>
    ⟨by simp [Expression.isCondition, h.1.1, h.1.2.2 (noObject_adjust flags)], h.2⟩)

theorem reads_declaration : Reads tokens flags (lead before = some .letWord) before declaration
    (Gives (Written (IsStatement flags) Statement.spelling before)) := by
  refine (reads_keyword rfl).bind fun word? _ => ?_
  rcases word? with _ | ⟨word, comments⟩
  · exact .pure fun h => h.2
  refine reads_requiredIdentifier.bind fun name _ => reads_annotation?.bind fun type? _ => ?_
  refine (reads_behind rfl fun here => reads_requiredExpression).bind fun value _ => ?_
  refine (reads_require rfl).bind fun _ _ => ?_
  refine (reads_infoFrom word comments).bind fun info _ => .pure ?_
  rintro ⟨⟨⟨⟨⟨⟨-, -, rfl⟩, hnamed, hname⟩, htyped, htype⟩, mid, rfl, hok, hvalue⟩, -, rfl⟩, rfl⟩
  refine ⟨?_, ((hname.mark.append htype).append hvalue.mark).snoc⟩
  have hnamed : name.isNamed = true := hnamed
  simp [IsStatement, Statement.isGrammatical, hnamed, htyped, hok.1]

theorem reads_returned : Reads tokens flags given before returned
    (Written (fun e? => e?.all Expression.isGrammatical = true)
      (fun e? => (e?.map Expression.spelling).getD []) before) := by
  refine reads_nextKind.bind fun k? _ => ?_
  split
  · exact .pure fun h => ⟨rfl, h.2.1 ▸ .nil⟩
  · exact .pure fun h => ⟨rfl, h.2.1 ▸ .nil⟩
  · exact .pure fun h => ⟨rfl, h.2.1 ▸ .nil⟩
  · refine (reads_expression flags _).weaken (fun _ => trivial) ?_
    rintro ⟨-, rfl, -⟩ e? after h
    cases e? with
    | none => exact ⟨rfl, h ▸ .nil⟩
    | some e => exact ⟨h.1.1, h.2⟩

theorem reads_stray_if {b : Bool} (t : Token) {rest : Unit → Parser β} {R : β → List Word → Prop}
    (h : Reads tokens flags (given ∧ b = false) before (rest ()) R) :
    Reads tokens flags given before
      (if b = true then reportStray t .strayToken >>= rest else rest ()) R := by
  split
  · exact (reads_fault rfl).bind fun _ _ => .absurd h.grows fun hfalse => hfalse.2
  next hb => exact h.under fun hgiven => ⟨hgiven, Bool.eq_false_iff.mpr hb⟩

theorem reads_returning : Reads tokens flags (lead before = some .returnWord) before returning
    (Gives (Written (IsStatement flags) Statement.spelling before)) := by
  refine (reads_keyword rfl).bind fun word? _ => ?_
  rcases word? with _ | ⟨word, comments⟩
  · exact .pure fun h => h.2
  refine reads_flags.bind fun f _ => reads_stray_if word ?_
  refine reads_returned.bind fun value? _ => (reads_require rfl).bind fun _ _ => ?_
  refine (reads_infoFrom word comments).bind fun info _ => .pure ?_
  rintro ⟨⟨⟨⟨⟨⟨-, -, rfl⟩, -, rfl⟩, -⟩, hok, hvalue⟩, -, rfl⟩, rfl⟩
  exact ⟨hok, hvalue.mark.snoc⟩

theorem reads_jump {k : Kind} (hk : k = .breakWord ∨ k = .continueWord) :
    Reads tokens flags (lead before = some k) before jump
      (Gives (Written (IsStatement flags) Statement.spelling before)) := by
  have hspelled : k.spelling?.isSome = true := by rcases hk with rfl | rfl <;> rfl
  refine (reads_keyword hspelled).bind fun word? _ => ?_
  rcases word? with _ | ⟨word, comments⟩
  · exact .pure fun h => h.2
  refine reads_flags.bind fun f _ => reads_stray_if word ?_
  refine (reads_require rfl).bind fun _ _ => ?_
  refine (reads_infoFrom word comments).bind fun info _ => .pure ?_
  rintro ⟨⟨⟨⟨⟨-, hkind, rfl⟩, rfl, rfl⟩, hloop⟩, -, rfl⟩, rfl⟩
  have hloop : f.inLoop = true := by simpa using hloop
  dsimp only at hkind
  rw [hkind]
  rcases hk with rfl | rfl
  · exact ⟨hloop, .mark (.mark .nil)⟩
  · exact ⟨hloop, .mark (.mark .nil)⟩

theorem reads_assignable {target : Expression Info} {extent : Extent}
    (hextent : target.info?.bind Info.extent? = some extent) :
    Reads tokens flags given before (assignable target) fun result after =>
      after = before ∧ result = target ∧ target.isAssignable = true := by
  simp only [assignable, hextent]
  split
  next htarget => exact .pure fun _ => ⟨rfl, rfl, htarget⟩
  next => exact (reads_fault rfl).bind fun _ _ => .pure fun h => h.2.elim

theorem reads_evaluation : Reads tokens flags
    (lead before = some .leftBrace → lead before.tail = some .identifier) before evaluation
    fun s? after => ∀ s, s? = some s →
      Written (IsStatement flags) Statement.spelling before s after := by
  refine ((reads_expression flags before).under fun _ => trivial).bind fun value? _ => ?_
  cases value? with
  | none => exact .pure fun _ _ hs => absurd hs.symm (Option.some_ne_none _)
  | some value =>
    dsimp only
    cases hextent : value.info?.bind Info.extent? with
    | none => exact .pure fun _ _ hs => absurd hs.symm (Option.some_ne_none _)
    | some extent =>
      refine (reads_acceptMark rfl).bind fun t? _ => ?_
      cases t? with
      | some t =>
        refine reads_requiredExpression.bind fun assigned _ => ?_
        refine (reads_assignable hextent).bind fun target _ => (reads_require rfl).bind fun _ _ => ?_
        refine (reads_infoFrom extent.first []).bind fun info _ => .pure ?_
        rintro ⟨⟨⟨⟨⟨⟨hbrace, hok, hvalue⟩, rfl⟩, hok', hassigned⟩, rfl, rfl, htarget⟩, -, rfl⟩, rfl⟩
          s hs
        cases hs
        refine ⟨?_, (hvalue.append hassigned.mark).snoc⟩
        have hstart := Expression.startsStatement_of hok.1 hvalue hbrace
        simp [IsStatement, Statement.isGrammatical, hstart, htarget, hok'.1]
      | none =>
        refine (reads_require rfl).bind fun _ _ => ?_
        refine (reads_infoFrom extent.first []).bind fun info _ => .pure ?_
        rintro ⟨⟨⟨⟨hbrace, hok, hvalue⟩, rfl, -⟩, -, rfl⟩, rfl⟩ s hs
        cases hs
        exact ⟨Expression.startsStatement_of hok.1 hvalue hbrace, hvalue.snoc⟩

def ReadStatement (flags : Flags) (before : List Word) (s? : Option (Statement Info))
    (after : List Word) : Prop :=
  (lead before = some .ifWord → ∃ s, s? = some s ∧ s.isBranch = true) ∧
    ∀ s, s? = some s → Written (IsStatement flags) Statement.spelling before s after

def ReadsStatements (tokens : Array Token) (depth : Nat) (rule : StatementRule) : Prop :=
  ∀ flags here, Reads tokens flags (here.length < depth) here rule (ReadStatement flags here)

variable {statement : StatementRule} {depth : Nat}

theorem reads_statements (hstatement : ReadsStatements tokens depth statement)
    (hgiven : given → before.length < depth) :
    Reads tokens flags given before
      (items { SeriesShape.upTo .rightBrace with resync := some .statementEnds } statement)
      (Run True (IsStatement flags) Statement.spelling before) := by
  refine (reads_run True (IsStatement flags) Statement.spelling rfl rfl rfl
    fun here => ?_).weaken (fun h => h) fun _ _ _ h => h.1
  refine (hstatement flags here).weaken (fun h => Nat.lt_of_le_of_lt h.2 (hgiven h.1)) ?_
  intro _ s? after hs
  cases s? with
  | none => exact fun _ _ => trivial
  | some s =>
    obtain ⟨hok, hspells⟩ := hs.2 s rfl
    obtain ⟨w, hw⟩ := Statement.exists_word hok
    exact ⟨hspells.length_lt hw, hok, hspells⟩

theorem reads_bracedStatements (hstatement : ReadsStatements tokens depth statement) :
    Reads tokens flags (before.length ≤ depth) before (bracedStatements statement)
      (Yields (Written (IsBlock flags) Block.spelling before) before) := by
  refine (reads_acceptMark rfl).bind fun opening? _ => ?_
  cases opening? with
  | none => exact .pure fun h => h.2.1
  | some opening =>
    refine reads_claimComments.bind fun comments _ => ?_
    refine (reads_statements hstatement ?_).bind fun statements _ => ?_
    · rintro ⟨⟨hlength, rfl⟩, rfl⟩
      exact hlength
    refine (reads_require rfl).bind fun _ _ => ?_
    refine (reads_infoFrom opening comments).bind fun info _ => .pure ?_
    rintro ⟨⟨⟨⟨⟨-, rfl⟩, rfl⟩, hrun⟩, -, rfl⟩, rfl⟩
    rcases hrun with ⟨-, hnil⟩ | ⟨hok, hspells⟩
    · cases hnil
    · refine ⟨Statement.areGrammatical_of hok, ?_⟩
      rw [Block.spelling, Statement.spellings_eq]
      exact hspells.mark.snoc

theorem reads_block (hstatement : ReadsStatements tokens depth statement)
    (hgiven : given → before.length ≤ depth) :
    Reads tokens flags given before (block statement)
      (Yields (Written (IsBlock flags) Block.spelling before) before) :=
  (reads_bracedStatements hstatement).remembered.under hgiven

theorem reads_requiredBlock (hstatement : ReadsStatements tokens depth statement)
    (hgiven : given → before.length ≤ depth) :
    Reads tokens flags given before (requiredBlock statement)
      (Written (IsBlock flags) Block.spelling before) :=
  reads_required (reads_block hstatement hgiven) rfl

theorem reads_alternative (hstatement : ReadsStatements tokens depth statement)
    (hgiven : given → before.length ≤ depth) :
    Reads tokens flags given before (alternative statement)
      (Written (fun a => a.isGrammatical flags.inLoop = true) Alternative.spelling before) := by
  refine (reads_acceptMark rfl).bind fun t? _ => ?_
  cases t? with
  | none => exact .pure fun h => ⟨rfl, h.2.1 ▸ .nil⟩
  | some t =>
    refine (reads_isNext .ifWord).bind fun b here => ?_
    have hlength : ((given ∧ before = .mark .elseWord :: here) → here.length < depth) := by
      rintro ⟨h, rfl⟩
      exact hgiven h
    cases b with
    | true =>
      refine ((hstatement flags here).under ?_).bind fun s? _ => .pure ?_
      · rintro ⟨h, rfl, -⟩
        exact hlength h
      · rintro ⟨⟨⟨-, rfl⟩, rfl, hnext⟩, hbranch, hs⟩
        obtain ⟨s, rfl, hs'⟩ := hbranch (of_decide_eq_true hnext.symm)
        obtain ⟨hok, hspells⟩ := hs s rfl
        have hok : s.isGrammatical flags.inLoop = true := hok
        exact ⟨by simp [Alternative.isGrammatical, hs', hok], hspells.mark⟩
    | false =>
      refine (reads_requiredBlock hstatement ?_).bind fun body _ => .pure ?_
      · rintro ⟨h, rfl, -⟩
        exact Nat.le_of_lt (hlength h)
      · rintro ⟨⟨⟨-, rfl⟩, rfl, -⟩, hok, hspells⟩
        exact ⟨hok, hspells.mark⟩

theorem reads_branch (hstatement : ReadsStatements tokens depth statement) :
    Reads tokens flags (before.length ≤ depth ∧ lead before = some .ifWord) before
      (branch statement)
      (Gives fun s after =>
        s.isBranch = true ∧ Written (IsStatement flags) Statement.spelling before s after) := by
  refine ((reads_keyword rfl).under fun h => h.2).bind fun word? _ => ?_
  rcases word? with _ | ⟨word, comments⟩
  · exact .pure fun h => h.2
  refine reads_condition.bind fun condition _ => ?_
  refine (reads_requiredBlock hstatement ?_).bind fun body _ => ?_
  · rintro ⟨⟨⟨hlength, -⟩, -, rfl⟩, -, hspells⟩
    exact Nat.le_trans hspells.length_le (Nat.le_of_lt hlength)
  refine (reads_alternative hstatement ?_).bind fun alternative _ => ?_
  · rintro ⟨⟨⟨⟨hlength, -⟩, -, rfl⟩, -, hspells⟩, -, hspells'⟩
    exact Nat.le_trans (Nat.le_trans hspells'.length_le hspells.length_le) (Nat.le_of_lt hlength)
  refine (reads_infoFrom word comments).bind fun info _ => .pure ?_
  rintro ⟨⟨⟨⟨⟨-, -, rfl⟩, hcondition, hspells⟩, hbody, hspells'⟩, halternative, hspells''⟩, rfl⟩
  refine ⟨rfl, ?_, (hspells.mark.append hspells').append hspells''⟩
  have hbody : body.isGrammatical flags.inLoop = true := hbody
  simp [IsStatement, Statement.isGrammatical, hcondition, hbody, halternative]

theorem inLoop_adjust (flags : Flags) : (flags.adjust { inLoop := true } {}).inLoop = true := by
  simp [Flags.adjust]

theorem reads_whileLoop (hstatement : ReadsStatements tokens depth statement) :
    Reads tokens flags (before.length ≤ depth ∧ lead before = some .whileWord) before
      (whileLoop statement) (Gives (Written (IsStatement flags) Statement.spelling before)) := by
  refine ((reads_keyword rfl).under fun h => h.2).bind fun word? _ => ?_
  rcases word? with _ | ⟨word, comments⟩
  · exact .pure fun h => h.2
  refine reads_condition.bind fun condition _ => ?_
  refine Reads.bind (Reads.underFlags (reads_requiredBlock hstatement ?_)) fun body _ => ?_
  · rintro ⟨⟨⟨hlength, -⟩, -, rfl⟩, -, hspells⟩
    exact Nat.le_trans hspells.length_le (Nat.le_of_lt hlength)
  refine (reads_infoFrom word comments).bind fun info _ => .pure ?_
  rintro ⟨⟨⟨⟨-, -, rfl⟩, hcondition, hspells⟩, hbody, hspells'⟩, rfl⟩
  refine ⟨?_, hspells.mark.append hspells'⟩
  rw [IsBlock, inLoop_adjust] at hbody
  simp [IsStatement, Statement.isGrammatical, hcondition, hbody]

theorem reads_nestedBlock (hstatement : ReadsStatements tokens depth statement) :
    Reads tokens flags (before.length ≤ depth) before (nestedBlock statement)
      fun s? after => ∀ s, s? = some s →
        Written (IsStatement flags) Statement.spelling before s after := by
  refine (reads_block hstatement fun h => h).bind fun body? _ => ?_
  cases body? with
  | none => exact .pure fun _ _ hs => absurd hs.symm (Option.some_ne_none _)
  | some body =>
    refine .pure ?_
    rintro ⟨-, hok, hspells⟩ s hs
    cases hs
    exact ⟨hok, hspells⟩

theorem reads_led {k : Kind} (hk : k ≠ .ifWord) {rule : StatementRule} {here : List Word}
    (hrule : Reads tokens flags (here.length ≤ depth ∧ lead here = some k) here rule
      (Gives (Written (IsStatement flags) Statement.spelling here))) :
    Reads tokens flags (before.length < depth + 1 ∧ here = before ∧ some k = lead before) here rule
      (ReadStatement flags before) := by
  refine (hrule.under ?_).weaken (fun h => h) ?_
  · rintro ⟨hlength, rfl, hlead⟩
    exact ⟨Nat.le_of_lt_succ hlength, hlead.symm⟩
  · rintro ⟨-, rfl, hlead⟩ s? after h
    refine ⟨fun hif => absurd (Option.some.inj (hlead.trans hif)) hk, fun s hs => ?_⟩
    subst hs
    exact h

theorem reads_anyStatement (hstatement : ReadsStatements tokens depth statement) :
    ReadsStatements tokens (depth + 1) (anyStatement statement) := by
  intro flags before
  refine reads_nextKind.bind fun k? here => ?_
  split
  · refine .pure ?_
    rintro ⟨-, rfl, hlead⟩
    refine ⟨fun hif => ?_, fun s hs => absurd hs.symm (Option.some_ne_none _)⟩
    rw [← hlead] at hif
    cases hif
  · exact reads_led (by decide) (reads_declaration.under fun h => h.2)
  · refine ((reads_branch hstatement).under ?_).weaken (fun h => h) ?_
    · rintro ⟨hlength, rfl, hlead⟩
      exact ⟨Nat.le_of_lt_succ hlength, hlead.symm⟩
    · rintro ⟨-, rfl, -⟩ s? after h
      cases s? with
      | none => exact h.elim
      | some s =>
        refine ⟨fun _ => ⟨s, rfl, h.1⟩, fun s' hs => ?_⟩
        cases hs
        exact h.2
  · exact reads_led (by decide) (reads_whileLoop hstatement)
  · exact reads_led (by decide) (reads_returning.under fun h => h.2)
  · exact reads_led (by decide) ((reads_jump (.inl rfl)).under fun h => h.2)
  · exact reads_led (by decide) ((reads_jump (.inr rfl)).under fun h => h.2)
  · refine (reads_objectAhead false).bind fun b _ => ?_
    cases b with
    | true =>
      refine (reads_evaluation.under ?_).weaken (fun h => h) ?_
      · rintro ⟨⟨-, rfl, hlead⟩, rfl, hname⟩ _
        exact hname rfl rfl
      · rintro ⟨⟨-, rfl, hlead⟩, rfl, -⟩ s? after h
        exact ⟨fun hif => absurd (hlead.trans hif) (by decide), h⟩
    | false =>
      refine ((reads_nestedBlock hstatement).under ?_).weaken (fun h => h) ?_
      · rintro ⟨⟨hlength, rfl, -⟩, rfl, -⟩
        exact Nat.le_of_lt_succ hlength
      · rintro ⟨⟨-, rfl, hlead⟩, rfl, -⟩ s? after h
        exact ⟨fun hif => absurd (hlead.trans hif) (by decide), h⟩
  next k hlet hif hwhile hreturn hbreak hcontinue hbrace =>
    refine (reads_evaluation.under ?_).weaken (fun h => h) ?_
    · rintro ⟨-, rfl, hlead⟩ hb
      exact (hbrace (Option.some.inj (hlead.trans hb))).elim
    · rintro ⟨-, rfl, hlead⟩ s? after h
      exact ⟨fun h' => (hif (Option.some.inj (hlead.trans h'))).elim, h⟩

theorem reads_statementWithin (depth : Nat) :
    ReadsStatements tokens depth (statementWithin depth) := by
  induction depth with
  | zero => exact fun _ here => .pure fun h => absurd h (Nat.not_lt_zero _)
  | succ depth ih => exact fun flags here => (reads_anyStatement ih flags here).remembered

theorem reads_statement (depth : Nat) : ReadsStatements tokens depth Grammar.statement := by
  intro flags before
  refine Reads.bounded (reads_maxDepth.bind fun d here => ?_)
  refine (reads_statementWithin d flags here).weaken ?_ ?_
  · rintro ⟨⟨-, hsize⟩, rfl, rfl⟩
    exact Nat.lt_succ_of_le hsize
  · rintro ⟨-, -, rfl⟩ _ _ h
    exact h

end Grammar

end Reparse
