import Reparse.Proofs.Grammar.Remarks.Expressions

/-!
# Remarks on statements

Whether a loop is around a statement is told by a flag, which goes the same way through the rules as
through the tree: the body of a loop sets it, the body of a definition clears it, and nothing else
touches it. So a jump is reported just if no loop of the tree is around it.
-/

namespace Reparse

open Reparse.Parser

variable {β : Type} {tokens : Array Token} {flags : Flags} {a b c : Trail} {n : Nat}
  {looped : Bool} {t : Token}

def Remarks.ofStatements (qs : List (Statement Info × Bool)) : Remarks where
  changes := qs.flatMap fun q => q.1.expressions.flatMap Expression.changes
  jumps := qs.filter fun q => q.1.word?.isSome

theorem Remarks.ofStatements_append (qs rs : List (Statement Info × Bool)) :
    ofStatements (qs ++ rs) = ofStatements qs ++ ofStatements rs := by
  rw [ofStatements, List.flatMap_append, List.filter_append]
  rfl

theorem Remarks.ofStatements_flatMap (view : β → List (Statement Info × Bool))
    (xs : List β) : ofStatements (xs.flatMap view) = all (fun x => ofStatements (view x)) xs := by
  rw [ofStatements, List.flatMap_assoc, List.filter_flatMap]
  rfl

/-- What there is to remark on in a statement, with or without a loop around it. -/
def Statement.remarks (looped : Bool) (s : Statement Info) : Remarks :=
  .ofStatements (s.parts looped)

def Block.remarks (looped : Bool) (body : Block Info) : Remarks :=
  .ofStatements (body.statements looped)

def Alternative.remarks (looped : Bool) (alternative : Alternative Info) : Remarks :=
  .ofStatements (alternative.statements looped)

namespace Statement

variable {s : Statement Info}

theorem remarks_of_word?_eq_none (h : s.word? = none) :
    s.remarks looped =
      ⟨s.expressions.flatMap Expression.changes, []⟩ ++ .ofStatements (s.inner looped) := by
  have hself : Remarks.ofStatements [(s, looped)] =
      ⟨s.expressions.flatMap Expression.changes, []⟩ := by
    rw [Remarks.ofStatements, List.flatMap_singleton, List.filter_cons_of_neg (by simp [h]),
      List.filter_nil]
  rw [remarks, parts, ← hself, ← Remarks.ofStatements_append, List.singleton_append]

theorem remarks_of_inner (hword : s.word? = none) (hinner : s.inner looped = []) :
    s.remarks looped = ⟨s.expressions.flatMap Expression.changes, []⟩ := by
  rw [remarks_of_word?_eq_none hword, hinner]
  exact Remarks.append_empty _

theorem remarks_of_expressions {e : Expression Info} (hword : s.word? = none)
    (hinner : s.inner looped = []) (he : s.expressions = [e]) : s.remarks looped = e.remarks := by
  rw [remarks_of_inner hword hinner, he, List.flatMap_singleton]
  rfl

theorem remarks_assign {target value : Expression Info} {info : Info} :
    (assign target value info).remarks looped = target.remarks ++ value.remarks := by
  rw [remarks_of_inner rfl rfl, expressions, List.flatMap_cons, List.flatMap_singleton]
  rfl

theorem remarks_branch {condition : Expression Info} {body : Block Info}
    {alternative : Alternative Info} {info : Info} :
    (branch condition body alternative info).remarks looped =
      condition.remarks ++ body.remarks looped ++ alternative.remarks looped := by
  rw [remarks_of_word?_eq_none rfl, expressions, List.flatMap_singleton, inner,
    Remarks.ofStatements_append, Remarks.append_assoc]
  rfl

theorem remarks_loop {condition : Expression Info} {body : Block Info} {info : Info} :
    (loop condition body info).remarks looped = condition.remarks ++ body.remarks true := by
  rw [remarks_of_word?_eq_none rfl, expressions, List.flatMap_singleton]
  rfl

theorem remarks_jump {word : Kind} (h : s.word? = some word) :
    s.remarks looped = ⟨[], [(s, looped)]⟩ := by
  cases s with
  | «break» | «continue» => rfl
  | _ => cases h

end Statement

theorem Block.remarks_braces (ss : List (Statement Info)) (info : Info) :
    (braces ss info).remarks looped = .all (Statement.remarks looped) ss := by
  rw [remarks, statements, Statement.listParts_eq, Remarks.ofStatements_flatMap]
  rfl

namespace Grammar

theorem quiet_keyword : Quiet tokens keyword := quiet_consume.bind fun t? => by
  cases t? with
  | none => exact .pure _
  | some t => exact quiet_claimComments.bind fun _ => .pure _

theorem quiet_annotation? : Quiet tokens annotation? := quiet_markedType .colon

theorem notes_assigned : Notes tokens flags n Expression.remarks
    (behind .assign requiredExpression .missing) := notes_behind notes_requiredExpression rfl

theorem notes_condition : Notes tokens flags n Expression.remarks condition :=
  notes_requiredExpression.underFlags

abbrev NotesWithin (tokens : Array Token) (flags : Flags) (n : Nat) (looped : Bool)
    (rule : StatementRule) : Prop :=
  Notes tokens flags n (.optional (Statement.remarks looped)) rule

theorem notes_declaration : NotesWithin tokens flags n looped declaration := by
  intro a ha
  refine (quiet_keyword flags a).bind fun word? b hb => ?_
  cases word? with
  | none => exact .pure hb
  | some word =>
    refine (quiet_requiredIdentifier.after hb).bind fun name c hc => ?_
    refine (quiet_annotation?.after hc).bind fun type? d hd => ?_
    refine (notes_assigned.after hd ha).bind fun value e he => ?_
    refine ((quiet_require _).after he).bind fun _ f hf => ?_
    refine ((quiet_infoFrom _ _).after hf).bind fun info g hg => .pure ?_
    rw [Remarks.optional, Option.elim_some, Statement.remarks_of_expressions rfl rfl rfl]
    exact hg

theorem notes_returned : Notes tokens flags n (.optional Expression.remarks) returned := by
  intro a ha
  refine (quiet_nextKind flags a).bind fun k? b hb => ?_
  split
  · exact .pure hb
  · exact .pure hb
  · exact .pure hb
  · exact (notes_expression flags).after hb ha

theorem notes_returning (hflags : flags.inFunction = true) :
    NotesWithin tokens flags n looped returning := by
  intro a ha
  refine (quiet_keyword flags a).bind fun word? b hb => ?_
  cases word? with
  | none => exact .pure hb
  | some word =>
    refine runs_flags.bind fun f c hc => ?_
    obtain ⟨rfl, rfl⟩ := hc
    rw [hflags]
    refine (notes_returned.after hb ha).bind fun value? d hd => ?_
    refine ((quiet_require _).after hd).bind fun _ e he => ?_
    refine ((quiet_infoFrom _ _).after he).bind fun info f hf => .pure ?_
    cases value? with
    | none => exact hf
    | some value =>
      rw [Remarks.optional, Option.elim_some, Statement.remarks_of_expressions rfl rfl rfl]
      exact hf

theorem runs_keyword_past (ht : a.next? tokens = some t) :
    Runs tokens flags a keyword fun word? b =>
      (∃ comments, word? = some (t, comments)) ∧ b = { a.past tokens with comments := [] } := by
  refine (runs_consume_next ht).bind fun _ b hb => ?_
  obtain ⟨rfl, rfl⟩ := hb
  exact runs_claimComments.bind fun comments c hc => .pure ⟨⟨comments, rfl⟩, hc.2⟩

theorem runs_jump_reports (ht : a.next? tokens = some t)
    (hword : t.kind = .breakWord ∨ t.kind = .continueWord) :
    Runs tokens flags a jump fun s? b => ∀ s ∈ s?, s.word? = some t.kind ∧
      ∃ c, nextReal tokens a.cursor < c.cursor ∧
        c.reports = a.reports ++ (if flags.inLoop then [] else [.stray .strayToken t]) ∧
        Remarked tokens c b {} := by
  refine (runs_keyword_past ht).bind fun word? b hb => ?_
  obtain ⟨⟨comments, rfl⟩, rfl⟩ := hb
  refine runs_flags.bind fun f b hb => ?_
  obtain ⟨rfl, rfl⟩ := hb
  refine runs_stray_if fun c hcursor hreports => ?_
  refine (quiet_require _ _ c).bind fun _ d hd => ?_
  refine ((quiet_infoFrom _ _).after hd).bind fun info e he =>
    .pure (affords_some ⟨?_, c, ?_, ?_, he⟩)
  · rcases hword with hword | hword
    · rw [if_pos hword, hword]
      rfl
    · rw [if_neg (by rw [hword]; decide), hword]
      rfl
  · rw [hcursor]
    exact Nat.lt_succ_self _
  · rw [hreports]
    cases f.inLoop <;> rfl

theorem notes_jump (ht : a.next? tokens = some t)
    (hword : t.kind = .breakWord ∨ t.kind = .continueWord) :
    Runs tokens flags a jump fun s? b =>
      Remarked tokens a b (.optional (Statement.remarks flags.inLoop) s?) := by
  refine ((builds_jump a t ht (Nat.zero_le _)).both (runs_jump_reports ht hword)).weaken
    fun s? b hs => ?_
  obtain ⟨⟨s, rfl, e, he, -, hsince⟩, hreports⟩ := hs
  obtain ⟨hs, c, hpast, hreports, hquiet⟩ := hreports s rfl
  obtain rfl : t = e.first := Option.some.inj (ht.symm.trans hsince.first)
  have hkeyword : s.keyword? = some e.first := by
    rw [Outline.extent?, s.info?_outline, Option.bind_some] at he
    rw [Statement.keyword?, he, Option.map_some]
  have hle : a.cursor ≤ c.cursor := Nat.le_trans (le_nextReal tokens a.cursor) (Nat.le_of_lt hpast)
  have hjump : Remarked tokens a c ⟨[], [(s, flags.inLoop)]⟩ :=
    ⟨hle, _, hreports, .jump hkeyword hs (mem_stretch (le_nextReal tokens a.cursor) hpast ht) _⟩
  rw [Remarks.optional, Option.elim_some, Statement.remarks_jump hs]
  exact hjump.next hquiet

theorem notes_assignable {target assigned : Expression Info} {e : Extent}
    (he : target.info?.bind Info.extent? = some e)
    (h : Remarked tokens a b (target.remarks ++ assigned.remarks)) :
    Runs tokens flags b (assignable target) fun x c =>
      Remarked tokens a c (x.remarks ++ assigned.remarks) := by
  unfold assignable
  split
  · exact .pure h
  · simp only [he]
    refine (runs_report _ _ _).bind fun _ c hc => .pure ?_
    subst hc
    exact h.refused _ _

theorem notes_evaluation : NotesWithin tokens flags n looped evaluation := by
  intro a ha
  refine ((builds_expression flags a ha).both (notes_expression flags a ha)).bind
    fun value? b hvalue => ?_
  obtain ⟨hbuilt, hremarked⟩ := hvalue
  cases value? with
  | none => exact .pure hremarked
  | some value =>
    obtain ⟨⟨e, he, -⟩, -⟩ := hbuilt
    have hextent : value.info?.bind Info.extent? = some e := value.extent?_outline ▸ he
    simp only [hextent]
    refine ((quiet_accept .assign).after hremarked).bind fun t? c hc => ?_
    cases t? with
    | none =>
      refine ((quiet_require _).after hc).bind fun _ d hd => ?_
      refine ((quiet_infoFrom _ _).after hd).bind fun info e he => .pure ?_
      rw [Remarks.optional, Option.elim_some, Statement.remarks_of_expressions rfl rfl rfl]
      exact he
    | some t =>
      refine (notes_requiredExpression.after hc ha).bind fun assigned d hd => ?_
      refine (notes_assignable hextent hd).bind fun target e he => ?_
      refine ((quiet_require _).after he).bind fun _ f hf => ?_
      refine ((quiet_infoFrom _ _).after hf).bind fun info g hg => .pure ?_
      rw [Remarks.optional, Option.elim_some, Statement.remarks_assign]
      exact hg

abbrev NotesStatements (tokens : Array Token) (n : Nat) (rule : StatementRule) : Prop :=
  ∀ flags : Flags, flags.noObject = false → flags.inFunction = true →
    NotesWithin tokens flags n flags.inLoop rule

theorem isJump_of_not_startsStatement {k : Kind} (h : startsStatement k = false) :
    k.isJump = false := by
  cases k <;> first | rfl | cases h

section

variable {statement : StatementRule}

theorem notes_block (hbuilds : BuildsStatements tokens (n + 1) statement)
    (h : NotesStatements tokens (n + 1) statement) (hobject : flags.noObject = false)
    (hbody : flags.inFunction = true) :
    Notes tokens flags n (.optional (Block.remarks flags.inLoop)) (block statement) := by
  refine Notes.remembered fun a ha => ?_
  refine (runs_accept .leftBrace).bind fun t? b hb => ?_
  cases t? with
  | none =>
    obtain ⟨rfl, -⟩ := hb
    exact .pure (.refl b)
  | some t =>
    obtain ⟨ht, -, rfl⟩ := hb
    have hpast : n < (a.past tokens).cursor := Nat.lt_of_le_of_lt ha (a.lt_past tokens)
    have hitems : Notes tokens flags (n + 1) (.all (Statement.remarks flags.inLoop))
        (items { SeriesShape.upTo .rightBrace with resync := some .statementEnds } statement) := by
      refine notes_items nofun (by decide) fun b hb => ?_
      refine ((hbuilds flags hobject b hb).both (h flags hobject hbody b hb)).weaken
        fun x? c hx => ⟨hx.2, ?_⟩
      rintro rfl - - t ht
      obtain ⟨⟨rfl, hnot⟩, -⟩ := hx
      refine isJump_of_not_startsStatement (Bool.eq_false_iff.mpr fun hstarts => hnot ?_)
      exact (leads_iff ht).mpr hstarts
    refine (quiet_claimComments flags _).bind fun comments b hb => ?_
    refine (hitems.after hb hpast).bind fun statements c hc => ?_
    refine ((quiet_require _).after hc).bind fun _ d hd => ?_
    refine ((quiet_infoFrom _ _).after hd).bind fun info e he => .pure ?_
    rw [Remarks.optional, Option.elim_some, Block.remarks_braces]
    exact (Remarked.past a).trans he

theorem notes_requiredBlock (hbuilds : BuildsStatements tokens (n + 1) statement)
    (h : NotesStatements tokens (n + 1) statement) (hobject : flags.noObject = false)
    (hbody : flags.inFunction = true) :
    Notes tokens flags n (Block.remarks flags.inLoop) (requiredBlock statement) :=
  (notes_block hbuilds h hobject hbody).required (by decide) (by decide) rfl

theorem notes_alternative (hbuilds : BuildsStatements tokens (n + 1) statement)
    (h : NotesStatements tokens (n + 1) statement) (hobject : flags.noObject = false)
    (hbody : flags.inFunction = true) :
    Notes tokens flags n (Alternative.remarks flags.inLoop) (alternative statement) := by
  intro a ha
  refine (runs_accept .elseWord).bind fun t? b hb => ?_
  cases t? with
  | none =>
    obtain ⟨rfl, -⟩ := hb
    exact .pure (.refl b)
  | some t =>
    obtain ⟨-, -, rfl⟩ := hb
    have hpast : n < (a.past tokens).cursor := Nat.lt_of_le_of_lt ha (a.lt_past tokens)
    refine (runs_isNext .ifWord).bind fun x b hb => ?_
    obtain ⟨rfl, -⟩ := hb
    split
    · refine (h flags hobject hbody _ hpast).bind fun s? c hc => .pure ?_
      cases s? with
      | none => exact (Remarked.past a).trans hc
      | some s => exact (Remarked.past a).trans hc
    · exact ((notes_requiredBlock hbuilds h hobject hbody).after (.past a) ha).bind
        fun body c hc => .pure hc

theorem notes_branch (hbuilds : BuildsStatements tokens (n + 1) statement)
    (h : NotesStatements tokens (n + 1) statement) (hobject : flags.noObject = false)
    (hbody : flags.inFunction = true) :
    NotesWithin tokens flags n flags.inLoop (branch statement) := by
  intro a ha
  refine (quiet_keyword flags a).bind fun word? b hb => ?_
  cases word? with
  | none => exact .pure hb
  | some word =>
    refine (notes_condition.after hb ha).bind fun condition c hc => ?_
    refine ((notes_requiredBlock hbuilds h hobject hbody).after hc ha).bind fun body d hd => ?_
    refine ((notes_alternative hbuilds h hobject hbody).after hd ha).bind
      fun alternative e he => ?_
    refine ((quiet_infoFrom _ _).after he).bind fun info f hf => .pure ?_
    rw [Remarks.optional, Option.elim_some, Statement.remarks_branch]
    exact hf

theorem notes_whileLoop (hbuilds : BuildsStatements tokens (n + 1) statement)
    (h : NotesStatements tokens (n + 1) statement) (hobject : flags.noObject = false)
    (hbody : flags.inFunction = true) :
    NotesWithin tokens flags n looped (whileLoop statement) := by
  intro a ha
  have hinside : Notes tokens flags n (Block.remarks true)
      (underFlags { inLoop := true } {} (requiredBlock statement)) := by
    let inside := flags.adjust { inLoop := true } {}
    have hloop : inside.inLoop = true := by simp [inside, Flags.adjust]
    have hturn : Notes tokens inside n (Block.remarks inside.inLoop) (requiredBlock statement) :=
      notes_requiredBlock hbuilds h (by simp [inside, Flags.adjust, hobject])
        (by simp [inside, Flags.adjust, hbody])
    rw [hloop] at hturn
    exact hturn.underFlags
  refine (quiet_keyword flags a).bind fun word? b hb => ?_
  cases word? with
  | none => exact .pure hb
  | some word =>
    refine (notes_condition.after hb ha).bind fun condition c hc => ?_
    refine (hinside.after hc ha).bind fun body d hd => ?_
    refine ((quiet_infoFrom _ _).after hd).bind fun info e he => .pure ?_
    rw [Remarks.optional, Option.elim_some, Statement.remarks_loop]
    exact he

theorem notes_nestedBlock (hbuilds : BuildsStatements tokens (n + 1) statement)
    (h : NotesStatements tokens (n + 1) statement) (hobject : flags.noObject = false)
    (hbody : flags.inFunction = true) :
    NotesWithin tokens flags n flags.inLoop (nestedBlock statement) := by
  intro a ha
  refine (notes_block hbuilds h hobject hbody a ha).bind fun body? b hb => ?_
  cases body? with
  | none => exact .pure hb
  | some body => exact .pure hb

theorem notes_anyStatement (hbuilds : BuildsStatements tokens (n + 1) statement)
    (h : NotesStatements tokens (n + 1) statement) :
    NotesStatements tokens n (anyStatement statement) := by
  intro flags hobject hbody a ha
  refine runs_nextKind.bind fun k? b hb => ?_
  obtain ⟨rfl, rfl⟩ := hb
  split
  · exact .pure (.refl b)
  · exact notes_declaration b ha
  · exact notes_branch hbuilds h hobject hbody b ha
  · exact notes_whileLoop hbuilds h hobject hbody b ha
  · exact notes_returning hbody b ha
  next hkind =>
    obtain ⟨t, ht, hkind⟩ := Option.map_eq_some_iff.mp hkind
    exact notes_jump ht (.inl hkind)
  next hkind =>
    obtain ⟨t, ht, hkind⟩ := Option.map_eq_some_iff.mp hkind
    exact notes_jump ht (.inr hkind)
  · refine (runs_objectAhead false).bind fun x c hc => ?_
    obtain ⟨rfl, -⟩ := hc
    split
    · exact notes_evaluation c ha
    · exact notes_nestedBlock hbuilds h hobject hbody c ha
  · exact notes_evaluation b ha

end

theorem notes_statementWithin (depth : Nat) (h : tokens.size < n + depth) :
    NotesStatements tokens n (statementWithin depth) := by
  induction depth generalizing n with
  | zero =>
    exact fun _ _ _ a ha => .within fun hle => absurd (Nat.le_trans ha hle) (Nat.not_le.mpr h)
  | succ depth ih =>
    have hinner : tokens.size < n + 1 + depth := by omega
    exact fun flags hobject hbody => Notes.remembered
      (notes_anyStatement (builds_statementWithin depth hinner) (ih hinner) flags hobject hbody)

theorem notes_statement : NotesStatements tokens n statement := by
  intro flags hobject hbody a ha
  refine runs_maxDepth.bind fun depth b h => ?_
  obtain ⟨rfl, rfl⟩ := h
  exact notes_statementWithin _ (by omega) flags hobject hbody b ha

end Grammar

end Reparse
