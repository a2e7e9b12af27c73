import Reparse.Proofs.Grammar.Build.Expressions

/-!
# What the rules for statements build

No statement stands where a brace must not open an object literal, so the next token tells whether a
statement starts. A block divides the tokens behind its opening brace into those of its statements
and skipped runs.
-/

namespace Reparse

open Reparse.Parser

variable {β : Type} {tokens : Array Token} {flags : Flags} {a b c : Trail} {n : Nat} {t : Token}
  {claimed : List Token}

theorem Opened.stray_if (h : Opened tokens a b t claimed) {misplaced : Bool}
    {rest : Unit → Parser β} {R : β → Trail → Prop}
    (hrest : ∀ c, Since tokens a c t claimed [] → Runs tokens flags c (rest ()) R) :
    Runs tokens flags b
      (if misplaced = true then reportStray t .strayToken >>= rest else rest ()) R := by
  split
  · refine (runs_reportStray t .strayToken).bind fun _ c hc => ?_
    subst hc
    exact hrest _ h.stray
  · exact hrest b h.since

theorem Requires.closing {k : Kind} {t? : Option Token} {last : Token}
    (h : Requires tokens a k t? b) (hfinished : Finished tokens (some k) a)
    (hlast : tokens[b.cursor - 1]? = some last) :
    reals tokens a.cursor = [] ∨
      last.kind = k ∧ ∃ rest, reals tokens a.cursor = last :: rest := by
  rcases hfinished with hnone | ⟨u, hu, hkind⟩
  · exact .inl (reals_of_next_none hnone)
  · have hk : u.kind = k := (Option.some.inj hkind).symm
    cases t? with
    | none =>
      refine absurd ?_ h.1
      rw [hu, Option.map_some, hk]
    | some v =>
      obtain ⟨hv, -, rfl⟩ := h
      obtain rfl : last = u := Option.some.inj (hlast.symm.trans hu)
      exact .inr ⟨hk, _, reals_of_next hu⟩

theorem Opened.closes_block {view : β → Outline Info} {xs : List β} {d : Trail}
    {brace? : Option Token} (h : Opened tokens a b t claimed) (hkind : t.kind = .leftBrace)
    (hitems : Recovers tokens Grammar.startsStatement (KindSet.statementEnds.insert .rightBrace)
      .strayToken b view xs c)
    (hfinished : Finished tokens (some .rightBrace) c)
    (hbrace : Requires tokens c .rightBrace brace? d) :
    Runs tokens flags d (infoFrom t claimed) fun info e =>
      Built tokens a e (.node .block none (some info) (xs.map view)) := by
  obtain ⟨f, strays, hwalk, hdivided, hinput, hstrays⟩ := hitems
  obtain ⟨g, hg, hnone⟩ := hbrace.advances
  have hinside := (h.walk.trans hwalk).trans hg
  rw [List.nil_append, List.append_nil] at hinside
  have hempty : ({} ++ f ++ g : Findings).input = [] := by
    change [] ++ f.input ++ g.input = []
    rw [hinput, hnone]
    rfl
  have hpast : nextReal tokens a.cursor < d.cursor :=
    Nat.lt_of_lt_of_le h.since.past (Nat.le_trans hwalk.le hg.le)
  have hsince : Since tokens a d t claimed (xs.map view) :=
    ⟨.of_walk hinside hempty, h.first, hpast⟩
  have hreals : reals tokens 0 = (stretch tokens 0 a.cursor).filter (fun t => !t.isTrivia) ++
      t :: reals tokens b.cursor := by
    rw [← filter_stretch_append_reals (Nat.zero_le a.cursor), reals_of_next h.first, h.cursor]
  refine hsince.infoFrom.weaken fun info e he => ?_
  obtain ⟨rfl, last, hlast, rfl⟩ := he
  have hblock : Outline.BlockDivided tokens ({} ++ f ++ g : Findings).reports
      (.node .block none (some ⟨some ⟨t, last⟩, claimed⟩) (xs.map view)) := by
    intro e _ he
    obtain rfl : ⟨t, last⟩ = e := Option.some.inj he
    exact ⟨hkind, _, _, strays, _, hreals, hdivided, hbrace.closing hfinished hlast,
      fun u hu => List.mem_append_left _ (hstrays u hu)⟩
  exact ⟨_, rfl, hlast, .of_walk (hinside.close (List.append_nil claimed) h.first hpast hlast
    ⟨nofun, nofun⟩ nofun hblock) hempty, h.first, hpast⟩

namespace Grammar

theorem runs_keyword (ht : a.next? tokens = some t) :
    Runs tokens flags a keyword fun word? b =>
      ∃ comments, word? = some (t, comments) ∧ Opened tokens a b t comments := by
  refine (runs_consume_next ht).bind fun t? b h => ?_
  obtain ⟨rfl, rfl⟩ := h
  exact (Opened.of_next ht).claims.bind fun comments c hc => .pure ⟨comments, rfl, hc⟩

theorem makes_condition : Makes tokens flags n (fun x => [x.outline]) condition :=
  makes_requiredExpression.underFlags

theorem makes_annotation? : Makes tokens flags n
    (fun type? => (type?.map TypeExpression.outline).toList) annotation? := makes_markedType .colon

theorem makes_assigned : Makes tokens flags n (fun x => [x.outline])
    (behind .assign requiredExpression .missing) :=
  makes_behind makes_requiredExpression fun _ ho =>
    List.mem_singleton.mp ho ▸ Outline.absent_expression

abbrev BuildsFrom (tokens : Array Token) (flags : Flags) (n : Nat) (rule : StatementRule) : Prop :=
  ∀ a t, a.next? tokens = some t → n ≤ a.cursor →
    Runs tokens flags a rule fun s? b => ∃ s, s? = some s ∧ Built tokens a b s.outline

theorem builds_declaration : BuildsFrom tokens flags n declaration := by
  intro a t ht hn
  refine (runs_keyword ht).bind fun word? b hb => ?_
  obtain ⟨comments, rfl, hb⟩ := hb
  refine (makes_requiredIdentifier.since hb.since hn).bind fun name c hc => ?_
  refine (makes_annotation?.since hc hn).bind fun type? d hd => ?_
  refine (makes_assigned.since hd hn).bind fun value e he => ?_
  exact (he.require .semicolon).bind fun _ f hf => hf.closes fun info hnode =>
    .pure ⟨_, rfl, hnode .declare none rfl⟩

theorem makes_returned : Makes tokens flags n
    (fun value? => (value?.map Expression.outline).toList) returned := by
  intro a ha
  refine runs_nextKind.bind fun k? b h => ?_
  obtain ⟨rfl, rfl⟩ := h
  split
  · exact .pure (.refl b)
  · exact .pure (.refl b)
  · exact .pure (.refl b)
  · refine (builds_expression flags b ha).weaken fun value? c hc => ?_
    cases value? with
    | none =>
      obtain ⟨rfl, -⟩ := hc
      exact .refl c
    | some value => exact hc.1.advances

theorem builds_returning : BuildsFrom tokens flags n returning := by
  intro a t ht hn
  refine (runs_keyword ht).bind fun word? b hb => ?_
  obtain ⟨comments, rfl, hb⟩ := hb
  refine runs_flags.bind fun f b' hf => ?_
  obtain ⟨rfl, -⟩ := hf
  refine hb.stray_if fun c hc => (makes_returned.since hc hn).bind fun value? d hd => ?_
  exact (hd.require .semicolon).bind fun _ e he => he.closes fun info hnode =>
    .pure ⟨_, rfl, hnode .return none rfl⟩

theorem builds_jump : BuildsFrom tokens flags n jump := by
  intro a t ht hn
  refine (runs_keyword ht).bind fun word? b hb => ?_
  obtain ⟨comments, rfl, hb⟩ := hb
  refine runs_flags.bind fun f b' hf => ?_
  obtain ⟨rfl, -⟩ := hf
  refine hb.stray_if fun c hc => ?_
  refine (hc.require .semicolon).bind fun _ d hd => hd.closes fun info hnode =>
    .pure ⟨_, rfl, ?_⟩
  split
  · exact hnode .break none rfl
  · exact hnode .continue none rfl

theorem runs_assignable {target : Expression Info} {nodes : List (Outline Info)}
    (h : Advances tokens a b [] (target.outline :: nodes))
    (hr : target.isAssignable = false → Rejected tokens target) :
    Runs tokens flags b (assignable target) fun x c =>
      c.cursor = b.cursor ∧ Advances tokens a c [] (x.outline :: nodes) := by
  unfold assignable
  split
  · exact .pure ⟨rfl, h⟩
  next hassignable =>
    have hrejected := hr (Bool.eq_false_iff.mpr hassignable)
    obtain ⟨e, he⟩ := Option.isSome_iff_exists.mp hrejected.lies
    have hextent : target.info?.bind Info.extent? = some e := target.extent?_outline ▸ he
    obtain ⟨f, hf, hinput⟩ := h
    have hrejection := Report.rejection_eq he
    simp only [hextent]
    refine (runs_report _ _ _).bind fun _ c hc => .pure ?_
    subst hc
    refine ⟨rfl, .of_walk (hrejection ▸ hf.reject hrejected) ?_⟩
    change f.input ++ [] = []
    rw [hinput]
    rfl

theorem builds_evaluation : Builds tokens flags n
    (fun i => startsExpression flags (kindsFrom tokens i) = true) Statement.outline evaluation := by
  intro a ha
  -- The run is kept in sight: a rejected target has to be known as what some run read.
  refine (builds_expression flags a ha).traced.bind fun value? b h => ?_
  obtain ⟨hvalue, s, s', hs, heval, htrail⟩ := h
  cases value? with
  | none => exact .pure hvalue
  | some value =>
    obtain ⟨⟨e, he, -, hsince⟩, hstarts⟩ := hvalue
    have hextent : value.info?.bind Info.extent? = some e := value.extent?_outline ▸ he
    simp only [hextent]
    refine (runs_accept .assign).bind fun t? c hc => ?_
    cases t? with
    | none =>
      obtain ⟨rfl, -⟩ := hc
      exact (hsince.require .semicolon).bind fun _ d hd => hd.closes fun info hnode =>
        .pure ⟨hnode .evaluate none rfl, hstarts⟩
    | some t =>
      obtain ⟨ht, hkind, rfl⟩ := hc
      have hassign : (s'.trail.next? tokens).map Token.kind = some .assign := by
        rw [htrail, ht, Option.map_some, hkind]
      have hbehind := hsince.next (.past ht)
      have hn : n ≤ (b.past tokens).cursor := Nat.le_trans ha hbehind.advances.le
      refine (makes_requiredExpression _ hn).bind fun assigned d hd => ?_
      have hassigned := hbehind.trans hd
      refine (runs_assignable hassigned.advances fun hnot =>
        ⟨hnot, Option.isSome_of_eq_some he, flags, s, s', hs, heval, hassign⟩).bind
          fun target f hf => ?_
      have htarget : Since tokens a f e.first [] [target.outline, assigned.outline] :=
        ⟨hf.2, hsince.first, hf.1.symm ▸ hassigned.past⟩
      refine (htarget.require .semicolon).bind fun _ g hg => ?_
      exact hg.closes fun info hnode => .pure ⟨hnode .assign none rfl, hstarts⟩

def opensBlock (k : Kind) : Bool := k = .leftBrace

abbrev BuildsStatements (tokens : Array Token) (n : Nat) (rule : StatementRule) : Prop :=
  ∀ flags : Flags, flags.noObject = false →
    Builds tokens flags n (Leads tokens startsStatement) Statement.outline rule

section

variable {statement : StatementRule}

theorem builds_bracedStatements (hstatement : BuildsStatements tokens (n + 1) statement)
    (hflags : flags.noObject = false) :
    Builds tokens flags n (Leads tokens opensBlock) Block.outline (bracedStatements statement) := by
  intro a ha
  refine (runs_accept .leftBrace).bind fun t? b h => ?_
  cases t? with
  | none =>
    obtain ⟨rfl, hne⟩ := h
    exact .pure ⟨rfl, not_leads_of_ne hne fun _ => of_decide_eq_true⟩
  | some t =>
    obtain ⟨ht, hkind, rfl⟩ := h
    refine (Opened.of_next ht).claims.bind fun comments b hb => ?_
    refine (runs_recovering rfl rfl rfl rfl (hstatement flags hflags)
      (Nat.lt_of_le_of_lt ha hb.since.lt)).bind fun statements c hc => ?_
    refine (runs_require .rightBrace).bind fun brace? d hd => ?_
    refine (hb.closes_block hkind hc.1 hc.2 hd).bind fun info e he => .pure ⟨?_, t, ht, ?_⟩
    · rw [Block.outline, Statement.outlines_eq]
      exact he
    · exact decide_eq_true hkind

theorem builds_block (hstatement : BuildsStatements tokens (n + 1) statement)
    (hflags : flags.noObject = false) :
    Builds tokens flags n (Leads tokens opensBlock) Block.outline (block statement) :=
  (builds_bracedStatements hstatement hflags).remembered

theorem makes_requiredBlock (hstatement : BuildsStatements tokens (n + 1) statement)
    (hflags : flags.noObject = false) :
    Makes tokens flags n (fun x => [x.outline]) (requiredBlock statement) :=
  (builds_block hstatement hflags).required rfl Outline.absent_block

theorem makes_alternative (hstatement : BuildsStatements tokens (n + 1) statement)
    (hflags : flags.noObject = false) :
    Makes tokens flags n Alternative.outlines (alternative statement) := by
  intro a ha
  refine (runs_accept .elseWord).bind fun t? b h => ?_
  cases t? with
  | none =>
    obtain ⟨rfl, -⟩ := h
    exact .pure (.refl b)
  | some t =>
    obtain ⟨ht, -, rfl⟩ := h
    have hpast : Advances tokens a (a.past tokens) [] [] := .past ht
    refine (runs_isNext .ifWord).bind fun x c hc => ?_
    obtain ⟨rfl, -⟩ := hc
    split
    · have hn : n + 1 ≤ (a.past tokens).cursor := Nat.lt_of_le_of_lt ha (Opened.of_next ht).since.lt
      refine (hstatement flags hflags _ hn).bind fun s? d hd => .pure ?_
      cases s? with
      | none =>
        obtain ⟨rfl, -⟩ := hd
        exact hpast
      | some s => exact hpast.trans hd.1.advances
    · exact ((makes_requiredBlock hstatement hflags).behind hpast ha).bind fun body d hd => .pure hd

theorem builds_branch (hstatement : BuildsStatements tokens (n + 1) statement)
    (hflags : flags.noObject = false) : BuildsFrom tokens flags n (branch statement) := by
  intro a t ht hn
  have hwithin : BuildsStatements tokens (n + 1 + 1) statement := fun flags hflags =>
    (hstatement flags hflags).mono (Nat.le_succ _)
  refine (runs_keyword ht).bind fun word? b hb => ?_
  obtain ⟨comments, rfl, hb⟩ := hb
  refine (makes_condition.since hb.since hn).bind fun condition c hc => ?_
  refine ((makes_requiredBlock hwithin hflags).since hc hn).bind fun body d hd => ?_
  refine ((makes_alternative hwithin hflags).since hd hn).bind fun alternative e he => ?_
  exact he.closes fun info hnode => .pure ⟨_, rfl, hnode .branch none rfl⟩

theorem builds_whileLoop (hstatement : BuildsStatements tokens (n + 1) statement)
    (hflags : flags.noObject = false) : BuildsFrom tokens flags n (whileLoop statement) := by
  intro a t ht hn
  have hwithin : BuildsStatements tokens (n + 1 + 1) statement := fun flags hflags =>
    (hstatement flags hflags).mono (Nat.le_succ _)
  have hinside : (flags.adjust { inLoop := true } {}).noObject = false := by
    simp [Flags.adjust, hflags]
  refine (runs_keyword ht).bind fun word? b hb => ?_
  obtain ⟨comments, rfl, hb⟩ := hb
  refine (makes_condition.since hb.since hn).bind fun condition c hc => ?_
  refine ((makes_requiredBlock hwithin hinside).underFlags.since hc hn).bind fun body d hd => ?_
  exact hd.closes fun info hnode => .pure ⟨_, rfl, hnode .loop none rfl⟩

theorem builds_nestedBlock (hstatement : BuildsStatements tokens (n + 1) statement)
    (hflags : flags.noObject = false) :
    Builds tokens flags n (Leads tokens opensBlock) Statement.outline (nestedBlock statement) := by
  intro a ha
  refine (builds_block hstatement hflags a ha).bind fun body? b h => ?_
  cases body? with
  | none => exact .pure h
  | some body =>
    refine .pure ⟨?_, h.2⟩
    rw [Statement.outline, ← body.info?_outline]
    exact h.1.wrapped rfl

theorem startsExpression_eq {k : Kind} (ks : List Kind) (hbrace : k ≠ .leftBrace)
    (hword : k ∉ [Kind.letWord, .ifWord, .whileWord, .returnWord, .breakWord, .continueWord]) :
    startsExpression flags (k :: ks) = startsStatement k := by
  cases k <;> first | rfl | exact absurd rfl hbrace | exact absurd (by decide) hword

theorem opensObject_true {ks : List Kind} (h : opensObject false ks = true) :
    opensObject true ks = true := by
  unfold opensObject at h ⊢
  split at h
  · cases h
  · rfl
  · cases h

theorem BuildsFrom.answers {rule : StatementRule} (hrule : BuildsFrom tokens flags n rule)
    (ht : a.next? tokens = some t) (ha : n ≤ a.cursor) (hstarts : startsStatement t.kind = true) :
    Runs tokens flags a rule
      (Answers tokens a (Leads tokens startsStatement a.cursor) Statement.outline) := by
  refine (hrule a t ht ha).weaken fun s? b h => ?_
  obtain ⟨s, rfl, hs⟩ := h
  exact ⟨hs, t, ht, hstarts⟩

theorem runs_opensStatement (hstatement : BuildsStatements tokens (n + 1) statement)
    (hflags : flags.noObject = false) (ht : a.next? tokens = some t) (hk : t.kind = .leftBrace)
    (ha : n ≤ a.cursor) :
    Runs tokens flags a
      (do if ← objectAhead false then evaluation else nestedBlock statement)
      (Answers tokens a (Leads tokens startsStatement a.cursor) Statement.outline) := by
  have hkinds := kindsFrom_of_next ht
  have hstarts : Leads tokens startsStatement a.cursor := ⟨t, ht, by rw [hk]; rfl⟩
  refine (runs_objectAhead false).bind fun x b hb => ?_
  obtain ⟨rfl, rfl⟩ := hb
  split
  next hopens =>
    refine (builds_evaluation b ha).weaken fun s? c hs => ?_
    cases s? with
    | some s => exact ⟨hs.1, hstarts⟩
    | none =>
      refine absurd ?_ hs.2
      rw [hkinds, List.tail_cons] at hopens
      simp [startsExpression, startsAtom, hkinds, hk, hflags, opensObject_true hopens]
  next =>
    refine (builds_nestedBlock hstatement hflags b ha).weaken fun s? c hs => ?_
    cases s? with
    | some s => exact ⟨hs.1, hstarts⟩
    | none => exact absurd ((leads_iff ht).mpr (decide_eq_true hk)) hs.2

theorem builds_anyStatement (hstatement : BuildsStatements tokens (n + 1) statement) :
    BuildsStatements tokens n (anyStatement statement) := by
  intro flags hflags a ha
  refine runs_nextKind.bind fun k? b h => ?_
  obtain ⟨rfl, rfl⟩ := h
  cases ht : b.next? tokens with
  | none => exact .pure ⟨rfl, not_leads ht⟩
  | some t =>
    simp only [Option.map_some]
    split
    next hk => cases hk
    next hk =>
      refine builds_declaration.answers ht ha ?_
      rw [Option.some.inj hk]
      rfl
    next hk =>
      refine (builds_branch hstatement hflags).answers ht ha ?_
      rw [Option.some.inj hk]
      rfl
    next hk =>
      refine (builds_whileLoop hstatement hflags).answers ht ha ?_
      rw [Option.some.inj hk]
      rfl
    next hk =>
      refine builds_returning.answers ht ha ?_
      rw [Option.some.inj hk]
      rfl
    next hk =>
      refine builds_jump.answers ht ha ?_
      rw [Option.some.inj hk]
      rfl
    next hk =>
      refine builds_jump.answers ht ha ?_
      rw [Option.some.inj hk]
      rfl
    next hk => exact runs_opensStatement hstatement hflags ht (Option.some.inj hk) ha
    next _ k hlet hif hwhile hreturn hbreak hcontinue hbrace hk =>
      obtain rfl : t.kind = k := Option.some.inj hk
      have hequal : startsExpression flags (kindsFrom tokens b.cursor) =
          startsStatement t.kind := by
        rw [kindsFrom_of_next ht]
        refine startsExpression_eq _ hbrace ?_
        simp only [List.mem_cons, List.not_mem_nil, or_false, not_or]
        exact ⟨hlet, hif, hwhile, hreturn, hbreak, hcontinue⟩
      refine (builds_evaluation b ha).weaken fun s? c hs => ?_
      simp only [hequal, ← leads_iff ht] at hs
      exact hs

end

theorem builds_statementWithin (depth : Nat) (h : tokens.size < n + depth) :
    BuildsStatements tokens n (statementWithin depth) := by
  induction depth generalizing n with
  | zero => exact fun _ _ a ha => .within fun hle => absurd (Nat.le_trans ha hle) (Nat.not_le.mpr h)
  | succ depth ih =>
    exact fun flags hflags => (builds_anyStatement (ih (by omega)) flags hflags).remembered

theorem builds_statement : BuildsStatements tokens n statement := by
  intro flags hflags a ha
  refine runs_maxDepth.bind fun depth b h => ?_
  obtain ⟨rfl, rfl⟩ := h
  exact builds_statementWithin _ (by omega) flags hflags b ha

end Grammar

end Reparse
