import Reparse.Proofs.Parser.Skipping

/-!
# Walks

A walk is what a bare run does between two trails: the nodes it builds and the reports it makes.
Three things are kept account of. No comment is lost or found twice: each one that was passed waits,
or was claimed, or belongs to a node, be it one that was built or one that was rejected as the
target of an assignment. Reports about stray tokens and rejected targets can be told one by one. And
the nodes lie in a row on the tokens that were passed.
-/

namespace Reparse

open Reparse.Parser

def Report.stray (code : Code) (t : Token) : Report Anchor := ⟨code, [t.text], some (.token t)⟩

theorem runs_reportStray {tokens : Array Token} {flags : Flags} {a : Trail} (t : Token)
    (code : Code) : Runs tokens flags a (reportStray t code) fun _ b =>
      b = a.reported (.stray code t) :=
  runs_report _ _ _

namespace Grammar

def startsStatement (k : Kind) : Bool :=
  [Kind.integer, .float, .string, .trueWord, .falseWord, .nullWord, .identifier, .leftParen,
    .leftBracket, .leftBrace, .minus, .bang, .letWord, .ifWord, .whileWord, .returnWord, .breakWord,
    .continueWord].contains k

end Grammar

/-- An expression that was read in front of a sign of assignment, and to which nothing can be
assigned. -/
structure Rejected (tokens : Array Token) (target : Expression Info) : Prop where
  refused : target.isAssignable = false
  lies : target.outline.extent?.isSome = true
  read : ∃ flags s s', Prepared tokens s ∧
    Grammar.expression.eval (.bare tokens flags) s = (some target, s') ∧
    (s'.trail.next? tokens).map Token.kind = some .assign

def Report.rejection (target : Expression Info) : Report Anchor :=
  ⟨.notAssignable, [], target.outline.extent?.map fun e => .tokens e.first e.last⟩

theorem Report.rejection_eq {target : Expression Info} {e : Extent}
    (he : target.outline.extent? = some e) :
    rejection target = ⟨.notAssignable, [], some (.tokens e.first e.last)⟩ := by
  rw [rejection, he]
  rfl

def Outline.BlockDivided (tokens : Array Token) (reports : List (Report Anchor))
    (o : Outline Info) : Prop :=
  ∀ e, o.form = .block → o.extent? = some e →
    e.first.kind = .leftBrace ∧ ∃ before here strays after,
      reals tokens 0 = before ++ e.first :: here ∧
      Divided Grammar.startsStatement (KindSet.statementEnds.insert .rightBrace) o.children strays
        here after ∧
      (after = [] ∨ e.last.kind = .rightBrace ∧ ∃ rest, after = e.last :: rest) ∧
      ∀ t ∈ strays, Report.stray .strayToken t ∈ reports

/-- What a run found to report: all reports, the targets it rejected, and the tokens it called stray
between statements and between definitions. -/
structure Findings where
  reports : List (Report Anchor) := []
  targets : List (Expression Info) := []
  strays : List Token := []
  input : List Token := []

namespace Findings

instance : Append Findings where
  append f g :=
    ⟨f.reports ++ g.reports, f.targets ++ g.targets, f.strays ++ g.strays, f.input ++ g.input⟩

theorem append_empty (f : Findings) : f ++ {} = f := by
  obtain ⟨reports, targets, strays, input⟩ := f
  change Findings.mk _ _ _ _ = _
  simp only [List.append_nil]

def dropped (f : Findings) : List Token := f.targets.flatMap fun e => Outline.gathered [e.outline]

theorem dropped_append (f g : Findings) : (f ++ g).dropped = f.dropped ++ g.dropped :=
  List.flatMap_append

structure Told (tokens : Array Token) (f : Findings) : Prop where
  rejected : ∀ target ∈ f.targets, Rejected tokens target
  targets : (f.reports.filter fun r => r.code = .notAssignable) = f.targets.map .rejection
  strays : (f.reports.filter fun r => r.code = .strayToken) = f.strays.map (.stray .strayToken)
  input : (f.reports.filter fun r => r.code = .strayInput) = f.input.map (.stray .strayInput)

theorem told_empty (tokens : Array Token) : Told tokens {} :=
  ⟨fun _ ht => absurd ht List.not_mem_nil, rfl, rfl, rfl⟩

theorem Told.append {tokens : Array Token} {f g : Findings} (h : f.Told tokens)
    (h' : g.Told tokens) : (f ++ g).Told tokens := by
  have hreports : (f ++ g).reports = f.reports ++ g.reports := rfl
  refine ⟨fun target ht => ?_, ?_, ?_, ?_⟩
  · exact (List.mem_append.mp ht).elim (h.rejected target) (h'.rejected target)
  · rw [hreports, List.filter_append, h.targets, h'.targets, ← List.map_append]
    rfl
  · rw [hreports, List.filter_append, h.strays, h'.strays, ← List.map_append]
    rfl
  · rw [hreports, List.filter_append, h.input, h'.input, ← List.map_append]
    rfl

end Findings

def Code.isPlain (c : Code) : Bool := c ≠ .strayToken && c ≠ .strayInput && c ≠ .notAssignable

/-- The walk from trail `a` to trail `b` built the given nodes and found the given findings. The
comments in `claimed` were handed over to a node that is not finished. -/
structure Walk (tokens : Array Token) (a b : Trail) (claimed : List Token)
    (nodes : List (Outline Info)) (f : Findings) : Prop where
  le : a.cursor ≤ b.cursor
  last : a.cursor < b.cursor → ∃ t, tokens[b.cursor - 1]? = some t ∧ t.isTrivia = false
  reports : b.reports = a.reports ++ f.reports
  told : f.Told tokens
  strays : f.strays.Sublist (stretch tokens a.cursor b.cursor)
  kept : ∀ t, a.comments.count t +
      ((stretch tokens a.cursor b.cursor).filter Token.isComment).count t =
    b.comments.count t + claimed.count t + (Outline.gathered nodes).count t + f.dropped.count t
  waiting : b.comments.Sublist (a.comments ++ stretch tokens a.cursor b.cursor)
  claimed : claimed.Sublist (a.comments ++ stretch tokens a.cursor b.cursor)
  ordered : ∀ o ∈ Outline.listNodes nodes,
    o.comments.Sublist (a.comments ++ stretch tokens a.cursor b.cursor)
  row : Outline.InRow tokens a.cursor b.cursor nodes
  laid : ∀ o ∈ Outline.listNodes nodes, o.Laid tokens
  blocks : ∀ o ∈ Outline.listNodes nodes, o.BlockDivided tokens f.reports

variable {tokens : Array Token} {a b c : Trail} {claimed : List Token}
  {nodes more : List (Outline Info)} {f g : Findings}

theorem Outline.BlockDivided.mono {reports reports' : List (Report Anchor)} {o : Outline Info}
    (h : o.BlockDivided tokens reports) (hsub : reports ⊆ reports') :
    o.BlockDivided tokens reports' := by
  intro e hform he
  obtain ⟨hfirst, before, here, strays, after, hreals, hdivided, hafter, hstrays⟩ := h e hform he
  exact ⟨hfirst, before, here, strays, after, hreals, hdivided, hafter,
    fun t ht => hsub (hstrays t ht)⟩

namespace Walk

theorem refl (a : Trail) : Walk tokens a a [] [] {} where
  le := Nat.le_refl _
  last h := absurd h (Nat.lt_irrefl _)
  reports := (List.append_nil _).symm
  told := Findings.told_empty tokens
  strays := List.nil_sublist _
  kept t := by simp [Findings.dropped]
  waiting := List.sublist_append_left ..
  claimed := List.nil_sublist _
  ordered _ ho := absurd ho List.not_mem_nil
  row := Nat.le_refl _
  laid _ ho := absurd ho List.not_mem_nil
  blocks _ ho := absurd ho List.not_mem_nil

theorem trans (h : Walk tokens a b claimed nodes f) (h' : Walk tokens b c [] more g) :
    Walk tokens a c claimed (nodes ++ more) (f ++ g) := by
  have hstretch : stretch tokens a.cursor b.cursor ++ stretch tokens b.cursor c.cursor =
      stretch tokens a.cursor c.cursor := stretch_append h.le h'.le
  have hwiden : ∀ {ts : List Token}, ts.Sublist (a.comments ++ stretch tokens a.cursor b.cursor) →
      ts.Sublist (a.comments ++ stretch tokens a.cursor c.cursor) := fun hts => by
    rw [← hstretch, ← List.append_assoc]
    exact hts.trans (List.sublist_append_left ..)
  have hwiden' : ∀ {ts : List Token}, ts.Sublist (b.comments ++ stretch tokens b.cursor c.cursor) →
      ts.Sublist (a.comments ++ stretch tokens a.cursor c.cursor) := fun hts => by
    rw [← hstretch, ← List.append_assoc]
    exact hts.trans (h.waiting.append_right _)
  refine
    { le := Nat.le_trans h.le h'.le
      last := fun hlt => ?_
      reports := ?_
      told := h.told.append h'.told
      strays := ?_
      kept := fun t => ?_
      waiting := hwiden' h'.waiting
      claimed := hwiden h.claimed
      ordered := fun o ho => ?_
      row := h.row.append h'.row
      laid := fun o ho => ?_
      blocks := fun o ho => ?_ }
  · rcases Nat.eq_or_lt_of_le h'.le with heq | hlt'
    · rw [← heq] at hlt ⊢
      exact h.last hlt
    · exact h'.last hlt'
  · rw [h'.reports, h.reports, List.append_assoc]
    rfl
  · rw [← hstretch]
    exact h.strays.append h'.strays
  · -- What waits at `b` is on both sides of the balance.
    have hfirst := h.kept t
    have hsecond := h'.kept t
    simp only [← hstretch, List.filter_append, List.count_append, Outline.gathered_append,
      Findings.dropped_append, List.count_nil] at hfirst hsecond ⊢
    omega
  · rw [Outline.listNodes_append, List.mem_append] at ho
    exact ho.elim (fun ho => hwiden (h.ordered o ho)) fun ho => hwiden' (h'.ordered o ho)
  · rw [Outline.listNodes_append, List.mem_append] at ho
    exact ho.elim (h.laid o) (h'.laid o)
  · rw [Outline.listNodes_append, List.mem_append] at ho
    exact ho.elim (fun ho => (h.blocks o ho).mono (List.subset_append_left ..))
      fun ho => (h'.blocks o ho).mono (List.subset_append_right ..)

theorem next (h : Walk tokens a b claimed nodes f) (h' : Walk tokens b c [] [] {}) :
    Walk tokens a c claimed nodes f := by
  have htrans := h.trans h'
  rwa [List.append_nil, Findings.append_empty] at htrans

theorem past {t : Token} (h : a.next? tokens = some t) :
    Walk tokens a (a.past tokens) [] [] {} := by
  have hle := le_nextReal tokens a.cursor
  have hcursor : (a.past tokens).cursor = nextReal tokens a.cursor + 1 := rfl
  have hcomments : (a.past tokens).comments = a.comments ++
      (stretch tokens a.cursor (a.past tokens).cursor).filter Token.isComment := rfl
  refine
    { le := by omega
      last := fun _ => ⟨t, h, nextReal_real h⟩
      reports := (List.append_nil _).symm
      told := Findings.told_empty tokens
      strays := List.nil_sublist _
      kept := fun u => ?_
      waiting := ?_
      claimed := List.nil_sublist _
      ordered := fun _ ho => absurd ho List.not_mem_nil
      row := by change a.cursor ≤ _; omega
      laid := fun _ ho => absurd ho List.not_mem_nil
      blocks := fun _ ho => absurd ho List.not_mem_nil }
  · rw [hcomments, List.count_append]
    simp [Findings.dropped]
  · rw [hcomments]
    exact List.filter_sublist.append_left _

theorem claim (h : Walk tokens a b [] nodes f) :
    Walk tokens a { b with comments := [] } b.comments nodes f :=
  { h with
    kept := fun t => by
      have hkept := h.kept t
      simp only [List.count_nil] at hkept ⊢
      omega
    waiting := List.nil_sublist _
    claimed := h.waiting }

theorem absent (a : Trail) (h : ∀ o ∈ nodes, o.Absent) : Walk tokens a a [] nodes {} := by
  have hall : ∀ o ∈ Outline.listNodes nodes, o.Absent := by rwa [Outline.listNodes_of_absent h]
  refine
    { (refl a : Walk tokens a a [] [] {}) with
      kept := fun t => ?_
      ordered := fun o ho => ?_
      row := Outline.inRow_of_absent h (Nat.le_refl _)
      laid := fun o ho => (hall o ho).laid
      blocks := fun o ho e _ he => ?_ }
  · rw [Outline.gathered_of_absent h]
    simp [Findings.dropped]
  · rw [(hall o ho).comments]
    exact List.nil_sublist _
  · rw [(hall o ho).extent?] at he
    cases he

theorem report (a : Trail) {r : Report Anchor} (hr : r.code.isPlain = true) :
    Walk tokens a (a.reported r) [] [] { reports := [r] } := by
  simp only [Code.isPlain, Bool.and_eq_true, decide_eq_true_eq, ne_eq] at hr
  obtain ⟨⟨hstray, hinput⟩, htarget⟩ := hr
  exact
    { (refl a : Walk tokens a a [] [] {}) with
      reports := rfl
      told := ⟨fun _ ht => absurd ht List.not_mem_nil, by simp [htarget], by simp [hstray],
        by simp [hinput]⟩
      blocks := fun _ ho => absurd ho List.not_mem_nil }

theorem stray {t : Token} (h : Walk tokens a b claimed nodes {})
    (ht : t ∈ stretch tokens a.cursor b.cursor) :
    Walk tokens a (b.reported (.stray .strayToken t)) claimed nodes
      { reports := [.stray .strayToken t], strays := [t] } :=
  { h with
    reports := congrArg (· ++ [_]) (h.reports.trans (List.append_nil _))
    told := ⟨fun _ ht => absurd ht List.not_mem_nil, rfl, rfl, rfl⟩
    strays := List.singleton_sublist.mpr ht
    blocks := fun o ho => (h.blocks o ho).mono (List.nil_subset _) }

theorem strayInput (a : Trail) (t : Token) :
    Walk tokens a (a.reported (.stray .strayInput t)) [] []
      { reports := [.stray .strayInput t], input := [t] } :=
  { (refl a : Walk tokens a a [] [] {}) with
    reports := rfl
    told := ⟨fun _ ht => absurd ht List.not_mem_nil, rfl, rfl, rfl⟩
    blocks := fun _ ho => absurd ho List.not_mem_nil }

theorem reject {target : Expression Info} (h : Walk tokens a b claimed (target.outline :: nodes) f)
    (hr : Rejected tokens target) :
    Walk tokens a (b.reported (.rejection target)) claimed (Expression.missing.outline :: nodes)
      (f ++ { reports := [.rejection target], targets := [target] }) := by
  obtain ⟨e, he⟩ := Option.isSome_iff_exists.mp hr.lies
  have hall : ∀ {P : Outline Info → Prop}, P Expression.missing.outline →
      (∀ o ∈ Outline.listNodes (target.outline :: nodes), P o) →
      ∀ o ∈ Outline.listNodes (Expression.missing.outline :: nodes), P o := fun hP h =>
    Outline.forall_listNodes_cons.mpr
      ⟨hP, fun _ ho => absurd ho List.not_mem_nil, (Outline.forall_listNodes_cons.mp h).2.2⟩
  have hdropped : Findings.dropped { reports := [.rejection target], targets := [target] } =
      Outline.gathered [target.outline] := List.append_nil _
  have hsingle : Outline.gathered (target.outline :: nodes) =
      Outline.gathered [target.outline] ++ Outline.gathered nodes :=
    Outline.gathered_append [target.outline] nodes
  have hgone : Outline.gathered (Expression.missing.outline :: nodes) = Outline.gathered nodes :=
    rfl
  refine
    { h with
      reports := ?_
      told := h.told.append ⟨fun t ht => ?_, rfl, rfl, rfl⟩
      strays := ?_
      kept := fun t => ?_
      ordered := hall (List.nil_sublist _) h.ordered
      row := ?_
      laid := hall Outline.absent_expression.laid h.laid
      blocks := hall (fun e hform => nomatch hform) fun o ho =>
        (h.blocks o ho).mono (List.subset_append_left ..) }
  · rw [Trail.reported, h.reports, List.append_assoc]
    rfl
  · rwa [List.mem_singleton.mp ht]
  · change (f.strays ++ []).Sublist _
    rw [List.append_nil]
    exact h.strays
  · -- The comments of the target go over from what was gathered to what was dropped.
    have hkept := h.kept t
    rw [hsingle, List.count_append] at hkept
    rw [hgone, Findings.dropped_append, hdropped, List.count_append]
    simp only [Trail.reported]
    omega
  · obtain ⟨k, l, hk, hspans, hrow⟩ := (Outline.inRow_cons_of_some he nodes).mp h.row
    rw [Outline.inRow_cons_of_none rfl]
    have hle := hspans.le
    exact hrow.room (by omega)

theorem lt_of_reals (h : Walk tokens a b claimed nodes f)
    (hreals : reals tokens a.cursor ≠ reals tokens b.cursor) : a.cursor < b.cursor :=
  Nat.lt_of_le_of_ne h.le fun heq => hreals (congrArg (reals tokens) heq)

theorem spans {first last : Token} (h : Walk tokens a b claimed nodes f)
    (hmoved : a.cursor < b.cursor) (hfirst : a.next? tokens = some first)
    (hlast : tokens[b.cursor - 1]? = some last) :
    Extent.Spans tokens ⟨first, last⟩ (nextReal tokens a.cursor) (b.cursor - 1) ∧
      Outline.InRow tokens (nextReal tokens a.cursor) (b.cursor - 1 + 1) nodes := by
  have hreal : last.isTrivia = false := by
    obtain ⟨t, ht, hreal⟩ := h.last hmoved
    obtain rfl : last = t := Option.some.inj (hlast.symm.trans ht)
    exact hreal
  have hle : nextReal tokens a.cursor ≤ b.cursor - 1 :=
    nextReal_le_of_real (Nat.le_sub_one_of_lt hmoved) hlast hreal
  have hcursor : b.cursor - 1 + 1 = b.cursor := by omega
  refine ⟨⟨hle, hfirst, hlast, nextReal_real hfirst, hreal⟩, ?_⟩
  rw [hcursor]
  exact h.row.nextReal (by omega)

theorem close {form : Form} {first last : Token} {text? : Option Text} {own left : List Token}
    (h : Walk tokens a b claimed nodes f) (hown : own ++ left = claimed)
    (hfirst : a.next? tokens = some first) (hpast : nextReal tokens a.cursor < b.cursor)
    (hlast : tokens[b.cursor - 1]? = some last)
    (hform : form ≠ .missingExpression ∧ form ≠ .missingType)
    (hname : form = .identifier → text? = some first.text)
    (hblock : Outline.BlockDivided tokens f.reports
      (.node form text? (some ⟨some ⟨first, last⟩, own⟩) nodes)) :
    Walk tokens a b left [.node form text? (some ⟨some ⟨first, last⟩, own⟩) nodes] f := by
  have hle := le_nextReal tokens a.cursor
  obtain ⟨hspans, hrow⟩ := h.spans (Nat.lt_of_le_of_lt hle hpast) hfirst hlast
  have hall : ∀ {P : Outline Info → Prop},
      P (.node form text? (some ⟨some ⟨first, last⟩, own⟩) nodes) →
      (∀ o ∈ Outline.listNodes nodes, P o) →
      ∀ o ∈ Outline.listNodes [Outline.node form text? (some ⟨some ⟨first, last⟩, own⟩) nodes],
        P o := fun hP h =>
    Outline.forall_listNodes_cons.mpr ⟨hP, h, fun _ ho => absurd ho List.not_mem_nil⟩
  subst hown
  refine
    { h with
      kept := fun t => ?_
      claimed := (List.sublist_append_right own left).trans h.claimed
      ordered := hall ((List.sublist_append_left own left).trans h.claimed) h.ordered
      row := ?_
      laid := hall ?_ h.laid
      blocks := hall hblock h.blocks }
  · have hkept := h.kept t
    rw [List.count_append] at hkept
    rw [Outline.gathered_node, List.count_append]
    dsimp only
    omega
  · rw [Outline.inRow_cons_of_some rfl]
    exact ⟨_, _, hle, hspans, Nat.succ_le_of_lt (Nat.sub_one_lt (by omega))⟩
  · refine ⟨fun hinfo => absurd hinfo (Option.some_ne_none _), ?_⟩
    rintro info ⟨⟩
    exact ⟨hform.1, hform.2, _, _, _, rfl, hspans, hrow, hname⟩

theorem framed (h : Walk tokens { a with comments := [] } b claimed nodes f) :
    Walk tokens a (a.behind b) claimed nodes f := by
  have hwiden : ∀ {ts : List Token}, ts.Sublist ([] ++ stretch tokens a.cursor b.cursor) →
      ts.Sublist (a.comments ++ stretch tokens a.cursor b.cursor) := fun hts =>
    hts.trans (List.sublist_append_right ..)
  exact
    { h with
      kept := fun t => by
        have hkept := h.kept t
        simp only [Trail.behind, List.count_append, List.count_nil] at hkept ⊢
        omega
      waiting := List.Sublist.append (List.Sublist.refl _) h.waiting
      claimed := hwiden h.claimed
      ordered := fun o ho => hwiden (h.ordered o ho) }

end Walk

end Reparse
