import Reparse.Proofs.NoMatch

/-!
# Well-formed entries

Every entry on file is fit to be used: it consumed nothing that it did not look at, it is younger
than the tokens it names, it holds a node of its rule, and if it holds none it has had no effect. So
an answer from the memo never takes a parse beyond the tokens that were verified.
-/

namespace Reparse

open Reparse.Parser

def Outcome.rule? : Outcome → Option Rule
  | .definition _ => some .definition
  | .statement _ => some .statement
  | .block _ => some .block
  | .expression _ => some .expression
  | .type _ => some .type
  | .noMatch => none

/-- What can be relied on when an entry is found for the token `key` and the next token that is made
will be `next`. -/
structure Entry.WellFormed (e : Entry) (key next : TokenId) : Prop where
  lookahead : 1 ≤ e.lookahead
  consumed : e.consumed ≤ e.lookahead
  key : key < e.watermark
  boundary : ∀ id, e.boundary = some id → id < e.watermark
  watermark : e.watermark ≤ next
  outcome : e.outcome = .noMatch ∨ e.outcome.rule? = some e.rule
  noMatch : e.outcome = .noMatch → e.consumed = 0 ∧ e.reports = [] ∧ e.leftover = []

variable {tokens : Array Token} {flags : Flags} {e : Entry} {i : Nat}

theorem Decisive.outcome {β : Type} [RuleNode β] {p : Parser (Option β)}
    (h : Decisive tokens flags p)
    (hrule : ∀ node : β, (RuleNode.wrap node).rule? = some (RuleNode.rule β)) (a : Trail) :
    Runs tokens flags a (Grammar.outcome p) fun o b =>
      (o = .noMatch ∧ b = a) ∨ o.rule? = some (RuleNode.rule β) := by
  refine (h a).bind fun node? b hb => .pure ?_
  cases node? with
  | none => exact .inl ⟨rfl, hb⟩
  | some node => exact .inr (hrule node)

namespace Grammar

theorem runs_ruleBody (rule : Rule) (a : Trail) :
    Runs tokens flags a (ruleBody tokens.size rule) fun o b =>
      (o = .noMatch ∧ b = a) ∨ o.rule? = some rule := by
  have hsize : tokens.size < 0 + 1 + tokens.size := by omega
  cases rule with
  | definition => exact builds_anyDefinition.decisive.outcome (fun _ => rfl) a
  | statement =>
    exact (decisive_anyStatement (decisive_statementWithin _)).outcome (fun _ => rfl) a
  | block =>
    exact (decisive_bracedStatements (decisive_statementWithin _)).outcome (fun _ => rfl) a
  | expression =>
    have hoperators : BuildsExpressions tokens 0 (operators (expressionWithin tokens.size)) :=
      builds_operators (builds_expressionWithin _ hsize)
    exact (hoperators flags).decisive.outcome (fun _ => rfl) a
  | type =>
    exact (builds_typeUnion (builds_typeWithin _ hsize)).decisive.outcome (fun _ => rfl) a

end Grammar

namespace Entry

theorem Describes.noMatch_or_rule (h : e.Describes tokens i) (hi : i ≤ tokens.size) :
    (e.outcome = .noMatch ∧ e.consumed = 0 ∧ e.reports = [] ∧ e.leftover = []) ∨
      e.outcome.rule? = some e.rule := by
  have hruns : Runs tokens e.flags _ (Grammar.ruleBody tokens.size e.rule) _ :=
    Grammar.runs_ruleBody e.rule (ParseState.bare tokens i).trail
  obtain ⟨-, hrun⟩ := hruns (.bare tokens i) ⟨rfl, .empty, hi⟩ rfl
  change ((e.bareRun tokens i).1 = .noMatch ∧
    (e.bareRun tokens i).2.trail = (ParseState.bare tokens i).trail) ∨
      (e.bareRun tokens i).1.rule? = some e.rule at hrun
  rw [← h.outcome] at hrun
  refine hrun.imp_left fun ⟨houtcome, htrail⟩ => ?_
  have hcursor : (e.bareRun tokens i).2.cursor = i := congrArg Trail.cursor htrail
  have hcomments : (e.bareRun tokens i).2.comments = [] := congrArg Trail.comments htrail
  have hreports : (e.bareRun tokens i).2.reports.toList = [] := congrArg Trail.reports htrail
  have hconsumed := h.consumed
  refine ⟨houtcome, by omega, ?_, h.leftover.trans hcomments⟩
  rw [← h.reports] at hreports
  exact hreports

end Entry

theorem SoundFrom.wellFormed {next key n : TokenId} {A : Array Token}
    (h : SoundFrom tokens next key e A n i) : e.WellFormed key next := by
  have hpos := h.filed.lookahead
  have hi := Nat.le_of_lt (lt_of_idAt h.filed.key)
  have hcases := h.filed.describes.noMatch_or_rule hi
  have hnone : e.outcome = .noMatch → e.outcome.rule? ≠ some e.rule := by
    intro heq hrule
    rw [heq] at hrule
    cases hrule
  exact
    { lookahead := hpos
      consumed := h.filed.describes.consumed_le hi
      key := h.lt_watermark (d := 0) hpos h.filed.key
      boundary := fun id hid => h.lt_watermark (by omega) (h.filed.boundary_eq.symm.trans hid)
      watermark := Nat.le_trans h.filed.watermark h.next_le
      outcome := hcases.imp_left And.left
      noMatch := fun heq => (hcases.resolve_right (hnone heq)).2 }

theorem Sound.wellFormed {next key : TokenId} (h : Sound tokens next key e) :
    e.WellFormed key next := by
  obtain ⟨A, n, i, hfrom⟩ := h
  exact hfrom.wellFormed

theorem Entry.WellFormed.verify_index {look : Nat → Option TokenId} {key next : TokenId}
    (h : e.WellFormed key next) (hholds : e.holdsAt look i = true) :
    (e.verify look i).2 + 1 = i + e.lookahead := by
  have hpos := h.lookahead
  rw [Entry.verify, Entry.verifyFrom_index hholds]
  omega

namespace Session

/-- Every entry on file is well formed, between parses and in the midst of one. Where one that holds
answers a rule, the parse goes on within the tokens that were verified, and within those there are:
the cursor comes to stand behind the last of them at most, and that is how far the rule counts as
having looked. -/
theorem wellFormed_run (source : Text) (ops : List SessionOp) :
    let σ := (ofSource source).run ops
    let tokens := σ.stream.readAll.tokens
    (∀ key, ∀ e ∈ σ.memo.bucket key, e.WellFormed key σ.stream.nextId) ∧
      ∀ (β : Type) [RuleNode β] (body : Parser (Option β)) (flags : Flags) (s : ParseState)
        (t : Token) (e : Entry), σ.Parses s → tokens[s.cursor]? = some t →
        s.memo.get? t.id (RuleNode.rule β) flags = some e →
        e.WellFormed t.id σ.stream.readAll.nextId ∧
          let last := (e.verify (idAt tokens) s.cursor).2
          let after := ((remembered body).eval (σ.context flags) s).2
          ((e.verify (idAt tokens) s.cursor).1 = true → last + 1 = s.cursor + e.lookahead ∧
            after.cursor = s.cursor + e.consumed ∧ after.cursor ≤ last + 1 ∧
            after.cursor ≤ tokens.size ∧ after.reach = max s.reach last) := by
  intro σ tokens
  have hσ : σ.Valid := (valid_ofSource source).run ops
  refine ⟨fun key e he => (hσ.memo key e he).wellFormed, ?_⟩
  intro β _ body flags s t e hs ht hget
  have hsound := hσ.sound (hs.memo _ _ (Memo.mem_bucket_of_get? hget).1)
  refine ⟨hsound.wellFormed, fun hholds => ?_⟩
  have hkey : idAt tokens s.cursor = some t.id := idAt_eq_some ht
  have hlast := hsound.wellFormed.verify_index hholds
  have hdescribes := hσ.trusted_onFile.describes
    (hs.memo _ _ (Memo.mem_bucket_of_get? hget).1) hkey hholds
  have hle := hsound.wellFormed.consumed
  have hsize := hdescribes.within (Nat.le_of_lt (lt_of_idAt hkey))
  obtain ⟨read, heval⟩ := eval_remembered_hit (c := σ.context flags) body ht hget hholds
  rw [heval]
  refine ⟨hlast, rfl, ?_, hsize, ?_⟩
  · change s.cursor + e.consumed ≤ _
    omega
  · change max s.reach (s.cursor + e.lookahead - 1) = _
    rw [← hlast, Nat.add_sub_cancel]

theorem wellFormed_run_broken_off :
    let σ := (ofSource ['l', 'e', 't']).run [.parse]
    ∃ e ∈ σ.memo.bucket 0, e.WellFormed 0 σ.stream.nextId ∧
      (Grammar.definition.eval (σ.context {}) σ.start).2.cursor ≤
        (e.verify (idAt σ.stream.readAll.tokens) 0).2 + 1 := by
  have hwell := wellFormed_run ['l', 'e', 't'] [.parse]
  have htoken : (((ofSource ['l', 'e', 't']).run [.parse]).stream.readAll.tokens[0]?.map
      Token.id) = some 0 := by decide +kernel
  have hholds : (((ofSource ['l', 'e', 't']).run [.parse]).memo.get? 0 .definition {}).map
      (fun e => (e.verify (idAt ((ofSource ['l', 'e', 't']).run [.parse]).stream.readAll.tokens)
        0).1) = some true := by decide +kernel
  -- what the session has come to is not to be computed any more
  generalize (ofSource ['l', 'e', 't']).run [.parse] = σ at hwell htoken hholds ⊢
  obtain ⟨hfiled, hanswers⟩ := hwell
  obtain ⟨t, ht, hid⟩ := Option.map_eq_some_iff.mp htoken
  obtain ⟨e, he, hverified⟩ := Option.map_eq_some_iff.mp hholds
  have hmem : e ∈ σ.memo.bucket 0 := (Memo.mem_bucket_of_get? he).1
  rw [← hid] at he
  obtain ⟨-, hanswer⟩ :=
    hanswers (Definition Info) Grammar.anyDefinition {} σ.start t e (parses_start σ) ht he
  exact ⟨e, hmem, hfiled 0 e hmem, (hanswer hverified).2.2.1⟩

end Session

end Reparse
