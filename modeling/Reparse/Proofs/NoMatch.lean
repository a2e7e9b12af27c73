import Reparse.Proofs.Grammar.Headway
import Reparse.Proofs.MemoTransparency

/-!
# Rules that do not match

A rule that gives nothing has had no effect, and one that gives a node has made headway. This holds
in the middle of a parse as well as at its beginning, whatever is on file from earlier parses:
answered from the memo or run, a rule leaves behind what a bare run of it would.
-/

namespace Reparse

open Reparse.Parser Reparse.Grammar

section

variable {β : Type} (c : ParseContext) (i : Nat) (s : ParseState)

theorem readPast_cursor : (readPast c i s).cursor = s.cursor := rfl

theorem readPast_readPast : readPast c i (readPast c i s) = readPast c i s := by
  have hread : max (max s.read (min (i + 1) c.tokens.size)) (min (i + 1) c.tokens.size) =
      max s.read (min (i + 1) c.tokens.size) := by omega
  simp only [readPast, hread]

theorem looked_readPast (hi : i ≤ nextReal c.tokens s.cursor) :
    looked c.tokens (readPast c i s) = looked c.tokens s := by
  have hread : max (max s.read (min (i + 1) c.tokens.size))
      (min (nextReal c.tokens s.cursor + 1) c.tokens.size) =
      max s.read (min (nextReal c.tokens s.cursor + 1) c.tokens.size) := by omega
  simp only [looked, readPast, hread]

end

/-- The parser starts by reading on to the token at the cursor, so that having read that far before
changes nothing. -/
def ReadsOn {β : Type} (p : Parser β) : Prop :=
  ∀ c s, p.eval c (readPast c s.cursor s) = p.eval c s

namespace ReadsOn

variable {β : Type}

theorem of_looks {p : Parser β} (h : Looks p) : ReadsOn p := by
  intro c s
  rw [← h c s, ← h c (readPast c s.cursor s), looked_readPast _ _ _ (le_nextReal ..)]

theorem consume : ReadsOn Parser.consume := by
  intro c s
  rw [eval_consume, eval_consume, looked_readPast _ _ _ (le_nextReal ..), readPast_cursor]

theorem remembered [RuleNode β] (body : Parser (Option β)) : ReadsOn (remembered body) := by
  intro c s
  simp only [Parser.remembered, eval_bind, eval_get, eval_tokenAt, readPast_cursor,
    readPast_readPast]

theorem nested [RuleNode β] [Renumber β] {within : Nat → Parser (Option β)}
    {body : Parser (Option β) → Parser (Option β)} (h : Nesting within body) :
    ReadsOn (maxDepth >>= within) := by
  intro c s
  rw [eval_maxDepth, eval_maxDepth, h.succ]
  exact remembered (body (within c.tokens.size)) c s

end ReadsOn

namespace Grammar.Nonterminal

theorem readsOn (n : Nonterminal) : ReadsOn n.parser := by
  have hidentifier : Looks Grammar.identifier := (Looks.accept .identifier).bind
  cases n with
  | definition => exact .remembered anyDefinition
  | statement => exact .nested nesting_statement
  | block => exact .remembered (bracedStatements Grammar.statement)
  | expression => exact .nested nesting_expression
  | type => exact .nested nesting_type
  | identifier => exact .of_looks hidentifier
  | parameter => exact .of_looks hidentifier.bind
  | objectField => exact .of_looks hidentifier.bind
  | recordField => exact .of_looks hidentifier.bind

instance (n : Nonterminal) : Renumber n.Node :=
  match n with
  | .definition => inferInstanceAs (Renumber (Definition Info))
  | .statement => inferInstanceAs (Renumber (Statement Info))
  | .block => inferInstanceAs (Renumber (Block Info))
  | .expression => inferInstanceAs (Renumber (Expression Info))
  | .type => inferInstanceAs (Renumber (TypeExpression Info))
  | .identifier => inferInstanceAs (Renumber (Identifier Info))
  | .parameter => inferInstanceAs (Renumber (Parameter Info))
  | .objectField => inferInstanceAs (Renumber (Field Info (Expression Info)))
  | .recordField => inferInstanceAs (Renumber (Field Info (TypeExpression Info)))

theorem alike {w : Window} {m : Nat} (n : Nonterminal) : AlikeRule w m n.parser n.parser := by
  cases n with
  | definition => exact alike_definition
  | statement => exact alike_statement
  | block => exact alike_block fun _ _ => nested_statement
  | expression => exact alike_expression
  | type => exact alike_typeExpression
  | identifier => exact alike_identifier
  | parameter => exact alike_parameter
  | objectField => exact alike_field (fun _ _ => alike_requiredExpression) rfl
  | recordField => exact alike_field (fun _ _ => alike_requiredType) rfl

end Grammar.Nonterminal

/-- A state in the midst of a parse over `tokens`, of which `known` had been read before. Tokens are
read before they are looked at or consumed, and the entries on file are of the kind `E`. Comments,
reports and counts may be any. -/
structure Parsing (tokens : Array Token) (known : Nat) (E : TokenId → Entry → Prop)
    (s : ParseState) : Prop where
  cursor : s.cursor ≤ s.read
  read : s.read ≤ tokens.size
  since : known ≤ s.read
  reach : s.cursor ≤ s.reach + 1
  seen : s.reach = 0 ∨ s.reach < s.read ∨ s.reach = tokens.size ∧ s.read = tokens.size
  memo : s.memo.Keeps E

namespace Parsing

variable {tokens : Array Token} {known : Nat} {E : TokenId → Entry → Prop} {s : ParseState}
  {next : TokenId} {β : Type} [Renumber β] {p : Parser (Option β)}

theorem back (h : Parsing tokens known E s) {i : Nat} (hi : i ≤ s.cursor) (comments : List Token)
    (reports : Array (Report Anchor)) :
    Parsing tokens known E { s with cursor := i, comments := comments, reports := reports } :=
  { h with
    cursor := Nat.le_trans hi h.cursor
    reach := Nat.le_trans hi h.reach }

theorem look (h : Parsing tokens known E s) : Parsing tokens known E (looked tokens s) := by
  obtain ⟨hcursor, hread, hsince, hreach, hseen, hmemo⟩ := h
  have hsize := nextReal_le_size (Nat.le_trans hcursor hread)
  exact
    { cursor := Nat.le_trans hcursor (Nat.le_max_left ..)
      read := Nat.max_le.mpr ⟨hread, Nat.min_le_right ..⟩
      since := Nat.le_trans hsince (Nat.le_max_left ..)
      reach := Nat.le_trans hreach (Nat.succ_le_succ (Nat.le_max_left ..))
      seen := by
        simp only [looked]
        omega
      memo := hmemo }

def bareState (tokens : Array Token) (s : ParseState) : ParseState :=
  { s with read := tokens.size, memo := .empty }

theorem prepared (h : Parsing tokens known E s) : Prepared tokens (bareState tokens s) :=
  ⟨rfl, .empty, Nat.le_trans h.cursor h.read⟩

theorem twins (h : Parsing tokens known E s) (hfresh : Ascending tokens known)
    (hnext : ∀ t ∈ tokens, t.id < next) (flags : Flags) :
    Twins (.same tokens 0) next E (bareState tokens s)
      (readPast ⟨tokens, next, flags⟩ s.cursor s) (bareState tokens s)
      (readPast ⟨tokens, next, flags⟩ s.cursor s) where
  cursor := rfl
  reach := rfl
  comments := (Renumber.renumber_id s.comments).symm
  reports := ⟨#[], by simp [bareState], by simp [readPast]⟩
  left_read := rfl
  left_cursor := Nat.le_trans h.cursor h.read
  left_reach := h.reach
  left_memo := .empty
  right_cursor := Nat.le_trans h.cursor (Nat.le_max_left ..)
  right_read := Nat.max_le.mpr ⟨h.read, Nat.min_le_right ..⟩
  right_since := Nat.le_refl _
  right_seen := by
    have hcursor := h.cursor
    have hread := h.read
    have hseen := h.seen
    simp only [readPast, Window.same]
    omega
  right_fresh := hfresh.mono (Nat.le_trans h.since (Nat.le_max_left ..))
  right_next := .inr hnext
  right_memo := h.memo

theorem eval_eq_bare (h : Parsing tokens known E s) (hfresh : Ascending tokens known)
    (hnext : ∀ t ∈ tokens, t.id < next) (hE : Trusted E tokens next) (hreads : ReadsOn p)
    (halike : AlikeRule (.same tokens 0) 0 p p) (flags : Flags) :
    (p.eval ⟨tokens, next, flags⟩ s).1 = (p.eval (.bare tokens flags) (bareState tokens s)).1 ∧
      (p.eval ⟨tokens, next, flags⟩ s).2.trail =
        (p.eval (.bare tokens flags) (bareState tokens s)).2.trail ∧
      Parsing tokens known E (p.eval ⟨tokens, next, flags⟩ s).2 := by
  have hmatch : Matches (.same tokens 0) next E (bareState tokens s)
      (readPast ⟨tokens, next, flags⟩ s.cursor s) (fun o => From (.same tokens 0) (0 + o.isSome.toNat))
      (p.eval (.bare tokens flags) (bareState tokens s))
      (p.eval ⟨tokens, next, flags⟩ (readPast ⟨tokens, next, flags⟩ s.cursor s)) :=
    halike.twin flags hE (h.twins hfresh hnext flags) (Nat.zero_le _) (Nat.zero_le _)
      (Window.agrees_same ..)
  have hrun := hreads ⟨tokens, next, flags⟩ s
  rw [hrun] at hmatch
  obtain ⟨hvalue, htwins, -⟩ := hmatch
  have hcursor : (p.eval (.bare tokens flags) (bareState tokens s)).2.cursor =
      (p.eval ⟨tokens, next, flags⟩ s).2.cursor := htwins.cursor
  have hreach : (p.eval (.bare tokens flags) (bareState tokens s)).2.reach =
      (p.eval ⟨tokens, next, flags⟩ s).2.reach := htwins.reach
  have hreports : (p.eval ⟨tokens, next, flags⟩ s).2.reports =
      (p.eval (.bare tokens flags) (bareState tokens s)).2.reports := by
    obtain ⟨new, hleft, hright⟩ := htwins.reports
    rw [hleft, hright]
    exact congrArg (s.reports ++ ·) (Renumber.renumber_id new)
  refine ⟨hvalue.trans (Renumber.renumber_id _), ?_, ?_⟩
  · rw [ParseState.trail, ParseState.trail, hcursor, hreports, htwins.comments]
    exact congrArg (Trail.mk _ · _) (Renumber.renumber_id _)
  · have hbehind := htwins.left_reach
    exact
      { cursor := htwins.right_cursor
        read := htwins.right_read
        since := Nat.le_trans h.since (Nat.le_trans (Nat.le_max_left ..) htwins.right_since)
        reach := by rwa [hcursor, hreach] at hbehind
        seen := .inr htwins.right_seen
        memo := htwins.right_memo }

end Parsing

namespace Session

variable {σ : Session} {s : ParseState}

def context (σ : Session) (flags : Flags) : ParseContext :=
  ⟨σ.stream.readAll.tokens, σ.stream.readAll.nextId, flags⟩

/-- What a parse may find on file: entries from before it, and entries filed in the course of it. -/
def OnFile (σ : Session) (key : TokenId) (e : Entry) : Prop :=
  e ∈ σ.memo.bucket key ∨
    ∃ start, e.Filed σ.stream.readAll.tokens σ.stream.readAll.nextId key start

abbrev Parses (σ : Session) (s : ParseState) : Prop :=
  Parsing σ.stream.readAll.tokens σ.stream.tokens.size σ.OnFile s

def start (σ : Session) : ParseState := { read := σ.stream.tokens.size, memo := σ.memo }

theorem parses_start (σ : Session) : σ.Parses σ.start where
  cursor := Nat.zero_le _
  read := TokenStream.size_le_readMore ..
  since := Nat.le_refl _
  reach := Nat.zero_le _
  seen := .inl rfl
  memo _ _ he := .inl he

theorem Valid.sound (h : σ.Valid) {key : TokenId} {e : Entry} (he : σ.OnFile key e) :
    Sound σ.stream.readAll.tokens σ.stream.readAll.nextId key e := by
  rcases he with hbefore | ⟨start, hfiled⟩
  · exact (h.follows (TokenStream.follows_readAll h.numbered)).memo key e hbefore
  · exact (trusted h).filed hfiled

theorem Valid.trusted_onFile (h : σ.Valid) :
    Trusted σ.OnFile σ.stream.readAll.tokens σ.stream.readAll.nextId where
  describes he := (trusted h).describes (h.sound he)
  filed hfiled := .inr ⟨_, hfiled⟩

theorem Valid.eval_eq_bare {β : Type} [Renumber β] {p : Parser (Option β)} (hσ : σ.Valid)
    (h : σ.Parses s) (hreads : ReadsOn p) (flags : Flags)
    (halike : AlikeRule (.same σ.stream.readAll.tokens 0) 0 p p) :
    (p.eval (σ.context flags) s).1 = (p.eval (.bare σ.stream.readAll.tokens flags)
        (Parsing.bareState σ.stream.readAll.tokens s)).1 ∧
      (p.eval (σ.context flags) s).2.trail = (p.eval (.bare σ.stream.readAll.tokens flags)
        (Parsing.bareState σ.stream.readAll.tokens s)).2.trail ∧
      σ.Parses (p.eval (σ.context flags) s).2 := by
  have hnumbered := (TokenStream.follows_readAll hσ.numbered).numbered
  exact h.eval_eq_bare (TokenStream.ascending_readMore _ hσ.numbered)
    (fun t ht => hnumbered.lt_next t (Array.mem_toList_iff.mpr ht)) hσ.trusted_onFile hreads halike
    flags

theorem Valid.parses_consume (hσ : σ.Valid) (h : σ.Parses s) (flags : Flags) :
    σ.Parses (consume.eval (σ.context flags) s).2 :=
  (hσ.eval_eq_bare h .consume flags alike_consume_rule).2.2

theorem Valid.decides (hσ : σ.Valid) (h : σ.Parses s) (flags : Flags) (n : Nonterminal) :
    Decides σ.stream.readAll.tokens s.trail (n.parser.eval (σ.context flags) s).1
      (n.parser.eval (σ.context flags) s).2.trail := by
  obtain ⟨hvalue, htrail, -⟩ := hσ.eval_eq_bare h n.readsOn flags n.alike
  rw [hvalue, htrail]
  exact (n.decisive s.trail _ h.prepared rfl).2

/-- In any state of a parse, with any frames open and any flags in force, the routine of a rule that
gives nothing leaves the cursor, the frames, the flags, the comments and the reports as they are. If
it gives a node, it has consumed something, and a real token last. -/
theorem no_match_or_headway (source : Text) (ops : List SessionOp) (n : Nonterminal) (m : Machine)
    (h : ((ofSource source).run ops).Parses m.state) :
    let σ := (ofSource source).run ops
    let r := n.routine.run (σ.context {}) m
    n.routine.Represents n.parser ∧
      σ.Parses r.machine.state ∧
      (r.value = none →
        r.machine.state.cursor = m.state.cursor ∧ r.machine.frames = m.frames ∧
        r.machine.flags = m.flags ∧ r.machine.state.comments = m.state.comments ∧
        r.machine.state.reports = m.state.reports) ∧
      (r.value ≠ none → m.state.cursor < r.machine.state.cursor ∧
        ∃ t, σ.stream.readAll.tokens[r.machine.state.cursor - 1]? = some t ∧
          t.isTrivia = false) := by
  intro σ
  have hσ : σ.Valid := (valid_ofSource source).run ops
  have hdecides := hσ.decides h m.currentFlags n
  have hparses := (hσ.eval_eq_bare h n.readsOn m.currentFlags n.alike).2.2
  have hcontext : m.context (σ.context {}) = σ.context m.currentFlags := rfl
  -- Every frame and every flag that the routine pushed has been popped.
  have hframes := n.represents.frames (σ.context {}) m
  have hflags := n.represents.flags (σ.context {}) m
  dsimp only
  rw [hframes, hflags, n.represents.value, n.represents.state, hcontext]
  refine ⟨n.represents, hparses, fun hnone => ?_, fun hsome => ?_⟩
  · rw [hnone] at hdecides
    have htrail : (n.parser.eval (σ.context m.currentFlags) m.state).2.trail = m.state.trail :=
      hdecides
    exact ⟨congrArg Trail.cursor htrail, rfl, rfl, congrArg Trail.comments htrail,
      Array.toList_inj.mp (congrArg Trail.reports htrail)⟩
  · obtain ⟨node, hnode⟩ := Option.ne_none_iff_exists'.mp hsome
    rw [hnode] at hdecides
    exact hdecides

theorem no_match_or_headway_broken_off :
    let σ := (ofSource ['l', 'e', 't']).run [.parse]
    let m : Machine :=
      ⟨{ σ.start with comments := [⟨7, .comment, ['/', '/']⟩] }, [⟨0, 0, []⟩], [⟨true, true, true⟩]⟩
    let found := Nonterminal.definition.routine.run (σ.context {}) m
    let missed := Nonterminal.block.routine.run (σ.context {}) m
    σ.Parses m.state ∧ m.state.cursor < found.machine.state.cursor ∧
      missed.machine.frames = [⟨0, 0, []⟩] ∧
      missed.machine.state.comments = [⟨7, .comment, ['/', '/']⟩] := by
  intro σ m
  have hstart : σ.Parses m.state := (parses_start σ).back (Nat.le_refl _) _ _
  have hsome := (no_match_or_headway ['l', 'e', 't'] [.parse] .definition m hstart).2.2.2
  have hnone := (no_match_or_headway ['l', 'e', 't'] [.parse] .block m hstart).2.2.1
  have hfound : (definition.eval (m.context (σ.context {})) m.state).1.isSome = true := by
    decide +kernel
  have hmissed : ((block statement).eval (m.context (σ.context {})) m.state).1.isNone = true := by
    decide +kernel
  have hdefinition : (Nonterminal.definition.routine.run (σ.context {}) m).value ≠ none := by
    rw [Nonterminal.definition.represents.value]
    exact Option.isSome_iff_ne_none.mp hfound
  have hblock : (Nonterminal.block.routine.run (σ.context {}) m).value = none := by
    rw [Nonterminal.block.represents.value]
    exact Option.isNone_iff_eq_none.mp hmissed
  -- The routines are not to be run again.
  generalize Nonterminal.definition.routine = f at hsome hdefinition ⊢
  generalize Nonterminal.block.routine = g at hnone hblock ⊢
  have heffects := hnone hblock
  exact ⟨hstart, (hsome hdefinition).1, heffects.2.1, heffects.2.2.2.1⟩

end Session

end Reparse
