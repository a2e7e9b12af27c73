import Reparse.Proofs.DefinitionEntries
import Reparse.Proofs.Progress

/-!
# Termination

Parsing ends on any input and with any memo that parsing can have left. The loops end because their
turns make progress. Rules come back to themselves only further along, so that each of the recursive
rules is the one solution of its equation: neither the number of turns that a loop is given nor the
depth that a rule is nested to ever shows. And a parse ends behind the last token.
-/

namespace Reparse

open Reparse.Parser Reparse.Grammar

variable {tokens : Array Token} {next : TokenId} {E : TokenId → Entry → Prop} {flags : Flags}
  {s s' : ParseState} {α β : Type}

/-- The rule enters the one that is nested in it only further along than where it started itself:
whatever does the same there can be put in its place. -/
def EntersAhead (tokens : Array Token) (next : TokenId) (nested : Parser (Option α))
    (rule : Parser (Option α) → Parser β) : Prop :=
  ∀ other flags s, Bounded tokens s →
    (∀ flags' s', Bounded tokens s' → s.cursor < s'.cursor →
      other.eval ⟨tokens, next, flags'⟩ s' = nested.eval ⟨tokens, next, flags'⟩ s') →
    (rule other).eval ⟨tokens, next, flags⟩ s = (rule nested).eval ⟨tokens, next, flags⟩ s ∧
      Bounded tokens ((rule nested).eval ⟨tokens, next, flags⟩ s).2

/-- The rule is what `rule` makes of it, and nothing else is. -/
structure Recurs (tokens : Array Token) (next : TokenId) (nested : Parser (Option α))
    (rule : Parser (Option α) → Parser (Option α)) : Prop where
  unfold : ∀ flags s, Bounded tokens s →
    nested.eval ⟨tokens, next, flags⟩ s = (rule nested).eval ⟨tokens, next, flags⟩ s
  unique : ∀ other, (∀ flags s, Bounded tokens s →
      other.eval ⟨tokens, next, flags⟩ s = (rule other).eval ⟨tokens, next, flags⟩ s) →
    ∀ flags s, Bounded tokens s →
      other.eval ⟨tokens, next, flags⟩ s = nested.eval ⟨tokens, next, flags⟩ s

/-- A rule that enters itself further along only is determined by its equation. -/
theorem EntersAhead.recurs {nested : Parser (Option α)}
    {rule : Parser (Option α) → Parser (Option α)} (h : EntersAhead tokens next nested rule)
    (hunfold : ∀ flags s, Bounded tokens s →
      nested.eval ⟨tokens, next, flags⟩ s = (rule nested).eval ⟨tokens, next, flags⟩ s) :
    Recurs tokens next nested rule where
  unfold := hunfold
  unique other hother := by
    intro flags s hs
    -- By induction on the tokens ahead: where the rule enters itself there are fewer of them.
    obtain ⟨n, hn⟩ : ∃ n, tokens.size < s.cursor + n := ⟨tokens.size + 1, by omega⟩
    induction n generalizing flags s with
    | zero => exact absurd hs.cursor (Nat.not_le.mpr hn)
    | succ n ih =>
      rw [hother flags s hs, hunfold flags s hs]
      exact (h other flags s hs fun flags' s' hs' hlt => ih flags' s' hs' (by omega)).1

namespace Grammar

inductive Nests : {α β : Type} → Parser (Option α) → (Parser (Option α) → Parser β) → Prop
  | singleType : Nests typeExpression singleType
  | arrayOrSingle : Nests typeExpression arrayOrSingle
  | typeAlternatives : Nests typeExpression typeAlternatives
  | typeUnion : Nests typeExpression typeUnion
  | type : Nests typeExpression fun type => remembered (typeUnion type)
  | atom : Nests expression atom
  | postfixed : Nests expression postfixed
  | unary {operand : ExpressionRule → ExpressionRule} :
      Nests expression operand → Nests expression fun nested => unary (operand nested)
  | binary (level : Precedence) {operand : ExpressionRule → ExpressionRule} :
      Nests expression operand → Nests expression fun nested => binary level (operand nested)
  | operators : Nests expression operators
  | expression : Nests expression fun nested => remembered (operators nested)
  | bracedStatements : Nests statement bracedStatements
  | block : Nests statement block
  | alternative : Nests statement alternative
  | branch : Nests statement branch
  | whileLoop : Nests statement whileLoop
  | nestedBlock : Nests statement nestedBlock
  | anyStatement : Nests statement anyStatement
  | statement : Nests statement fun nested => remembered (anyStatement nested)

namespace Nests

variable {nested : Parser (Option α)} {rule : Parser (Option α) → Parser β} {n : Nat}

theorem agree_nested (h : Nests nested rule) : AgreeFrom tokens next n nested nested := by
  induction h with
  | singleType | arrayOrSingle | typeAlternatives | typeUnion | type => exact agree_typeExpression
  | atom | postfixed | operators | expression => exact agree_expression
  | unary _ ih | binary _ _ ih => exact ih
  | bracedStatements | block | alternative | branch | whileLoop | nestedBlock | anyStatement
  | statement => exact agree_statement

theorem agree (h : Nests nested rule) {other : Parser (Option α)}
    (hother : AgreeFrom tokens next (n + 1) nested other) :
    AgreeFrom tokens next n (rule nested) (rule other) := by
  induction h with
  | singleType => exact agree_singleType hother
  | arrayOrSingle => exact agree_arrayOrSingle hother
  | typeAlternatives => exact agree_typeAlternatives hother
  | typeUnion => exact agree_typeUnion hother
  | type => exact agree_remembered (agree_typeUnion hother) fun hrule => Rule.noConfusion hrule
  | atom => exact agree_atom hother
  | postfixed => exact agree_postfixed hother
  | unary _ ih => exact agree_unary (ih hother)
  | binary level _ ih => exact agree_binary level (ih hother)
  | operators => exact agree_operators hother
  | expression =>
    exact agree_remembered (agree_operators hother) fun hrule => Rule.noConfusion hrule
  | bracedStatements => exact agree_bracedStatements hother
  | block => exact agree_block hother
  | alternative => exact agree_alternative hother
  | branch => exact agree_branch hother
  | whileLoop => exact agree_whileLoop hother
  | nestedBlock => exact agree_nestedBlock hother
  | anyStatement => exact agree_anyStatement hother
  | statement =>
    exact agree_remembered (agree_anyStatement hother) fun hrule => Rule.noConfusion hrule

theorem entersAhead (h : Nests nested rule) : EntersAhead tokens next nested rule := by
  intro other flags s hs hother
  have hagree : AgreeFrom tokens next (s.cursor + 1) nested other := fun flags' s' hs' hlt =>
    ⟨hother flags' s' hs' hlt, (h.agree_nested flags' s' hs' hlt).2⟩
  obtain ⟨heq, hfoot, -⟩ := h.agree hagree flags s hs (Nat.le_refl _)
  exact ⟨heq, hfoot.bounded⟩

/-- As many levels as there are tokens are as good as any number of them. -/
theorem eval_of_within (h : Nests nested rule) {within : Parser (Option α)} {result : Parser β}
    (hwithin : AgreeFrom tokens next (s.cursor + 1) nested within) (hs : Bounded tokens s)
    (hresult : result.eval ⟨tokens, next, flags⟩ s = (rule within).eval ⟨tokens, next, flags⟩ s) :
    result.eval ⟨tokens, next, flags⟩ s = (rule nested).eval ⟨tokens, next, flags⟩ s :=
  hresult.trans (h.agree hwithin flags s hs (Nat.le_refl _)).1

end Nests

theorem recurs_typeExpression :
    Recurs tokens next typeExpression fun type => remembered (typeUnion type) :=
  Nests.type.entersAhead.recurs fun _ _ hs =>
    Nests.type.eval_of_within (agree_typeExpression_within (d := tokens.size) (by omega)) hs
      (eval_maxDepth ..)

theorem recurs_expression :
    Recurs tokens next expression fun nested => remembered (operators nested) :=
  Nests.expression.entersAhead.recurs fun _ _ hs =>
    Nests.expression.eval_of_within (agree_expression_within (d := tokens.size) (by omega)) hs
      (eval_maxDepth ..)

theorem recurs_statement :
    Recurs tokens next statement fun nested => remembered (anyStatement nested) :=
  Nests.statement.entersAhead.recurs fun _ _ hs =>
    Nests.statement.eval_of_within (agree_statement_within (d := tokens.size) (by omega)) hs
      (eval_maxDepth ..)

variable {b b' : Series (Definition Info)}

theorem finished_definitionTurn (h : Finishes definitionTurn ⟨tokens, next, flags⟩ b s b' s')
    (hE : Trusted E tokens next) (hnodup : (tokens.toList.map Token.id).Nodup)
    (hnext : ∀ t ∈ tokens.toList, t.id < next) (hs : Mirrored tokens next E s) :
    tokens[nextReal tokens s'.cursor]? = none := by
  induction h with
  | done hturn =>
    -- A definition that is found has consumed its keyword, so its turn is not the last one.
    cases turned_definition hs hE hnodup hnext hturn with
    | ended hnone => exact hnone
  | @again b₁ _ _ _ _ _ hturn _ _ _ ih =>
    have hs' := mirrored_definitionTurn hs hE flags b₁
    rw [hturn] at hs'
    exact ih hs'

theorem cursor_program (flags : Flags) (hE : Trusted E tokens next)
    (hnext : ∀ t ∈ tokens.toList, t.id < next) (hs : Bounded tokens s)
    (hmirror : Mirrored tokens next E s) :
    (program.eval ⟨tokens, next, flags⟩ s).2.cursor = tokens.size := by
  have hnone := finished_definitionTurn (finishes_definitionsRun hs) hE hs.nodup hnext
    (mirrored_definitionsStart hmirror hE flags)
  have hbounded : Bounded tokens (definitionsRun ⟨tokens, next, flags⟩ s).2 :=
    (footprint_definitionsRun hs).bounded
  -- Behind the last definition there is only trivia, which the end of the program reads.
  obtain ⟨-, hend⟩ := passes_consumeTrivia (c := ⟨tokens, next, flags⟩) hbounded.cursor
  have hle := nextReal_le_size hbounded.cursor
  have hge := Array.getElem?_eq_none_iff.mp hnone
  rw [(eval_program _ _).2]
  exact hend.trans (Nat.le_antisymm hle hge)

end Grammar

namespace Session

variable {σ : Session}

theorem Valid.parsed_whole (h : σ.Valid) :
    (parseRun σ.stream σ.memo).2.cursor = σ.stream.readAll.tokens.size ∧
      (parseRun σ.stream σ.memo).2.read = σ.stream.readAll.tokens.size := by
  have hread := h.follows (TokenStream.follows_readAll h.numbered)
  obtain ⟨read, hrun, hmirror⟩ := h.mirrored
  obtain ⟨_, hmatch⟩ := matches_parse h.numbered (trusted h) hread.memo
  have hcursor := cursor_program {} (trusted h) hread.numbered.lt_next (h.bounded read)
    hmirror
  rw [← hrun] at hcursor
  exact ⟨hcursor, Nat.le_antisymm hmatch.twins.right_read (hcursor ▸ hmatch.twins.right_cursor)⟩

/-- Parsing ends, whatever the source is and whatever was done to it before. Each turn of a loop
consumes something or is the last one. Each rule enters itself further along only, so it is the one
solution of its equation. At the end all of the source has been read and consumed. -/
theorem parse_terminates (source : Text) (ops : List SessionOp) :
    let s := (ofSource source).run ops
    let whole := (parse s.stream s.memo).2.1
    let context : ParseContext := ⟨whole.tokens, whole.nextId, {}⟩
    let start : ParseState := { read := s.stream.tokens.size, memo := s.memo }
    let last := (parseRun s.stream s.memo).2
    (∀ {σ : Type} {turn : σ → Parser (Turn σ)}, Grammar.Loop turn → ∀ c b u,
        Progresses (turn b) ∧
          ∃ b' u', Finishes turn c b u b' u' ∧ (loop turn b).eval c u = (b', u')) ∧
      (∀ b u, Reaches definitionTurn context {} (definitionsStart context start) b u →
        Bounded whole.tokens u) ∧
      (∀ {α β : Type} {nested : Parser (Option α)} {rule : Parser (Option α) → Parser β},
        Nests nested rule → EntersAhead whole.tokens whole.nextId nested rule) ∧
      (Recurs whole.tokens whole.nextId typeExpression (fun type => remembered (typeUnion type)) ∧
        Recurs whole.tokens whole.nextId expression (fun nested => remembered (operators nested)) ∧
        Recurs whole.tokens whole.nextId statement
          (fun nested => remembered (anyStatement nested))) ∧
      whole.isComplete = true ∧ last.read = whole.tokens.size ∧
      last.cursor = whole.tokens.size := by
  intro s whole context start last
  have hs : s.Valid := (valid_ofSource source).run ops
  obtain ⟨hcursor, hread⟩ := hs.parsed_whole
  refine ⟨fun hloop c b u => ⟨hloop.progresses b, ?_⟩, fun b u hreaches =>
    (footprint_of_reaches (hs.bounded s.stream.tokens.size) hreaches).bounded,
    fun hnests => hnests.entersAhead,
    ⟨recurs_typeExpression, recurs_expression, recurs_statement⟩,
    s.stream.isComplete_readAll, hread, hcursor⟩
  obtain ⟨b', u', hfinishes⟩ := exists_finishes hloop.progresses c b u
  exact ⟨b', u', hfinishes, hfinishes.eval_loop⟩

end Session

end Reparse
