import Reparse.Proofs.Memo
import Reparse.Proofs.Parser.Eval

/-!
# Bare runs

With every number at or above the watermark no entry ever holds, so a parser whose next number is 0
works without a memo. Bare runs of this kind are what the results on file are measured by: an entry
describes a place if it says what a bare run of its rule does there.
-/

namespace Reparse

namespace Grammar

open Reparse.Parser

variable {β : Type}

def outcome [RuleNode β] (body : Parser (Option β)) : Parser Outcome := do
  return ((← body).map RuleNode.wrap).getD .noMatch

def ruleBody (depth : Nat) : Rule → Parser Outcome
  | .definition => outcome anyDefinition
  | .statement => outcome (anyStatement (statementWithin depth))
  | .block => outcome (bracedStatements (statementWithin depth))
  | .expression => outcome (operators (expressionWithin depth))
  | .type => outcome (typeUnion (typeWithin depth))

end Grammar

def ParseContext.bare (tokens : Array Token) (flags : Flags) : ParseContext := ⟨tokens, 0, flags⟩

@[simp] theorem ParseContext.bare_tokens (tokens : Array Token) (flags : Flags) :
    (bare tokens flags).tokens = tokens := rfl

def ParseState.bare (tokens : Array Token) (start : Nat) : ParseState :=
  { cursor := start, reach := start, read := tokens.size, memo := .empty }

@[simp] theorem ParseState.bare_reports (tokens : Array Token) (start : Nat) :
    (bare tokens start).reports = #[] := rfl

namespace Entry

def bareRun (e : Entry) (tokens : Array Token) (start : Nat) : Outcome × ParseState :=
  (Grammar.ruleBody tokens.size e.rule).eval (.bare tokens e.flags) (.bare tokens start)

/-- The entry says what its rule does at `start`. -/
structure Describes (e : Entry) (tokens : Array Token) (start : Nat) : Prop where
  outcome : e.outcome = (e.bareRun tokens start).1
  consumed : start + e.consumed = (e.bareRun tokens start).2.cursor
  lookahead : start + e.lookahead = (e.bareRun tokens start).2.reach + 1
  reports : e.reports.toArray = (e.bareRun tokens start).2.reports
  leftover : e.leftover = (e.bareRun tokens start).2.comments

end Entry

def idAt (tokens : Array Token) (i : Nat) : Option TokenId := tokens[i]?.map Token.id

/-- The entry describes a place of the tokens, and its marks are those of that place: the tokens that
were looked at there are older than the watermark. -/
structure Entry.Filed (e : Entry) (tokens : Array Token) (next key : TokenId) (start : Nat) :
    Prop where
  key : idAt tokens start = some key
  describes : e.Describes tokens start
  lookahead : 1 ≤ e.lookahead
  within : start + e.lookahead ≤ tokens.size + 1
  boundary : e.boundary = idAt tokens (start + e.lookahead - 1)
  watermark : e.watermark ≤ next
  marked : ∀ {d id}, d < e.lookahead → idAt tokens (start + d) = some id → id < next →
    id < e.watermark

def Ascending (tokens : Array Token) (read : Nat) : Prop :=
  ∀ x y a b, x < y → read ≤ y → idAt tokens x = some a → idAt tokens y = some b → a < b

theorem idAt_eq_none {tokens : Array Token} {i : Nat} (h : tokens.size ≤ i) : idAt tokens i = none := by
  rw [idAt, Array.getElem?_eq_none h]
  rfl

theorem idAt_eq_some {tokens : Array Token} {i : Nat} {t : Token} (h : tokens[i]? = some t) :
    idAt tokens i = some t.id := by
  rw [idAt, h]
  rfl

theorem lt_of_idAt {tokens : Array Token} {i : Nat} {id : TokenId} (h : idAt tokens i = some id) :
    i < tokens.size := by
  refine Nat.lt_of_not_le fun hle => ?_
  rw [idAt_eq_none hle] at h
  cases h

theorem ascending_size (tokens : Array Token) : Ascending tokens tokens.size := by
  intro x y a b _ hy _ hb
  exact absurd (lt_of_idAt hb) (Nat.not_lt.mpr hy)

theorem Ascending.mono {tokens : Array Token} {m n : Nat} (h : Ascending tokens m) (hmn : m ≤ n) :
    Ascending tokens n :=
  fun x y a b hxy hy => h x y a b hxy (Nat.le_trans hmn hy)

/-- Entries that may be believed: one that holds at a place describes it, and what is filed during a
parse of these tokens is of the kind. -/
structure Trusted (E : TokenId → Entry → Prop) (tokens : Array Token) (next : TokenId) : Prop where
  describes : ∀ {key e start}, E key e → idAt tokens start = some key →
    e.holdsAt (idAt tokens) start = true → e.Describes tokens start
  filed : ∀ {key e start}, e.Filed tokens next key start → E key e

namespace Entry

theorem verifyFrom_index {e : Entry} {look : Nat → Option TokenId} {more index : Nat}
    (h : (e.verifyFrom look more index).1 = true) :
    (e.verifyFrom look more index).2 = index + more := by
  induction more generalizing index with
  | zero =>
    simp only [verifyFrom]
    cases look index <;> rfl
  | succ more ih =>
    simp only [verifyFrom] at h ⊢
    cases hl : look index with
    | none => simp [hl] at h
    | some id =>
      by_cases hid : id < e.watermark
      · simp only [hl, hid, if_true] at h ⊢
        rw [ih h]
        omega
      · simp [hl, hid] at h

theorem holdsAt_eq_false {e : Entry} {look : Nat → Option TokenId} {start : Nat} {key : TokenId}
    (hw : e.watermark = 0) (hk : look start = some key) : e.holdsAt look start = false := by
  simp only [holdsAt, verify]
  cases e.lookahead - 1 <;> simp [verifyFrom, hk, hw]

end Entry

theorem trusted_bare (tokens : Array Token) : Trusted (fun _ e => e.watermark = 0) tokens 0 where
  describes := by
    intro key e start hw hk hh
    rw [Entry.holdsAt_eq_false hw hk] at hh
    cases hh
  filed hf := Nat.le_zero.mp hf.watermark

namespace Parser

variable {β : Type} [RuleNode β]

def readPast (c : ParseContext) (i : Nat) (s : ParseState) : ParseState :=
  { s with read := max s.read (min (i + 1) c.tokens.size) }

theorem readPast_eq {c : ParseContext} {s : ParseState} (i : Nat) (h : s.read = c.tokens.size) :
    readPast c i s = s := by
  have hread : max s.read (min (i + 1) c.tokens.size) = s.read := by omega
  rw [readPast, hread]

theorem eval_tokenAt (i : Nat) (c : ParseContext) (s : ParseState) :
    (tokenAt i).eval c s = (c.tokens[i]?, readPast c i s) := rfl

theorem eval_onFile? (start : Nat) (key : TokenId) (c : ParseContext) (s : ParseState) :
    (onFile? (β := β) start key).eval c s =
      match s.memo.get? key (RuleNode.rule β) c.flags with
      | none => (none, s)
      | some e => (if e.holdsAt (idAt c.tokens) start then some e else none,
          readPast c (e.verify (idAt c.tokens) start).2 s) := by
  rw [onFile?, eval_bind, eval_read, eval_bind, eval_get]
  cases s.memo.get? key (RuleNode.rule β) c.flags <;> rfl

def replayed (start : Nat) (e : Entry) (s : ParseState) : ParseState :=
  { s with
    cursor := start + e.consumed
    reach := max s.reach (start + e.lookahead - 1)
    comments := s.comments ++ e.leftover
    reports := s.reports ++ e.reports.toArray
    counts := { s.counts with hits := s.counts.hits + 1 } }

def opened (start : Nat) (s : ParseState) : ParseState :=
  { s with
    reach := start
    comments := []
    counts := { s.counts with misses := s.counts.misses + 1 } }

def entryOf (start : Nat) (c : ParseContext) (known : Nat) (r : Option β × ParseState) : Entry where
  rule := RuleNode.rule β
  flags := c.flags
  outcome := (r.1.map RuleNode.wrap).getD .noMatch
  consumed := r.2.cursor - start
  lookahead := r.2.reach - start + 1
  boundary := idAt c.tokens r.2.reach
  watermark := (idAt c.tokens r.2.read).getD c.nextId
  reports := (r.2.reports.extract known).toList
  leftover := r.2.comments

def closed (start : Nat) (key : TokenId) (c : ParseContext) (s : ParseState)
    (r : Option β × ParseState) : ParseState :=
  { r.2 with
    reach := max s.reach r.2.reach
    comments := s.comments ++ r.2.comments
    memo := r.2.memo.insert key (entryOf start c s.reports.size r) }

theorem eval_runAndFile (start : Nat) (key : TokenId) (body : Parser (Option β)) (c : ParseContext)
    (s : ParseState) :
    (runAndFile start key body).eval c s =
      ((body.eval c (opened start s)).1,
        closed start key c s (body.eval c (opened start s))) := rfl

theorem eval_remembered_none {body : Parser (Option β)} {c : ParseContext} {s : ParseState}
    (h : c.tokens[s.cursor]? = none) :
    (remembered body).eval c s = body.eval c (readPast c s.cursor s) := by
  simp only [remembered, eval_bind, eval_get, eval_tokenAt, h]

theorem eval_remembered_some {c : ParseContext} {s : ParseState} {t : Token}
    (body : Parser (Option β)) (h : c.tokens[s.cursor]? = some t) :
    ∃ read, s.read ≤ read ∧ read ≤ max s.read c.tokens.size ∧ s.cursor < read ∧
      ((∃ e, s.memo.get? t.id (RuleNode.rule β) c.flags = some e ∧
          e.holdsAt (idAt c.tokens) s.cursor = true ∧
          min (s.cursor + (e.lookahead - 1) + 1) c.tokens.size ≤ read ∧
          (remembered body).eval c s =
            (RuleNode.unwrap? e.outcome, replayed s.cursor e { s with read })) ∨
        (∀ e, s.memo.get? t.id (RuleNode.rule β) c.flags = some e →
          e.holdsAt (idAt c.tokens) s.cursor = false) ∧
        (remembered body).eval c s = (runAndFile s.cursor t.id body).eval c { s with read }) := by
  simp only [remembered, eval_bind, eval_get, eval_tokenAt, h, eval_onFile?]
  have hmemo : (readPast c s.cursor s).memo = s.memo := rfl
  rw [hmemo]
  have hlt : s.cursor < c.tokens.size := (Array.getElem?_eq_some_iff.mp h).1
  cases hget : s.memo.get? t.id (RuleNode.rule β) c.flags with
  | none =>
    refine ⟨(readPast c s.cursor s).read, ?_, ?_, ?_, .inr ⟨by simp, rfl⟩⟩
    · simp only [readPast]
      omega
    · simp only [readPast]
      omega
    · simp only [readPast]
      omega
  | some e =>
    obtain ⟨last, hlast⟩ : ∃ last, (e.verify (idAt c.tokens) s.cursor).2 = last := ⟨_, rfl⟩
    refine ⟨(readPast c last (readPast c s.cursor s)).read, ?_, ?_, ?_, ?_⟩
    · simp only [readPast]
      omega
    · simp only [readPast]
      omega
    · simp only [readPast]
      omega
    · simp only [hlast]
      by_cases hholds : e.holdsAt (idAt c.tokens) s.cursor = true
      · refine .inl ⟨e, rfl, hholds, ?_, ?_⟩
        · have hend := Entry.verifyFrom_index hholds
          rw [← hlast, Entry.verify, hend]
          simp only [readPast]
          omega
        · simp only [hholds, if_true]
          rfl
      · refine .inr ⟨?_, ?_⟩
        · intro f hf
          cases hf
          simpa using hholds
        · simp only [hholds]
          rfl

theorem eval_remembered_hit {c : ParseContext} {s : ParseState} {t : Token} {e : Entry}
    (body : Parser (Option β)) (ht : c.tokens[s.cursor]? = some t)
    (hget : s.memo.get? t.id (RuleNode.rule β) c.flags = some e)
    (hholds : e.holdsAt (idAt c.tokens) s.cursor = true) : ∃ read,
      (remembered body).eval c s =
        (RuleNode.unwrap? e.outcome, replayed s.cursor e { s with read }) := by
  obtain ⟨read, -, -, -, ⟨f, hf, -, -, heval⟩ | ⟨hnone, -⟩⟩ := eval_remembered_some body ht
  · cases hget.symm.trans hf
    exact ⟨read, heval⟩
  · exact absurd (hholds.symm.trans (hnone e hget)) (by decide)

end Parser

end Reparse
