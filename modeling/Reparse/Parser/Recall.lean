import Reparse.Parser.State

/-!
# Kept results

Running a rule whose results are kept. A result on file that still holds is replayed: the cursor
moves past what the rule consumed, and its reports and unclaimed comments come again. Otherwise the
rule runs, and what it did is filed under the token it started at.
-/

namespace Reparse.Parser

variable {β : Type} [RuleNode β]

def replay (start : Nat) (e : Entry) : Parser (Option β) := do
  modify fun s =>
    { s with
      cursor := start + e.consumed
      reach := max s.reach (start + e.lookahead - 1)
      comments := s.comments ++ e.leftover
      reports := s.reports ++ e.reports.toArray
      counts := { s.counts with hits := s.counts.hits + 1 } }
  return RuleNode.unwrap? e.outcome

/-- The number of the first token that has not been read or made yet. -/
def firstUnread : Parser TokenId := do
  let c ← read
  return (c.tokens[(← get).read]?.map Token.id).getD c.nextId

def file (start : Nat) (key : TokenId) (node : Option β) (leftover : List Token) (reach : Nat)
    (reports : List (Report Anchor)) : Parser Unit := do
  let c ← read
  let entry : Entry :=
    { rule := RuleNode.rule β
      flags := c.flags
      outcome := (node.map RuleNode.wrap).getD .noMatch
      consumed := (← get).cursor - start
      lookahead := reach - start + 1
      boundary := c.tokens[reach]?.map Token.id
      watermark := ← firstUnread
      reports
      leftover }
  modify fun s => { s with memo := s.memo.insert key entry }

/-- Runs a rule from `start` on, in a frame and measured, and files what it did. -/
def runAndFile (start : Nat) (key : TokenId) (body : Parser (Option β)) : Parser (Option β) := do
  let known ← modifyGet fun s =>
    (s.reports.size, { s with counts := { s.counts with misses := s.counts.misses + 1 } })
  let ((node, leftover), reach) ← measured start (framed body)
  let reports := (← get).reports.extract known
  file start key node leftover reach reports.toList
  return node

def onFile? (start : Nat) (key : TokenId) : Parser (Option Entry) := do
  let c ← read
  let some e := (← get).memo.get? key (RuleNode.rule β) c.flags | return none
  let (valid, last) := e.verify (fun i => c.tokens[i]?.map Token.id) start
  readTo last
  return if valid then some e else none

/-- A rule whose results are kept. At the end of input there is no token to file them under. -/
def remembered (body : Parser (Option β)) : Parser (Option β) := do
  let start := (← get).cursor
  let some key ← tokenAt start | body
  match ← onFile? (β := β) start key.id with
  | some e => replay start e
  | none => runAndFile start key.id body

end Reparse.Parser
