import Reparse.Parser.Flags
import Reparse.Token.Anchor
import Reparse.Tree.Info
import Std.Data.TreeMap

/-!
# The memo

Results of grammar rules, kept from one parse to the next. An entry is filed under the token that
its rule started at, and says which tokens the rule looked at. It may be used again as long as those
are the tokens of the stream: every one of them is older than the entry, and the furthest is the
same one at the same distance. Tokens that were put in since are newer than the entry, and taking
tokens out brings the furthest one closer.
-/

namespace Reparse

/-- The rules whose results are kept. -/
inductive Rule
  | definition
  | statement
  | block
  | expression
  | type
  deriving DecidableEq, Repr

inductive Outcome
  | definition (node : Definition Info)
  | statement (node : Statement Info)
  | block (node : Block Info)
  | expression (node : Expression Info)
  | type (node : TypeExpression Info)
  | noMatch
  deriving Repr

def Outcome.info? : Outcome → Option Info
  | .definition node => some node.info
  | .statement node => some node.info
  | .block node => node.info?
  | .expression node => node.info?
  | .type node => node.info?
  | .noMatch => none

/-- Nodes that are built by a rule whose results are kept. -/
class RuleNode (β : Type) where
  rule : Rule
  wrap : β → Outcome
  unwrap? : Outcome → Option β
  unwrap?_wrap (node : β) : unwrap? (wrap node) = some node := by intros; rfl
  unwrap?_noMatch : unwrap? .noMatch = none := by rfl

instance : RuleNode (Definition Info) where
  rule := .definition
  wrap := .definition
  unwrap?
    | .definition node => some node
    | _ => none

instance : RuleNode (Statement Info) where
  rule := .statement
  wrap := .statement
  unwrap?
    | .statement node => some node
    | _ => none

instance : RuleNode (Block Info) where
  rule := .block
  wrap := .block
  unwrap?
    | .block node => some node
    | _ => none

instance : RuleNode (Expression Info) where
  rule := .expression
  wrap := .expression
  unwrap?
    | .expression node => some node
    | _ => none

instance : RuleNode (TypeExpression Info) where
  rule := .type
  wrap := .type
  unwrap?
    | .type node => some node
    | _ => none

structure Entry where
  rule : Rule
  flags : Flags
  outcome : Outcome
  consumed : Nat
  /-- How many tokens were looked at, the key included. -/
  lookahead : Nat
  /-- The furthest token looked at, if it was not the end of input. -/
  boundary : Option TokenId
  /-- Tokens made since the entry was stored have at least this number. -/
  watermark : TokenId
  reports : List (Report Anchor)
  leftover : List Token
  deriving Repr

namespace Entry

/-- Whether two entries under the same key exclude each other. -/
def rivals (e f : Entry) : Bool := e.rule = f.rule && e.flags = f.flags

/-- Checks the token at `index` and `more` further ones, up to the furthest that the rule looked at.
Gives the verdict and the index of the last token it took to reach it. -/
def verifyFrom (e : Entry) (look : Nat → Option TokenId) : (more index : Nat) → Bool × Nat
  | 0, index =>
    match look index with
    | none => (e.boundary.isNone, index)
    | some id => (id < e.watermark && e.boundary = some id, index)
  | more + 1, index =>
    match look index with
    | none => (false, index)
    | some id => if id < e.watermark then e.verifyFrom look more (index + 1) else (false, index)

def verify (e : Entry) (look : Nat → Option TokenId) (index : Nat) : Bool × Nat :=
  e.verifyFrom look (e.lookahead - 1) index

def holdsAt (e : Entry) (look : Nat → Option TokenId) (index : Nat) : Bool :=
  (e.verify look index).1

end Entry

structure MemoCounts where
  hits : Nat := 0
  misses : Nat := 0
  evicted : Nat := 0
  entries : Nat := 0
  deriving DecidableEq, Repr

/-- Entries by the number of the token they start at. At most one entry is kept for a token, a rule
and flags, and `size` counts the entries. -/
structure Memo where
  buckets : Std.TreeMap TokenId (List Entry) := {}
  size : Nat := 0

namespace Memo

def empty : Memo := {}

def bucket (m : Memo) (key : TokenId) : List Entry := m.buckets[key]?.getD []

def get? (m : Memo) (key : TokenId) (rule : Rule) (flags : Flags) : Option Entry :=
  (m.bucket key).find? fun e => e.rule = rule && e.flags = flags

def put (e : Entry) : List Entry → List Entry
  | [] => [e]
  | f :: fs => if f.rivals e then e :: fs else f :: put e fs

def insert (m : Memo) (key : TokenId) (e : Entry) : Memo :=
  let old := m.bucket key
  let new := put e old
  ⟨m.buckets.insert key new, m.size + (new.length - old.length)⟩

def evict (m : Memo) (key : TokenId) : Nat × Memo :=
  let dropped := (m.bucket key).length
  (dropped, ⟨m.buckets.erase key, m.size - dropped⟩)

def forget (m : Memo) : List Token → Nat × Memo
  | [] => (0, m)
  | t :: ts =>
    let (n, m) := m.evict t.id
    let (k, m) := m.forget ts
    (n + k, m)

def inspect (m : Memo) : Text :=
  "MemoTable \x7b keys: ".toList ++ Text.ofNat m.buckets.size ++ ", entries: ".toList ++
    Text.ofNat m.size ++ " \x7d".toList

end Memo

end Reparse
