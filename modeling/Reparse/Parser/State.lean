import Reparse.Memo
import Reparse.Token.KindSet
import Reparse.TokenStream

/-!
# Parsing steps

A parser walks over the tokens of a stream, trivia included. Looking skips trivia without moving;
consuming takes the trivia in front of a token with it and gathers the comments among it. Besides
its cursor a parser keeps how far it has looked, because that is what its results depend on.
-/

namespace Reparse

/-- What stays fixed while a rule runs. -/
structure ParseContext where
  tokens : Array Token
  nextId : TokenId
  flags : Flags := {}

structure ParseState where
  cursor : Nat := 0
  /-- Index of the furthest token that the running rule looked at. -/
  reach : Nat := 0
  /-- How many tokens have been read: reading happens on demand. -/
  read : Nat := 0
  comments : List Token := []
  reports : Array (Report Anchor) := #[]
  memo : Memo
  counts : MemoCounts := {}

abbrev Parser := ReaderT ParseContext (StateM ParseState)

namespace Parser

variable {β σ : Type}

def readTo (i : Nat) : Parser Unit := do
  let c ← read
  modify fun s => { s with read := max s.read (min (i + 1) c.tokens.size) }

def tokenAt (i : Nat) : Parser (Option Token) := do
  readTo i
  return (← read).tokens[i]?

def see (i : Nat) : Parser Unit := modify fun s => { s with reach := max s.reach i }

def realFrom (tokens : Array Token) : (fuel : Nat) → (i : Nat) → Nat
  | 0, i => i
  | fuel + 1, i =>
    match tokens[i]? with
    | some t => if t.isTrivia then realFrom tokens fuel (i + 1) else i
    | none => i

def nextIndex : Parser Nat := do
  let c ← read
  let s ← get
  let i := realFrom c.tokens (c.tokens.size - s.cursor) s.cursor
  readTo i
  see i
  return i

def nextToken : Parser (Option Token) := do
  return (← read).tokens[← nextIndex]?

def nextKind : Parser (Option Kind) := do
  return (← nextToken).map Token.kind

def isNext (k : Kind) : Parser Bool := do
  return (← nextKind) = some k

/-- Consumes one token of any kind. A comment is gathered. Results kept under the token are dropped:
it was not left to the rule that they belong to. -/
def consumeRaw (t : Token) : Parser Unit :=
  modify fun s =>
    let (dropped, memo) := s.memo.evict t.id
    { s with
      reach := max s.reach s.cursor
      cursor := s.cursor + 1
      comments := if t.kind = .comment then s.comments ++ [t] else s.comments
      memo
      counts := { s.counts with evicted := s.counts.evicted + dropped } }

def consumeMany : (n : Nat) → Parser Unit
  | 0 => return
  | n + 1 => do
    let some t := (← read).tokens[(← get).cursor]? | return
    consumeRaw t
    consumeMany n

def consume : Parser (Option Token) := do
  let i ← nextIndex
  let some t := (← read).tokens[i]? | return none
  consumeMany (i + 1 - (← get).cursor)
  return some t

def consumeTrivia : Parser Unit := do
  let i ← nextIndex
  consumeMany (i - (← get).cursor)

def accept (k : Kind) : Parser (Option Token) := do
  if ← isNext k then consume else return none

/-- Hands over the comments gathered since the running frame began. A node asks for them right
behind its first token. -/
def claimComments : Parser (List Token) :=
  modifyGet fun s => (s.comments, { s with comments := [] })

def lastConsumed : Parser (Option Token) := do
  let s ← get
  if 0 < s.cursor && s.cursor ≤ s.read then return (← read).tokens[s.cursor - 1]? else return none

def extentFrom (first : Token) : Parser (Option Extent) := do
  return (← lastConsumed).map fun last => ⟨first, last⟩

def infoFrom (first : Token) (comments : List Token) : Parser Info := do
  return { extent? := ← extentFrom first, comments }

def infoAfter (start? : Option Info) : Parser Info := do
  match start?.bind Info.extent? with
  | some s => infoFrom s.first []
  | none => return {}

def report (anchor : Option Anchor) (code : Code) (args : List Text) : Parser Unit :=
  modify fun s => { s with reports := s.reports.push ⟨code, args, anchor⟩ }

def reportStray (t : Token) (code : Code) : Parser Unit := report (some (.token t)) code [t.text]

def reportNext (code : Code) (args : List Text) : Parser Unit := do
  match ← nextToken with
  | some t => report (some (.token t)) code args
  | none => report ((← read).tokens.back?.map .behind) code args

def required (rule : Parser (Option β)) (code : Code) (standIn : β) : Parser β := do
  match ← rule with
  | some node => return node
  | none =>
    reportNext code []
    return standIn

def require (k : Kind) : Parser (Option Token) := do
  match ← accept k with
  | some t => return some t
  | none =>
    reportNext .missingToken ["`".toList ++ k.describe ++ "`".toList]
    return none

/-- Runs a parser in a frame: the comments it gathers are its own. Gives those it left unclaimed,
which then follow the comments gathered outside. -/
def framed (p : Parser β) : Parser (β × List Token) := do
  let outer ← claimComments
  let result ← p
  let unclaimed := (← get).comments
  modify fun s => { s with comments := outer ++ unclaimed }
  return (result, unclaimed)

/-- Runs a parser in a frame and takes back the cursor, the comments and the reports. What it looked
at stays looked at, and what it dropped from the memo stays dropped. -/
def tentatively (p : Parser β) : Parser β := do
  let before ← get
  let _ ← claimComments
  let result ← p
  modify fun s =>
    { s with cursor := before.cursor, comments := before.comments, reports := before.reports }
  return result

/-- Runs a parser that starts at `start`, and measures how far it looks by itself. Gives the
furthest index. -/
def measured (start : Nat) (p : Parser β) : Parser (β × Nat) := do
  let outer ← modifyGet fun s => (s.reach, { s with reach := start })
  let result ← p
  let inner := (← get).reach
  modify fun s => { s with reach := max outer inner }
  return (result, inner)

def watched (p : Parser β) : Parser (β × Bool) := do
  let before := (← get).cursor
  let result ← p
  return (result, (← get).cursor ≠ before)

def flags : Parser Flags := do
  return (← read).flags

def underFlags (add remove : Flags) (p : Parser β) : Parser β :=
  withReader (fun c => { c with flags := c.flags.adjust add remove }) p

def inBrackets (p : Parser β) : Parser β := underFlags {} { noObject := true } p

inductive Turn (σ : Type)
  | again (s : σ)
  | done (s : σ)
  deriving Repr

def iterate (turn : σ → Parser (Turn σ)) : Nat → σ → Parser σ
  | 0, s => return s
  | n + 1, s => do
    match ← turn s with
    | .again s => iterate turn n s
    | .done s => return s

/-- Repeats a turn until it is done. Every turn but the last consumes a token, so the tokens left
bound their number. -/
def loop (turn : σ → Parser (Turn σ)) (s : σ) : Parser σ := do
  iterate turn ((← read).tokens.size - (← get).cursor + 1) s

end Parser

end Reparse
