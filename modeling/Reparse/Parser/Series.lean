import Reparse.Parser.State

/-!
# Series

A series repeats an item, with or without a delimiter between, up to a terminator or the end of
input. The terminator is left to be consumed by the rule around it. Where an item does not match, a
series ends, or it recovers: it reports the token it is at and skips to where an item may start
again.
-/

namespace Reparse

/-- How the items of a series are strung together. -/
structure SeriesShape where
  delimiter : Option Kind := none
  terminator : Option Kind := none
  allowTrailing : Bool := true
  /-- Where to go on after an item that does not match; `none` ends the series there. -/
  resync : Option KindSet := none
  stray : Code := .strayToken

namespace SeriesShape

def commas (terminator : Kind) : SeriesShape :=
  { delimiter := some .comma, terminator := some terminator }

def upTo (terminator : Kind) : SeriesShape := { terminator := some terminator }

def unending : SeriesShape := {}

def resumeSet? (s : SeriesShape) : Option KindSet :=
  s.resync.map fun set =>
    match s.terminator with
    | some k => set.insert k
    | none => set

end SeriesShape

inductive SeriesEnd
  | terminator
  | endOfInput
  | aborted
  deriving DecidableEq, Repr

structure Series (β : Type) where
  items : Array β := #[]
  stop : SeriesEnd := .aborted
  deriving Repr

namespace Parser

variable {β : Type}

def skipTo (set : KindSet) : Parser Bool :=
  loop (fun _ => do
    let some k ← nextKind | return .done false
    if set.contains k then return .done true
    let _ ← consume
    return .again false) false

/-- Reports the next token and skips to a token of the set. A semicolon there ends the broken
construct and is skipped as well. -/
def skipStray (set : KindSet) (code : Code) : Parser Unit := do
  let some t ← consume | return
  reportStray t code
  if ← skipTo set then
    let _ ← accept .semicolon

def seriesEnd? (shape : SeriesShape) : Parser (Option SeriesEnd) := do
  match ← nextKind with
  | none => return some .endOfInput
  | some k => return if shape.terminator = some k then some .terminator else none

def checkTrailing (shape : SeriesShape) (delimiter : Token) : Parser Unit := do
  match shape.allowTrailing, shape.terminator with
  | false, some k => if ← isNext k then reportStray delimiter .strayToken
  | _, _ => return

/-- What follows an item: a delimiter, if the series has any. Without delimiters an item that
consumed nothing ends the series, because it would come again and again. -/
def afterItem (shape : SeriesShape) (moved : Bool) (s : Series β) : Parser (Turn (Series β)) := do
  match shape.delimiter with
  | none => return if moved then .again s else .done { s with stop := .aborted }
  | some d =>
    match ← accept d with
    | some t =>
      checkTrailing shape t
      return .again s
    | none => return .done { s with stop := (← seriesEnd? shape).getD .aborted }

def seriesTurn (shape : SeriesShape) (item : Parser (Option β)) (s : Series β) :
    Parser (Turn (Series β)) := do
  if let some stop ← seriesEnd? shape then return .done { s with stop }
  match ← watched item with
  | (some value, moved) => afterItem shape moved { s with items := s.items.push value }
  | (none, _) =>
    match shape.resumeSet? with
    | none => return .done { s with stop := .aborted }
    | some set =>
      skipStray set shape.stray
      return .again s

def series (shape : SeriesShape) (item : Parser (Option β)) : Parser (Series β) :=
  loop (seriesTurn shape item) {}

def items (shape : SeriesShape) (item : Parser (Option β)) : Parser (List β) := do
  return (← series shape item).items.toList

end Parser

end Reparse
