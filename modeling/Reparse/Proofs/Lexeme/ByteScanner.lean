import Reparse.Proofs.Octets
import Reparse.Lexeme

/-!
# Scanning by bytes

The scanner as a machine on the bytes of a text that knows no more than an offset. It moves on by
single bytes, by the width of a character or to what a search has found, and it slices the text at
the offsets it has come to. An offset that a slice cannot start or end at is a fault, and so is a
loop that does not come to an end.
-/

namespace Reparse

namespace ByteScanner

/-- Why scanning cannot go on. -/
inductive Fault
  | outOfRange
  | offBoundary
  | endless
  deriving DecidableEq, Repr

structure Found where
  kind : Kind
  fault : Option Code
  stop : Nat
  deriving DecidableEq, Repr

def find (needle : List Char) : List Char → Option Nat
  | [] => none
  | b :: bs =>
    if needle.isPrefixOf (b :: bs) then some 0 else (find needle bs).map (· + 1)

def advance (step : Nat → Option Nat) : Nat → Nat → Except Fault Nat
  | 0, _ => .error .endless
  | fuel + 1, pos =>
    match step pos with
    | none => .ok pos
    | some width => advance step fuel (pos + width)

section

variable (t : Text)

def peek (pos n : Nat) : Char := ((Text.octets t)[pos + n]?).getD '\x00'

def character? (pos : Nat) : Option Char :=
  if Text.onBoundary pos t then (Text.dropBytes pos t).head? else none

def bytesFrom (pos : Nat) : Except Fault (List Char) :=
  if pos ≤ Text.size t then .ok ((Text.octets t).drop pos) else .error .outOfRange

def textBetween (start stop : Nat) : Except Fault Text :=
  if stop < start ∨ Text.size t < stop then .error .outOfRange
  else if Text.onBoundary start t && Text.onBoundary stop t then .ok (Text.slice start stop t)
  else .error .offBoundary

def blankStep (pos : Nat) : Option Nat :=
  if peek t pos 0 = ' ' ∨ peek t pos 0 = '\t' then some 1
  else if peek t pos 0 = '\r' ∧ peek t pos 1 ≠ '\n' then some 1
  else none

def digitStep (pos : Nat) : Option Nat := if (peek t pos 0).isDigit then some 1 else none

def wordStep (pos : Nat) : Option Nat :=
  let b := peek t pos 0
  if b.toNat < 128 then
    if b ≠ '\x00' ∧ (b.isAlphanum ∨ b = '_') then some 1 else none
  else
    match character? t pos with
    | some c => if Text.isForeignLetter c then some c.utf8Size else none
    | none => none

def whitespace (fuel pos : Nat) : Except Fault Found :=
  if peek t pos 0 = '\r' ∧ peek t pos 1 = '\n' then .ok ⟨.newline, none, pos + 2⟩
  else do
    let stop ← advance (blankStep t) fuel pos
    .ok ⟨.whitespace, none, stop⟩

def identifier (fuel pos : Nat) : Except Fault Found := do
  let stop ← advance (wordStep t) fuel pos
  let word ← textBetween t pos stop
  .ok ⟨(Kind.keyword? word).getD .identifier, none, stop⟩

def fraction (fuel pos : Nat) : Except Fault (Option Nat) :=
  if peek t pos 0 = '.' ∧ (peek t pos 1).isDigit then do
    let stop ← advance (digitStep t) fuel (pos + 1)
    .ok (some stop)
  else .ok none

def exponent (fuel pos : Nat) : Except Fault (Option Nat) :=
  let sign := if peek t pos 1 = '+' ∨ peek t pos 1 = '-' then 1 else 0
  if (peek t pos 0 = 'e' ∨ peek t pos 0 = 'E') ∧ (peek t pos (1 + sign)).isDigit then do
    let stop ← advance (digitStep t) fuel (pos + 1 + sign)
    .ok (some stop)
  else .ok none

def number (fuel pos : Nat) : Except Fault Found := do
  let whole ← advance (digitStep t) fuel pos
  let fractional ← fraction t fuel whole
  let mantissa := fractional.getD whole
  let scale ← exponent t fuel mantissa
  let literal := scale.getD mantissa
  let stop ← advance (wordStep t) fuel literal
  .ok {
    kind := if fractional.isNone && scale.isNone then .integer else .float
    fault := if literal < stop then some .malformedNumber else none
    stop }

def foreign (fuel pos : Nat) : Except Fault Found :=
  match character? t pos with
  | some c =>
    if Text.isForeignLetter c then identifier t fuel pos
    else .ok ⟨.unknown, some .strangeCharacter, pos + c.utf8Size⟩
  | none => .ok ⟨.unknown, some .strangeCharacter, pos + 1⟩

def stopsString (b : Char) : Bool := b = '"' || b = '\\' || b = '\n'

/-- A string literal, from behind its opening quote or behind an escape in it. -/
def string : Nat → Nat → Except Fault Found
  | 0, _ => .error .endless
  | fuel + 1, pos => do
    let rest ← bytesFrom t pos
    match rest.findIdx? stopsString with
    | none => .ok ⟨.string, some .openString, Text.size t⟩
    | some n =>
      if peek t (pos + n) 0 = '"' then .ok ⟨.string, none, pos + n + 1⟩
      else if peek t (pos + n) 0 = '\\' then
        match character? t (pos + n + 1) with
        | some c => string fuel (if c = '\n' then pos + n + 1 else pos + n + 1 + c.utf8Size)
        | none => string fuel (pos + n + 1)
      else .ok ⟨.string, some .openString, pos + n⟩

def slash (pos : Nat) : Except Fault Found :=
  if peek t pos 1 = '/' then do
    let rest ← bytesFrom t pos
    .ok ⟨.comment, none, pos + (rest.findIdx? (· = '\n')).getD rest.length⟩
  else if peek t pos 1 = '*' then do
    let rest ← bytesFrom t (pos + 2)
    match find ['*', '/'] rest with
    | some n => .ok ⟨.comment, none, pos + 2 + (n + 2)⟩
    | none => .ok ⟨.comment, some .openComment, Text.size t⟩
  else .ok ⟨.slash, none, pos + 1⟩

def oneOrTwo (second : Char) (double single : Kind) (pos : Nat) : Found :=
  if peek t pos 1 = second then ⟨double, none, pos + 2⟩ else ⟨single, none, pos + 1⟩

def operator (b : Char) (pos : Nat) : Found :=
  match b with
  | '+' => ⟨.plus, none, pos + 1⟩
  | '-' => oneOrTwo t '>' .arrow .minus pos
  | '*' => ⟨.star, none, pos + 1⟩
  | '%' => ⟨.percent, none, pos + 1⟩
  | '!' => oneOrTwo t '=' .notEqual .bang pos
  | '=' => oneOrTwo t '=' .equal .assign pos
  | '<' => oneOrTwo t '=' .lessEqual .less pos
  | '>' => oneOrTwo t '=' .greaterEqual .greater pos
  | '|' => oneOrTwo t '|' .either .pipe pos
  | '&' =>
    if peek t pos 1 = '&' then ⟨.both, none, pos + 2⟩
    else ⟨.unknown, some .strangeCharacter, pos + 1⟩
  | _ => ⟨.unknown, some .strangeCharacter, pos + 1⟩

def punctuation (b : Char) (pos : Nat) : Found :=
  match b with
  | '(' => ⟨.leftParen, none, pos + 1⟩
  | ')' => ⟨.rightParen, none, pos + 1⟩
  | '{' => ⟨.leftBrace, none, pos + 1⟩
  | '}' => ⟨.rightBrace, none, pos + 1⟩
  | '[' => ⟨.leftBracket, none, pos + 1⟩
  | ']' => ⟨.rightBracket, none, pos + 1⟩
  | ',' => ⟨.comma, none, pos + 1⟩
  | ';' => ⟨.semicolon, none, pos + 1⟩
  | ':' => ⟨.colon, none, pos + 1⟩
  | '.' => ⟨.dot, none, pos + 1⟩
  | _ => ⟨.unknown, some .strangeCharacter, pos + 1⟩

def found (fuel : Nat) (b : Char) (pos : Nat) : Except Fault Found :=
  if b.toNat < 128 then
    match CharClass.of b with
    | .blank => whitespace t fuel pos
    | .lineFeed => .ok ⟨.newline, none, pos + 1⟩
    | .digit => number t fuel pos
    | .letter => identifier t fuel pos
    | .quote => string t fuel (pos + 1)
    | .slash => slash t pos
    | .operator => .ok (operator t b pos)
    | .punctuation => .ok (punctuation b pos)
    | .invalid => .ok ⟨.unknown, some .strangeCharacter, pos + 1⟩
  else foreign t fuel pos

def next? (fuel pos : Nat) : Except Fault (Option (Mark × Nat)) :=
  match (Text.octets t)[pos]? with
  | none => .ok none
  | some b => do
    let f ← found t fuel b pos
    .ok (some (⟨f.kind, f.stop - pos, f.fault⟩, f.stop))

/-- The tokens from `pos` on, and the offset scanning ends at. -/
def run : Nat → Nat → Except Fault (List Mark × Nat)
  | 0, _ => .error .endless
  | fuel + 1, pos => do
    match ← next? t (fuel + 1) pos with
    | none => .ok ([], pos)
    | some (m, stop) =>
      let (ms, last) ← run fuel stop
      .ok (m :: ms, last)

end

end ByteScanner

end Reparse
