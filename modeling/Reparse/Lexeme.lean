import Reparse.Diagnostic.Code
import Reparse.Text.Alphabetic
import Reparse.Token.Kind

/-!
# Lexemes

Cutting a text into lexemes. The first lexeme of a text hangs on that text alone, so cutting can
start over at the end of any lexeme. No character is refused: a fault belongs to the lexeme it was
found in, and the lexemes of a text joined together are the text again.
-/

namespace Reparse

inductive CharClass
  | blank
  | lineFeed
  | digit
  | letter
  | quote
  | slash
  | operator
  | punctuation
  | invalid
  deriving DecidableEq, Repr

namespace CharClass

def of (c : Char) : CharClass :=
  if c = ' ' || c = '\t' || c = '\r' then .blank
  else if c = '\n' then .lineFeed
  else if c.isDigit then .digit
  else if c.isAlpha || c = '_' then .letter
  else if c = '"' then .quote
  else if c = '/' then .slash
  else if ['+', '-', '*', '%', '!', '=', '<', '>', '&', '|'].contains c then .operator
  else if ['(', ')', '{', '}', '[', ']', ',', ';', ':', '.'].contains c then .punctuation
  else .invalid

def name : CharClass → Text
  | .blank => "Whitespace".toList
  | .lineFeed => "Newline".toList
  | .digit => "Digit".toList
  | .letter => "IdentStart".toList
  | .quote => "Quote".toList
  | .slash => "Slash".toList
  | .operator => "Operator".toList
  | .punctuation => "Punctuation".toList
  | .invalid => "Invalid".toList

end CharClass

/-- A stretch of text that is one token. It is never empty: its first character is held apart from
the rest. -/
structure Lexeme where
  kind : Kind
  first : Char
  rest : Text
  fault : Option Code := none
  deriving DecidableEq, Repr

namespace Lexeme

def text (l : Lexeme) : Text := l.first :: l.rest

def size (l : Lexeme) : Nat := Text.size l.text

def faultArgs (code : Code) (text : Text) : List Text :=
  match code with
  | .strangeCharacter | .malformedNumber => [text]
  | _ => []

def blanks : Text → Text
  | [] => []
  | c :: cs =>
    if c = ' ' || c = '\t' || c = '\r' && cs.head? ≠ some '\n' then c :: blanks cs else []

def isWordCharacter (c : Char) : Bool := c.isAlphanum || c = '_' || Text.isForeignLetter c

def wordCharacters (cs : Text) : Text := cs.takeWhile isWordCharacter

def digits (cs : Text) : Text := cs.takeWhile Char.isDigit

def fraction : Text → Text
  | '.' :: cs => if (digits cs).isEmpty then [] else '.' :: digits cs
  | _ => []

def sign : Text → Text
  | c :: _ => if c = '+' || c = '-' then [c] else []
  | [] => []

def exponent : Text → Text
  | [] => []
  | c :: cs =>
    if c = 'e' || c = 'E' then
      let magnitude := digits (cs.drop (sign cs).length)
      if magnitude.isEmpty then [] else c :: sign cs ++ magnitude
    else []

/-- Word characters glued to a number make all of it one malformed number. -/
def number (c : Char) (cs : Text) : Lexeme :=
  let whole := digits cs
  let fractional := fraction (cs.drop whole.length)
  let mantissa := whole ++ fractional
  let scale := exponent (cs.drop mantissa.length)
  let literal := mantissa ++ scale
  let glued := wordCharacters (cs.drop literal.length)
  { kind := if fractional.isEmpty && scale.isEmpty then .integer else .float
    first := c
    rest := literal ++ glued
    fault := if glued.isEmpty then none else some .malformedNumber }

def word (c : Char) (cs : Text) : Lexeme :=
  let rest := wordCharacters cs
  { kind := (Kind.keyword? (c :: rest)).getD .identifier, first := c, rest }

/-- A string literal behind its opening quote, and whether it is closed. A backslash takes the next
character with it, but nothing takes a line feed. -/
def stringRest : Text → Text × Bool
  | [] => ([], false)
  | c :: cs =>
    if c = '"' then ([c], true)
    else if c = '\n' then ([], false)
    else if c = '\\' then
      match cs with
      | [] => ([c], false)
      | d :: ds =>
        if d = '\n' then ([c], false)
        else
          let (rest, closed) := stringRest ds
          (c :: d :: rest, closed)
    else
      let (rest, closed) := stringRest cs
      (c :: rest, closed)

def commentRest : Text → Text × Bool
  | [] => ([], false)
  | c :: cs =>
    if c = '*' && cs.head? = some '/' then ([c, '/'], true)
    else
      let (rest, closed) := commentRest cs
      (c :: rest, closed)

def string (c : Char) (cs : Text) : Lexeme :=
  let (rest, closed) := stringRest cs
  { kind := .string, first := c, rest, fault := if closed then none else some .openString }

def symbols : List Kind :=
  Kind.all.filter fun k => k.category = .operator || k.category = .punctuation

def symbol? (text : Text) : Option Kind := symbols.find? fun k => k.spelling? = some text

def symbol (c : Char) (cs : Text) : Lexeme :=
  match symbol? (c :: cs.take 1), symbol? [c] with
  | some kind, _ => { kind, first := c, rest := cs.take 1 }
  | none, some kind => { kind, first := c, rest := [] }
  | none, none => { kind := .unknown, first := c, rest := [], fault := some .strangeCharacter }

def slash (c : Char) (cs : Text) : Lexeme :=
  match cs with
  | '/' :: _ => { kind := .comment, first := c, rest := cs.takeWhile (· ≠ '\n') }
  | '*' :: ds =>
    let (rest, closed) := commentRest ds
    { kind := .comment, first := c, rest := '*' :: rest,
      fault := if closed then none else some .openComment }
  | _ => symbol c []

def leading (c : Char) (cs : Text) : Lexeme :=
  match CharClass.of c with
  | .blank =>
    if c = '\r' && cs.head? = some '\n' then { kind := .newline, first := c, rest := ['\n'] }
    else { kind := .whitespace, first := c, rest := blanks cs }
  | .lineFeed => { kind := .newline, first := c, rest := [] }
  | .digit => number c cs
  | .letter => word c cs
  | .quote => string c cs
  | .slash => slash c cs
  | .operator | .punctuation => symbol c cs
  | .invalid =>
    if Text.isForeignLetter c then word c cs
    else { kind := .unknown, first := c, rest := [], fault := some .strangeCharacter }

def takeLexemes : Nat → Text → List Lexeme
  | 0, _ => []
  | _ + 1, [] => []
  | fuel + 1, c :: cs =>
    let l := leading c cs
    l :: takeLexemes fuel (cs.drop l.rest.length)

def all (t : Text) : List Lexeme := takeLexemes t.length t

end Lexeme

structure Mark where
  kind : Kind
  size : Nat
  fault : Option Code
  deriving DecidableEq, Repr

namespace Mark

def ofLexeme (l : Lexeme) : Mark := ⟨l.kind, l.size, l.fault⟩

/-- A byte that a cut inside a character left over. -/
def strayByte : Mark := ⟨.unknown, 1, some .strangeCharacter⟩

/-- What scanning from byte `start` on finds. The rest of a character that `start` falls into is
stray bytes. -/
def allFrom (start : Nat) (t : Text) : List Mark :=
  List.replicate (Text.size (Text.takeBytes start t) - start) strayByte ++
    (Lexeme.all (Text.dropBytes start t)).map ofLexeme

def offsetAfter (start : Nat) (marks : List Mark) : Nat := marks.foldl (fun n m => n + m.size) start

end Mark

end Reparse
