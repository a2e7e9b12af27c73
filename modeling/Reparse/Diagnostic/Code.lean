import Reparse.Text

/-!
# Diagnostic codes

Every fault that scanning or parsing can report has a code, and a message with numbered gaps that
the arguments of a report fill.
-/

namespace Reparse

inductive Severity
  | error
  | warning
  deriving DecidableEq, Repr

def Severity.name : Severity → Text
  | .error => "error".toList
  | .warning => "warning".toList

inductive Code
  | openString
  | strangeCharacter
  | malformedNumber
  | openComment
  | strayToken
  | missingToken
  | missingIdentifier
  | missingType
  | missingBlock
  | missingExpression
  | strayInput
  | notAssignable
  | mixedLogic
  deriving DecidableEq, Repr

namespace Code

def all : List Code :=
  [.openString, .strangeCharacter, .malformedNumber, .openComment, .strayToken, .missingToken,
    .missingIdentifier, .missingType, .missingBlock, .missingExpression, .strayInput,
    .notAssignable, .mixedLogic]

def label : Code → Text
  | .openString => "E0001".toList
  | .strangeCharacter => "E0002".toList
  | .malformedNumber => "E0003".toList
  | .openComment => "E0004".toList
  | .strayToken => "E1001".toList
  | .missingToken => "E1002".toList
  | .missingIdentifier => "E1003".toList
  | .missingType => "E1004".toList
  | .missingBlock => "E1005".toList
  | .missingExpression => "E1006".toList
  | .strayInput => "E1007".toList
  | .notAssignable => "E1008".toList
  | .mixedLogic => "W1001".toList

def ofLabel? (t : Text) : Option Code := all.find? fun c => c.label = t

def severity : Code → Severity
  | .mixedLogic => .warning
  | _ => .error

def isLexical : Code → Bool
  | .openString | .strangeCharacter | .malformedNumber | .openComment => true
  | _ => false

def isSyntactic (c : Code) : Bool := c.severity = .error && !c.isLexical

/-- A part of a message: words, or a gap for the argument of a given number. -/
inductive Piece
  | words (text : Text)
  | gap (index : Nat)
  deriving DecidableEq, Repr

namespace Piece

def gapText (index : Nat) : Text := ['{'] ++ Text.ofNat index ++ ['}']

def template : Piece → Text
  | .words text => text
  | .gap index => gapText index

/-- A gap without an argument stays as it is written. -/
def fill (args : List Text) : Piece → Text
  | .words text => text
  | .gap index => args[index]?.getD (gapText index)

end Piece

def pieces : Code → List Piece
  | .openString => [.words "unterminated string literal".toList]
  | .strangeCharacter => [.words "invalid character `".toList, .gap 0, .words "`".toList]
  | .malformedNumber => [.words "malformed numeric literal `".toList, .gap 0, .words "`".toList]
  | .openComment => [.words "unterminated block comment".toList]
  | .strayToken => [.words "unexpected token `".toList, .gap 0, .words "`".toList]
  | .missingToken => [.words "expected ".toList, .gap 0]
  | .missingIdentifier => [.words "expected identifier".toList]
  | .missingType => [.words "expected type".toList]
  | .missingBlock => [.words "expected block".toList]
  | .missingExpression => [.words "expected expression".toList]
  | .strayInput => [.words "unexpected trailing input `".toList, .gap 0, .words "`".toList]
  | .notAssignable => [.words "cannot assign to this expression".toList]
  | .mixedLogic => [.words "`&&` and `||` mixed without parentheses".toList]

def template (c : Code) : Text := c.pieces.flatMap Piece.template

def render (c : Code) (args : List Text) : Text := c.pieces.flatMap (Piece.fill args)

end Code

end Reparse
