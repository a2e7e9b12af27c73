import Reparse.Text

/-!
# Token kinds

What a token is. Every kind has a number, and the numbers are laid out so that a category is an
interval of them.
-/

namespace Reparse

inductive Kind
  | whitespace
  | newline
  | comment
  | integer
  | float
  | string
  | identifier
  | plus
  | minus
  | star
  | slash
  | percent
  | bang
  | assign
  | equal
  | notEqual
  | less
  | lessEqual
  | greater
  | greaterEqual
  | both
  | either
  | leftParen
  | rightParen
  | leftBrace
  | rightBrace
  | leftBracket
  | rightBracket
  | comma
  | semicolon
  | colon
  | dot
  | pipe
  | arrow
  | onWord
  | fnWord
  | letWord
  | typeWord
  | ifWord
  | elseWord
  | whileWord
  | returnWord
  | breakWord
  | continueWord
  | trueWord
  | falseWord
  | nullWord
  | unknown
  deriving DecidableEq, Repr

namespace Kind

def all : List Kind :=
  [.whitespace, .newline, .comment, .integer, .float, .string, .identifier, .plus, .minus, .star,
    .slash, .percent, .bang, .assign, .equal, .notEqual, .less, .lessEqual, .greater, .greaterEqual,
    .both, .either, .leftParen, .rightParen, .leftBrace, .rightBrace, .leftBracket, .rightBracket,
    .comma, .semicolon, .colon, .dot, .pipe, .arrow, .onWord, .fnWord, .letWord, .typeWord, .ifWord,
    .elseWord, .whileWord, .returnWord, .breakWord, .continueWord, .trueWord, .falseWord, .nullWord,
    .unknown]

def code : Kind → Nat
  | .whitespace => 0
  | .newline => 1
  | .comment => 2
  | .integer => 10
  | .float => 11
  | .string => 12
  | .identifier => 13
  | .plus => 30
  | .minus => 31
  | .star => 32
  | .slash => 33
  | .percent => 34
  | .bang => 35
  | .assign => 36
  | .equal => 37
  | .notEqual => 38
  | .less => 39
  | .lessEqual => 40
  | .greater => 41
  | .greaterEqual => 42
  | .both => 43
  | .either => 44
  | .leftParen => 60
  | .rightParen => 61
  | .leftBrace => 62
  | .rightBrace => 63
  | .leftBracket => 64
  | .rightBracket => 65
  | .comma => 66
  | .semicolon => 67
  | .colon => 68
  | .dot => 69
  | .pipe => 70
  | .arrow => 71
  | .onWord => 90
  | .fnWord => 91
  | .letWord => 92
  | .typeWord => 93
  | .ifWord => 94
  | .elseWord => 95
  | .whileWord => 96
  | .returnWord => 97
  | .breakWord => 98
  | .continueWord => 99
  | .trueWord => 100
  | .falseWord => 101
  | .nullWord => 102
  | .unknown => 120

def ofCode? (n : Nat) : Option Kind := all.find? fun k => k.code = n

theorem mem_all (k : Kind) : k ∈ all := by cases k <;> decide

inductive Category
  | trivia
  | literal
  | operator
  | punctuation
  | keyword
  | error
  deriving DecidableEq, Repr

def category (k : Kind) : Category :=
  if k.code < 10 then .trivia
  else if k.code < 30 then .literal
  else if k.code < 60 then .operator
  else if k.code < 90 then .punctuation
  else if k.code < 120 then .keyword
  else .error

def isTrivia (k : Kind) : Bool := k.category = .trivia

/-- Trivia without comments: scanning may start over behind such a token, because nothing reaches
across it. -/
def isLayout (k : Kind) : Bool := k = .whitespace || k = .newline

def spelling? : Kind → Option Text
  | .plus => some ['+']
  | .minus => some ['-']
  | .star => some ['*']
  | .slash => some ['/']
  | .percent => some ['%']
  | .bang => some ['!']
  | .assign => some ['=']
  | .equal => some ['=', '=']
  | .notEqual => some ['!', '=']
  | .less => some ['<']
  | .lessEqual => some ['<', '=']
  | .greater => some ['>']
  | .greaterEqual => some ['>', '=']
  | .both => some ['&', '&']
  | .either => some ['|', '|']
  | .leftParen => some ['(']
  | .rightParen => some [')']
  | .leftBrace => some ['{']
  | .rightBrace => some ['}']
  | .leftBracket => some ['[']
  | .rightBracket => some [']']
  | .comma => some [',']
  | .semicolon => some [';']
  | .colon => some [':']
  | .dot => some ['.']
  | .pipe => some ['|']
  | .arrow => some ['-', '>']
  | .onWord => some ['o', 'n']
  | .fnWord => some ['f', 'n']
  | .letWord => some ['l', 'e', 't']
  | .typeWord => some ['t', 'y', 'p', 'e']
  | .ifWord => some ['i', 'f']
  | .elseWord => some ['e', 'l', 's', 'e']
  | .whileWord => some ['w', 'h', 'i', 'l', 'e']
  | .returnWord => some ['r', 'e', 't', 'u', 'r', 'n']
  | .breakWord => some ['b', 'r', 'e', 'a', 'k']
  | .continueWord => some ['c', 'o', 'n', 't', 'i', 'n', 'u', 'e']
  | .trueWord => some ['t', 'r', 'u', 'e']
  | .falseWord => some ['f', 'a', 'l', 's', 'e']
  | .nullWord => some ['n', 'u', 'l', 'l']
  | _ => none

def keywords : List Kind := all.filter fun k => k.category = .keyword

def keyword? (word : Text) : Option Kind := keywords.find? fun k => k.spelling? = some word

def describe (k : Kind) : Text :=
  match k.spelling? with
  | some text => text
  | none =>
    match k with
    | .whitespace => "whitespace".toList
    | .newline => "newline".toList
    | .comment => "comment".toList
    | .integer => "integer".toList
    | .float => "float".toList
    | .string => "string".toList
    | .identifier => "identifier".toList
    | _ => "unknown character".toList

def inspect (k : Kind) : Text :=
  match k.spelling? with
  | some text => "`".toList ++ text ++ "`".toList
  | none =>
    match k with
    | .whitespace => "Whitespace".toList
    | .newline => "Newline".toList
    | .comment => "Comment".toList
    | .integer => "Integer".toList
    | .float => "Float".toList
    | .string => "String".toList
    | .identifier => "Identifier".toList
    | _ => "Unknown".toList

end Kind

end Reparse
