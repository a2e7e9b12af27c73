import Reparse.Grammar.Types

/-!
# Grammar of expressions

From the loosest to the tightest: logical, comparison, additive and multiplicative operators, each a
left-associative chain; prefix operators; members, calls and elements; single words and brackets.
-/

namespace Reparse.Grammar

open Reparse.Parser

abbrev ExpressionRule := Parser (Option (Expression Info))

def escaped (c : Char) : Char :=
  if c = 'n' then '\n'
  else if c = 't' then '\t'
  else if c = 'r' then '\r'
  else if c = '0' then '\x00'
  else c

/-- What a string literal stands for, behind its opening quote. It ends at the closing quote; where
that is missing it ends with the text, and a lone backslash there stands for nothing. -/
def unescapeRest : Text → Text
  | [] => []
  | c :: cs =>
    if c = '"' then []
    else if c = '\\' then
      match cs with
      | [] => []
      | d :: ds => escaped d :: unescapeRest ds
    else c :: unescapeRest cs

def unescape : Text → Text
  | [] => []
  | c :: cs => if c = '"' then unescapeRest cs else unescapeRest (c :: cs)

def wordOf? (t : Token) (info : Info) : Option (Expression Info) :=
  match t.kind with
  | .integer => some (.literal (.integer t.text) info)
  | .float => some (.literal (.float t.text) info)
  | .string => some (.literal (.string (unescape t.text)) info)
  | .trueWord => some (.literal (.boolean true) info)
  | .falseWord => some (.literal (.boolean false) info)
  | .nullWord => some (.literal .null info)
  | .identifier => some (.name (identifierOf t []) info)
  | _ => none

/-- Whether the opening brace at the cursor starts an object literal: a name and a colon follow, or,
where that is wanted, the closing brace. -/
def objectAhead (allowEmpty : Bool) : Parser Bool :=
  tentatively do
    let _ ← consume
    match ← nextKind with
    | some .rightBrace => return allowEmpty
    | some .identifier =>
      let _ ← consume
      isNext .colon
    | _ => return false

-- Rules that contain an expression take the rule for expressions as an argument.
section

variable (expression : ExpressionRule)

def parenthesized (opening : Token) : Parser (Expression Info) := do
  let _ ← consume
  let comments ← claimComments
  let inner ← inBrackets (required expression .missingExpression .missing)
  let _ ← require .rightParen
  return .paren inner (← infoFrom opening comments)

def arrayLiteral (opening : Token) : Parser (Expression Info) := do
  let _ ← consume
  let comments ← claimComments
  let elements ← inBrackets (items (.commas .rightBracket) expression)
  let _ ← require .rightBracket
  return .array elements (← infoFrom opening comments)

def objectLiteral (opening : Token) : Parser (Expression Info) := do
  let _ ← consume
  let comments ← claimComments
  let value := required expression .missingExpression .missing
  let fields ← inBrackets (items (.commas .rightBrace) (field value .missing))
  let _ ← require .rightBrace
  return .object fields (← infoFrom opening comments)

def atom : ExpressionRule := do
  let some t ← nextToken | return none
  match t.kind with
  | .leftParen => some <$> parenthesized expression t
  | .leftBracket => some <$> arrayLiteral expression t
  | .leftBrace =>
    if (← flags).noObject then return none
    if ← objectAhead true then some <$> objectLiteral expression t else return none
  | _ =>
    if (wordOf? t {}).isNone then return none
    let _ ← consume
    return wordOf? t { extent? := some (.single t), comments := ← claimComments }

def postfixTurn (base : Expression Info) : Parser (Turn (Expression Info)) := do
  match ← nextKind with
  | some .dot =>
    let _ ← consume
    let name ← requiredIdentifier
    return .again (.member base name (← infoAfter base.info?))
  | some .leftParen =>
    let _ ← consume
    let arguments ← inBrackets
      (items { SeriesShape.commas .rightParen with allowTrailing := false } expression)
    let _ ← require .rightParen
    return .again (.invoke base arguments (← infoAfter base.info?))
  | some .leftBracket =>
    let _ ← consume
    let place ← inBrackets (required expression .missingExpression .missing)
    let _ ← require .rightBracket
    return .again (.index base place (← infoAfter base.info?))
  | _ => return .done base

def postfixed : ExpressionRule := do
  let some base ← atom expression | return none
  some <$> loop (postfixTurn expression) base

end

structure Sign where
  operator : UnaryOperator
  token : Token
  comments : List Token
  deriving Repr

def signTurn (found : List Sign) : Parser (Turn (List Sign)) := do
  let some operator := (← nextKind).bind UnaryOperator.ofKind? | return .done found
  let some token ← consume | return .done found
  return .again (⟨operator, token, ← claimComments⟩ :: found)

def signs : Parser (List Sign) := loop signTurn []

/-- An operand behind its prefix operators, the one next to it first. All of them end where it ends.
-/
def applySigns (operand : Expression Info) : List Sign → Parser (Expression Info)
  | [] => return operand
  | s :: rest => do
    let info ← infoFrom s.token s.comments
    applySigns (.unary s.operator operand info) rest

def unary (operand : ExpressionRule) : ExpressionRule := do
  match ← signs with
  | [] => operand
  | s :: rest =>
    let inner ← required operand .missingExpression .missing
    some <$> applySigns inner (s :: rest)

structure Chain where
  left : Expression Info
  first? : Option BinaryOperator := none
  warned : Bool := false
  deriving Repr

/-- Warns once in a logical chain, at the first operator that differs from the first one. -/
def warnMixed (chain : Chain) (operator : BinaryOperator) (token : Token) : Parser Bool := do
  match chain.first? with
  | some first =>
    if first ≠ operator && operator.precedence = .logical && !chain.warned then
      report (some (.token token)) .mixedLogic []
      return true
    else return chain.warned
  | none => return chain.warned

def chainTurn (level : Precedence) (operand : ExpressionRule) (chain : Chain) :
    Parser (Turn Chain) := do
  let some operator := (← nextKind).bind BinaryOperator.ofKind? | return .done chain
  if operator.precedence ≠ level then return .done chain
  let some token ← consume | return .done chain
  let warned ← warnMixed chain operator token
  let right ← required operand .missingExpression .missing
  let info ← infoAfter chain.left.info?
  return .again
    { left := .binary operator chain.left right info
      first? := some (chain.first?.getD operator)
      warned }

def binary (level : Precedence) (operand : ExpressionRule) : ExpressionRule := do
  let some left ← operand | return none
  return some (← loop (chainTurn level operand) { left }).left

def operators (expression : ExpressionRule) : ExpressionRule :=
  binary .logical <| binary .comparison <| binary .additive <| binary .multiplicative <|
    unary (postfixed expression)

def expressionWithin : Nat → ExpressionRule
  | 0 => return none
  | depth + 1 => remembered (operators (expressionWithin depth))

def expression : ExpressionRule := do
  expressionWithin (← maxDepth)

def requiredExpression : Parser (Expression Info) :=
  required expression .missingExpression .missing

end Reparse.Grammar
