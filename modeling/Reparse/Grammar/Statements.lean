import Reparse.Grammar.Expressions

/-!
# Grammar of statements

Declarations, assignments, expressions, branches, loops, jumps and nested blocks. A block recovers
from what is no statement.
-/

namespace Reparse.Grammar

open Reparse.Parser

abbrev StatementRule := Parser (Option (Statement Info))

def keyword : Parser (Option (Token × List Token)) := do
  let some t ← consume | return none
  return some (t, ← claimComments)

def condition : Parser (Expression Info) := underFlags { noObject := true } {} requiredExpression

def declaration : StatementRule := do
  let some (word, comments) ← keyword | return none
  let name ← requiredIdentifier
  let type? ← annotation?
  let value ← behind .assign requiredExpression .missing
  let _ ← require .semicolon
  return some (.declare name type? value (← infoFrom word comments))

/-- A value is looked for unless the statement or its block ends right away. -/
def returned : Parser (Option (Expression Info)) := do
  match ← nextKind with
  | none | some .semicolon | some .rightBrace => return none
  | _ => expression

def returning : StatementRule := do
  let some (word, comments) ← keyword | return none
  if !(← flags).inFunction then reportStray word .strayToken
  let value? ← returned
  let _ ← require .semicolon
  return some (.return value? (← infoFrom word comments))

def jump : StatementRule := do
  let some (word, comments) ← keyword | return none
  if !(← flags).inLoop then reportStray word .strayToken
  let _ ← require .semicolon
  let info ← infoFrom word comments
  return some (if word.kind = .breakWord then .break info else .continue info)

/-- The target of an assignment, or a stand-in and a report if nothing can be assigned to it. -/
def assignable (target : Expression Info) : Parser (Expression Info) := do
  if target.isAssignable then return target
  if let some extent := target.info?.bind Info.extent? then
    report (some (.tokens extent.first extent.last)) .notAssignable []
  return .missing

def evaluation : StatementRule := do
  let some value ← expression | return none
  let some extent := value.info?.bind Info.extent? | return none
  match ← accept .assign with
  | some _ =>
    let assigned ← requiredExpression
    let target ← assignable value
    let _ ← require .semicolon
    return some (.assign target assigned (← infoFrom extent.first []))
  | none =>
    let _ ← require .semicolon
    return some (.evaluate value (← infoFrom extent.first []))

-- Rules that contain a statement take the rule for statements as an argument.
section

variable (statement : StatementRule)

def bracedStatements : Parser (Option (Block Info)) := do
  let some opening ← accept .leftBrace | return none
  let comments ← claimComments
  let statements ←
    items { SeriesShape.upTo .rightBrace with resync := some .statementEnds } statement
  let _ ← require .rightBrace
  return some (.braces statements (← infoFrom opening comments))

def block : Parser (Option (Block Info)) := remembered (bracedStatements statement)

def requiredBlock : Parser (Block Info) := required (block statement) .missingBlock .missing

def alternative : Parser (Alternative Info) := do
  match ← accept .elseWord with
  | none => return .absent
  | some _ =>
    if ← isNext .ifWord then
      return ((← statement).map .elseIf).getD .absent
    else return .elseBlock (← requiredBlock statement)

def branch : StatementRule := do
  let some (word, comments) ← keyword | return none
  let condition ← condition
  let body ← requiredBlock statement
  let alternative ← alternative statement
  return some (.branch condition body alternative (← infoFrom word comments))

def whileLoop : StatementRule := do
  let some (word, comments) ← keyword | return none
  let condition ← condition
  let body ← underFlags { inLoop := true } {} (requiredBlock statement)
  return some (.loop condition body (← infoFrom word comments))

def nestedBlock : StatementRule := do
  let some body ← block statement | return none
  return some (.nested body { extent? := body.info?.bind Info.extent? })

def anyStatement : StatementRule := do
  match ← nextKind with
  | none => return none
  | some .letWord => declaration
  | some .ifWord => branch statement
  | some .whileWord => whileLoop statement
  | some .returnWord => returning
  | some .breakWord | some .continueWord => jump
  | some .leftBrace => if ← objectAhead false then evaluation else nestedBlock statement
  | some _ => evaluation

end

def statementWithin : Nat → StatementRule
  | 0 => return none
  | depth + 1 => remembered (anyStatement (statementWithin depth))

def statement : StatementRule := do
  statementWithin (← maxDepth)

end Reparse.Grammar
