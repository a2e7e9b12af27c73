import Reparse.Parser.Recall
import Reparse.Parser.Series

/-!
# Grammar of types

Names, records between braces, types in parentheses, arrays behind their element type, and unions of
all these. A rule gives nothing, and has consumed nothing, if nothing it knows starts at the cursor.
-/

namespace Reparse.Grammar

open Reparse.Parser

def identifierOf (t : Token) (comments : List Token) : Identifier Info :=
  .named t.text { extent? := some (.single t), comments }

def identifier : Parser (Option (Identifier Info)) := do
  let some t ← accept .identifier | return none
  return some (identifierOf t (← claimComments))

def requiredIdentifier : Parser (Identifier Info) := required identifier .missingIdentifier .missing

variable {β : Type}

/-- A value that must stand behind a mark. Without the mark the value is not looked for. -/
def behind (mark : Kind) (value : Parser β) (standIn : β) : Parser β := do
  match ← require mark with
  | some _ => value
  | none => return standIn

def field (value : Parser β) (standIn : β) : Parser (Option (Field Info β)) := do
  let some name ← identifier | return none
  let value ← behind .colon value standIn
  return some ⟨name, value, ← infoAfter name.info?⟩

-- Rules that contain a type take the rule for types as an argument.
section

variable (type : Parser (Option (TypeExpression Info)))

def singleType : Parser (Option (TypeExpression Info)) := do
  let some t ← nextToken | return none
  match t.kind with
  | .identifier =>
    let _ ← consume
    let comments ← claimComments
    return some (.named (identifierOf t []) { extent? := some (.single t), comments })
  | .leftBrace =>
    let _ ← consume
    let comments ← claimComments
    let fields ← items (.commas .rightBrace) (field (required type .missingType .missing) .missing)
    let _ ← require .rightBrace
    return some (.record fields (← infoFrom t comments))
  | .leftParen =>
    let _ ← consume
    let comments ← claimComments
    let inner ← required type .missingType .missing
    let _ ← require .rightParen
    return some (.paren inner (← infoFrom t comments))
  | _ => return none

def arrayTurn (element : TypeExpression Info) : Parser (Turn (TypeExpression Info)) := do
  let some _ ← accept .leftBracket | return .done element
  let _ ← require .rightBracket
  return .again (.array element (← infoAfter element.info?))

def arrayOrSingle : Parser (Option (TypeExpression Info)) := do
  let some atom ← singleType type | return none
  some <$> loop arrayTurn atom

def memberTurn (members : Array (TypeExpression Info)) :
    Parser (Turn (Array (TypeExpression Info))) := do
  let some _ ← accept .pipe | return .done members
  return .again (members.push (← required (arrayOrSingle type) .missingType .missing))

def typeAlternatives : Parser (List (TypeExpression Info)) := do
  return (← loop (memberTurn type) #[]).toList

def typeUnion : Parser (Option (TypeExpression Info)) := do
  let some head ← arrayOrSingle type | return none
  if ← isNext .pipe then
    let rest ← typeAlternatives type
    return some (.union (head :: rest) (← infoAfter head.info?))
  else return some head

end

def typeWithin : Nat → Parser (Option (TypeExpression Info))
  | 0 => return none
  | depth + 1 => remembered (typeUnion (typeWithin depth))

/-- No tree is deeper than there are tokens, for every level consumes one. -/
def maxDepth : Parser Nat := do
  return (← read).tokens.size + 1

def typeExpression : Parser (Option (TypeExpression Info)) := do
  typeWithin (← maxDepth)

def requiredType : Parser (TypeExpression Info) := required typeExpression .missingType .missing

def annotation? : Parser (Option (TypeExpression Info)) := do
  match ← accept .colon with
  | some _ => return some (← requiredType)
  | none => return none

end Reparse.Grammar
