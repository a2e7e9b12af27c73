import Reparse.Grammar.Statements

/-!
# Grammar of definitions

Handlers, functions, globals and type aliases, each led by its keyword.
-/

namespace Reparse.Grammar

open Reparse.Parser

abbrev DefinitionRule := Parser (Option (Definition Info))

def parameter : Parser (Option (Parameter Info)) := do
  let some name ← identifier | return none
  let type? ← annotation?
  return some ⟨name, type?, ← infoAfter name.info?⟩

def parameters : Parser (List (Parameter Info)) := do
  let some _ ← require .leftParen | return []
  let found ← items (.commas .rightParen) parameter
  let _ ← require .rightParen
  return found

def callableBody : Parser (Block Info) :=
  underFlags { inFunction := true } { inLoop := true, noObject := true } (requiredBlock statement)

def result? : Parser (Option (TypeExpression Info)) := do
  match ← accept .arrow with
  | some _ => return some (← requiredType)
  | none => return none

/-- What follows the keyword of a definition; `finish` gives the annotation at the end. -/
def definitionRest (word : Kind) (finish : Parser Info) : Parser (Definition Info) := do
  let name ← requiredIdentifier
  match word with
  | .onWord =>
    let parameters ← parameters
    let body ← callableBody
    return .handler name parameters body (← finish)
  | .fnWord =>
    let parameters ← parameters
    let result? ← result?
    let body ← callableBody
    return .function name parameters result? body (← finish)
  | .letWord =>
    let type? ← annotation?
    let value ← behind .assign requiredExpression .missing
    let _ ← require .semicolon
    return .global name type? value (← finish)
  | _ =>
    let type ← behind .assign requiredType .missing
    let _ ← require .semicolon
    return .typeAlias name type (← finish)

def startsDefinition (k : Kind) : Bool :=
  k = .onWord || k = .fnWord || k = .letWord || k = .typeWord

def anyDefinition : DefinitionRule := do
  let some kind ← nextKind | return none
  if !startsDefinition kind then return none
  let some (word, comments) ← keyword | return none
  some <$> definitionRest kind (infoFrom word comments)

def definition : DefinitionRule := remembered anyDefinition

/-- A whole program. Comments before the first definition and those behind the last one are the
program's own. -/
def program : Parser (Program Info) := do
  consumeTrivia
  let leading ← claimComments
  let first? ← nextToken
  let definitions ← items
    { SeriesShape.unending with resync := some .definitionEnds, stray := .strayInput } definition
  let extent? ← match first? with
    | some first => extentFrom first
    | none => pure none
  consumeTrivia
  let trailing ← claimComments
  return ⟨definitions, { extent?, comments := leading ++ trailing }⟩

end Reparse.Grammar
