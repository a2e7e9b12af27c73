import Reparse.Proofs.Parser.Realizations

/-!
# Rules as routines

Every rule of the grammar is realized along its own text, so that each of the rules that give a node
or nothing has a routine of its own, with the frames and flags that the rule opens and closes.
-/

namespace Reparse

namespace Parser.Realization

variable {β : Type}

def identifier : Realization Grammar.identifier :=
  (accept _).bind fun
    | none => pure none
    | some _ => claimComments.bind fun _ => pure _

def requiredIdentifier : Realization Grammar.requiredIdentifier := identifier.required ..

def behind (mark : Kind) {value : Parser β} (h : Realization value) (standIn : β) :
    Realization (Grammar.behind mark value standIn) :=
  (require mark).bind fun
    | none => pure standIn
    | some _ => h

def field {value : Parser β} (h : Realization value) (standIn : β) :
    Realization (Grammar.field value standIn) :=
  identifier.bind fun
    | none => pure none
    | some _ => (behind .colon h standIn).bind fun _ => (infoAfter _).bind fun _ => pure _

section

variable {type : Parser (Option (TypeExpression Info))} (htype : Realization type)

def singleType : Realization (Grammar.singleType type) :=
  nextToken.bind fun
    | none => pure none
    | some t => by
      dsimp only
      split
      · exact consume.bind fun _ => claimComments.bind fun _ => pure _
      · exact consume.bind fun _ => claimComments.bind fun _ =>
          (items _ (field (htype.required ..) _)).bind fun _ => (require _).bind fun _ =>
          (infoFrom ..).bind fun _ => pure _
      · exact consume.bind fun _ => claimComments.bind fun _ => (htype.required ..).bind fun _ =>
          (require _).bind fun _ => (infoFrom ..).bind fun _ => pure _
      · exact pure none

def arrayTurn (element : TypeExpression Info) : Realization (Grammar.arrayTurn element) :=
  (accept _).bind fun
    | none => pure _
    | some _ => (require _).bind fun _ => (infoAfter _).bind fun _ => pure _

def arrayOrSingle : Realization (Grammar.arrayOrSingle type) :=
  (singleType htype).bind fun
    | none => pure none
    | some atom => (loop arrayTurn atom).map some

def memberTurn (members : Array (TypeExpression Info)) :
    Realization (Grammar.memberTurn type members) :=
  (accept _).bind fun
    | none => pure _
    | some _ => ((arrayOrSingle htype).required ..).bind fun _ => pure _

def typeAlternatives : Realization (Grammar.typeAlternatives type) :=
  (loop (memberTurn htype) #[]).bind fun _ => pure _

def typeUnion : Realization (Grammar.typeUnion type) :=
  (arrayOrSingle htype).bind fun
    | none => pure none
    | some _ => (isNext _).bind fun _ =>
      ite ((typeAlternatives htype).bind fun _ => (infoAfter _).bind fun _ => pure _) (pure _)

end

def typeWithin : (depth : Nat) → Realization (Grammar.typeWithin depth)
  | 0 => pure none
  | depth + 1 => (typeUnion (typeWithin depth)).remembered

def maxDepth : Realization Grammar.maxDepth := read.bind fun _ => pure _

def typeExpression : Realization Grammar.typeExpression := maxDepth.bind typeWithin

def requiredType : Realization Grammar.requiredType := typeExpression.required ..

def annotation? : Realization Grammar.annotation? :=
  (accept _).bind fun
    | none => pure none
    | some _ => requiredType.bind fun _ => pure _

def objectAhead (allowEmpty : Bool) : Realization (Grammar.objectAhead allowEmpty) :=
  (consume.bind fun _ => nextKind.bind fun k? => by
    split
    · exact pure _
    · exact consume.bind fun _ => isNext _
    · exact pure _).tentatively

section

variable {expression : Grammar.ExpressionRule} (hexpression : Realization expression)

def parenthesized (opening : Token) : Realization (Grammar.parenthesized expression opening) :=
  consume.bind fun _ => claimComments.bind fun _ =>
    (hexpression.required ..).inBrackets.bind fun _ => (require _).bind fun _ =>
    (infoFrom ..).bind fun _ => pure _

def arrayLiteral (opening : Token) : Realization (Grammar.arrayLiteral expression opening) :=
  consume.bind fun _ => claimComments.bind fun _ => (items _ hexpression).inBrackets.bind fun _ =>
    (require _).bind fun _ => (infoFrom ..).bind fun _ => pure _

def objectLiteral (opening : Token) : Realization (Grammar.objectLiteral expression opening) :=
  consume.bind fun _ => claimComments.bind fun _ =>
    (items _ (field (hexpression.required ..) _)).inBrackets.bind fun _ => (require _).bind fun _ =>
    (infoFrom ..).bind fun _ => pure _

def atom : Realization (Grammar.atom expression) :=
  nextToken.bind fun
    | none => pure none
    | some t => by
      dsimp only
      split
      · exact (parenthesized hexpression t).map some
      · exact (arrayLiteral hexpression t).map some
      · exact flags.bind fun _ => ite (pure none) ((objectAhead true).bind fun _ =>
          ite ((objectLiteral hexpression t).map some) (pure none))
      · exact ite (pure none) (consume.bind fun _ => claimComments.bind fun _ => pure _)

def postfixTurn (base : Expression Info) : Realization (Grammar.postfixTurn expression base) :=
  nextKind.bind fun k? => by
    split
    · exact consume.bind fun _ => requiredIdentifier.bind fun _ => (infoAfter _).bind fun _ =>
        pure _
    · exact consume.bind fun _ => (items _ hexpression).inBrackets.bind fun _ =>
        (require _).bind fun _ => (infoAfter _).bind fun _ => pure _
    · exact consume.bind fun _ => (hexpression.required ..).inBrackets.bind fun _ =>
        (require _).bind fun _ => (infoAfter _).bind fun _ => pure _
    · exact pure _

def postfixed : Realization (Grammar.postfixed expression) :=
  (atom hexpression).bind fun
    | none => pure none
    | some base => (loop (postfixTurn hexpression) base).map some

end

def signTurn (found : List Grammar.Sign) : Realization (Grammar.signTurn found) :=
  nextKind.bind fun k? =>
    match k?.bind UnaryOperator.ofKind? with
    | none => pure _
    | some _ => consume.bind fun
      | none => pure _
      | some _ => claimComments.bind fun _ => pure _

def applySigns (operand : Expression Info) :
    (found : List Grammar.Sign) → Realization (Grammar.applySigns operand found)
  | [] => pure operand
  | _ :: rest => (infoFrom ..).bind fun _ => applySigns _ rest

def warnMixed (chain : Grammar.Chain) (operator : BinaryOperator) (token : Token) :
    Realization (Grammar.warnMixed chain operator token) := by
  delta Grammar.warnMixed
  exact match chain.first? with
  | some _ => ite ((report ..).bind fun _ => pure _) (pure _)
  | none => pure _

section

variable {operand : Grammar.ExpressionRule} (hoperand : Realization operand)

def unary : Realization (Grammar.unary operand) :=
  (loop signTurn []).bind fun
    | [] => hoperand
    | _ :: _ => (hoperand.required ..).bind fun _ => (applySigns ..).map some

def chainTurn (level : Precedence) (chain : Grammar.Chain) :
    Realization (Grammar.chainTurn level operand chain) :=
  nextKind.bind fun k? =>
    match k?.bind BinaryOperator.ofKind? with
    | none => pure _
    | some _ => ite (pure _) (consume.bind fun
      | none => pure _
      | some _ => (warnMixed ..).bind fun _ => (hoperand.required ..).bind fun _ =>
        (infoAfter _).bind fun _ => pure _)

def binary (level : Precedence) : Realization (Grammar.binary level operand) :=
  hoperand.bind fun
    | none => pure none
    | some _ => (loop (chainTurn hoperand level) _).bind fun _ => pure _

end

def operators {expression : Grammar.ExpressionRule} (hexpression : Realization expression) :
    Realization (Grammar.operators expression) :=
  binary (binary (binary (binary (unary (postfixed hexpression)) _) _) _) _

def expressionWithin : (depth : Nat) → Realization (Grammar.expressionWithin depth)
  | 0 => pure none
  | depth + 1 => (operators (expressionWithin depth)).remembered

def expression : Realization Grammar.expression := maxDepth.bind expressionWithin

def requiredExpression : Realization Grammar.requiredExpression := expression.required ..

def keyword : Realization Grammar.keyword :=
  consume.bind fun
    | none => pure none
    | some _ => claimComments.bind fun _ => pure _

def condition : Realization Grammar.condition := requiredExpression.underFlags ..

def led {rest : Token → List Token → Grammar.StatementRule}
    (h : ∀ word comments, Realization (rest word comments)) : Realization (do
      let some (word, comments) ← Grammar.keyword | return none
      rest word comments) :=
  keyword.bind fun
    | none => pure none
    | some (word, comments) => h word comments

def declaration : Realization Grammar.declaration :=
  led fun _ _ => requiredIdentifier.bind fun _ => annotation?.bind fun _ =>
    (behind .assign requiredExpression _).bind fun _ => (require _).bind fun _ =>
    (infoFrom ..).bind fun _ => pure _

def returned : Realization Grammar.returned :=
  nextKind.bind fun k? => by
    split
    · exact pure none
    · exact pure none
    · exact pure none
    · exact expression

def returning : Realization Grammar.returning :=
  have hrest := fun (word : Token) (comments : List Token) =>
    returned.bind fun value? => (require .semicolon).bind fun _ =>
    (infoFrom word comments).bind fun info => pure (some (Statement.return value? info))
  led fun word comments => flags.bind fun _ =>
    ite ((reportStray ..).bind fun _ => hrest word comments) (hrest word comments)

def jump : Realization Grammar.jump :=
  have hrest := fun (word : Token) (comments : List Token) =>
    (require .semicolon).bind fun _ => (infoFrom word comments).bind fun info =>
    pure (some (if word.kind = .breakWord then Statement.break info else .continue info))
  led fun word comments => flags.bind fun _ =>
    ite ((reportStray ..).bind fun _ => hrest word comments) (hrest word comments)

def assignable (target : Expression Info) : Realization (Grammar.assignable target) :=
  ite (pure target)
    (match target.info?.bind Info.extent? with
      | none => pure _
      | some _ => (report ..).bind fun _ => pure _)

def evaluation : Realization Grammar.evaluation :=
  expression.bind fun
    | none => pure none
    | some value => by
      dsimp only
      exact match value.info?.bind Info.extent? with
      | none => pure none
      | some _ => (accept _).bind fun
        | none => (require _).bind fun _ => (infoFrom ..).bind fun _ => pure _
        | some _ => requiredExpression.bind fun _ => (assignable _).bind fun _ =>
          (require _).bind fun _ => (infoFrom ..).bind fun _ => pure _

section

variable {statement : Grammar.StatementRule} (hstatement : Realization statement)

def bracedStatements : Realization (Grammar.bracedStatements statement) :=
  (accept _).bind fun
    | none => pure none
    | some _ => claimComments.bind fun _ => (items _ hstatement).bind fun _ =>
      (require _).bind fun _ => (infoFrom ..).bind fun _ => pure _

def block : Realization (Grammar.block statement) := (bracedStatements hstatement).remembered

def requiredBlock : Realization (Grammar.requiredBlock statement) :=
  (block hstatement).required ..

def alternative : Realization (Grammar.alternative statement) :=
  (accept _).bind fun
    | none => pure _
    | some _ => (isNext _).bind fun _ =>
      ite (hstatement.bind fun _ => pure _) ((requiredBlock hstatement).bind fun _ => pure _)

def branch : Realization (Grammar.branch statement) :=
  led fun _ _ => condition.bind fun _ => (requiredBlock hstatement).bind fun _ =>
    (alternative hstatement).bind fun _ => (infoFrom ..).bind fun _ => pure _

def whileLoop : Realization (Grammar.whileLoop statement) :=
  led fun _ _ => condition.bind fun _ => ((requiredBlock hstatement).underFlags ..).bind fun _ =>
    (infoFrom ..).bind fun _ => pure _

def nestedBlock : Realization (Grammar.nestedBlock statement) :=
  (block hstatement).bind fun
    | none => pure none
    | some _ => pure _

def anyStatement : Realization (Grammar.anyStatement statement) :=
  nextKind.bind fun k? => by
    split
    · exact pure none
    · exact declaration
    · exact branch hstatement
    · exact whileLoop hstatement
    · exact returning
    · exact jump
    · exact jump
    · exact (objectAhead false).bind fun _ => ite evaluation (nestedBlock hstatement)
    · exact evaluation

end

def statementWithin : (depth : Nat) → Realization (Grammar.statementWithin depth)
  | 0 => pure none
  | depth + 1 => (anyStatement (statementWithin depth)).remembered

def statement : Realization Grammar.statement := maxDepth.bind statementWithin

def parameter : Realization Grammar.parameter :=
  identifier.bind fun
    | none => pure none
    | some _ => annotation?.bind fun _ => (infoAfter _).bind fun _ => pure _

def parameters : Realization Grammar.parameters :=
  (require _).bind fun
    | none => pure _
    | some _ => (items _ parameter).bind fun _ => (require _).bind fun _ => pure _

def callableBody : Realization Grammar.callableBody := (requiredBlock statement).underFlags ..

def result? : Realization Grammar.result? :=
  (accept _).bind fun
    | none => pure none
    | some _ => requiredType.bind fun _ => pure _

def definitionRest (word : Kind) {finish : Parser Info} (h : Realization finish) :
    Realization (Grammar.definitionRest word finish) :=
  requiredIdentifier.bind fun name => by
    split
    · exact parameters.bind fun _ => callableBody.bind fun _ => h.bind fun _ => pure _
    · exact parameters.bind fun _ => result?.bind fun _ => callableBody.bind fun _ =>
        h.bind fun _ => pure _
    · exact annotation?.bind fun _ => (behind .assign requiredExpression _).bind fun _ =>
        (require _).bind fun _ => h.bind fun _ => pure _
    · exact (behind .assign requiredType _).bind fun _ => (require _).bind fun _ =>
        h.bind fun _ => pure _

def anyDefinition : Realization Grammar.anyDefinition :=
  nextKind.bind fun
    | none => pure none
    | some k => ite (pure none) (keyword.bind fun
      | none => pure none
      | some (word, comments) => (definitionRest k (infoFrom word comments)).map some)

def definition : Realization Grammar.definition := anyDefinition.remembered

end Parser.Realization

namespace Grammar

open Reparse.Parser

/-- The rules that give a node or nothing. -/
inductive Nonterminal
  | definition
  | statement
  | block
  | expression
  | type
  | identifier
  | parameter
  | objectField
  | recordField
  deriving DecidableEq, Repr

namespace Nonterminal

def Node : Nonterminal → Type
  | definition => Definition Info
  | statement => Statement Info
  | block => Block Info
  | expression => Expression Info
  | type => TypeExpression Info
  | identifier => Identifier Info
  | parameter => Parameter Info
  | objectField => Field Info (Expression Info)
  | recordField => Field Info (TypeExpression Info)

def parser : (n : Nonterminal) → Parser (Option n.Node)
  | definition => Grammar.definition
  | statement => Grammar.statement
  | block => Grammar.block Grammar.statement
  | expression => Grammar.expression
  | type => typeExpression
  | identifier => Grammar.identifier
  | parameter => Grammar.parameter
  | objectField => field requiredExpression .missing
  | recordField => field requiredType .missing

def realization : (n : Nonterminal) → Realization n.parser
  | definition => .definition
  | statement => .statement
  | block => .block .statement
  | expression => .expression
  | type => .typeExpression
  | identifier => .identifier
  | parameter => .parameter
  | objectField => .field .requiredExpression _
  | recordField => .field .requiredType _

/-- The routine of a rule, built from the steps that save and commit or roll back frames and push and
pop flags. -/
def routine (n : Nonterminal) : Routine (Option n.Node) := n.realization.routine

theorem represents (n : Nonterminal) : n.routine.Represents n.parser := n.realization.represents

end Nonterminal

end Grammar

end Reparse
