import Reparse.Token.Kind

/-!
# Operators

Binary operators come in four categories; operators of one category bind equally tightly and group
to the left.
-/

namespace Reparse

inductive Precedence
  | logical
  | comparison
  | additive
  | multiplicative
  deriving DecidableEq, Repr

def Precedence.name : Precedence → Text
  | .logical => "Logical".toList
  | .comparison => "Comparison".toList
  | .additive => "Additive".toList
  | .multiplicative => "Multiplicative".toList

inductive BinaryOperator
  | and
  | or
  | equal
  | notEqual
  | less
  | lessEqual
  | greater
  | greaterEqual
  | add
  | subtract
  | multiply
  | divide
  | remainder
  deriving DecidableEq, Repr

namespace BinaryOperator

def kind : BinaryOperator → Kind
  | .and => .both
  | .or => .either
  | .equal => .equal
  | .notEqual => .notEqual
  | .less => .less
  | .lessEqual => .lessEqual
  | .greater => .greater
  | .greaterEqual => .greaterEqual
  | .add => .plus
  | .subtract => .minus
  | .multiply => .star
  | .divide => .slash
  | .remainder => .percent

def ofKind? : Kind → Option BinaryOperator
  | .both => some .and
  | .either => some .or
  | .equal => some .equal
  | .notEqual => some .notEqual
  | .less => some .less
  | .lessEqual => some .lessEqual
  | .greater => some .greater
  | .greaterEqual => some .greaterEqual
  | .plus => some .add
  | .minus => some .subtract
  | .star => some .multiply
  | .slash => some .divide
  | .percent => some .remainder
  | _ => none

theorem ofKind?_kind (o : BinaryOperator) : ofKind? o.kind = some o := by cases o <;> rfl

theorem kind_of_ofKind? {k : Kind} {o : BinaryOperator} (h : ofKind? k = some o) : o.kind = k := by
  cases k <;> cases h <;> rfl

def precedence : BinaryOperator → Precedence
  | .and | .or => .logical
  | .equal | .notEqual | .less | .lessEqual | .greater | .greaterEqual => .comparison
  | .add | .subtract => .additive
  | .multiply | .divide | .remainder => .multiplicative

def symbol (o : BinaryOperator) : Text := o.kind.describe

def name : BinaryOperator → Text
  | .and => "And".toList
  | .or => "Or".toList
  | .equal => "Eq".toList
  | .notEqual => "NotEq".toList
  | .less => "Lt".toList
  | .lessEqual => "LtEq".toList
  | .greater => "Gt".toList
  | .greaterEqual => "GtEq".toList
  | .add => "Add".toList
  | .subtract => "Sub".toList
  | .multiply => "Mul".toList
  | .divide => "Div".toList
  | .remainder => "Rem".toList

end BinaryOperator

inductive UnaryOperator
  | negate
  | not
  deriving DecidableEq, Repr

namespace UnaryOperator

def kind : UnaryOperator → Kind
  | .negate => .minus
  | .not => .bang

def ofKind? : Kind → Option UnaryOperator
  | .minus => some .negate
  | .bang => some .not
  | _ => none

theorem ofKind?_kind (o : UnaryOperator) : ofKind? o.kind = some o := by cases o <;> rfl

theorem kind_of_ofKind? {k : Kind} {o : UnaryOperator} (h : ofKind? k = some o) : o.kind = k := by
  cases k <;> cases h <;> rfl

def name : UnaryOperator → Text
  | .negate => "Neg".toList
  | .not => "Not".toList

end UnaryOperator

end Reparse
