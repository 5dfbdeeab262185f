import QuantaDb.Syntax.Ast
import QuantaDb.Syntax.Parser

/-!
# QuantaDb.Syntax.Precedence

Expressions as trees of operators: how tight each operator binds, the tokens that a tree
stands for, and the trees that the parser can return.

The operators that an expression begins with, read from the left, form its `spine`: the
loop of the parser adds one operator to it in each turn.
-/

namespace QuantaDb.Syntax

/-! ## operators -/

namespace BinaryOperator

/-- The token of an operator. -/
def token : BinaryOperator → TokenKind
  | .or => .keyword .or
  | .and => .keyword .and
  | .equal => .equal
  | .notEqual => .notEqual
  | .lessThan => .lessThan
  | .lessThanOrEqual => .lessThanOrEqual
  | .greaterThan => .greaterThan
  | .greaterThanOrEqual => .greaterThanOrEqual
  | .add => .plus
  | .subtract => .minus
  | .multiply => .star
  | .divide => .slash
  | .modulo => .percent

/-- How tight an operator binds. -/
def power : BinaryOperator → Nat
  | .or => 1
  | .and => 3
  | .equal | .notEqual | .lessThan | .lessThanOrEqual | .greaterThan | .greaterThanOrEqual => 5
  | .add | .subtract => 7
  | .multiply | .divide | .modulo => 9

theorem power_le (operator : BinaryOperator) : operator.power ≤ 9 := by
  cases operator <;> decide

end BinaryOperator

namespace UnaryOperator

/-- The token of an operator. -/
def token : UnaryOperator → TokenKind
  | .not => .keyword .not
  | .plus => .plus
  | .minus => .minus

/-- How tight an operator binds. -/
def power : UnaryOperator → Nat
  | .not => 5
  | .plus | .minus => 11

end UnaryOperator

namespace Parser

/-- The table of binary operators. -/
theorem binaryOperator_eq_some {kind : TokenKind} {operator : BinaryOperator} {powers : Nat × Nat} :
    binaryOperator kind = some (operator, powers) ↔
      kind = operator.token ∧ powers = (operator.power, operator.power + 1) := by
  constructor
  · intro h
    unfold binaryOperator at h
    split at h <;> cases h <;> exact ⟨rfl, rfl⟩
  · rintro ⟨rfl, rfl⟩
    cases operator <;> rfl

/-- The table of prefix operators. -/
theorem unaryOperator_eq_some {kind : TokenKind} {operator : UnaryOperator} {power : Nat} :
    unaryOperator kind = some (operator, power) ↔ kind = operator.token ∧
    power = operator.power := by
  constructor
  · intro h
    unfold unaryOperator at h
    split at h <;> cases h <;> exact ⟨rfl, rfl⟩
  · rintro ⟨rfl, rfl⟩
    cases operator <;> rfl

/-- How tight the operator binds that a token is, if it stands behind an operand. -/
def nextPower (kind : TokenKind) : Option Nat :=
  if kind = .keyword .is then some isBindingPower
  else (binaryOperator kind).map fun operator => operator.2.1

theorem nextPower_is : nextPower (.keyword .is) = some isBindingPower := rfl

theorem nextPower_token (operator : BinaryOperator) :
    nextPower operator.token = some operator.power := by
  cases operator <;> rfl

end Parser

/-! ## tokens of expressions -/

/-- A token without its place, with a number by its value. -/
inductive Lexeme where
  | kind (kind : TokenKind)
  | literal (value : Literal)
deriving DecidableEq

/-- The lexeme of a token; a number that is out of range has none by its value. -/
def lexeme (ops : TextOps) (t : Token) : Lexeme :=
  match t.kind with
  | .number raw =>
    match Parser.numberLiteral ops raw with
    | .ok value => .literal value
    | .error _ => .kind t.kind
  | kind => .kind kind

/-- The lexeme of a literal. -/
def Literal.lexeme : Literal → Lexeme
  | .null => .kind (.keyword .null)
  | .boolean true => .kind (.keyword .true)
  | .boolean false => .kind (.keyword .false)
  | .string value => .kind (.string value)
  | .integer value => .literal (.integer value)
  | .float value => .literal (.float value)

namespace Expr

/-- The tokens of an expression. -/
def flatten : Expr → List Lexeme
  | .identifier name => [.kind (.identifier name.value name.quoted)]
  | .literal value => [value.lexeme]
  | .unary operator e => .kind operator.token :: e.flatten
  | .binary left operator right => left.flatten ++ .kind operator.token :: right.flatten
  | .isNull e negated =>
    e.flatten ++ .kind (.keyword .is) ::
      ((if negated then [.kind (.keyword .not)] else []) ++ [.kind (.keyword .null)])
  | .parenthesized e => .kind .leftParen :: (e.flatten ++ [.kind .rightParen])

/-! ## shapes of trees -/

/-- The powers of the operators from the root to the left. -/
def spine : Expr → List Nat
  | .binary left operator _ => operator.power :: left.spine
  | .isNull e _ => Parser.isBindingPower :: e.spine
  | _ => []

/-- An operator of power `power` behind the tokens of an expression is not taken to
belong to its last operand. -/
def Closes : Expr → Nat → Prop
  | .binary _ operator _, power => power ≤ operator.power
  | .unary operator _, power => power < operator.power
  | _, _ => True

/-- The trees that keep to the precedence of their operators. -/
def Precedes : Expr → Prop
  | .unary operator e => e.Precedes ∧ ∀ power ∈ e.spine, operator.power ≤ power
  | .binary left operator right =>
    left.Precedes ∧ right.Precedes ∧ left.Closes operator.power ∧
      ∀ power ∈ right.spine, operator.power < power
  | .isNull e _ => e.Precedes ∧ e.Closes Parser.isBindingPower
  | .parenthesized e => e.Precedes
  | _ => True

/-- How many calls of `parse_expression` are inside one another while a tree is parsed. -/
def nesting : Expr → Nat
  | .unary _ e => e.nesting + 1
  | .binary left _ right => max left.nesting (right.nesting + 1)
  | .isNull e _ => e.nesting
  | .parenthesized e => e.nesting + 1
  | _ => 1

/-- The height of a tree. -/
def height : Expr → Nat
  | .unary _ e => e.height + 1
  | .binary left _ right => max left.height right.height + 1
  | .isNull e _ => e.height + 1
  | .parenthesized e => e.height + 1
  | _ => 1

end Expr

end QuantaDb.Syntax
