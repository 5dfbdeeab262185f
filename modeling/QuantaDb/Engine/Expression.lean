import QuantaDb.Engine.Value

/-!
# QuantaDb.Engine.Expression

Evaluating expressions on a row (`expression.rs`).

Integers are checked; the arithmetic of floats is that of the processor and comes
as a parameter (`FloatOps`), their comparison is defined on their values.
-/

namespace QuantaDb.Engine

open Syntax

/-- The floating-point operations of the platform. -/
structure FloatOps where
  /-- `as f64` -/
  ofInt : Int64 → Binary64
  add : Binary64 → Binary64 → Binary64
  sub : Binary64 → Binary64 → Binary64
  mul : Binary64 → Binary64 → Binary64
  div : Binary64 → Binary64 → Binary64
  rem : Binary64 → Binary64 → Binary64

/-- The bytes of a text. -/
def utf8 (s : String) : Bytes := s.toByteArray.data.toList

theorem utf8_inj {s t : String} : utf8 s = utf8 t ↔ s = t := by
  unfold utf8
  rw [← String.toByteArray_inj, Array.toList_inj]
  exact ⟨fun h => ByteArray.ext h, fun h => by rw [h]⟩

namespace Expression

/-- `literal`. -/
def literal : Literal → Except EngineError Value
  | .null => .ok .null
  | .boolean value => .ok (.boolean value)
  | .integer value => .ok (.integer value)
  | .float value =>
    if value.isFinite then .ok (.float value)
    else .error (.expression "non-finite float literal is not supported")
  | .string value => .ok (.text value)

/-- An integer that fits. -/
def checked (n : Int) : Option Int64 :=
  if -2 ^ 63 ≤ n ∧ n < 2 ^ 63 then some (Int64.ofInt n) else none

/-- `unary`. -/
def unary (operator : UnaryOperator) (value : Value) : Except EngineError Value :=
  if value.isNull then .ok .null
  else
    match operator, value with
    | .not, .boolean value => .ok (.boolean !value)
    | .plus, .integer value => .ok (.integer value)
    | .plus, .float value => .ok (.float value)
    | .minus, .integer value =>
      match checked (-value.toInt) with
      | some value => .ok (.integer value)
      | none => .error (.expression "integer negation overflow")
    | .minus, .float value => .ok (.float value.neg)
    | _, _ => .error (.expression "invalid operand for unary operator")

/-- An operand of AND or OR. -/
def boolean : Value → Except EngineError (Option Bool)
  | .boolean value => .ok (some value)
  | .null => .ok none
  | _ => .error (.expression "AND/OR operands must be boolean")

/-- AND in three-valued logic. -/
def conjunction : Option Bool → Option Bool → Value
  | some false, _ => .boolean false
  | _, some false => .boolean false
  | some true, some true => .boolean true
  | _, _ => .null

/-- OR in three-valued logic. -/
def disjunction : Option Bool → Option Bool → Value
  | some true, _ => .boolean true
  | _, some true => .boolean true
  | some false, some false => .boolean false
  | _, _ => .null

/-- The order of two values of types that can be compared. -/
def ordering (ops : FloatOps) : Value → Value → Except EngineError (Option Ordering)
  | .boolean left, .boolean right => .ok (some (Ord.compare left right))
  | .integer left, .integer right => .ok (some (Ord.compare left.toInt right.toInt))
  | .float left, .float right => .ok (left.partialCmp right)
  | .integer left, .float right => .ok ((ops.ofInt left).partialCmp right)
  | .float left, .integer right => .ok (left.partialCmp (ops.ofInt right))
  | .text left, .text right => .ok (some (Ord.compare (utf8 left) (utf8 right)))
  | _, _ => .error (.expression "values of these types cannot be compared")

/-- What an ordering means for a comparison operator. -/
def holds (operator : BinaryOperator) (ordering : Ordering) : Bool :=
  match operator with
  | .equal => ordering.isEq
  | .notEqual => !ordering.isEq
  | .lessThan => ordering.isLT
  | .lessThanOrEqual => !ordering.isGT
  | .greaterThan => ordering.isGT
  | _ => !ordering.isLT

/-- `compare`. -/
def compare (ops : FloatOps) (operator : BinaryOperator) (left right : Value) :
    Except EngineError Value :=
  match ordering ops left right with
  | .error error => .error error
  | .ok none => .error (.expression "comparison is unordered")
  | .ok (some ordering) => .ok (.boolean (holds operator ordering))

/-- Arithmetic on integers. -/
def integerArithmetic (operator : BinaryOperator) (left right : Int) : Option Int64 :=
  match operator with
  | .add => checked (left + right)
  | .subtract => checked (left - right)
  | .multiply => checked (left * right)
  | .divide => if right = 0 then none else checked (left.tdiv right)
  | _ => if right = 0 ∨ left = -2 ^ 63 ∧ right = -1 then none else checked (left.tmod right)

/-- An operand as a float. -/
def number (ops : FloatOps) : Value → Except EngineError Binary64
  | .integer value => .ok (ops.ofInt value)
  | .float value => .ok value
  | _ => .error (.expression "arithmetic operands must be numeric")

/-- Arithmetic on floats. -/
def floatArithmetic (ops : FloatOps) (operator : BinaryOperator) (left right : Binary64) :
    Binary64 :=
  match operator with
  | .add => ops.add left right
  | .subtract => ops.sub left right
  | .multiply => ops.mul left right
  | .divide => ops.div left right
  | _ => ops.rem left right

/-- `arithmetic` where an operand is not an integer. -/
def mixedArithmetic (ops : FloatOps) (operator : BinaryOperator) (left right : Value) :
    Except EngineError Value := do
  let left ← number ops left
  let right ← number ops right
  if right.isZero && (operator == .divide || operator == .modulo) then
    .error (.expression "division by zero")
  else
    let result := floatArithmetic ops operator left right
    if result.isFinite then .ok (.float result)
    else .error (.expression "floating-point result is not finite")

/-- `arithmetic`. -/
def arithmetic (ops : FloatOps) (operator : BinaryOperator) (left right : Value) :
    Except EngineError Value :=
  match left, right with
  | .integer left, .integer right =>
    match integerArithmetic operator left.toInt right.toInt with
    | some value => .ok (.integer value)
    | none => .error (.expression "integer overflow or division by zero")
  | left, right => mixedArithmetic ops operator left right

/-- `binary`. -/
def binary (ops : FloatOps) (operator : BinaryOperator) (left right : Value) :
    Except EngineError Value :=
  match operator with
  | .and => do
      let left ← boolean left
      let right ← boolean right
      return conjunction left right
  | .or => do
      let left ← boolean left
      let right ← boolean right
      return disjunction left right
  | operator =>
    if left.isNull || right.isNull then .ok .null
    else
      match operator with
      | .add | .subtract | .multiply | .divide | .modulo => arithmetic ops operator left right
      | operator => compare ops operator left right

/-- `evaluate`. -/
def evaluate (ops : FloatOps) (schema : TableSchema) (row : List Value) :
    Expr → Except EngineError Value
  | .identifier identifier =>
    match (schema.position identifier.value).bind fun position => row[position]? with
    | some value => .ok value
    | none => .error (.columnNotFound identifier.value)
  | .literal value => literal value
  | .parenthesized expression => evaluate ops schema row expression
  | .isNull expression negated => do
      let value ← evaluate ops schema row expression
      return .boolean (value.isNull != negated)
  | .unary operator expression => do
      let value ← evaluate ops schema row expression
      unary operator value
  | .binary left operator right => do
      let left ← evaluate ops schema row left
      let right ← evaluate ops schema row right
      binary ops operator left right

/-- What a WHERE clause makes of a value. -/
def truth : Value → Except EngineError Bool
  | .boolean value => .ok value
  | .null => .ok false
  | _ => .error (.expression "WHERE expression must be boolean")

/-- `predicate`. -/
def predicate (ops : FloatOps) (expr : Expr) (schema : TableSchema) (row : List Value) :
    Except EngineError Bool := do
  let value ← evaluate ops schema row expr
  truth value

end Expression

/-- `infer_type`. -/
def inferType (schema : TableSchema) : Expr → Except EngineError (LogicalType × Bool)
  | .identifier identifier =>
    match schema.columns.find? fun column => column.name == identifier.value with
    | some column => .ok (column.dataType, column.nullable)
    | none => .error (.columnNotFound identifier.value)
  | .literal .null => .ok (.unknown, true)
  | .literal (.boolean _) => .ok (.boolean, false)
  | .literal (.integer _) => .ok (.int64, false)
  | .literal (.float _) => .ok (.float64, false)
  | .literal (.string _) => .ok (.text none, false)
  | .isNull _ _ => .ok (.boolean, false)
  | .parenthesized expression => inferType schema expression
  | .unary _ expression => inferType schema expression
  | .binary left operator right => do
      let left ← inferType schema left
      let right ← inferType schema right
      return (binaryType operator left.1 right.1, left.2 || right.2)
where
  /-- The type of a binary operation. -/
  binaryType (operator : BinaryOperator) (left right : LogicalType) : LogicalType :=
    match operator with
    | .add | .subtract | .multiply | .divide | .modulo =>
      if left = .float64 ∨ right = .float64 then .float64 else .int64
    | _ => .boolean

end QuantaDb.Engine
