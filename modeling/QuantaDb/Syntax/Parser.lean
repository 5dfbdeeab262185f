import QuantaDb.Syntax.Lexer
import QuantaDb.Syntax.Spanned

/-!
# QuantaDb.Syntax.Parser

The parser (`parser.rs`).

A parser is a function of the tokens that it has still to read, the last of which is
the end of the text and never consumed.  The depth of nested expressions is counted
down: `parseExpression n` may call itself `n` levels deep.
-/

namespace QuantaDb.Syntax

/-- A parser of the remaining tokens. -/
abbrev Parser := StateT (List Token) (Except SyntaxError)

namespace Parser

/-! ## tokens -/

/-- `current`. -/
def current (rest : List Token) : Token := rest.headD ⟨.eof, ⟨0, 0⟩⟩

/-- `error_current`. -/
def errorCurrent {α : Type} (message : String) : Parser α := fun rest =>
  .error ⟨message, (current rest).span⟩

/-- An error at a token. -/
def fail {α : Type} (message : String) (token : Token) : Parser α := fun _ =>
  .error ⟨message, token.span⟩

/-- `advance`: the end of the text is not consumed. -/
def advance : Parser Token := fun rest =>
  .ok (current rest, if (current rest).kind = .eof then rest else rest.tail)

/-- The kind of the current token. -/
def kind : Parser TokenKind := fun rest => .ok ((current rest).kind, rest)

/-- `consume_punctuation` and `consume_keyword`. -/
def consume (expected : TokenKind) : Parser (Option Token) := fun rest =>
  if (current rest).kind = expected then (advance rest).map fun next => (some next.1, next.2)
  else .ok (none, rest)

/-- `expect_punctuation`. -/
def expect (expected : TokenKind) (message : String) : Parser Token := fun rest =>
  if (current rest).kind = expected then advance rest else errorCurrent message rest

/-- `expect_keyword`. -/
def expectKeyword (expected : Keyword) : Parser Token :=
  expect (.keyword expected) s!"expected {expected.spelling}"

/-- `parse_identifier`. -/
def parseIdentifier : Parser Spanned.Identifier := do
  let token ← advance
  match token.kind with
  | .identifier value quoted => return ⟨value, quoted, token.span⟩
  | _ => fail "expected an identifier" token

/-- The loops that read items up to one that no comma follows. -/
def separated {α : Type} (item : Parser α) : Nat → Parser (List α)
  | 0 => do
      let first ← item
      return [first]
  | turns + 1 => do
      let first ← item
      let comma ← consume .comma
      if comma.isNone then return [first]
      else
        let rest ← separated item turns
        return first :: rest

/-- Such a loop reads a comma in every turn but the last. -/
def commaSeparated {α : Type} (item : Parser α) : Parser (List α) := fun rest =>
  separated item rest.length rest

/-! ## expressions -/

def maxExpressionDepth : Nat := 256

/-- The operators in front of an operand, with their binding power. -/
def unaryOperator : TokenKind → Option (UnaryOperator × Nat)
  | .keyword .not => some (.not, 5)
  | .plus => some (.plus, 11)
  | .minus => some (.minus, 11)
  | _ => none

/-- `current_binary_operator`: the operator and its binding powers to the left and right. -/
def binaryOperator : TokenKind → Option (BinaryOperator × Nat × Nat)
  | .keyword .or => some (.or, 1, 2)
  | .keyword .and => some (.and, 3, 4)
  | .equal => some (.equal, 5, 6)
  | .notEqual => some (.notEqual, 5, 6)
  | .lessThan => some (.lessThan, 5, 6)
  | .lessThanOrEqual => some (.lessThanOrEqual, 5, 6)
  | .greaterThan => some (.greaterThan, 5, 6)
  | .greaterThanOrEqual => some (.greaterThanOrEqual, 5, 6)
  | .plus => some (.add, 7, 8)
  | .minus => some (.subtract, 7, 8)
  | .star => some (.multiply, 9, 10)
  | .slash => some (.divide, 9, 10)
  | .percent => some (.modulo, 9, 10)
  | _ => none

def isBindingPower : Nat := 5

/-- The value of decimal digits, if all are digits. -/
def decimal (raw : String) : Option Nat :=
  if raw.toList ≠ [] ∧ raw.toList.all isDigit = true then
    some (raw.toList.foldl (fun value c => 10 * value + (c.toNat - 48)) 0)
  else none

/-- `raw.contains(['.', 'e', 'E'])`. -/
def isFractional (raw : String) : Bool := raw.toList.any fun c => c = '.' || c = 'e' || c = 'E'

/-- The literal of a number. -/
def numberLiteral (ops : TextOps) (raw : String) : Except String Literal :=
  if isFractional raw then
    match ops.parseFloat raw with
    | some value => .ok (.float value)
    | none => .error "floating-point literal is out of range"
  else
    match (decimal raw).filter (· < 2 ^ 63) with
    | some value => .ok (.integer (Int64.ofNat value))
    | none => .error "integer literal is out of range"

section expressions

variable (ops : TextOps) (sub : Nat → Parser Spanned.Expr)

/-- `parse_primary_expression` behind its first token; `sub` parses expressions inside. -/
def primaryFrom (token : Token) : Parser Spanned.Expr :=
  match token.kind with
  | .identifier value quoted => return .identifier ⟨value, quoted, token.span⟩
  | .string value => return .literal (.string value) token.span
  | .number raw =>
    match numberLiteral ops raw with
    | .ok value => return .literal value token.span
    | .error message => fail message token
  | .keyword .null => return .literal .null token.span
  | .keyword .true => return .literal (.boolean true) token.span
  | .keyword .false => return .literal (.boolean false) token.span
  | .leftParen => do
      let expression ← sub 0
      let close ← expect .rightParen "expected ')' after expression"
      return .parenthesized expression (token.span.join close.span)
  | _ => fail "expected an expression" token

/-- `parse_primary_expression`. -/
def parsePrimaryExpression : Parser Spanned.Expr := do
  let token ← advance
  primaryFrom ops sub token

/-- `parse_prefix_expression`. -/
def parsePrefixExpression : Parser Spanned.Expr := do
  let kind ← kind
  match unaryOperator kind with
  | some (operator, power) => do
      let start ← advance
      let expression ← sub power
      return .unary operator expression (start.span.join expression.span)
  | none => parsePrimaryExpression ops sub

/-- The part of an IS [NOT] NULL behind its operand. -/
def isNullSuffix (left : Spanned.Expr) : Parser Spanned.Expr := do
  let _ ← advance
  let negation ← consume (.keyword .not)
  let null ← expectKeyword .null
  return .isNull left negation.isSome (left.span.join null.span)

/-- An operator and its right operand. -/
def binarySuffix (left : Spanned.Expr) (operator : BinaryOperator) (power : Nat) :
    Parser Spanned.Expr := do
  let _ ← advance
  let right ← sub power
  return .binary left operator right (left.span.join right.span)

/-- The loop of `parse_expression_inner`. -/
def operatorLoop (minimum : Nat) : Nat → Spanned.Expr → Parser Spanned.Expr
  | 0, left => return left
  | turns + 1, left => do
      let kind ← kind
      if kind = .keyword .is then
        if isBindingPower < minimum then return left
        else
          let left ← isNullSuffix left
          operatorLoop minimum turns left
      else
        match binaryOperator kind with
        | none => return left
        | some (operator, leftPower, rightPower) =>
          if leftPower < minimum then return left
          else do
            let left ← binarySuffix sub left operator rightPower
            operatorLoop minimum turns left

/-- The loop reads a token in every turn but the last. -/
def operators (minimum : Nat) (left : Spanned.Expr) : Parser Spanned.Expr := fun rest =>
  operatorLoop sub minimum rest.length left rest

end expressions

/-- `parse_expression`, so many levels below the limit of nesting. -/
def parseExpression (ops : TextOps) : Nat → Nat → Parser Spanned.Expr
  | 0, _ => errorCurrent "expression nesting limit exceeded"
  | levels + 1, minimum => do
      let left ← parsePrefixExpression ops (parseExpression ops levels)
      operators (parseExpression ops levels) minimum left

/-- An expression of a statement. -/
def expression (ops : TextOps) : Parser Spanned.Expr := parseExpression ops maxExpressionDepth 0

/-! ## tables and indexes -/

/-- A length of VARCHAR. -/
def varcharLength (token : Token) : Parser UInt32 :=
  match token.kind with
  | .number raw =>
    match (decimal raw).filter (· < 2 ^ 32) with
    | none => fail "VARCHAR length is out of range" token
    | some 0 => fail "VARCHAR length must be greater than zero" token
    | some length => return UInt32.ofNat length
  | _ => fail "expected VARCHAR length" token

/-- The type VARCHAR behind its keyword, with where it ends. -/
def varchar (token : Token) : Parser (DataType × Span) := do
  let paren ← consume .leftParen
  if paren.isSome then
    let lengthToken ← advance
    let length ← varcharLength lengthToken
    let close ← expect .rightParen "expected ')' after VARCHAR length"
    return (.text (some length), token.span.join close.span)
  else return (.text none, token.span.join token.span)

/-- `parse_data_type`. -/
def parseDataType : Parser (DataType × Span) := do
  let token ← advance
  match token.kind with
  | .keyword .bool | .keyword .boolean => return (.boolean, token.span)
  | .keyword .int | .keyword .integer | .keyword .bigint => return (.int64, token.span)
  | .keyword .float | .keyword .double => return (.float64, token.span)
  | .keyword .text => return (.text none, token.span)
  | .keyword .varchar => varchar token
  | _ => fail "expected BOOL, INT, FLOAT, TEXT, or VARCHAR data type" token

/-- The constraints of a column as they are read. -/
structure Constraints where
  nullable : Bool
  primaryKey : Bool
  unique : Bool
  sawNullability : Bool
  stop : Span

/-- The loop over the constraints of a column. -/
def constraints : Nat → Constraints → Parser Constraints
  | 0, read => return read
  | turns + 1, read => do
      let kind ← kind
      match kind with
      | .keyword .primary => do
          let token ← advance
          if read.primaryKey then fail "duplicate PRIMARY KEY" token
          else
            let key ← expectKeyword .key
            constraints turns { read with primaryKey := true, nullable := false, stop := key.span }
      | .keyword .not => do
          let token ← advance
          if read.sawNullability then fail "duplicate NULL constraint" token
          else
            let null ← expectKeyword .null
            constraints turns
              { read with nullable := false, sawNullability := true, stop := null.span }
      | .keyword .null => do
          let token ← advance
          if read.sawNullability || read.primaryKey then fail "conflicting NULL constraint" token
          else
            constraints turns
              { read with nullable := true, sawNullability := true, stop := token.span }
      | .keyword .unique => do
          let token ← advance
          if read.unique then fail "duplicate UNIQUE constraint" token
          else constraints turns { read with unique := true, stop := token.span }
      | _ => return read

/-- The constraints behind a type that ends at `stop`; each has a token at least. -/
def columnConstraints (stop : Span) : Parser Constraints := fun rest =>
  constraints rest.length ⟨true, false, false, false, stop⟩ rest

/-- `parse_column_def`. -/
def parseColumnDef : Parser Spanned.ColumnDef := do
  let name ← parseIdentifier
  let dataType ← parseDataType
  let read ← columnConstraints dataType.2
  return ⟨name, dataType.1, read.nullable, read.primaryKey, read.unique,
    name.span.join read.stop⟩

/-- IF NOT EXISTS. -/
def ifNotExists : Parser Bool := do
  let if_ ← consume (.keyword .if)
  if if_.isSome then
    let _ ← expectKeyword .not
    let _ ← expectKeyword .exists
    return true
  else return false

/-- IF EXISTS. -/
def ifExists : Parser Bool := do
  let if_ ← consume (.keyword .if)
  if if_.isSome then
    let _ ← expectKeyword .exists
    return true
  else return false

/-- The columns of a table; there must be one. -/
def columnDefs : Parser (List Spanned.ColumnDef) := do
  let kind ← kind
  if kind = .rightParen then errorCurrent "a table must contain at least one column"
  else commaSeparated parseColumnDef

/-- `parse_create_table_after_create`. -/
def parseCreateTableAfterCreate (start : Span) : Parser Spanned.CreateTable := do
  let _ ← expectKeyword .table
  let ifNotExists ← ifNotExists
  let name ← parseIdentifier
  let _ ← expect .leftParen "expected '(' after table name"
  let columns ← columnDefs
  let close ← expect .rightParen "expected ')' after column definitions"
  return ⟨name, ifNotExists, columns, start.join close.span⟩

/-- `parse_create_index_after_create`. -/
def parseCreateIndexAfterCreate (start : Span) (unique : Bool) : Parser Spanned.CreateIndex := do
  let _ ← expectKeyword .index
  let ifNotExists ← ifNotExists
  let name ← parseIdentifier
  let _ ← expectKeyword .on
  let table ← parseIdentifier
  let _ ← expect .leftParen "expected '(' before index columns"
  let columns ← commaSeparated parseIdentifier
  let close ← expect .rightParen "expected ')' after index columns"
  return ⟨name, table, columns, unique, ifNotExists, start.join close.span⟩

/-- `parse_create_statement`. -/
def parseCreateStatement : Parser Spanned.Statement := do
  let start ← expectKeyword .create
  let unique ← consume (.keyword .unique)
  let kind ← kind
  if kind = .keyword .table ∧ unique.isNone then
    let create ← parseCreateTableAfterCreate start.span
    return .createTable create
  else if kind = .keyword .index then
    let create ← parseCreateIndexAfterCreate start.span unique.isSome
    return .createIndex create
  else if unique.isSome then errorCurrent "expected INDEX after CREATE UNIQUE"
  else errorCurrent "expected TABLE or INDEX after CREATE"

/-- `parse_drop_table_after_drop`. -/
def parseDropTableAfterDrop (start : Span) : Parser Spanned.DropTable := do
  let _ ← expectKeyword .table
  let ifExists ← ifExists
  let name ← parseIdentifier
  return ⟨name, ifExists, start.join name.span⟩

/-- `parse_drop_index_after_drop`. -/
def parseDropIndexAfterDrop (start : Span) : Parser Spanned.DropIndex := do
  let _ ← expectKeyword .index
  let ifExists ← ifExists
  let name ← parseIdentifier
  return ⟨name, ifExists, start.join name.span⟩

/-- `parse_drop_statement`. -/
def parseDropStatement : Parser Spanned.Statement := do
  let start ← expectKeyword .drop
  let kind ← kind
  if kind = .keyword .table then
    let drop ← parseDropTableAfterDrop start.span
    return .dropTable drop
  else if kind = .keyword .index then
    let drop ← parseDropIndexAfterDrop start.span
    return .dropIndex drop
  else errorCurrent "expected TABLE or INDEX after DROP"

/-! ## transactions -/

/-- TRANSACTION or WORK, or else the token before. -/
def transactionOrWork (start : Span) : Parser Span := do
  let transaction ← consume (.keyword .transaction)
  match transaction with
  | some token => return token.span
  | none => do
      let work ← consume (.keyword .work)
      return (work.map Token.span).getD start

/-- `parse_begin_transaction`. -/
def parseBeginTransaction : Parser Span := do
  let start ← advance
  match start.kind with
  | .keyword .begin => do
      let stop ← transactionOrWork start.span
      return start.span.join stop
  | .keyword .start => do
      let stop ← expectKeyword .transaction
      return start.span.join stop.span
  | _ => fail "expected BEGIN or START" start

/-- `parse_commit` and `parse_rollback`. -/
def parseEnd (keyword : Keyword) : Parser Span := do
  let start ← expectKeyword keyword
  let stop ← transactionOrWork start.span
  return start.span.join stop

def parseCommit : Parser Span := parseEnd .commit

def parseRollback : Parser Span := parseEnd .rollback

/-! ## rows -/

variable (ops : TextOps)

/-- The columns of an INSERT, if they are given. -/
def insertColumns : Parser (List Spanned.Identifier) := do
  let paren ← consume .leftParen
  if paren.isSome then
    let columns ← commaSeparated parseIdentifier
    let _ ← expect .rightParen "expected ')' after INSERT columns"
    return columns
  else return []

/-- The values of a row; there must be one. -/
def rowValues : Parser (List Spanned.Expr) := do
  let kind ← kind
  if kind = .rightParen then errorCurrent "VALUES rows cannot be empty"
  else commaSeparated (expression ops)

/-- A row of VALUES, with where it ends. -/
def valuesRow : Parser (List Spanned.Expr × Span) := do
  let _ ← expect .leftParen "expected '(' before VALUES row"
  let values ← rowValues ops
  let close ← expect .rightParen "expected ')' after VALUES row"
  return (values, close.span)

/-- `parse_insert`. -/
def parseInsert : Parser Spanned.Insert := do
  let start ← expectKeyword .insert
  let _ ← expectKeyword .into
  let table ← parseIdentifier
  let columns ← insertColumns
  let _ ← expectKeyword .values
  let rows ← commaSeparated (valuesRow ops)
  return ⟨table, columns, rows.map Prod.fst,
    start.span.join ((rows.getLast?.map Prod.snd).getD start.span)⟩

/-- AS and a name. -/
def selectAlias : Parser (Option Spanned.Identifier) := do
  let as_ ← consume (.keyword .as)
  if as_.isSome then
    let name ← parseIdentifier
    return some name
  else return none

/-- One item of a projection. -/
def selectItem : Parser Spanned.SelectItem := do
  let star ← consume .star
  match star with
  | some star => return .wildcard star.span
  | none => do
      let expression ← expression ops
      let name ← selectAlias
      return .expression expression name
        ((name.map fun name => expression.span.join name.span).getD expression.span)

/-- WHERE and a condition. -/
def whereClause : Parser (Option Spanned.Expr) := do
  let where_ ← consume (.keyword .where)
  if where_.isSome then
    let selection ← expression ops
    return some selection
  else return none

/-- The direction of an order key, with where the key ends. -/
def direction (stop : Span) : Parser (Bool × Span) := do
  let desc ← consume (.keyword .desc)
  match desc with
  | some token => return (true, token.span)
  | none => do
      let asc ← consume (.keyword .asc)
      return (false, (asc.map Token.span).getD stop)

/-- One key of ORDER BY. -/
def orderKey : Parser Spanned.OrderKey := do
  let expression ← expression ops
  let direction ← direction expression.span
  return ⟨expression, direction.1, expression.span.join direction.2⟩

/-- ORDER BY and its keys. -/
def orderClause : Parser (List Spanned.OrderKey) := do
  let order ← consume (.keyword .order)
  if order.isSome then
    let _ ← expectKeyword .by
    commaSeparated (orderKey ops)
  else return []

/-- The number of LIMIT. -/
def limitValue (token : Token) : Parser UInt64 :=
  match token.kind with
  | .number raw =>
    if isFractional raw then fail "LIMIT must be a non-negative integer" token
    else
      match (decimal raw).filter (· < 2 ^ 64) with
      | some limit => return UInt64.ofNat limit
      | none => fail "LIMIT is out of range" token
  | _ => fail "expected a non-negative integer after LIMIT" token

/-- LIMIT and its number, with where the statement ends. -/
def limitClause (stop : Span) : Parser (Option UInt64 × Span) := do
  let limit ← consume (.keyword .limit)
  if limit.isSome then
    let token ← advance
    let limit ← limitValue token
    return (some limit, token.span)
  else return (none, stop)

/-- `parse_select`. -/
def parseSelect : Parser Spanned.Select := do
  let start ← expectKeyword .select
  let projection ← commaSeparated (selectItem ops)
  let _ ← expectKeyword .from
  let from_ ← parseIdentifier
  let selection ← whereClause ops
  let orderBy ← orderClause ops
  let limit ← limitClause ((orderBy.getLast?.map Spanned.OrderKey.span).getD
    ((selection.map Spanned.Expr.span).getD from_.span))
  return ⟨projection, from_, selection, orderBy, limit.1, start.span.join limit.2⟩

/-- One assignment of an UPDATE. -/
def assignment : Parser Spanned.Assignment := do
  let column ← parseIdentifier
  let _ ← expect .equal "expected '=' in assignment"
  let value ← expression ops
  return ⟨column, value, column.span.join value.span⟩

/-- `parse_update`. -/
def parseUpdate : Parser Spanned.Update := do
  let start ← expectKeyword .update
  let table ← parseIdentifier
  let _ ← expectKeyword .set
  let assignments ← commaSeparated (assignment ops)
  let selection ← whereClause ops
  return ⟨table, assignments, selection, start.span.join ((selection.map Spanned.Expr.span).getD
    ((assignments.getLast?.map Spanned.Assignment.span).getD table.span))⟩

/-- `parse_delete`. -/
def parseDelete : Parser Spanned.Delete := do
  let start ← expectKeyword .delete
  let _ ← expectKeyword .from
  let table ← parseIdentifier
  let selection ← whereClause ops
  return ⟨table, selection, start.span.join ((selection.map Spanned.Expr.span).getD table.span)⟩

/-! ## statements -/

/-- `parse_next_statement`. -/
def parseNextStatement : Parser Spanned.Statement := do
  let kind ← kind
  match kind with
  | .keyword .create => parseCreateStatement
  | .keyword .drop => parseDropStatement
  | .keyword .begin | .keyword .start => do
      let span ← parseBeginTransaction
      return .beginTransaction span
  | .keyword .commit => do
      let span ← parseCommit
      return .commit span
  | .keyword .rollback => do
      let span ← parseRollback
      return .rollback span
  | .keyword .insert => do
      let insert ← parseInsert ops
      return .insert insert
  | .keyword .select => do
      let select ← parseSelect ops
      return .select select
  | .keyword .update => do
      let update ← parseUpdate ops
      return .update update
  | .keyword .delete => do
      let delete ← parseDelete ops
      return .delete delete
  | _ =>
    errorCurrent "expected CREATE, DROP, BEGIN, START TRANSACTION, COMMIT, ROLLBACK, INSERT, SELECT, UPDATE, or DELETE"

/-- The loop over semicolons. -/
def semicolons : Nat → Parser Unit
  | 0 => return ()
  | turns + 1 => do
      let semicolon ← consume .semicolon
      if semicolon.isSome then semicolons turns else return ()

def skipSemicolons : Parser Unit := fun rest => semicolons rest.length rest

/-- A semicolon behind a statement, unless it is the last. -/
def endOfStatement : Parser Unit := do
  let semicolon ← consume .semicolon
  let kind ← kind
  if semicolon.isNone ∧ kind ≠ .eof then errorCurrent "expected ';' between SQL statements"
  else return ()

/-- The loop of `parse_statements`, for so many turns. -/
def statements : Nat → Parser (List Spanned.Statement)
  | 0 => return []
  | turns + 1 => do
      skipSemicolons
      let kind ← kind
      if kind = .eof then return []
      else
        let statement ← parseNextStatement ops
        endOfStatement
        let rest ← statements turns
        return statement :: rest

end Parser

/-- `parse_sql`.  Each statement has a token at least. -/
def parseSql (ops : TextOps) (sql : String) : Except SyntaxError (List Spanned.Statement) := do
  let tokens ← tokenize ops sql
  let parsed ← Parser.statements ops tokens.length tokens
  return parsed.1

end QuantaDb.Syntax
