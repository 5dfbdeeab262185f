import QuantaDb.Engine.Access

/-!
# QuantaDb.Engine.Statements

The statements of the engine (`database.rs`), each run in a transaction.
-/

namespace QuantaDb.Engine

open Syntax

/-! ## results -/

/-- `TransactionOutput`. -/
inductive TransactionOutput where
  | begun
  | committed
  | rolledBack
deriving DecidableEq, Repr

/-- `OutputColumn`. -/
structure OutputColumn where
  name : String
  dataType : LogicalType
  nullable : Bool
deriving DecidableEq, Repr

/-- `StatementOutput`. -/
inductive StatementOutput where
  | transaction (output : TransactionOutput)
  | command (tag : String) (affectedRows : Nat)
  | query (columns : List OutputColumn) (rows : List (List Value))
deriving DecidableEq, Repr

/-- The value of a column; a position outside of the row does not occur. -/
def column (values : List Value) (position : Nat) : Value := values.getD position .null

/-- The columns of a table with their positions, as `enumerate` gives them. -/
def TableSchema.enumerated (schema : TableSchema) : List (ColumnSchema × Nat) :=
  schema.columns.zipIdx

/-- The type of a column. -/
def TableSchema.typeAt (schema : TableSchema) (position : Nat) : LogicalType :=
  (schema.columns[position]?.map ColumnSchema.dataType).getD .unknown

/-- Whether a WHERE clause, if there is one, takes a row. -/
def selects (ops : FloatOps) (schema : TableSchema) (selection : Option Expr)
    (values : List Value) :
    Except EngineError Bool :=
  match selection with
  | none => .ok true
  | some selection => Expression.predicate ops selection schema values

/-! ## uniqueness -/

/-- One column in which two rows must differ and do not. -/
def clashesAt (candidate row : List Value) (entry : ColumnSchema × Nat) : Bool :=
  (entry.1.unique || entry.1.primaryKey) && !(column candidate entry.2).isNull &&
    (column candidate entry.2).eq (column row entry.2)

/-- The error for a value that is there already. -/
def duplicateValue (column : ColumnSchema) : EngineError :=
  .constraintViolation s!"duplicate value for unique column {column.name}"

/-- `validate_unique_values`. -/
def validateUniqueValues (schema : TableSchema) (candidate : List Value)
    (rows : List (List Value)) :
    Except EngineError Unit :=
  rows.forM fun row => schema.enumerated.forM fun entry =>
    if clashesAt candidate row entry then .error (duplicateValue entry.1) else .ok ()

/-- `validate_unique_excluding`. -/
def validateUniqueExcluding (schema : TableSchema) (candidate : List Value)
    (rows : List (Bytes × List Value)) (excluded : Nat) : Except EngineError Unit :=
  validateUniqueValues schema candidate ((rows.eraseIdx excluded).map Prod.snd)

/-- A column whose values are kept under unique keys. -/
def ColumnSchema.keyed (column : ColumnSchema) : Bool := column.unique && !column.primaryKey

/-- `acquire_unique_keys` for one column. -/
def acquireUniqueKey (schema : TableSchema) (values : List Value) (rowKey : Bytes)
    (t : Transaction) (entry : ColumnSchema × Nat) : Except EngineError Transaction :=
  if entry.1.keyed && !(column values entry.2).isNull then do
    let key ← uniqueKey schema.id entry.2 (column values entry.2)
    if (t.get key).isSome then .error (duplicateValue entry.1)
    else t.put key rowKey
  else .ok t

/-- `acquire_unique_keys`. -/
def acquireUniqueKeys (t : Transaction) (schema : TableSchema) (values : List Value)
    (rowKey : Bytes) : Except EngineError Transaction :=
  schema.enumerated.foldlM (acquireUniqueKey schema values rowKey) t

/-- `release_unique_keys` for one column. -/
def releaseUniqueKey (schema : TableSchema) (values : List Value) (t : Transaction)
    (entry : ColumnSchema × Nat) : Except EngineError Transaction :=
  if entry.1.keyed && !(column values entry.2).isNull then do
    let key ← uniqueKey schema.id entry.2 (column values entry.2)
    t.delete key
  else .ok t

/-- `release_unique_keys`. -/
def releaseUniqueKeys (t : Transaction) (schema : TableSchema) (values : List Value) :
    Except EngineError Transaction :=
  schema.enumerated.foldlM (releaseUniqueKey schema values) t

/-- The new value of a unique column takes its key. -/
def takeUniqueKey (schema : TableSchema) (new : Value) (changed : Bool)
    (newRowKey : Bytes) (entry : ColumnSchema × Nat) (t : Transaction) :
    Except EngineError Transaction :=
  if new.isNull then .ok t
  else do
    let key ← uniqueKey schema.id entry.2 new
    if changed && (t.get key).isSome then .error (duplicateValue entry.1)
    else t.put key newRowKey

/-- The old value of a unique column gives its key up. -/
def dropUniqueKey (schema : TableSchema) (old : Value) (changed : Bool)
    (entry : ColumnSchema × Nat) (t : Transaction) : Except EngineError Transaction :=
  if changed && !old.isNull then do
    let key ← uniqueKey schema.id entry.2 old
    t.delete key
  else .ok t

/-- `update_unique_keys` for one column. -/
def updateUniqueKey (schema : TableSchema) (old new : List Value)
    (oldRowKey newRowKey : Bytes) (t : Transaction) (entry : ColumnSchema × Nat) :
    Except EngineError Transaction :=
  if !entry.1.keyed then .ok t
  else
    let changed := !(column old entry.2).eq (column new entry.2)
    if !changed && oldRowKey == newRowKey then .ok t
    else do
      let t ← takeUniqueKey schema (column new entry.2) changed newRowKey entry t
      dropUniqueKey schema (column old entry.2) changed entry t

/-- `update_unique_keys`. -/
def updateUniqueKeys (t : Transaction) (schema : TableSchema) (old new : List Value)
    (oldRowKey newRowKey : Bytes) : Except EngineError Transaction :=
  schema.enumerated.foldlM (updateUniqueKey schema old new oldRowKey newRowKey) t

/-! ## index entries -/

/-- `indexed_values`. -/
def indexedValues (index : IndexSchema) (values : List Value) : Option (List Value) :=
  let selected := index.columns.map (column values)
  if selected.any Value.isNull then none else some selected

/-- `add_index_entries` for one index. -/
def addIndexEntry (values : List Value) (rowKey : Bytes) (t : Transaction)
    (index : IndexSchema) : Except EngineError Transaction :=
  match indexedValues index values with
  | none => .ok t
  | some selected => do
      let entry ← indexEntryKey index selected rowKey
      if index.unique && (t.get entry).isSome then
        .error (.constraintViolation s!"duplicate value for unique index {index.name}")
      else t.put entry rowKey

/-- `add_index_entries`. -/
def addIndexEntries (t : Transaction) (indexes : List IndexSchema) (values : List Value)
    (rowKey : Bytes) : Except EngineError Transaction :=
  indexes.foldlM (addIndexEntry values rowKey) t

/-- `remove_index_entries` for one index. -/
def removeIndexEntry (values : List Value) (rowKey : Bytes) (t : Transaction)
    (index : IndexSchema) : Except EngineError Transaction :=
  match indexedValues index values with
  | none => .ok t
  | some selected => do
      let entry ← indexEntryKey index selected rowKey
      t.delete entry

/-- `remove_index_entries`. -/
def removeIndexEntries (t : Transaction) (indexes : List IndexSchema) (values : List Value)
    (rowKey : Bytes) : Except EngineError Transaction :=
  indexes.foldlM (removeIndexEntry values rowKey) t

/-! ## INSERT -/

/-- The positions of the columns that an INSERT names. -/
def namedPositions (schema : TableSchema) :
    List Identifier → List String → Except EngineError (List Nat)
  | [], _ => .ok []
  | identifier :: rest, seen =>
    if identifier.value ∈ seen then
      .error (.invalidRow s!"column {identifier.value} appears more than once")
    else
      match schema.position identifier.value with
      | none => .error (.columnNotFound identifier.value)
      | some position => do
          let positions ← namedPositions schema rest (identifier.value :: seen)
          return position :: positions

/-- The positions that an INSERT fills. -/
def insertPositions (schema : TableSchema) (columns : List Identifier) :
    Except EngineError (List Nat) :=
  if columns.isEmpty then .ok (List.range schema.columns.length)
  else namedPositions schema columns []

/-- One value of a new row; it can refer to the values before it. -/
def insertValue (ops : FloatOps) (schema : TableSchema) (values : List Value)
    (item : Expr × Nat) : Except EngineError (List Value) := do
  let value ← Expression.evaluate ops schema values item.1
  return values.set item.2 (coerce ops value (schema.typeAt item.2))

/-- The values of a new row. -/
def insertValues (ops : FloatOps) (schema : TableSchema) (positions : List Nat)
    (expressions : List Expr) : Except EngineError (List Value) :=
  if expressions.length ≠ positions.length then
    .error (.invalidRow s!"INSERT specifies {positions.length} columns but supplies {expressions.length} values")
  else (expressions.zip positions).foldlM (insertValue ops schema) schema.nulls

/-- The identity of a new row, and the schema with the next hidden row id. -/
def newIdentity (schema : TableSchema) (values : List Value) :
    Except EngineError (Bytes × TableSchema) :=
  match schema.primaryKey with
  | some primaryKey => do
      let identity ← encodeIdentity (column values primaryKey)
      return (identity, schema)
  | none =>
    if schema.nextRowId.toNat + 1 < 2 ^ 64 then
      .ok (be64 schema.nextRowId, { schema with nextRowId := schema.nextRowId + 1 })
    else .error (.constraintViolation "hidden row ID space exhausted")

/-- An INSERT under way: the schema, the rows of this statement and the transaction. -/
structure Inserting where
  schema : TableSchema
  newRows : List (List Value)
  t : Transaction

/-- One row of an INSERT. -/
def insertRow (p : Platform) (positions : List Nat) (existingRows : List (List Value))
    (indexes : List IndexSchema) (s : Inserting) (expressions : List Expr) :
    Except EngineError Inserting := do
  let values ← insertValues p.floats s.schema positions expressions
  s.schema.validateRow values
  validateUniqueValues s.schema values (existingRows ++ s.newRows)
  let identity ← newIdentity s.schema values
  let key ← rowKey s.schema.id identity.1
  if (s.t.get key).isSome then .error (.constraintViolation "duplicate primary key")
  else
    let t ← acquireUniqueKeys s.t s.schema values key
    let t ← addIndexEntries t indexes values key
    let bytes ← encodeRow p values
    let t ← t.put key bytes
    return ⟨identity.2, s.newRows ++ [values], t⟩

/-- Without a primary key the schema is stored with the next row id. -/
def storeRowId (p : Platform) (schemaKey : Bytes) (s : Inserting) :
    Except EngineError Transaction :=
  if s.schema.primaryKey.isNone then do
    let bytes ← encodeSchema p s.schema
    s.t.put schemaKey bytes
  else .ok s.t

/-- `execute_insert`. -/
def executeInsert (p : Platform) (t : Transaction) (insert : Insert) :
    Except EngineError (StatementOutput × Transaction) := do
  let schemaKey ← catalogKey insert.table.value
  let schema ← loadSchema p t insert.table.value
  let positions ← insertPositions schema insert.columns
  let existingRows ← (t.scanPrefix (rowPrefix schema.id)).mapM fun entry => decodeRow p entry.2
  let indexes ← loadTableIndexes p t schema.id
  let done ← insert.rows.foldlM (insertRow p positions existingRows indexes) ⟨schema, [], t⟩
  let t ← storeRowId p schemaKey done
  return (.command "INSERT" done.newRows.length, t)

/-! ## UPDATE -/

/-- The positions and expressions of the assignments of an UPDATE. -/
def resolveAssignments (schema : TableSchema) :
    List Assignment → List Nat → Except EngineError (List (Nat × Expr))
  | [], _ => .ok []
  | assignment :: rest, seen =>
    match schema.position assignment.column.value with
    | none => .error (.columnNotFound assignment.column.value)
    | some position =>
      if position ∈ seen then
        .error (.invalidRow s!"column {assignment.column.value} is assigned more than once")
      else do
        let assignments ← resolveAssignments schema rest (position :: seen)
        return (position, assignment.value) :: assignments

/-- One assignment; its value is computed on the row before the UPDATE. -/
def assignValue (ops : FloatOps) (schema : TableSchema) (original updated : List Value)
    (assignment : Nat × Expr) : Except EngineError (List Value) := do
  let value ← Expression.evaluate ops schema original assignment.2
  return updated.set assignment.1 (coerce ops value (schema.typeAt assignment.1))

/-- The key of a row after an UPDATE. -/
def updatedKey (schema : TableSchema) (updated : List Value) (oldKey : Bytes) :
    Except EngineError Bytes :=
  match schema.primaryKey with
  | some primaryKey => do
      let identity ← encodeIdentity (column updated primaryKey)
      rowKey schema.id identity
  | none => .ok oldKey

/-- An UPDATE under way. -/
structure Updating where
  rows : List (Bytes × List Value)
  t : Transaction
  affected : Nat

/-- A row that changes its key leaves the old one. -/
def moveRow (rows : List (Bytes × List Value)) (position : Nat) (oldKey newKey : Bytes)
    (t : Transaction) : Except EngineError Transaction :=
  if newKey = oldKey then .ok t
  else if (t.get newKey).isSome || (rows.eraseIdx position).any (fun row => row.1 == newKey) then
    .error (.constraintViolation "duplicate primary key")
  else t.delete oldKey

/-- One selected row of an UPDATE. -/
def updateSelected (p : Platform) (schema : TableSchema) (assignments : List (Nat × Expr))
    (indexes : List IndexSchema) (s : Updating) (position : Nat) (oldKey : Bytes)
    (original : List Value) : Except EngineError Updating := do
  let updated ← assignments.foldlM (assignValue p.floats schema original) original
  schema.validateRow updated
  validateUniqueExcluding schema updated s.rows position
  let newKey ← updatedKey schema updated oldKey
  let t ← updateUniqueKeys s.t schema original updated oldKey newKey
  let t ← removeIndexEntries t indexes original oldKey
  let t ← addIndexEntries t indexes updated newKey
  let t ← moveRow s.rows position oldKey newKey t
  let bytes ← encodeRow p updated
  let t ← t.put newKey bytes
  return ⟨s.rows.set position (newKey, updated), t, s.affected + 1⟩

/-- One row of an UPDATE. -/
def updateRow (p : Platform) (schema : TableSchema) (selection : Option Expr)
    (assignments : List (Nat × Expr)) (indexes : List IndexSchema) (s : Updating)
    (position : Nat) : Except EngineError Updating :=
  match s.rows[position]? with
  | none => .ok s
  | some (oldKey, original) => do
      let selected ← selects p.floats schema selection original
      if selected then updateSelected p schema assignments indexes s position oldKey original
      else return s

/-- `execute_update`. -/
def executeUpdate (p : Platform) (t : Transaction) (update : Update) :
    Except EngineError (StatementOutput × Transaction) := do
  let schema ← loadSchema p t update.table.value
  let assignments ← resolveAssignments schema update.assignments []
  let rows ← readRows p t schema update.selection
  let indexes ← loadTableIndexes p t schema.id
  let done ← (List.range rows.length).foldlM
    (updateRow p schema update.selection assignments indexes) ⟨rows, t, 0⟩
  return (.command "UPDATE" done.affected, done.t)

/-! ## DELETE -/

/-- One row of a DELETE. -/
def deleteRow (p : Platform) (schema : TableSchema) (selection : Option Expr)
    (indexes : List IndexSchema) (s : Transaction × Nat) (row : Bytes × List Value) :
    Except EngineError (Transaction × Nat) := do
  schema.validateRow row.2
  let selected ← selects p.floats schema selection row.2
  if selected then
    let t ← releaseUniqueKeys s.1 schema row.2
    let t ← removeIndexEntries t indexes row.2 row.1
    let t ← t.delete row.1
    return (t, s.2 + 1)
  else return s

/-- `execute_delete`. -/
def executeDelete (p : Platform) (t : Transaction) (delete : Delete) :
    Except EngineError (StatementOutput × Transaction) := do
  let schema ← loadSchema p t delete.table.value
  let indexes ← loadTableIndexes p t schema.id
  let rows ← readRows p t schema delete.selection
  let done ← rows.foldlM (deleteRow p schema delete.selection indexes) (t, 0)
  return (.command "DELETE" done.2, done.1)

/-! ## SELECT -/

/-- `expression_name`. -/
def expressionName : Expr → String
  | .identifier identifier => identifier.value
  | _ => "?column?"

/-- The columns of one item of a projection. -/
def itemColumns (schema : TableSchema) : SelectItem → Except EngineError (List OutputColumn)
  | .wildcard => .ok (schema.columns.map fun column =>
    ⟨column.name, column.dataType, column.nullable⟩)
  | .expression expression alias_ => do
      let inferred ← inferType schema expression
      return [⟨(alias_.map Identifier.value).getD (expressionName expression),
        inferred.1, inferred.2⟩]

/-- `projection_columns`. -/
def projectionColumns (schema : TableSchema) (projection : List SelectItem) :
    Except EngineError (List OutputColumn) := do
  let columns ← projection.mapM (itemColumns schema)
  return columns.flatten

/-- The values of one item of a projection. -/
def itemValues (ops : FloatOps) (schema : TableSchema) (values : List Value) :
    SelectItem → Except EngineError (List Value)
  | .wildcard => .ok values
  | .expression expression _ => do
      let value ← Expression.evaluate ops schema values expression
      return [value]

/-- One row of a result. -/
def projected (ops : FloatOps) (schema : TableSchema) (projection : List SelectItem)
    (values : List Value) : Except EngineError (List Value) := do
  let values ← projection.mapM (itemValues ops schema values)
  return values.flatten

/-- `type_rank`. -/
def typeRank : Value → Nat
  | .null => 0
  | .boolean _ => 1
  | .integer _ => 2
  | .float _ => 2
  | .text _ => 3

/-- `f64::total_cmp`. -/
def totalCmp (left right : Binary64) : Ordering :=
  Ord.compare (orderedBits left).toNat (orderedBits right).toNat

/-- `compare_sort_values`. -/
def compareSortValues (ops : FloatOps) : Value → Value → Ordering
  | .null, .null => .eq
  | .null, _ => .gt
  | _, .null => .lt
  | .integer left, .integer right => Ord.compare left.toInt right.toInt
  | .float left, .float right => totalCmp left right
  | .integer left, .float right => totalCmp (ops.ofInt left) right
  | .float left, .integer right => totalCmp left (ops.ofInt right)
  | .boolean left, .boolean right => Ord.compare left right
  | .text left, .text right => Ord.compare (utf8 left) (utf8 right)
  | left, right => Ord.compare (typeRank left) (typeRank right)

/-- `compare_order_keys`. -/
def compareOrderKeys (ops : FloatOps) : List OrderKey → List Value → List Value → Ordering
  | [], _, _ => .eq
  | key :: keys, left, right =>
    let ordering := compareSortValues ops (left.headD .null) (right.headD .null)
    (if key.descending then ordering.swap else ordering).then
      (compareOrderKeys ops keys left.tail right.tail)

/-- The rows a SELECT has gathered: finished ones, and ones with their order keys. -/
structure Gathered where
  rows : List (List Value)
  sortable : List (List Value × List Value)

/-- The number of rows has reached the limit. -/
def limitReached (limit : Option UInt64) (count : Nat) : Bool :=
  limit.any fun limit => limit.toNat ≤ count

/-- The loop of a SELECT; without ORDER BY it stops at the limit. -/
def gather (ops : FloatOps) (schema : TableSchema) (select : Select) :
    List (Bytes × List Value) → Gathered → Except EngineError Gathered
  | [], s => .ok s
  | row :: rest, s => do
      schema.validateRow row.2
      let selected ← selects ops schema select.selection row.2
      if !selected then gather ops schema select rest s
      else
        let values ← projected ops schema select.projection row.2
        if select.orderBy.isEmpty then
          let s := { s with rows := s.rows ++ [values] }
          if limitReached select.limit s.rows.length then return s
          else gather ops schema select rest s
        else
          let keys ← select.orderBy.mapM fun key =>
            Expression.evaluate ops schema row.2 key.expression
          gather ops schema select rest { s with sortable := s.sortable ++ [(keys, values)] }

/-- The sort of a SELECT, which is stable, and its limit. -/
def sorted (ops : FloatOps) (select : Select) (s : Gathered) : List (List Value) :=
  if select.orderBy.isEmpty then s.rows
  else
    let sortable := s.sortable.mergeSort fun left right =>
      (compareOrderKeys ops select.orderBy left.1 right.1).isLE
    let sortable := match select.limit with
      | none => sortable
      | some limit => sortable.take limit.toNat
    sortable.map Prod.snd

/-- `execute_select`. -/
def executeSelect (p : Platform) (t : Transaction) (select : Select) :
    Except EngineError StatementOutput := do
  let schema ← loadSchema p t select.from_.value
  let columns ← projectionColumns schema select.projection
  select.orderBy.forM fun key => (inferType schema key.expression).map fun _ => ()
  if select.limit = some 0 then return .query columns []
  else
    let rows ← readRows p t schema select.selection
    let gathered ← gather p.floats schema select rows ⟨[], []⟩
    return .query columns (sorted p.floats select gathered)

/-- `describe`, from the statements of a text. -/
def describe (p : Platform) (t : Transaction) :
    List Statement → Except EngineError (Option (List OutputColumn))
  | [.select select] => do
      let schema ← loadSchema p t select.from_.value
      let columns ← projectionColumns schema select.projection
      return some columns
  | _ => .ok none

/-! ## tables and indexes -/

/-- The value of a counter, which starts at one. -/
def counterValue (t : Transaction) (counter : Bytes) : Except EngineError UInt64 :=
  match t.get counter with
  | none => .ok 1
  | some bytes => decodeU64 bytes

/-- The next id of a counter and the one after it. -/
def nextId (t : Transaction) (counter : Bytes) (exhausted : String) :
    Except EngineError (UInt64 × UInt64) := do
  let next ← counterValue t counter
  if next.toNat + 1 < 2 ^ 64 then .ok (next, next + 1)
  else .error (.invalidSchema exhausted)

/-- CREATE TABLE. -/
def executeCreateTable (p : Platform) (t : Transaction) (create : CreateTable) :
    Except EngineError (StatementOutput × Transaction) := do
  let key ← catalogKey create.name.value
  if (t.get key).isSome then
    if create.ifNotExists then return (.command "CREATE TABLE" 0, t)
    else .error (.tableAlreadyExists create.name.value)
  else
    let ids ← nextId t tableIdCounterKey "table ID space exhausted"
    let schema ← TableSchema.fromCreate ids.1 create
    let bytes ← encodeSchema p schema
    let t ← t.put key bytes
    let t ← t.put tableIdCounterKey (encodeU64 ids.2)
    return (.command "CREATE TABLE" 0, t)

/-- DROP TABLE for one index of the table. -/
def dropTableIndex (t : Transaction) (index : IndexSchema) : Except EngineError Transaction := do
  let t ← t.deleteAll ((t.scanPrefix (indexEntryPrefix index.id)).map Prod.fst)
  let key ← indexCatalogKey index.name
  t.delete key

/-- DROP TABLE for a table that exists. -/
def dropTable (p : Platform) (t : Transaction) (key bytes : Bytes) :
    Except EngineError Transaction := do
  let schema ← decodeSchema p bytes
  let t ← t.deleteAll ((t.scanPrefix (rowPrefix schema.id)).map Prod.fst)
  let t ← t.deleteAll ((t.scanPrefix (uniquePrefix schema.id)).map Prod.fst)
  let indexes ← loadTableIndexes p t schema.id
  let t ← indexes.foldlM dropTableIndex t
  t.delete key

/-- DROP TABLE. -/
def executeDropTable (p : Platform) (t : Transaction) (drop : DropTable) :
    Except EngineError (StatementOutput × Transaction) := do
  let key ← catalogKey drop.name.value
  match t.get key with
  | none =>
    if drop.ifExists then return (.command "DROP TABLE" 0, t)
    else .error (.tableNotFound drop.name.value)
  | some bytes => do
      let t ← dropTable p t key bytes
      return (.command "DROP TABLE" 0, t)

/-- The positions of the columns of a new index. -/
def indexPositions (schema : TableSchema) :
    List Identifier → List Nat → Except EngineError (List Nat)
  | [], columns => .ok columns
  | identifier :: rest, columns =>
    match schema.position identifier.value with
    | none => .error (.columnNotFound identifier.value)
    | some position =>
      if position ∈ columns then
        .error (.invalidSchema
          s!"column {identifier.value} appears more than once in the index")
      else indexPositions schema rest (columns ++ [position])

/-- The entry of an existing row in a new index. -/
def backfillRow (p : Platform) (index : IndexSchema) (t : Transaction) (entry : Bytes × Bytes) :
    Except EngineError Transaction := do
  let values ← decodeRow p entry.2
  addIndexEntries t [index] values entry.1

/-- CREATE INDEX for an index that is new. -/
def createIndex (p : Platform) (t : Transaction) (create : CreateIndex) (key : Bytes) :
    Except EngineError Transaction := do
  let schema ← loadSchema p t create.table.value
  let columns ← indexPositions schema create.columns []
  let ids ← nextId t indexIdCounterKey "index ID space exhausted"
  let index : IndexSchema := {
    formatVersion := 1
    id := ids.1
    name := create.name.value
    tableId := schema.id
    columns
    unique := create.unique }
  let t ← t.put indexIdCounterKey (encodeU64 ids.2)
  let bytes ← encodeIndex p index
  let t ← t.put key bytes
  (t.scanPrefix (rowPrefix schema.id)).foldlM (backfillRow p index) t

/-- CREATE INDEX. -/
def executeCreateIndex (p : Platform) (t : Transaction) (create : CreateIndex) :
    Except EngineError (StatementOutput × Transaction) := do
  let key ← indexCatalogKey create.name.value
  if (t.get key).isSome then
    if create.ifNotExists then return (.command "CREATE INDEX" 0, t)
    else .error (.indexAlreadyExists create.name.value)
  else
    let t ← createIndex p t create key
    return (.command "CREATE INDEX" 0, t)

/-- DROP INDEX for an index that exists. -/
def dropIndex (p : Platform) (t : Transaction) (key bytes : Bytes) :
    Except EngineError Transaction := do
  let index ← decodeIndex p bytes
  let t ← t.deleteAll ((t.scanPrefix (indexEntryPrefix index.id)).map Prod.fst)
  t.delete key

/-- DROP INDEX. -/
def executeDropIndex (p : Platform) (t : Transaction) (drop : DropIndex) :
    Except EngineError (StatementOutput × Transaction) := do
  let key ← indexCatalogKey drop.name.value
  match t.get key with
  | none =>
    if drop.ifExists then return (.command "DROP INDEX" 0, t)
    else .error (.indexNotFound drop.name.value)
  | some bytes => do
      let t ← dropIndex p t key bytes
      return (.command "DROP INDEX" 0, t)

/-- `execute_in_transaction`. -/
def executeInTransaction (p : Platform) (t : Transaction) :
    Statement → Except EngineError (StatementOutput × Transaction)
  | .createTable create => executeCreateTable p t create
  | .dropTable drop => executeDropTable p t drop
  | .createIndex create => executeCreateIndex p t create
  | .dropIndex drop => executeDropIndex p t drop
  | .insert insert => executeInsert p t insert
  | .select select => do
      let output ← executeSelect p t select
      return (output, t)
  | .update update => executeUpdate p t update
  | .delete delete => executeDelete p t delete
  | .beginTransaction | .commit | .rollback =>
    .error (.unsupported "execution is not implemented yet")

end QuantaDb.Engine
