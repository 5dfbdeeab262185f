import QuantaDb.Engine.Keyspace
import QuantaDb.Mvcc.Machine

/-!
# QuantaDb.Engine.Transaction

The transaction a statement runs in, as the engine sees it, and what is stored under its keys.

A transaction answers from its snapshot, with its own writes on top.  What a statement wrote
before it failed is never looked at again, since the transaction is dropped then; so a
statement is a function from a transaction to an error or the next transaction.

Schemas and rows are stored as JSON.  `serde_json` is a parameter (`Json`), and nothing is
assumed of it: its floats, for one, do not always come back as they were.
-/

namespace QuantaDb.Engine

/-! ## encodings -/

/-- `serde_json::to_vec` and `serde_json::from_slice` for one type, with the texts of their
errors. -/
structure Json (α : Type) where
  toVec : α → Except String Bytes
  fromSlice : Bytes → Except String α

/-- `RowRecord`. -/
structure RowRecord where
  formatVersion : UInt16
  values : List Value
deriving DecidableEq, Repr

/-- What the engine is compiled with: the arithmetic of floats and the encoding of records. -/
structure Platform where
  floats : FloatOps
  schemas : Json TableSchema
  indexes : Json IndexSchema
  rows : Json RowRecord

namespace Json

variable {α : Type}

/-- An error of the library becomes one of the engine. -/
def encode (json : Json α) (value : α) : Except EngineError Bytes :=
  (json.toVec value).mapError .encoding

/-- A record that is read back, and its version. -/
def decode (json : Json α) (version : α → UInt16) (kind : String) (bytes : Bytes) :
    Except EngineError α := do
  let value ← (json.fromSlice bytes).mapError .encoding
  if version value ≠ 1 then
    .error (.corruptRecord s!"unsupported {kind} format version {version value}")
  else return value

end Json

section

variable (p : Platform)

/-- `encode_schema`. -/
def encodeSchema (schema : TableSchema) : Except EngineError Bytes := p.schemas.encode schema

/-- `decode_schema`. -/
def decodeSchema (bytes : Bytes) : Except EngineError TableSchema :=
  p.schemas.decode TableSchema.formatVersion "schema" bytes

/-- `encode_index`. -/
def encodeIndex (index : IndexSchema) : Except EngineError Bytes := p.indexes.encode index

/-- `decode_index`. -/
def decodeIndex (bytes : Bytes) : Except EngineError IndexSchema :=
  p.indexes.decode IndexSchema.formatVersion "index" bytes

/-- `encode_row`. -/
def encodeRow (values : List Value) : Except EngineError Bytes := p.rows.encode ⟨1, values⟩

/-- `decode_row`. -/
def decodeRow (bytes : Bytes) : Except EngineError (List Value) := do
  let row ← p.rows.decode RowRecord.formatVersion "row" bytes
  return row.values

end

/-- `encode_u64`. -/
def encodeU64 (value : UInt64) : Bytes := be64 value

/-- `decode_u64`. -/
def decodeU64 (bytes : Bytes) : Except EngineError UInt64 :=
  if bytes.length = 8 then .ok (UInt64.ofNat (LittleEndian.decode bytes.reverse))
  else .error (.corruptRecord s!"expected an 8-byte integer, got {bytes.length}")

/-! ## transactions -/

/-- The content of a database. -/
abbrev Content := Std.TreeMap Bytes Bytes

/-- `Transaction`: what its snapshot has under a key and under a prefix, its own writes, and of
these the ones of the statement under way, in their order. -/
structure Transaction where
  read : Bytes → Option Bytes
  scan : Bytes → List (Bytes × Bytes)
  writes : Std.TreeMap Bytes (Option Bytes)
  made : List (Bytes × Option Bytes) := []

namespace Transaction

/-- A transaction on the committed content of a database. -/
def begin (content : Content) : Transaction where
  read key := content[key]?
  scan start := content.toList.filter fun entry => start.isPrefixOf entry.1
  writes := ∅

/-- `Transaction::get`. -/
def get (t : Transaction) (key : Bytes) : Option Bytes :=
  match t.writes[key]? with
  | some value => value
  | none => t.read key

/-- `Transaction::scan_prefix`, in the order of the keys. -/
def scanPrefix (t : Transaction) (start : Bytes) : List (Bytes × Bytes) :=
  ((t.writes.toList.filter fun write => start.isPrefixOf write.1).foldl Mvcc.Transaction.putOwn
    (Std.TreeMap.ofList (t.scan start))).toList

/-- `Transaction::put` and `Transaction::delete`. -/
def write (key : Bytes) (value : Option Bytes) (t : Transaction) :
    Except EngineError Transaction := do
  (Mvcc.validateSize key value).mapError .transaction
  return { t with writes := t.writes.insert key value, made := t.made ++ [(key, value)] }

/-- `Transaction::put`. -/
def put (key value : Bytes) (t : Transaction) : Except EngineError Transaction :=
  t.write key (some value)

/-- `Transaction::delete`. -/
def delete (key : Bytes) (t : Transaction) : Except EngineError Transaction := t.write key none

/-- Deleting one key after the other. -/
def deleteAll (keys : List Bytes) (t : Transaction) : Except EngineError Transaction :=
  keys.foldlM (fun t key => t.delete key) t

end Transaction

/-- `load_schema`. -/
def loadSchema (p : Platform) (t : Transaction) (name : String) :
    Except EngineError TableSchema := do
  let key ← catalogKey name
  match t.get key with
  | none => .error (.tableNotFound name)
  | some bytes => decodeSchema p bytes

/-- `load_table_indexes`. -/
def loadTableIndexes (p : Platform) (t : Transaction) (table : UInt64) :
    Except EngineError (List IndexSchema) := do
  let indexes ← (t.scanPrefix indexCatalogPrefix).mapM fun entry => decodeIndex p entry.2
  return indexes.filter fun index => index.tableId == table

end QuantaDb.Engine
