import QuantaDb.Mvcc.State

/-!
# QuantaDb.Mvcc.Machine

Transactions over the multi-version state, and every way their steps interleave.

A step takes the state lock once.  Between the steps of one commit
(`prepare_commit`, `finish_prepared`, `end_transaction`) and between the two
parts of an index rebuild anything else may happen, so a machine state also
holds the commits and the rebuilds that are under way.  What the machine records
beside that (`recovered`, `finished`, `scans`) no step looks at; it is what the
results are stated with.
-/

namespace QuantaDb.Mvcc

/-! ## transactions -/

/-- `Transaction`; one that is finished is no longer held by anyone. -/
structure Transaction where
  id : Nat
  snapshot : Nat
  writes : Std.TreeMap Key (Option Bytes) := ∅
  scannedPrefixes : List Bytes := []
  rangeProtected : Bool := false

def recordHeaderSize : Nat := 32

/-- `VersionRecord::validate_size`. -/
def validateSize (key : Key) (value : Option Bytes) : Except TransactionError Unit :=
  let actual := recordHeaderSize + key.length + (value.map List.length).getD 0
  if maxPagePayload < actual then .error (.recordTooLarge actual maxPagePayload) else .ok ()

namespace Transaction

/-- `Transaction::put` and `Transaction::delete`. -/
def write (t : Transaction) (key : Key) (value : Option Bytes) :
    Except TransactionError Transaction :=
  (validateSize key value).map fun _ => { t with writes := t.writes.insert key value }

/-- `protect_scans`. -/
def protectScans (t : Transaction) : Transaction := { t with rangeProtected := true }

/-- What `scan_prefix` notes of a prefix: nothing if a shorter one is noted
already, and instead of the longer ones. -/
def noteScan (t : Transaction) (start : Bytes) : Transaction :=
  if t.rangeProtected && !t.scannedPrefixes.any fun existing => existing.isPrefixOf start then
    { t with scannedPrefixes :=
        (t.scannedPrefixes.filter fun existing => !start.isPrefixOf existing) ++ [start] }
  else t

/-- A value enters the results of a scan, a tombstone does not. -/
def addResult (results : Std.TreeMap Key Bytes) (key : Key) : Option Bytes → Std.TreeMap Key Bytes
  | some value => results.insert key value
  | none => results

/-- A write of the transaction goes on top of the results. -/
def putOwn (results : Std.TreeMap Key Bytes) (write : Key × Option Bytes) : Std.TreeMap Key Bytes :=
  match write.2 with
  | some value => results.insert write.1 value
  | none => results.erase write.1

/-- The versions under a prefix that a scan finds in the map. -/
def scanMap (t : Transaction) (st : State) (start : Bytes) : List (Key × Version) :=
  (versionRange st.versions start).filterMap fun entry =>
    (visibleVersion entry.2 t.snapshot).map fun version => (entry.1, version)

/-- The entries under a prefix of the generation that a snapshot reads. -/
def scanIndex (t : Transaction) (st : State) (start : Bytes) : List (Key × Version) :=
  match st.generationAt t.snapshot with
  | none => []
  | some g => g.entries.toList.filter fun entry => inRange start (prefixEnd start) entry.1

/-- The results of `scan_prefix`: the map, the index where the map says nothing,
and the transaction's own writes on top. -/
def scanPrefix (t : Transaction) (st : State) (start : Bytes) : Std.TreeMap Key Bytes :=
  let found := t.scanMap st start
  let masked := Std.TreeSet.ofList (found.map Prod.fst)
  let results := found.foldl (fun results entry => addResult results entry.1 entry.2.value) ∅
  let results := (t.scanIndex st start).foldl (fun results entry =>
    if masked.contains entry.1 then results else addResult results entry.1 entry.2.value) results
  (t.writes.toList.filter fun write => start.isPrefixOf write.1).foldl putOwn results

end Transaction

/-! ## the machine -/

/-- A commit between `prepare_commit` and `finish_prepared`. -/
structure Prepared where
  transactionId : Nat
  snapshot : Nat
  timestamp : Nat
  writes : List (Key × Option Bytes)
  scannedPrefixes : List Bytes
deriving DecidableEq, Repr

/-- A commit that `finish_prepared` is done with, and the pages of its writes if
it was published. -/
structure Finished where
  commit : Prepared
  pageIds : Option (List PageId)
deriving DecidableEq, Repr

/-- The versions a finished commit has published. -/
def Finished.versions (f : Finished) : List (Key × Version) :=
  match f.pageIds with
  | none => []
  | some pageIds => (f.commit.writes.zip pageIds).map fun write =>
    (write.1.1, ⟨f.commit.timestamp, write.1.2, write.2⟩)

/-- A call of `scan_prefix` under range protection: the writes the transaction
had made by then, and what it was given. -/
structure Scan where
  transactionId : Nat
  start : Bytes
  own : Std.TreeMap Key (Option Bytes)
  results : Std.TreeMap Key Bytes

/-- The state under its lock, and what is going on around it. -/
structure Core where
  db : State
  transactions : Std.TreeMap Nat Transaction := ∅
  prepared : Std.TreeMap Nat Prepared := ∅
  /-- Transactions between `finish_prepared` and `end_transaction`. -/
  closing : Std.TreeSet Nat := ∅
  builds : List Build := []
  recovered : List (Key × Version) := []
  finished : List Finished := []
  scans : List Scan := []

inductive Action where
  | begin
  | write (id : Nat) (key : Key) (value : Option Bytes)
  | protectScans (id : Nat)
  | scanPrefix (id : Nat) (start : Bytes)
  | prepare (id : Nat)
  | finish (timestamp : Nat) (pageIds : List PageId)
  | abandon (timestamp : Nat)
  | close (id : Nat)
  | finishClose (id : Nat)
  | capture
  | publish (build : Nat) (manifestPageId : PageId) (openPage : Option PageId)
  | drop (build : Nat)
deriving DecidableEq, Repr

namespace Core

/-- The versions recovered at open and those published since. -/
def history (c : Core) : List (Key × Version) := c.recovered ++ c.finished.flatMap Finished.versions

/-- `MvccDatabase::begin`. -/
def begin (c : Core) : Option Core :=
  match c.db.begin with
  | .error _ => none
  | .ok (id, db) => some { c with
      db, transactions := c.transactions.insert id { id, snapshot := c.db.visibleThrough } }

/-- `Transaction::put` and `Transaction::delete`. -/
def write (c : Core) (id : Nat) (key : Key) (value : Option Bytes) : Option Core :=
  match c.transactions[id]? with
  | none => none
  | some t =>
    match t.write key value with
    | .error _ => none
    | .ok t => some { c with transactions := c.transactions.insert id t }

/-- `Transaction::protect_scans`. -/
def protectScans (c : Core) (id : Nat) : Option Core :=
  c.transactions[id]?.map fun t =>
    { c with transactions := c.transactions.insert id t.protectScans }

/-- `Transaction::scan_prefix`. -/
def scanPrefix (c : Core) (id : Nat) (start : Bytes) : Option Core :=
  c.transactions[id]?.map fun t => { c with
    transactions := c.transactions.insert id (t.noteScan start)
    scans := if t.rangeProtected then ⟨id, start, t.writes, t.scanPrefix c.db start⟩ :: c.scans
      else c.scans }

/-- `Transaction::commit` of a transaction with writes, up to `prepare_commit`. -/
def prepare (c : Core) (id : Nat) : Option Core :=
  match c.transactions[id]? with
  | none => none
  | some t =>
    if t.writes.isEmpty then none
    else
      match c.db.prepareCommit id t.snapshot t.writes.keys t.scannedPrefixes with
      | .error _ => none
      | .ok (timestamp, db) => some { c with
          db
          transactions := c.transactions.erase id
          prepared := c.prepared.insert timestamp
            ⟨id, t.snapshot, timestamp, t.writes.toList, t.scannedPrefixes⟩ }

/-- `finish_prepared` after `persist_commit`, which names a page for each write or
fails. -/
def finish (c : Core) (timestamp : Nat) (pageIds : Option (List PageId)) : Option Core :=
  match c.prepared[timestamp]? with
  | none => none
  | some p =>
    if pageIds.all fun pageIds => pageIds.length == p.writes.length then
      let (error, db) := c.db.finishPrepared p.transactionId timestamp p.writes pageIds
      some { c with
        db
        prepared := c.prepared.erase timestamp
        closing := c.closing.insert p.transactionId
        finished := if error.isNone then c.finished ++ [⟨p, pageIds⟩] else c.finished }
    else none

/-- `end_transaction` of a transaction that is rolled back or dropped, has nothing
to commit, or is refused by `prepare_commit`. -/
def close (c : Core) (id : Nat) : Option Core :=
  if id ∈ c.transactions then
    some { c with db := c.db.endTransaction id, transactions := c.transactions.erase id }
  else none

/-- `end_transaction` behind a commit. -/
def finishClose (c : Core) (id : Nat) : Option Core :=
  if id ∈ c.closing then
    some { c with db := c.db.endTransaction id, closing := c.closing.erase id }
  else none

/-- `rebuild_index` starts. -/
def capture (c : Core) : Option Core :=
  c.db.capture.map fun build => { c with builds := c.builds ++ [build] }

/-- `rebuild_index` publishes. -/
def publish (c : Core) (build : Nat) (manifestPageId : PageId) (openPage : Option PageId) :
    Option Core :=
  c.builds[build]?.map fun b => { c with
    db := (c.db.publish ⟨b.timestamp, b.entries, manifestPageId⟩ openPage).2
    builds := c.builds.eraseIdx build }

/-- `rebuild_index` fails to write its pages. -/
def drop (c : Core) (build : Nat) : Option Core :=
  c.builds[build]?.map fun _ => { c with builds := c.builds.eraseIdx build }

def step (c : Core) : Action → Option Core
  | .begin => c.begin
  | .write id key value => c.write id key value
  | .protectScans id => c.protectScans id
  | .scanPrefix id start => c.scanPrefix id start
  | .prepare id => c.prepare id
  | .finish timestamp pageIds => c.finish timestamp (some pageIds)
  | .abandon timestamp => c.finish timestamp none
  | .close id => c.close id
  | .finishClose id => c.finishClose id
  | .capture => c.capture
  | .publish build manifestPageId openPage => c.publish build manifestPageId openPage
  | .drop build => c.drop build

/-- Several steps. -/
def run (c : Core) (actions : List Action) : Option Core := actions.foldlM step c

end Core

end QuantaDb.Mvcc
