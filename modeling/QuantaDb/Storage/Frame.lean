import QuantaDb.Lib.LittleEndian
import QuantaDb.Storage.Wal

/-!
# QuantaDb.Storage.Frame

The write-ahead log at the grain of bytes (`wal.rs`): how a record is framed,
how a segment file grows, and how a scan reads the records back.

A file keeps whatever an earlier lap over it left; the writer puts a stop
marker after each record, and the scan ends where no record can be read.  The
checksum is a parameter of everything here: nothing depends on which function
of the bytes it is.
-/

namespace QuantaDb.Frame

open LittleEndian

/-- `b"QNWL"`. -/
def walMagic : Bytes := [81, 78, 87, 76]

def walFormatVersion : Nat := 1

def checksumOffset : Nat := 32

def walPreallocateBytes : Nat := 64 * 2 ^ 20

def walZeroFillAhead : Nat := 4 * 2 ^ 20

def stopMarker : Bytes := [0, 0, 0, 0]

/-! ## files -/

/-- A segment file.  No file reaches `i64::MAX` bytes, which is where the file
system stops. -/
structure LogFile where
  bytes : Bytes
  bounded : bytes.length < 2 ^ 63

namespace LogFile

def length (file : LogFile) : Nat := file.bytes.length

/-- `set_len`: cut the file or extend it with zeros. -/
def setLen (file : LogFile) (n : Nat) : Except StorageError LogFile :=
  if h : n < 2 ^ 63 then
    .ok ⟨file.bytes.take n ++ List.replicate (n - file.length) 0, by
      simp only [List.length_append, List.length_take, List.length_replicate, length]; omega⟩
  else .error (.io "invalid argument")

/-- `write_all_at`. -/
def writeAllAt (file : LogFile) (buffer : Bytes) (offset : Nat) : Except StorageError LogFile :=
  if h : offset + buffer.length < 2 ^ 63 then
    .ok ⟨splice file.bytes offset buffer, by
      have := file.bounded
      rw [length_splice]; omega⟩
  else .error (.io "file too large")

/-- `read_exact_at`. -/
def readExactAt (file : LogFile) (n offset : Nat) : Option Bytes :=
  let buffer := (file.bytes.drop offset).take n
  if buffer.length = n then some buffer else none

/-- `zero_fill`, in chunks of 64 KiB. -/
def zeroFill (file : LogFile) (offset stop : Nat) : Except StorageError LogFile :=
  (List.range ((stop - offset + (64 * 2 ^ 10 - 1)) / (64 * 2 ^ 10))).foldlM (fun file chunk =>
    let start := offset + chunk * (64 * 2 ^ 10)
    file.writeAllAt (List.replicate (min (stop - start) (64 * 2 ^ 10)) 0) start) file

end LogFile

/-! ## the reader -/

section

variable (crc : Bytes → UInt32)

/-- `record_checksum`: the checksum field itself counts as zero. -/
def recordChecksum (header payload : Bytes) : UInt32 :=
  crc (header.take checksumOffset ++ [0, 0, 0, 0] ++ header.drop (checksumOffset + 4) ++ payload)

/-- The kind of a record from its type byte, page ID and payload. -/
def decodeKind (recordType : UInt8) (pageId : Nat) (payload : Bytes) : Option WalKind :=
  if recordType = 1 ∧ pageId ≠ noPageId then
    some (.pageImage (UInt64.ofNat pageId) payload)
  else if recordType = 2 ∧ pageId = noPageId ∧ payload.length = 4 then
    let pageCount := readAt payload 0 4
    if pageCount = 0 then none else some (.batchCommit (UInt32.ofNat pageCount))
  else if recordType = 3 ∧ pageId = noPageId ∧ payload = [] then
    some .checkpoint
  else if recordType = 4 ∧ pageId ≠ noPageId ∧ 4 ≤ payload.length then
    some (.pageAppend (UInt64.ofNat pageId) (UInt32.ofNat (readAt payload 0 4)) (payload.drop 4))
  else none

/-- One turn of the loop of `scan_and_repair`: the record at an offset and its
length, if there is one. -/
def readRecord (file : LogFile) (offset previousLsn : Nat) : Option (WalRecord × Nat) := do
  guard (offset + walHeaderSize ≤ file.length)
  let header ← file.readExactAt walHeaderSize offset
  guard (header.take 4 = walMagic)
  guard (readAt header 4 2 = walFormatVersion)
  let recordLength := readAt header 8 4
  let payloadLength := readAt header 12 4
  guard (recordLength = walHeaderSize + payloadLength ∧ payloadLength ≤ maxPagePayload)
  guard (offset + recordLength ≤ file.length)
  let payload ← file.readExactAt payloadLength (offset + walHeaderSize)
  guard (readAt header checksumOffset 4 = (recordChecksum crc header payload).toNat)
  let lsn := readAt header 16 8
  guard (lsn ≠ 0 ∧ previousLsn < lsn)
  let kind ← decodeKind (header.getD 6 0) (readAt header 24 8) payload
  pure (⟨lsn, kind⟩, recordLength)

/-- The loop of `scan_and_repair`; a record takes at least a byte, so the length
of the file bounds the turns. -/
def scanLoop (file : LogFile) : Nat → Nat → Nat → List WalRecord → List WalRecord × Nat
  | 0, offset, _, records => (records, offset)
  | fuel + 1, offset, previousLsn, records =>
    match readRecord crc file offset previousLsn with
    | none => (records, offset)
    | some (record, recordLength) =>
      scanLoop file fuel (offset + recordLength) record.lsn (records ++ [record])

/-- `scan_and_repair`: the records, the offset they end at, and the file with its
tail sealed. -/
def scanAndRepair (file : LogFile) : Except StorageError (List WalRecord × Nat × LogFile) :=
  let (records, offset) := scanLoop crc file file.length 0 0 []
  if offset + stopMarker.length ≤ file.length then
    (file.writeAllAt stopMarker offset).map fun file => (records, offset, file)
  else .ok (records, offset, file)

/-! ## the writer -/

/-- The type byte of a record. -/
def recordType : WalKind → UInt8
  | .pageImage .. => 1
  | .batchCommit _ => 2
  | .checkpoint => 3
  | .pageAppend .. => 4

/-- The page ID in the header of a record. -/
def framedPageId : WalKind → Nat
  | .pageImage pageId _ => pageId.toNat
  | .pageAppend pageId _ _ => pageId.toNat
  | .batchCommit _ => noPageId
  | .checkpoint => noPageId

/-- What follows the header of a record. -/
def framedPayload : WalKind → Bytes
  | .pageImage _ payload => payload
  | .pageAppend _ offset payload => encode 4 offset.toNat ++ payload
  | .batchCommit pageCount => encode 4 pageCount.toNat
  | .checkpoint => []

/-- The header of a record around a checksum. -/
def headerWith (record : WalRecord) (checksum : Nat) : Bytes :=
  walMagic ++ (encode 2 walFormatVersion ++ (recordType record.kind :: 0 ::
    (encode 4 record.kind.recordLength ++ (encode 4 (framedPayload record.kind).length ++
      (encode 8 record.lsn ++ (encode 8 (framedPageId record.kind) ++
        (encode 4 checksum ++ [0, 0, 0, 0])))))))

/-- The header `Wal::append` writes. -/
def header (record : WalRecord) : Bytes :=
  headerWith record
    (recordChecksum crc (headerWith record 0) (framedPayload record.kind)).toNat

end

/-- `Segment`. -/
structure Segment where
  file : LogFile
  endOffset : Nat
  fileLength : Nat
  allocatedOffset : Nat

namespace Segment

/-- The growth of the file in `append_record`. -/
def reserve (seg : Segment) (needed : Nat) : Except StorageError Segment :=
  if seg.fileLength < needed then
    if 2 ^ 64 ≤ needed + walPreallocateBytes then
      .error (.corruptWal seg.endOffset "log size overflow")
    else
      (seg.file.setLen (needed + walPreallocateBytes)).map fun file =>
        { seg with file, fileLength := needed + walPreallocateBytes }
  else .ok seg

/-- The zero filling ahead of the log's end in `append_record`. -/
def fillAhead (seg : Segment) (needed : Nat) : Except StorageError Segment :=
  if seg.allocatedOffset < needed then
    let target := min (min (needed + walZeroFillAhead) (2 ^ 64 - 1)) seg.fileLength
    (seg.file.zeroFill seg.allocatedOffset target).map fun file =>
      { seg with file, allocatedOffset := target }
  else .ok seg

/-- `Segment::append_record`. -/
def appendRecord (seg : Segment) (header payload : Bytes) : Except StorageError Segment := do
  let recordEnd := seg.endOffset + (walHeaderSize + payload.length)
  if 2 ^ 64 ≤ recordEnd then
    .error (.corruptWal seg.endOffset "log offset overflow")
  else do
    let needed := recordEnd + stopMarker.length
    let seg ← seg.reserve needed
    let seg ← seg.fillAhead needed
    let file ← seg.file.writeAllAt header seg.endOffset
    let file ← file.writeAllAt payload (seg.endOffset + walHeaderSize)
    let file ← file.writeAllAt stopMarker recordEnd
    pure { seg with file, endOffset := recordEnd }

/-- `Segment::open`: the segment and the records found in its file. -/
def «open» (crc : Bytes → UInt32) (file : LogFile) :
    Except StorageError (Segment × List WalRecord) := do
  let (records, endOffset, file) ← scanAndRepair crc file
  if file.length < walPreallocateBytes then do
    let file ← file.setLen walPreallocateBytes
    pure (⟨file, endOffset, walPreallocateBytes, endOffset⟩, records)
  else pure (⟨file, endOffset, file.length, endOffset⟩, records)

/-- `seal_and_sync`: a stop marker at offset zero. -/
def sealAndSync (seg : Segment) : Except StorageError Segment := do
  let file ← seg.file.writeAllAt stopMarker 0
  pure { seg with file, endOffset := 0 }

end Segment

/-- `Wal`, without the records kept in memory. -/
structure Wal where
  segments : Fin 2 → Segment
  active : Fin 2
  nextLsn : Nat

namespace Wal

/-- The LSN after the last record of a log. -/
def nextAfter (records : List WalRecord) : Nat :=
  match records.getLast? with
  | none => 1
  | some record => min (record.lsn + 1) (2 ^ 64 - 1)

/-- `Wal::open`; which segment is active is decided as at the grain of records. -/
def «open» (crc : Bytes → UInt32) (primary secondary : LogFile) : Except StorageError Wal := do
  let (segmentA, recordsA) ← Segment.open crc primary
  let (segmentB, recordsB) ← Segment.open crc secondary
  let (records, active, garbage) := QuantaDb.Wal.join recordsA recordsB
  let segments := fun i : Fin 2 => if i = QuantaDb.segmentA then segmentA else segmentB
  match garbage with
  | none => pure ⟨segments, active, nextAfter records⟩
  | some index => do
      let sealed ← (segments index).sealAndSync
      pure ⟨Function.update segments index sealed, active, nextAfter records⟩

/-- The segment appended to. -/
def activeSegment (wal : Wal) : Segment := wal.segments wal.active

/-- `Wal::append`. -/
def append (crc : Bytes → UInt32) (kind : WalKind) (wal : Wal) : Except StorageError (Wal × Nat) :=
  let offset := wal.activeSegment.endOffset
  if 2 ^ 64 ≤ wal.nextLsn + 1 then .error (.corruptWal offset "LSN space exhausted")
  else if 2 ^ 32 ≤ kind.recordLength then .error (.corruptWal offset "record is too large")
  else
    (wal.activeSegment.appendRecord (header crc ⟨wal.nextLsn, kind⟩) (framedPayload kind)).map
      fun seg => (⟨Function.update wal.segments wal.active seg, wal.active, wal.nextLsn + 1⟩,
        wal.nextLsn)

/-- `append_page`. -/
def appendPage (crc : Bytes → UInt32) (pageId : PageId) (payload : Bytes) (wal : Wal) :
    Except StorageError (Wal × Nat) :=
  if maxPagePayload < payload.length then .error (.pageTooLarge payload.length maxPagePayload)
  else wal.append crc (.pageImage pageId payload)

/-- `append_page_tail`. -/
def appendPageTail (crc : Bytes → UInt32) (pageId : PageId) (offset : UInt32) (payload : Bytes)
    (wal : Wal) : Except StorageError (Wal × Nat) :=
  if maxPagePayload < payload.length then .error (.pageTooLarge payload.length maxPagePayload)
  else wal.append crc (.pageAppend pageId offset payload)

/-- `append_checkpoint`. -/
def appendCheckpoint (crc : Bytes → UInt32) (wal : Wal) : Except StorageError (Wal × Nat) :=
  wal.append crc .checkpoint

/-- `append_batch_commit`. -/
def appendBatchCommit (crc : Bytes → UInt32) (pageCount : Nat) (wal : Wal) :
    Except StorageError (Wal × Nat) :=
  let offset := wal.activeSegment.endOffset
  if pageCount = 0 then .error (.corruptWal offset "batch commit cannot be empty")
  else if 2 ^ 32 ≤ pageCount then .error (.corruptWal offset "batch page count exceeds u32")
  else wal.append crc (.batchCommit (UInt32.ofNat pageCount))

end Wal

/-- The calls that append to the log. -/
inductive Append where
  | page (pageId : PageId) (payload : Bytes)
  | tail (pageId : PageId) (offset : UInt32) (payload : Bytes)
  | commit (pageCount : Nat)
  | checkpoint
deriving DecidableEq, Repr

/-- The kind of record a call appends. -/
def Append.kind : Append → WalKind
  | .page pageId payload => .pageImage pageId payload
  | .tail pageId offset payload => .pageAppend pageId offset payload
  | .commit pageCount => .batchCommit (UInt32.ofNat pageCount)
  | .checkpoint => .checkpoint

/-- One of these calls: the log afterwards and the LSN returned. -/
def Append.run (crc : Bytes → UInt32) : Append → Wal → Except StorageError (Wal × Nat)
  | .page pageId payload => Wal.appendPage crc pageId payload
  | .tail pageId offset payload => Wal.appendPageTail crc pageId offset payload
  | .commit pageCount => Wal.appendBatchCommit crc pageCount
  | .checkpoint => Wal.appendCheckpoint crc

/-- A run of such calls, all of which succeed, and the LSNs they return. -/
def Wal.appendAll (crc : Bytes → UInt32) (wal : Wal) :
    List Append → Except StorageError (Wal × List Nat)
  | [] => .ok (wal, [])
  | call :: calls => do
      let (wal, lsn) ← call.run crc wal
      let (wal, lsns) ← wal.appendAll crc calls
      pure (wal, lsn :: lsns)

end QuantaDb.Frame
