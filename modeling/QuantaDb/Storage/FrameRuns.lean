import QuantaDb.Storage.FrameSegment

/-!
# QuantaDb.Storage.FrameRuns

The byte-level log over runs of appends: `scan_eq_appended_iff`, and how it
stands to the log at the grain of records (`Represents`), also when segments are
sealed and used again (`recycled_scan`).
-/

namespace QuantaDb.Frame

open Fallible LittleEndian

section

variable {crc : Bytes → UInt32}

/-! ## runs of the writer -/

/-- A log ready for the next record: what its active segment holds, and LSNs that
go on from there. -/
structure Wal.Ready (crc : Bytes → UInt32) (wal : Wal) (base : Bytes)
    (found appended : List WalRecord) (last : Nat) : Prop where
  holds : wal.activeSegment.Holds crc base found appended last
  logged : ∀ record ∈ appended, Logged record
  follows : Follows last appended
  next : (∀ x ∈ last :: appended.map WalRecord.lsn, x < wal.nextLsn) ∨ 2 ^ 64 ≤ wal.nextLsn + 1

variable {records : List WalRecord}

/-- The active segment is never the garbage one, and it holds the last record. -/
theorem join_active {recordsA recordsB : List WalRecord} {active : Fin 2}
    {garbage : Option (Fin 2)}
    (h : QuantaDb.Wal.join recordsA recordsB = (records, active, garbage)) :
    garbage ≠ some active ∧
      records.getLast? = (if active = segmentA then recordsA else recordsB).getLast? := by
  unfold QuantaDb.Wal.join at h
  split at h
  · cases h; exact ⟨by simp, rfl⟩
  · cases h; exact ⟨by simp, rfl⟩
  · next a restA b restB =>
    simp only [QuantaDb.Wal.seam] at h
    split at h
    · split at h
      · cases h
        exact ⟨by simp, by rw [List.getLast?_append]; simp [List.getLast?_cons]⟩
      · cases h; exact ⟨by decide, rfl⟩
    · split at h
      · cases h
        exact ⟨by simp, by rw [List.getLast?_append]; simp [List.getLast?_cons]⟩
      · cases h; exact ⟨by decide, rfl⟩

variable {wal : Wal}

/-- Opening a log, on whatever files, makes it ready. -/
theorem Wal.ready_of_open {primary secondary : LogFile}
    (h : Wal.open crc primary secondary = .ok wal) :
    ∃ base found last, wal.Ready crc base found [] last := by
  simp only [Wal.open, bind_eq_ok] at h
  obtain ⟨⟨segA, recordsA⟩, hA, ⟨segB, recordsB⟩, hB, h⟩ := h
  simp only at h
  rcases hjoin : QuantaDb.Wal.join recordsA recordsB with ⟨records, active, garbage⟩
  obtain ⟨hgarbage, hlast⟩ := join_active hjoin
  rw [hjoin] at h
  simp only at h
  have hactive : wal.active = active ∧
    wal.activeSegment = (if active = segmentA then segA else segB)
      ∧ wal.nextLsn = nextAfter records := by
    cases garbage with
    | none => cases h; exact ⟨rfl, rfl, rfl⟩
    | some index =>
      simp only [bind_eq_ok] at h
      obtain ⟨sealed, -, h⟩ := h
      cases h
      refine ⟨rfl, ?_, rfl⟩
      have hne : active ≠ index := fun he => hgarbage (congrArg some he.symm)
      simp only [Wal.activeSegment, Function.update_of_ne hne]
  obtain ⟨base, last, hholds⟩ : ∃ base last, wal.activeSegment.Holds crc base
      (if active = segmentA then recordsA else recordsB) [] last := by
    rw [hactive.2.1]
    split
    · exact Segment.holds_of_open hA
    · exact Segment.holds_of_open hB
  refine ⟨base, _, last, hholds, by simp, by simp [Follows], ?_⟩
  rw [hholds.found.last_eq, ← hlast, hactive.2.2, nextAfter]
  cases records.getLast? with
  | none => simp
  | some record =>
    by_cases hroom : record.lsn + 1 ≤ 2 ^ 64 - 1
    · left
      simp
      omega
    · right
      simp only
      omega

/-- The records a scan of the active segment returns. -/
def Wal.found (crc : Bytes → UInt32) (wal : Wal) : List WalRecord :=
  let file := wal.activeSegment.file
  (scanLoop crc file file.length 0 0 []).1

variable {base : Bytes} {found appended : List WalRecord} {last lsn : Nat}

/-- An append keeps a log ready. -/
theorem Wal.Ready.append {wal' : Wal} {kind : WalKind}
    (h : wal.Ready crc base found appended last)
    (himage : ∀ pageId payload, kind = .pageImage pageId payload →
      payload.length ≤ maxPagePayload)
    (hcommit : ∀ pageCount, kind = .batchCommit pageCount → pageCount ≠ 0)
    (happend : wal.append crc kind = .ok (wal', lsn)) :
    wal'.Ready crc base found (appended ++ [⟨lsn, kind⟩]) last := by
  simp only [Wal.append, ite_error_eq_ok, map_eq_ok] at happend
  obtain ⟨hroom, hshort, seg, hseg, heq⟩ := happend
  cases heq
  have hnext : ∀ x ∈ last :: appended.map WalRecord.lsn,
    x < wal.nextLsn := h.next.resolve_right hroom
  have hlog : Logged ⟨wal.nextLsn, kind⟩ :=
    ⟨Nat.zero_lt_of_lt (hnext last List.mem_cons_self), by simp only; omega,
      by simp only; omega, himage, hcommit⟩
  refine ⟨?_, fun record hmem => ?_, h.follows.snoc hnext, Or.inl fun x hx => ?_⟩
  · simp only [Wal.activeSegment, Function.update_self]
    exact h.holds.append _ hseg
  · rcases List.mem_append.mp hmem with hold | hnew
    · exact h.logged record hold
    · rw [List.mem_singleton] at hnew
      exact hnew ▸ hlog
  · rw [List.map_append, ← List.cons_append, List.mem_append] at hx
    rcases hx with hold | hnew
    · exact Nat.lt_succ_of_lt (hnext x hold)
    · rw [List.map_singleton, List.mem_singleton] at hnew
      exact hnew ▸ Nat.lt_succ_self _

/-- The records some calls append under the LSNs they return. -/
def appendedRecords (calls : List Append) (lsns : List Nat) : List WalRecord :=
  List.zipWith (fun call lsn => ⟨lsn, call.kind⟩) calls lsns

theorem kinds_appendedRecords {calls : List Append} {lsns : List Nat}
    (h : lsns.length = calls.length) :
    (appendedRecords calls lsns).map WalRecord.kind = calls.map Append.kind := by
  induction calls generalizing lsns with
  | nil => simp [appendedRecords]
  | cons call calls ih =>
    cases lsns with
    | nil => cases h
    | cons lsn lsns =>
      have hrest := ih (Nat.succ.inj h)
      simp only [appendedRecords, List.zipWith_cons_cons, List.map_cons] at hrest ⊢
      rw [hrest]

variable {call : Append}

/-- One call that returned. -/
theorem Wal.Ready.run {wal' : Wal} (h : wal.Ready crc base found appended last)
    (hrun : call.run crc wal = .ok (wal', lsn)) :
    wal'.Ready crc base found (appended ++ [⟨lsn, call.kind⟩]) last := by
  cases call with
  | page pageId payload =>
    simp only [Append.run, Wal.appendPage, ite_error_eq_ok] at hrun
    refine h.append (fun _ _ hk => ?_) (fun _ hk => by cases hk) hrun.2
    cases hk
    omega
  | tail pageId offset payload =>
    simp only [Append.run, Wal.appendPageTail, ite_error_eq_ok] at hrun
    exact h.append (fun _ _ hk => by cases hk) (fun _ hk => by cases hk) hrun.2
  | commit pageCount =>
    simp only [Append.run, Wal.appendBatchCommit, ite_error_eq_ok] at hrun
    obtain ⟨hpos, hlt, hrun⟩ := hrun
    refine h.append (fun _ _ hk => by cases hk) (fun count hk => ?_) hrun
    cases hk
    intro hzero
    have hnat := congrArg UInt32.toNat hzero
    rw [UInt32.toNat_ofNat_of_lt' (by simpa using hlt)] at hnat
    exact hpos hnat
  | checkpoint => exact h.append (fun _ _ hk => by cases hk) (fun _ hk => by cases hk) hrun

/-- A run of calls that all returned. -/
theorem Wal.Ready.appendAll {wal' : Wal} {calls : List Append} {lsns : List Nat}
    (h : wal.Ready crc base found appended last)
    (hrun : wal.appendAll crc calls = .ok (wal', lsns)) :
    wal'.Ready crc base found (appended ++ appendedRecords calls lsns) last ∧
      lsns.length = calls.length := by
  induction calls generalizing wal appended lsns with
  | nil =>
    cases hrun
    rw [appendedRecords, List.zipWith_nil_right, List.append_nil]
    exact ⟨h, rfl⟩
  | cons call calls ih =>
    simp only [Wal.appendAll, bind_eq_ok] at hrun
    obtain ⟨⟨wal₁, lsn⟩, hcall, ⟨wal₂, rest⟩, hrest, heq⟩ := hrun
    cases heq
    obtain ⟨hready, hlen⟩ := ih (h.run hcall) hrest
    rw [List.append_assoc] at hready
    exact ⟨hready, by simp [hlen]⟩

/-- The scan of a log that is ready: what was found, and what was appended up to
the first record that is not readable. -/
theorem Wal.Ready.scan (h : wal.Ready crc base found appended last) :
    ∃ stop file, scanAndRepair crc wal.activeSegment.file =
        .ok (found ++ appended.takeWhile (Readable ·.kind), stop, file) ∧
      ((∀ record ∈ appended, Readable record.kind) → stop = wal.activeSegment.endOffset) := by
  obtain ⟨rest, hrest⟩ := h.holds.bytes
  have hend := h.holds.endOffset
  obtain ⟨stop, last', hpass, hstop, hall⟩ := passes_frames hrest h.logged h.follows
    (by rw [← hend]; exact h.holds.ends)
  obtain ⟨file, hscan⟩ := (h.holds.found.trans hpass).scanAndRepair_eq hstop
  exact ⟨stop, file, hscan, fun hr => by rw [hall hr, hend]⟩

theorem Wal.Ready.found_eq (h : wal.Ready crc base found [] last) : wal.found crc = found := by
  have hend := h.holds.endOffset
  rw [frames, List.flatMap_nil, List.length_nil, Nat.add_zero] at hend
  have hscan := h.holds.found.scanLoop_eq (hend ▸ h.holds.ends last) []
    (Nat.le_of_eq (Nat.zero_add _).symm)
  rw [Wal.found, hscan, List.nil_append]

/-! ## the log at the grain of records -/

/-- A byte-level segment scans as a segment file at the grain of records. -/
structure Represents (crc : Bytes → UInt32) (seg : Segment) (file : SegmentFile) : Prop where
  readable : ∀ record ∈ file.stored, Readable record.kind
  holds : ∃ base last, seg.Holds crc base file.stored [] last

/-- A kind that is decoded takes the bytes it says, and is one that the reader takes. -/
theorem decodeKind_eq_some {recordType : UInt8} {pageId : Nat} {payload : Bytes} {kind : WalKind}
    (h : decodeKind recordType pageId payload = some kind) :
    kind.recordLength = walHeaderSize + payload.length ∧
      (pageId < 2 ^ 64 → payload.length ≤ maxPagePayload → Readable kind) := by
  unfold decodeKind at h
  split at h
  · next himage =>
    rw [Option.some.injEq] at h
    rw [← h, WalKind.recordLength]
    refine ⟨rfl, fun hid _ => ?_⟩
    rw [Readable, UInt64.toNat_ofNat_of_lt' hid]
    exact himage.2
  · split at h
    · next hcommit =>
      simp only at h
      split at h
      · cases h
      · rw [Option.some.injEq] at h
        rw [← h, WalKind.recordLength, hcommit.2.2]
        exact ⟨rfl, fun _ _ => trivial⟩
    · split at h
      · next hcheck =>
        rw [Option.some.injEq] at h
        rw [← h, WalKind.recordLength, hcheck.2.2, List.length_nil, Nat.add_zero]
        exact ⟨rfl, fun _ _ => trivial⟩
      · split at h
        · next htail =>
          rw [Option.some.injEq] at h
          rw [← h, WalKind.recordLength, List.length_drop]
          refine ⟨by omega, fun hid hfits => ⟨?_, ?_⟩⟩
          · rw [UInt64.toNat_ofNat_of_lt' hid]
            exact htail.2.1
          · rw [List.length_drop]
            omega
        · cases h

variable {file : LogFile} {offset : Nat} {record : WalRecord}

/-- A record that is read takes the bytes its kind says. -/
theorem recordLength_of_readRecord {n : Nat}
    (h : readRecord crc file offset lsn = some (record, n)) : n = record.kind.recordLength := by
  obtain ⟨header, payload, rest, -, rfl, hacc⟩ := readRecord_eq_some.mp h
  exact (decodeKind_eq_some hacc.kind).1.symm

theorem readable_of_readRecord {n : Nat} (h : readRecord crc file offset lsn = some (record, n)) :
    Readable record.kind := by
  obtain ⟨header, payload, rest, -, rfl, hacc⟩ := readRecord_eq_some.mp h
  exact (decodeKind_eq_some hacc.kind).2 (readAt_lt header 24 8) hacc.fits

/-- The records of a pass are readable. -/
theorem Passes.readable {stop : Nat} (h : Passes crc file offset lsn records stop last) :
    ∀ record ∈ records, Readable record.kind := by
  induction h with
  | done => simp
  | record hread _ ih => exact List.forall_mem_cons.mpr ⟨readable_of_readRecord hread, ih⟩

theorem Passes.stop_eq {stop : Nat} (h : Passes crc file offset lsn records stop last) :
    stop = offset + (records.map fun record => record.kind.recordLength).sum := by
  induction h with
  | done => simp
  | record hread _ ih =>
    rw [ih, recordLength_of_readRecord hread, List.map_cons, List.sum_cons]
    omega

variable {seg : Segment}

/-- **The two grains agree**: scanning the bytes gives the records. -/
theorem Represents.scan {file : SegmentFile} (h : Represents crc seg file) :
    seg.endOffset = file.length ∧
      ∃ file', scanAndRepair crc seg.file = .ok (file.records, file.length, file') := by
  obtain ⟨base, last, hholds⟩ := h.holds
  have hrecords := SegmentFile.records_of_readable h.readable
  have hend := hholds.endOffset
  rw [frames, List.flatMap_nil, List.length_nil, Nat.add_zero] at hend
  have hstop : base.length = file.length := by
    rw [hholds.found.stop_eq, Nat.zero_add, SegmentFile.length, hrecords]
  rw [hrecords]
  obtain ⟨file', hscan⟩ := hholds.found.scanAndRepair_eq (hend ▸ hholds.ends last)
  exact ⟨hend.trans hstop, file', hstop ▸ hscan⟩

theorem Represents.of_open (h : Segment.open crc file = .ok (seg, records)) :
    Represents crc seg { synced := records } := by
  obtain ⟨base, last, hholds⟩ := Segment.holds_of_open h
  have hstored : SegmentFile.stored { synced := records } = records := by
    simp [SegmentFile.stored]
  exact ⟨hstored.symm ▸ hholds.found.readable, base, last, hstored.symm ▸ hholds⟩

variable {seg' : Segment}

/-- Appending a readable record is appending it at both grains. -/
theorem Represents.append {file : SegmentFile} (h : Represents crc seg file)
    (hlog : Logged record) (hread : Readable record.kind)
    (hnew : ∀ r ∈ file.records, r.lsn < record.lsn) (hopen : file.stopped = false)
    (happend : seg.appendRecord (header crc record) (framedPayload record.kind) = .ok seg') :
    Represents crc seg' (file.append record) := by
  have hstored : (file.append record).stored = file.stored ++ [record] := by
    simp [SegmentFile.append, SegmentFile.stored, hopen]
  rw [SegmentFile.records_of_readable h.readable] at hnew
  obtain ⟨base, last, hholds⟩ := h.holds
  have hlast : last < record.lsn := by
    rw [hholds.found.last_eq]
    cases hl : file.stored.getLast? with
    | none => exact hlog.positive
    | some r => exact hnew r (List.mem_of_getLast? hl)
  have hholds' := hholds.append record happend
  obtain ⟨rest, hrest⟩ := hholds'.bytes
  obtain ⟨stop, last', hpass, -, hstop⟩ :=
    @passes_frames crc _ _ _ _ last hrest (by simpa using hlog)
    (by simp [Follows, hlast]) (by rw [← hholds'.endOffset]; exact hholds'.ends)
  have hall : ∀ r ∈ [] ++ [record], Readable r.kind := by simpa using hread
  have hself : ([] ++ [record]).takeWhile (Readable ·.kind) = [record] := by
    simp [hread]
  rw [hself, hstop hall] at hpass
  refine ⟨?_, base ++ frames crc ([] ++ [record]), last', ⟨rest, ?_⟩, ?_, hholds'.ends, ?_,
    hholds'.fileLength, hholds'.allocated⟩
  · rw [hstored]
    exact List.forall_mem_append.mpr ⟨h.readable, by simpa using hread⟩
  · rw [hrest, List.append_assoc]
    rfl
  · rw [hstored, List.length_append]
    exact hholds'.found.trans hpass
  · rw [hholds'.endOffset, List.length_append]
    rfl

/-- Sealing a segment makes it empty at both grains. -/
theorem Represents.sealAndSync {file : SegmentFile} (h : Represents crc seg file)
    (hlen : stopMarker.length ≤ seg.fileLength) (hseal : seg.sealAndSync = .ok seg') :
    Represents crc seg' file.stop := by
  obtain ⟨base, last, hholds⟩ := h.holds
  simp only [Segment.sealAndSync, bind_eq_ok] at hseal
  obtain ⟨file', hw, heq⟩ := hseal
  cases heq
  have hbytes := LogFile.bytes_of_writeAllAt hw
  rw [splice_zero] at hbytes
  have hkeeps : Keeps [] seg.fileLength file' :=
    Keeps.write ⟨⟨seg.file.bytes, rfl⟩, hholds.fileLength⟩ (Nat.zero_le _)
      (by rw [Nat.zero_add]; exact hlen) hw
  refine ⟨by simp [SegmentFile.stored, SegmentFile.stop], [], 0, ⟨file'.bytes, rfl⟩, .done,
    readRecord_eq_none ?_, rfl, hkeeps.length, Nat.zero_le _⟩
  rw [List.drop_zero, hbytes]
  simp [stopMarker, walMagic]

/-! ## calls that return -/

theorem LogFile.exists_writeAllAt (file : LogFile) (buffer : Bytes) (offset : Nat)
    (h : offset + buffer.length < 2 ^ 63) : ∃ file', file.writeAllAt buffer offset = .ok file' := by
  rw [LogFile.writeAllAt, dif_pos h]
  exact ⟨_, rfl⟩

theorem LogFile.exists_zeroFill (file : LogFile) (offset : Nat) {stop : Nat} (h : stop < 2 ^ 63) :
    ∃ file', file.zeroFill offset stop = .ok file' := by
  suffices aux : ∀ (chunks : List Nat) (file : LogFile),
      (∀ chunk ∈ chunks, chunk * (64 * 2 ^ 10) < stop - offset) →
      ∃ file', chunks.foldlM (fun file chunk =>
        let start := offset + chunk * (64 * 2 ^ 10)
        LogFile.writeAllAt file (List.replicate (min (stop - start) (64 * 2 ^ 10)) 0) start) file =
          (.ok file' : Except StorageError LogFile) by
    refine aux _ file fun chunk hchunk => ?_
    rw [List.mem_range, Nat.lt_div_iff_mul_lt (by norm_num)] at hchunk
    omega
  intro chunks
  induction chunks with
  | nil => exact fun file _ => ⟨file, rfl⟩
  | cons chunk chunks ih =>
    intro file hchunks
    have hlt := hchunks chunk List.mem_cons_self
    obtain ⟨file₁, hw⟩ := file.exists_writeAllAt
      (List.replicate (min (stop - (offset + chunk * (64 * 2 ^ 10))) (64 * 2 ^ 10)) 0)
      (offset + chunk * (64 * 2 ^ 10)) (by rw [List.length_replicate]; omega)
    obtain ⟨file', hrest⟩ := ih file₁ fun c hc => hchunks c (List.mem_cons_of_mem chunk hc)
    refine ⟨file', ?_⟩
    rw [List.foldlM_cons, bind_eq_ok]
    exact ⟨file₁, hw, hrest⟩

theorem LogFile.exists_setLen (file : LogFile) {n : Nat} (h : n < 2 ^ 63) :
    ∃ file', file.setLen n = .ok file' := by
  rw [LogFile.setLen, dif_pos h]
  exact ⟨_, rfl⟩

theorem walPreallocateBytes_eq : walPreallocateBytes = 2 ^ 26 := by
  norm_num [walPreallocateBytes]

theorem Segment.exists_reserve (seg : Segment) {needed : Nat} (hlen : seg.fileLength < 2 ^ 63)
    (hroom : needed + 2 ^ 26 < 2 ^ 63) :
    ∃ seg', seg.reserve needed = .ok seg' ∧ seg'.fileLength < 2 ^ 63 ∧
      seg'.endOffset = seg.endOffset := by
  have hpre := walPreallocateBytes_eq
  unfold Segment.reserve
  split
  · obtain ⟨file, hset⟩ := seg.file.exists_setLen
      (show needed + walPreallocateBytes < 2 ^ 63 by omega)
    rw [if_neg (by omega), hset]
    refine ⟨{ seg with file, fileLength := needed + walPreallocateBytes }, rfl, ?_, rfl⟩
    show needed + walPreallocateBytes < 2 ^ 63
    omega
  · exact ⟨seg, rfl, hlen, rfl⟩

theorem Segment.exists_fillAhead (seg : Segment) (needed : Nat) (hlen : seg.fileLength < 2 ^ 63) :
    ∃ seg', seg.fillAhead needed = .ok seg' ∧ seg'.endOffset = seg.endOffset := by
  unfold Segment.fillAhead
  split
  · obtain ⟨file, hz⟩ := seg.file.exists_zeroFill seg.allocatedOffset
      (lt_of_le_of_lt (Nat.min_le_right (min (needed + walZeroFillAhead) (2 ^ 64 - 1)) _) hlen)
    simp only [hz]
    exact ⟨_, rfl, rfl⟩
  · exact ⟨seg, rfl, rfl⟩

/-- An append returns while the log is short of the file system's limit. -/
theorem Segment.exists_appendRecord {header : Bytes} (payload : Bytes)
    (hlen : seg.file.length = seg.fileLength) (hheader : header.length = walHeaderSize)
    (hroom : seg.endOffset + payload.length + 2 ^ 27 < 2 ^ 63) :
    ∃ seg', seg.appendRecord header payload = .ok seg' ∧
      seg'.endOffset = seg.endOffset + (walHeaderSize + payload.length) := by
  have hmark : stopMarker.length = 4 := rfl
  have hhead : walHeaderSize = 40 := rfl
  have hbounded := seg.file.bounded
  rw [LogFile.length] at hlen
  have hneeded : seg.endOffset + (walHeaderSize + payload.length) + stopMarker.length + 2 ^ 26 <
      2 ^ 63 := by omega
  obtain ⟨seg₁, hreserve, hf₁, he₁⟩ := seg.exists_reserve (by omega) hneeded
  obtain ⟨seg₂, hfill, he₂⟩ := seg₁.exists_fillAhead
    (seg.endOffset + (walHeaderSize + payload.length) + stopMarker.length) hf₁
  have hoff : seg₂.endOffset = seg.endOffset := he₂.trans he₁
  obtain ⟨file₁, hw₁⟩ := seg₂.file.exists_writeAllAt header seg₂.endOffset
    (by omega)
  obtain ⟨file₂, hw₂⟩ := file₁.exists_writeAllAt payload
    (seg₂.endOffset + walHeaderSize) (by omega)
  obtain ⟨file₃, hw₃⟩ := file₂.exists_writeAllAt stopMarker
    (seg.endOffset + (walHeaderSize + payload.length)) (by omega)
  refine ⟨{ seg₂ with
    file := file₃, endOffset := seg.endOffset + (walHeaderSize + payload.length) }, ?_, rfl⟩
  simp only [Segment.appendRecord, ite_error_eq_ok, bind_eq_ok]
  exact ⟨by omega, seg₁, hreserve, seg₂, hfill, file₁, hw₁, file₂, hw₂, file₃, hw₃, rfl⟩

/-- What the four calls themselves check. -/
def Append.Admitted : Append → Prop
  | .page _ payload => payload.length ≤ maxPagePayload
  | .tail _ _ payload => payload.length ≤ maxPagePayload
  | .commit pageCount => 0 < pageCount ∧ pageCount < 2 ^ 32
  | .checkpoint => True

theorem Append.Admitted.length_le (h : call.Admitted) :
    (framedPayload call.kind).length ≤ 8132 := by
  cases call with
  | page pageId payload => exact Nat.le_trans h (by decide)
  | tail pageId offset payload =>
    have hle : payload.length ≤ 8128 := h
    simp only [Append.kind, framedPayload, List.length_append, length_encode]
    omega
  | commit pageCount => simp [Append.kind, framedPayload]
  | checkpoint => simp [Append.kind, framedPayload]

/-- A call that passes its own checks is an append of its record. -/
theorem Append.Admitted.run_eq (h : call.Admitted) (wal : Wal) :
    call.run crc wal = wal.append crc call.kind := by
  cases call with
  | page pageId payload => exact if_neg (Nat.not_lt.mpr h)
  | tail pageId offset payload => exact if_neg (Nat.not_lt.mpr h)
  | commit pageCount =>
    obtain ⟨hpos, hlt⟩ := h
    simp only [Append.run, Wal.appendBatchCommit]
    rw [if_neg (by omega), if_neg (by omega)]
    rfl
  | checkpoint => rfl

/-- Admitted calls return while LSNs and file space last. -/
theorem Wal.Ready.exists_appendAll (h : wal.Ready crc base found appended last)
    (calls : List Append) (hcalls : ∀ call ∈ calls, call.Admitted)
    (hlsn : wal.nextLsn + calls.length < 2 ^ 64)
    (hroom : wal.activeSegment.endOffset + 8192 * calls.length + 2 ^ 28 < 2 ^ 63) :
    ∃ wal' lsns, wal.appendAll crc calls = .ok (wal', lsns) := by
  induction calls generalizing wal appended with
  | nil => exact ⟨wal, [], rfl⟩
  | cons call calls ih =>
    have hcall := hcalls call List.mem_cons_self
    have hlen := hcall.length_le
    have hhead : walHeaderSize = 40 := rfl
    rw [List.length_cons] at hlsn hroom
    have hheader : (header crc ⟨wal.nextLsn, call.kind⟩).length = walHeaderSize := rfl
    obtain ⟨seg, hseg, hend⟩ := Segment.exists_appendRecord (framedPayload call.kind)
      h.holds.fileLength hheader (by omega)
    have hrun : call.run crc wal = .ok
        (⟨Function.update wal.segments wal.active seg, wal.active, wal.nextLsn + 1⟩,
          wal.nextLsn) := by
      rw [hcall.run_eq]
      simp only [Wal.append, ite_error_eq_ok, map_eq_ok]
      exact ⟨by omega, by rw [recordLength_eq]; omega, seg, hseg, rfl⟩
    obtain ⟨wal', lsns, hrest⟩ := ih (h.run hrun)
      (fun c hc => hcalls c (List.mem_cons_of_mem call hc)) (by simp only; omega)
      (by simp only [Wal.activeSegment, Function.update_self]
          simp only [Wal.activeSegment] at hroom hend
          omega)
    refine ⟨wal', wal.nextLsn :: lsns, ?_⟩
    simp only [Wal.appendAll, bind_eq_ok]
    exact ⟨_, hrun, _, hrest, rfl⟩

/-! ## a new log -/

def LogFile.empty : LogFile := ⟨[], by decide⟩

theorem Segment.open_empty (crc : Bytes → UInt32) :
    ∃ seg, Segment.open crc .empty = .ok (seg, []) ∧ seg.endOffset = 0 := by
  have hscan : scanAndRepair crc .empty = .ok ([], 0, .empty) := rfl
  have hpre := walPreallocateBytes_eq
  obtain ⟨file, hset⟩ := LogFile.empty.exists_setLen
    (show walPreallocateBytes < 2 ^ 63 by omega)
  refine ⟨⟨file, 0, walPreallocateBytes, 0⟩, ?_, rfl⟩
  simp only [Segment.open, bind_eq_ok]
  refine ⟨_, hscan, ?_⟩
  have hlt : LogFile.empty.length < walPreallocateBytes := by
    rw [hpre]
    exact Nat.two_pow_pos 26
  simp only [if_pos hlt, bind_eq_ok]
  exact ⟨file, hset, rfl⟩

theorem Wal.open_empty (crc : Bytes → UInt32) :
    ∃ wal, Wal.open crc .empty .empty = .ok wal ∧ wal.Ready crc [] [] [] 0 ∧ wal.nextLsn = 1 ∧
      wal.activeSegment.endOffset = 0 := by
  obtain ⟨seg, hopen, hend⟩ := Segment.open_empty crc
  obtain ⟨base, last, hholds⟩ := Segment.holds_of_open hopen
  have hbase : base = [] := by
    have hlen := hholds.endOffset
    rw [hend] at hlen
    exact List.length_eq_zero_iff.mp (by omega)
  have hlast : last = 0 := hholds.found.last_eq
  subst hbase hlast
  refine ⟨⟨fun i => if i = segmentA then seg else seg, segmentA, 1⟩, ?_,
    ⟨hholds, by simp, by simp [Follows], Or.inl (by simp)⟩, rfl, hend⟩
  simp only [Wal.open, bind_eq_ok]
  exact ⟨_, hopen, _, hopen, rfl⟩

/-! ## the reader and the writer -/

/-- **The reader and the writer of the log agree** exactly on readable records.
After any run of calls that all returned, on a log opened on any two files, a
scan of the active segment returns the records found at opening and then every
record appended, ending where the writer does, if and only if no call appended a
page record under the reserved page ID or an append whose framed payload exceeds
a page. -/
theorem scan_eq_appended_iff {primary secondary : LogFile} {wal wal' : Wal}
    {calls : List Append} {lsns : List Nat} (hopen : Wal.open crc primary secondary = .ok wal)
    (hrun : wal.appendAll crc calls = .ok (wal', lsns)) :
    (∃ file, scanAndRepair crc wal'.activeSegment.file =
      .ok (wal.found crc ++ appendedRecords calls lsns, wal'.activeSegment.endOffset, file)) ↔
      ∀ call ∈ calls, Readable call.kind := by
  obtain ⟨base, found, last, hready⟩ := Wal.ready_of_open hopen
  obtain ⟨hready', hlen⟩ := hready.appendAll hrun
  rw [List.nil_append] at hready'
  obtain ⟨stop, file, hscan, hstop⟩ := hready'.scan
  have hiff : (∀ record ∈ appendedRecords calls lsns, Readable record.kind) ↔
      ∀ call ∈ calls, Readable call.kind := by
    have hmap : (∀ kind ∈ (appendedRecords calls lsns).map WalRecord.kind, Readable kind) ↔
        ∀ kind ∈ calls.map Append.kind, Readable kind := by rw [kinds_appendedRecords hlen]
    simpa only [List.forall_mem_map] using hmap
  rw [hready.found_eq, ← hiff]
  constructor
  · rintro ⟨file', hfile⟩
    rw [hscan, Except.ok.injEq, Prod.mk.injEq, List.append_cancel_left_eq] at hfile
    intro record hmem
    rw [← hfile.1] at hmem
    simpa using List.mem_takeWhile_imp hmem
  · intro hreadable
    refine ⟨file, ?_⟩
    rw [hscan, hstop hreadable]
    have hself : (appendedRecords calls lsns).takeWhile (Readable ·.kind) =
        appendedRecords calls lsns := by
      rw [List.takeWhile_eq_self_iff]
      intro record hmem
      simpa using hreadable record hmem
    rw [hself]

theorem scan_eq_appended_new_log :
    ∃ wal wal' lsns file, Wal.open (fun _ => 0) .empty .empty = .ok wal ∧
      wal.appendAll (fun _ => 0) [.tail 7 0 [65, 66], .commit 1, .checkpoint] = .ok (wal', lsns) ∧
      scanAndRepair (fun _ => 0) wal'.activeSegment.file =
        .ok (wal.found (fun _ => 0) ++
          appendedRecords [.tail 7 0 [65, 66], .commit 1, .checkpoint] lsns,
          wal'.activeSegment.endOffset, file) := by
  obtain ⟨wal, hopen, hready, hlsn, hend⟩ := Wal.open_empty fun _ => 0
  obtain ⟨wal', lsns, hrun⟩ := hready.exists_appendAll
    [.tail 7 0 [65, 66], .commit 1, .checkpoint]
    (by simp [Append.Admitted, maxPagePayload_eq]) (by rw [hlsn]; decide) (by rw [hend]; decide)
  obtain ⟨file, hscan⟩ := (scan_eq_appended_iff hopen hrun).mpr
    (by simp [Append.kind, Readable, noPageId, maxPagePayload_eq])
  exact ⟨wal, wal', lsns, file, hopen, hrun, hscan⟩

/-- A tail of 8125 bytes passes the check of the writer; its frame of 8129 bytes
does not pass the one of the reader, and the batch is gone. -/
theorem oversized_tail_discards_batch : ∃ payload : Bytes, payload = List.replicate 8125 65 ∧
    ∀ crc : Bytes → UInt32, ∃ wal wal' lsns stop file, Wal.open crc .empty .empty = .ok wal ∧
      wal.appendAll crc [.tail 7 0 payload, .commit 1] = .ok (wal', lsns) ∧
      scanAndRepair crc wal'.activeSegment.file = .ok ([], stop, file) := by
  obtain ⟨payload, hpayload⟩ : ∃ payload : Bytes, payload = List.replicate 8125 65 := ⟨_, rfl⟩
  have hsize : payload.length = 8125 := by rw [hpayload, List.length_replicate]
  refine ⟨payload, hpayload, fun crc => ?_⟩
  obtain ⟨wal, hopen, hready, hlsn, hend⟩ := Wal.open_empty crc
  obtain ⟨wal', lsns, hrun⟩ := hready.exists_appendAll [.tail 7 0 payload, .commit 1]
    (by simp [Append.Admitted, maxPagePayload_eq, hsize]) (by simp [hlsn]) (by simp [hend])
  obtain ⟨hready', hlen⟩ := hready.appendAll hrun
  obtain ⟨stop, file, hscan, -⟩ := hready'.scan
  refine ⟨wal, wal', lsns, stop, file, hopen, hrun, ?_⟩
  obtain ⟨lsn, rest, rfl⟩ : ∃ lsn rest, lsns = lsn :: rest := by
    cases lsns with
    | nil => cases hlen
    | cons lsn rest => exact ⟨lsn, rest, rfl⟩
  have hunreadable : ¬Readable (.pageAppend 7 0 payload) := by
    simp [Readable, maxPagePayload_eq, hsize]
  have hnone : (appendedRecords [.tail 7 0 payload, .commit 1] (lsn :: rest)).takeWhile
      (Readable ·.kind) = [] := by
    rw [appendedRecords, List.zipWith_cons_cons, List.takeWhile_cons_of_neg]
    exact fun h => hunreadable (of_decide_eq_true h)
  rw [hscan, List.nil_append, List.nil_append, hnone]

/-! ## recycled segments -/

/-- What happens to a segment while it is open. -/
inductive SegmentAction where
  | append (record : WalRecord)
  | sealAndSync

namespace SegmentAction

/-- The action on the bytes. -/
def onBytes (crc : Bytes → UInt32) (seg : Segment) : SegmentAction → Except StorageError Segment
  | .append record => seg.appendRecord (header crc record) (framedPayload record.kind)
  | .sealAndSync => seg.sealAndSync

/-- The action on the records. -/
def onRecords (file : SegmentFile) : SegmentAction → SegmentFile
  | .append record => file.append record
  | .sealAndSync => file.stop.sync

/-- Appended records are readable, and their LSNs follow those of the segment. -/
def Admitted : SegmentFile → List SegmentAction → Prop
  | _, [] => True
  | file, .append record :: actions => Logged record ∧ Readable record.kind ∧
      (∀ r ∈ file.records, r.lsn < record.lsn) ∧ Admitted (file.append record) actions
  | file, .sealAndSync :: actions => Admitted file.stop.sync actions

end SegmentAction

open SegmentAction

theorem Represents.endOffset_le {file : SegmentFile} (h : Represents crc seg file) :
    seg.endOffset ≤ seg.fileLength := by
  obtain ⟨base, last, hholds⟩ := h.holds
  obtain ⟨rest, hrest⟩ := hholds.bytes
  rw [← hholds.fileLength, hholds.endOffset, LogFile.length, hrest]
  simp

theorem Segment.preallocated (h : Segment.open crc file = .ok (seg, records)) :
    walPreallocateBytes ≤ seg.fileLength := by
  simp only [Segment.open, bind_eq_ok] at h
  obtain ⟨⟨records₁, stop, file₁⟩, -, h⟩ := h
  simp only at h
  split at h
  · rw [bind_eq_ok] at h
    obtain ⟨file₂, -, h⟩ := h
    cases h
    exact Nat.le_refl _
  · next hle =>
    cases h
    exact Nat.le_of_not_lt hle

/-- Both grains go on agreeing, however often the segment is sealed and filled again. -/
theorem Represents.actions {file : SegmentFile} {actions : List SegmentAction}
    (h : Represents crc seg file) (hlen : stopMarker.length ≤ seg.fileLength)
    (hopen : file.stopped = false) (hadmitted : Admitted file actions)
    (hrun : actions.foldlM (onBytes crc) seg = .ok seg') :
    Represents crc seg' (actions.foldl onRecords file) := by
  induction actions generalizing seg file with
  | nil =>
    cases hrun
    exact h
  | cons action actions ih =>
    rw [List.foldlM_cons, bind_eq_ok] at hrun
    obtain ⟨seg₁, hstep, hrun⟩ := hrun
    cases action with
    | append record =>
      obtain ⟨hlogged, hreadable, hnew, hadmitted⟩ := hadmitted
      have hnext := h.append hlogged hreadable hnew hopen hstep
      refine ih hnext (Nat.le_trans ?_ hnext.endOffset_le) hopen hadmitted hrun
      have hmark : stopMarker.length = 4 := rfl
      have hhead : walHeaderSize = 40 := rfl
      rw [hnext.scan.1, SegmentFile.length, SegmentFile.records_of_readable hnext.readable]
      simp only [SegmentFile.append, SegmentFile.stored, hopen, Bool.false_eq_true, if_false,
        List.map_append, List.map_cons, List.sum_append, List.sum_cons,
        recordLength_eq record.kind]
      omega
    | sealAndSync =>
      refine ih ?_ ?_ rfl hadmitted hrun
      · have hsealed := h.sealAndSync hlen hstep
        have hstored : (onRecords file .sealAndSync).stored = file.stop.stored := by
          simp [onRecords, SegmentFile.stored, SegmentFile.stop, SegmentFile.sync]
        exact ⟨hstored.symm ▸ hsealed.readable, hstored.symm ▸ hsealed.holds⟩
      · simp only [onBytes, Segment.sealAndSync, bind_eq_ok] at hstep
        obtain ⟨file', -, heq⟩ := hstep
        cases heq
        exact hlen

/-- **Recycling a segment leaves nothing behind.**  After any run of appends and seals on a
segment opened from any file, a scan of its bytes finds the records appended since the last
seal, with those of the file if there was none, and ends where the writer does. -/
theorem recycled_scan {file : LogFile} {seg seg' : Segment} {records : List WalRecord}
    {actions : List SegmentAction} (hopen : Segment.open crc file = .ok (seg, records))
    (hadmitted : Admitted { synced := records } actions)
    (hrun : actions.foldlM (onBytes crc) seg = .ok seg') :
    let final := actions.foldl onRecords { synced := records }
    seg'.endOffset = final.length ∧
      ∃ file', scanAndRepair crc seg'.file = .ok (final.records, final.length, file') := by
  have hpre := Segment.preallocated hopen
  rw [walPreallocateBytes_eq] at hpre
  exact ((Represents.of_open hopen).actions (Nat.le_trans (by decide) hpre) rfl hadmitted hrun).scan

/-- A record that is gone once the segment is sealed. -/
theorem recycled_scan_checkpoint :
    ∃ seg seg', Segment.open (fun _ => 0) .empty = .ok (seg, []) ∧
      [.append ⟨1, .checkpoint⟩, .sealAndSync].foldlM (onBytes fun _ => 0) seg = .ok seg' ∧
      ∃ file', scanAndRepair (fun _ => 0) seg'.file = .ok ([], 0, file') := by
  obtain ⟨seg, hopen, hend⟩ := Segment.open_empty fun _ => 0
  obtain ⟨base, last, hholds⟩ := Segment.holds_of_open hopen
  have hheader : (header (fun _ => 0) ⟨1, .checkpoint⟩).length = walHeaderSize := rfl
  obtain ⟨seg₁, happend, -⟩ := Segment.exists_appendRecord (framedPayload .checkpoint)
    hholds.fileLength hheader (by rw [hend]; decide)
  obtain ⟨file, hwrite⟩ := seg₁.file.exists_writeAllAt stopMarker 0 (by decide)
  have hrun : [.append ⟨1, .checkpoint⟩, .sealAndSync].foldlM (onBytes fun _ => 0) seg =
      .ok { seg₁ with file, endOffset := 0 } := by
    simp only [List.foldlM_cons, bind_eq_ok]
    exact ⟨seg₁, happend, _, by simp only [onBytes, Segment.sealAndSync, hwrite]; rfl, rfl⟩
  have hlogged : Logged ⟨1, .checkpoint⟩ := ⟨by decide, by decide, by decide, by simp, by simp⟩
  refine ⟨seg, _, hopen, hrun, (recycled_scan hopen ?_ hrun).2⟩
  exact ⟨hlogged, by decide, by simp [SegmentFile.records, SegmentFile.stored], trivial⟩

end

end QuantaDb.Frame
