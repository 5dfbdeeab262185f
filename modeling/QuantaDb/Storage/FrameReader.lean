import QuantaDb.Lib.Fallible
import QuantaDb.Storage.Frame

/-!
# QuantaDb.Storage.FrameReader

What `scan_and_repair` reads.

* `readRecord_eq_some` — a record is returned exactly where a header the reader
  accepts stands, and from the bytes of the record alone (`readRecord_congr`);
* `readRecord_frame` — what the reader makes of a record the writer framed: the
  record if it is `Readable`, nothing otherwise;
* `passes_frames` — the same for a run of framed records.
-/

namespace QuantaDb.Frame

open LittleEndian

/-! ## reading one record -/

section

variable {crc : Bytes → UInt32}

/-- What the reader asks of a header and the bytes after it, and the record it
makes of them. -/
structure Accepts (crc : Bytes → UInt32) (previousLsn : Nat) (header payload : Bytes)
    (record : WalRecord) : Prop where
  size : header.length = walHeaderSize
  magic : header.take 4 = walMagic
  version : readAt header 4 2 = walFormatVersion
  recordLength : readAt header 8 4 = walHeaderSize + payload.length
  payloadLength : readAt header 12 4 = payload.length
  fits : payload.length ≤ maxPagePayload
  checksum : readAt header checksumOffset 4 = (recordChecksum crc header payload).toNat
  lsn : readAt header 16 8 = record.lsn
  positive : record.lsn ≠ 0
  monotone : previousLsn < record.lsn
  kind : decodeKind (header.getD 6 0) (readAt header 24 8) payload = some record.kind

variable {file : LogFile} {offset : Nat}

theorem LogFile.readExactAt_eq_some {n : Nat} {buffer : Bytes} :
    file.readExactAt n offset = some buffer ↔
      buffer.length = n ∧ ∃ rest, file.bytes.drop offset = buffer ++ rest := by
  simp only [LogFile.readExactAt]
  constructor
  · intro h
    split at h
    · next hlen =>
      rw [Option.some.injEq] at h
      exact ⟨h ▸ hlen, (file.bytes.drop offset).drop n, by rw [← h, List.take_append_drop]⟩
    · cases h
  · intro h
    obtain ⟨rfl, rest, hrest⟩ := h
    rw [hrest, List.take_left, if_pos rfl]

variable {previousLsn : Nat} {record : WalRecord}

/-- The reader returns a record exactly where a header it accepts stands. -/
theorem readRecord_eq_some {n : Nat} :
    readRecord crc file offset previousLsn = some (record, n) ↔
      ∃ header payload rest, file.bytes.drop offset = header ++ (payload ++ rest) ∧
        n = walHeaderSize + payload.length ∧ Accepts crc previousLsn header payload record := by
  have hfile : file.length = file.bytes.length := rfl
  simp only [readRecord, Option.bind_eq_bind, Option.bind_eq_some_iff, Option.guard_eq_some',
    LogFile.readExactAt_eq_some, Option.pure_def, Option.some.injEq, Prod.mk.injEq, exists_const]
  constructor
  · intro h
    obtain ⟨-, header, ⟨hsize, rest, hheader⟩, hmagic, hversion, ⟨hrec, hmax⟩, -, payload,
      ⟨hplen, rest', hpayload⟩, hsum, ⟨hpos, hmono⟩, kind, hkind, hrecord, hn⟩ := h
    have hrest : rest = payload ++ rest' := by
      rw [← List.drop_drop, hheader, List.drop_left' hsize] at hpayload
      exact hpayload
    subst hrecord
    refine ⟨header, payload, rest', by rw [hheader, hrest], by omega, ?_⟩
    exact ⟨hsize, hmagic, hversion, by omega, hplen.symm, by omega, hsum, rfl, hpos, hmono, hkind⟩
  · intro h
    obtain ⟨header, payload, rest, hbytes, hn, hacc⟩ := h
    have hlen := congrArg List.length hbytes
    simp only [List.length_drop, List.length_append, hacc.size] at hlen
    have hhead : 0 < walHeaderSize := by decide
    refine ⟨by omega, header, ⟨hacc.size, payload ++ rest, hbytes⟩, hacc.magic, hacc.version,
      ⟨by rw [hacc.recordLength, hacc.payloadLength], by rw [hacc.payloadLength]; exact hacc.fits⟩,
      by rw [hacc.recordLength]; omega, payload, ⟨hacc.payloadLength.symm, rest, ?_⟩, hacc.checksum,
      ⟨by rw [hacc.lsn]; exact hacc.positive, by rw [hacc.lsn]; exact hacc.monotone⟩, record.kind,
      hacc.kind, by rw [hacc.lsn], by rw [hacc.recordLength, hn]⟩
    rw [← List.drop_drop, hbytes, List.drop_left' hacc.size]

/-- A record takes at least its header, within the file. -/
theorem readRecord_bounds {n : Nat}
    (h : readRecord crc file offset previousLsn = some (record, n)) :
    walHeaderSize ≤ n ∧ offset + n ≤ file.length := by
  obtain ⟨header, payload, rest, hbytes, hn, hacc⟩ := readRecord_eq_some.mp h
  have hlen := congrArg List.length hbytes
  have hhead : 0 < walHeaderSize := by decide
  simp only [List.length_drop, List.length_append, hacc.size] at hlen
  rw [LogFile.length]
  omega

/-- A record is read from its own bytes alone. -/
theorem readRecord_congr {file' : LogFile} {base rest rest' : Bytes}
    (hbytes : file.bytes = base ++ rest) (hbytes' : file'.bytes = base ++ rest') {n : Nat}
    (h : readRecord crc file offset previousLsn = some (record, n))
    (hle : offset + n ≤ base.length) :
    readRecord crc file' offset previousLsn = some (record, n) := by
  obtain ⟨header, payload, tail, hdrop, hn, hacc⟩ := readRecord_eq_some.mp h
  have hoff : offset ≤ base.length := by omega
  rw [hbytes, List.drop_append_of_le_length hoff] at hdrop
  obtain ⟨tail', hbase⟩ : ∃ tail', base.drop offset = header ++ (payload ++ tail') := by
    have htake : (base.drop offset).take n = header ++ payload := by
      have hall := congrArg (List.take n) hdrop
      rw [List.take_append_of_le_length (by rw [List.length_drop]; omega), ← List.append_assoc,
        List.take_left' (by rw [List.length_append, hacc.size, hn])] at hall
      exact hall
    exact ⟨(base.drop offset).drop n, by rw [← List.append_assoc, ← htake, List.take_append_drop]⟩
  refine readRecord_eq_some.mpr ⟨header, payload, tail' ++ rest', ?_, hn, hacc⟩
  rw [hbytes', List.drop_append_of_le_length hoff, hbase]
  simp only [List.append_assoc]

/-! ## reading a framed record -/

/-- What the checks of the writer leave true of a record. -/
structure Logged (record : WalRecord) : Prop where
  positive : 0 < record.lsn
  bounded : record.lsn < 2 ^ 64
  short : record.kind.recordLength < 2 ^ 32
  image : ∀ pageId payload, record.kind = .pageImage pageId payload →
    payload.length ≤ maxPagePayload
  commit : ∀ pageCount, record.kind = .batchCommit pageCount → pageCount ≠ 0

theorem recordLength_eq (kind : WalKind) :
    kind.recordLength = walHeaderSize + (framedPayload kind).length := by
  cases kind <;> simp [WalKind.recordLength, framedPayload]

theorem length_header (record : WalRecord) : (header crc record).length = walHeaderSize := rfl

/-- The checksum does not depend on the field that holds it. -/
theorem recordChecksum_headerWith (record : WalRecord) (checksum : Nat) (payload : Bytes) :
    recordChecksum crc (headerWith record checksum) payload =
      recordChecksum crc (headerWith record 0) payload := rfl

/-- The fields of a header. -/
theorem drop_take_headerWith (record : WalRecord) (checksum : Nat) :
    ((headerWith record checksum).drop 8).take 4 = encode 4 record.kind.recordLength ∧
    ((headerWith record checksum).drop 12).take 4 = encode 4 (framedPayload record.kind).length ∧
    ((headerWith record checksum).drop 16).take 8 = encode 8 record.lsn ∧
    ((headerWith record checksum).drop 24).take 8 = encode 8 (framedPageId record.kind) ∧
    ((headerWith record checksum).drop checksumOffset).take 4 = encode 4 checksum :=
  ⟨rfl, rfl, rfl, rfl, rfl⟩

theorem framedPageId_lt (kind : WalKind) : framedPageId kind < 2 ^ 64 := by
  cases kind with
  | pageImage pageId _ => exact pageId.toNat_lt
  | pageAppend pageId _ _ => exact pageId.toNat_lt
  | _ => simp [framedPageId, noPageId]

/-- The numbers read from the header of a record. -/
theorem Logged.fields {c : Bytes → UInt32} (hlog : Logged record) :
    readAt (header c record) 8 4 = walHeaderSize + (framedPayload record.kind).length ∧
    readAt (header c record) 12 4 = (framedPayload record.kind).length ∧
    readAt (header c record) 16 8 = record.lsn ∧
    readAt (header c record) 24 8 = framedPageId record.kind ∧
    readAt (header c record) checksumOffset 4 =
      (recordChecksum c (header c record) (framedPayload record.kind)).toNat := by
  have hshort := hlog.short
  obtain ⟨hrec, hpay, hlsn, hid, hsum⟩ := drop_take_headerWith record
    (recordChecksum c (headerWith record 0) (framedPayload record.kind)).toNat
  simp only [readAt, header, hrec, hpay, hlsn, hid, hsum, recordChecksum_headerWith]
  refine ⟨?_, decode_encode_of_lt ?_, decode_encode_of_lt hlog.bounded,
    decode_encode_of_lt (framedPageId_lt record.kind), decode_encode_of_lt (UInt32.toNat_lt _)⟩
  · rw [← recordLength_eq]
    exact decode_encode_of_lt hshort
  · rw [recordLength_eq] at hshort
    omega

/-- The payload of a framed record is read as the kind it came from, unless its
page ID is the reserved one. -/
theorem decodeKind_framed (hlog : Logged record) (hread : Readable record.kind) :
    decodeKind (recordType record.kind) (framedPageId record.kind) (framedPayload record.kind) =
      some record.kind := by
  obtain ⟨lsn, kind⟩ := record
  cases kind with
  | pageImage pageId payload =>
    have hid : pageId.toNat ≠ noPageId := hread
    simp [decodeKind, recordType, framedPageId, framedPayload, hid]
  | pageAppend pageId offset payload =>
    have hid : pageId.toNat ≠ noPageId := hread.1
    have hoff : readAt (encode 4 offset.toNat ++ payload) 0 4 = offset.toNat := by
      rw [readAt, List.drop_zero, List.take_left' (length_encode 4 _)]
      exact decode_encode_of_lt offset.toNat_lt
    simp [decodeKind, recordType, framedPageId, framedPayload, hid, hoff]
  | batchCommit pageCount =>
    have hcount : readAt (encode 4 pageCount.toNat) 0 4 = pageCount.toNat := by
      rw [readAt, List.drop_zero, List.take_of_length_le (by simp)]
      exact decode_encode_of_lt pageCount.toNat_lt
    have hne : pageCount.toNat ≠ 0 := fun h0 =>
      hlog.commit pageCount rfl (UInt32.toNat_inj.mp h0)
    simp [decodeKind, recordType, framedPageId, framedPayload, hcount, hne]
  | checkpoint => simp [decodeKind, recordType, framedPageId, framedPayload]

/-- A framed payload that is read fits a page, under a page ID that is not the
reserved one. -/
theorem readable_of_decodeKind {kind kind' : WalKind}
    (h : decodeKind (recordType kind) (framedPageId kind) (framedPayload kind) = some kind')
    (hfits : (framedPayload kind).length ≤ maxPagePayload) : Readable kind := by
  cases kind with
  | pageImage pageId payload =>
    intro hid
    simp [decodeKind, recordType, framedPageId, hid] at h
  | pageAppend pageId offset payload =>
    refine ⟨fun hid => ?_, by simpa [framedPayload] using hfits⟩
    simp [decodeKind, recordType, framedPageId, hid] at h
  | batchCommit pageCount => trivial
  | checkpoint => trivial

/-- The header the writer makes is one the reader accepts. -/
theorem Logged.accepts (hlog : Logged record) (hread : Readable record.kind)
    (hprev : previousLsn < record.lsn) :
    Accepts crc previousLsn (header crc record) (framedPayload record.kind) record := by
  have hfits : (framedPayload record.kind).length ≤ maxPagePayload := by
    cases hk : record.kind with
    | pageImage pageId payload => exact hlog.image pageId payload hk
    | pageAppend pageId offset payload =>
      rw [hk] at hread
      simpa [framedPayload] using hread.2
    | batchCommit pageCount => simp [framedPayload, maxPagePayload_eq]
    | checkpoint => simp [framedPayload]
  obtain ⟨hrec, hpay, hlsn, hid, hsum⟩ := hlog.fields (c := crc)
  exact ⟨rfl, rfl, rfl, hrec, hpay, hfits, hsum, hlsn, Nat.ne_of_gt hlog.positive, hprev,
    by rw [hid]; exact decodeKind_framed hlog hread⟩

/-- **The record at an offset where the writer framed one**: that record, if it
is readable, and otherwise none. -/
theorem readRecord_frame {base rest : Bytes}
    (hbytes : file.bytes = base ++ (header crc record ++ (framedPayload record.kind ++ rest)))
    (hlog : Logged record) (hprev : previousLsn < record.lsn) :
    readRecord crc file base.length previousLsn =
      if Readable record.kind then some (record, record.kind.recordLength) else none := by
  have hdrop : file.bytes.drop base.length =
      header crc record ++ (framedPayload record.kind ++ rest) := by
    rw [hbytes, List.drop_left]
  split
  · next hread =>
    exact readRecord_eq_some.mpr ⟨_, _, rest, hdrop, recordLength_eq _, hlog.accepts hread hprev⟩
  · next hread =>
    rw [Option.eq_none_iff_forall_ne_some]
    rintro ⟨other, n⟩ hsome
    obtain ⟨header', payload, rest', hdrop', -, hacc⟩ := readRecord_eq_some.mp hsome
    have hsplit := hdrop.symm.trans hdrop'
    obtain ⟨hhead, htail⟩ := List.append_inj hsplit (by rw [length_header, hacc.size])
    obtain ⟨-, hplen, -, hid, -⟩ := hlog.fields (c := crc)
    have hlen : payload.length = (framedPayload record.kind).length := by
      rw [← hacc.payloadLength, ← hhead, hplen]
    obtain ⟨hpay, -⟩ := List.append_inj htail hlen.symm
    have hkind := hacc.kind
    rw [← hhead, ← hpay, hid] at hkind
    exact hread (readable_of_decodeKind hkind (by rw [hpay]; exact hacc.fits))

/-! ## reading a run of records -/

/-- A scan at one offset passes over some records to another offset. -/
inductive Passes (crc : Bytes → UInt32) (file : LogFile) :
    Nat → Nat → List WalRecord → Nat → Nat → Prop
  | done {offset lsn : Nat} : Passes crc file offset lsn [] offset lsn
  | record {offset lsn n stop last : Nat} {record : WalRecord} {rest : List WalRecord} :
      readRecord crc file offset lsn = some (record, n) →
      Passes crc file (offset + n) record.lsn rest stop last →
      Passes crc file offset lsn (record :: rest) stop last

namespace Passes

variable {file file' : LogFile} {offset lsn stop last stop' last' : Nat}
variable {records records' : List WalRecord}

theorem trans (h : Passes crc file offset lsn records stop last)
    (h' : Passes crc file stop last records' stop' last') :
    Passes crc file offset lsn (records ++ records') stop' last' := by
  induction h with
  | done => exact h'
  | record hread _ ih => exact .record hread (ih h')

theorem le (h : Passes crc file offset lsn records stop last) : offset ≤ stop := by
  induction h with
  | done => exact Nat.le_refl _
  | record _ _ ih => omega

theorem le_length (h : Passes crc file offset lsn records stop last)
    (hle : offset ≤ file.length) : stop ≤ file.length := by
  induction h with
  | done => exact hle
  | record hread _ ih => exact ih (readRecord_bounds hread).2

/-- Records are passed over on account of their own bytes alone. -/
theorem congr {base rest rest' : Bytes} (hbytes : file.bytes = base ++ rest)
    (hbytes' : file'.bytes = base ++ rest') (h : Passes crc file offset lsn records stop last)
    (hle : stop ≤ base.length) : Passes crc file' offset lsn records stop last := by
  induction h with
  | done => exact .done
  | record hread hpass ih =>
    exact .record (readRecord_congr hbytes hbytes' hread (hpass.le.trans hle)) (ih hle)

/-- The last LSN passed over is that of the last record. -/
theorem last_eq (h : Passes crc file offset lsn records stop last) :
    last = (records.getLast?.map WalRecord.lsn).getD lsn := by
  induction h with
  | done => rfl
  | @record offset lsn n stop last record rest _ _ ih =>
    rw [ih, List.getLast?_cons]
    cases rest.getLast? <;> rfl

/-- A scan ends where it has passed over all there is. -/
theorem scanLoop_eq (h : Passes crc file offset lsn records stop last)
    (hstop : readRecord crc file stop last = none) (acc : List WalRecord) {fuel : Nat}
    (hfuel : file.length ≤ offset + fuel) :
    scanLoop crc file fuel offset lsn acc = (acc ++ records, stop) := by
  induction h generalizing acc fuel with
  | done =>
    cases fuel with
    | zero => simp [scanLoop]
    | succ fuel => simp [scanLoop, hstop]
  | record hread _ ih =>
    have hbounds := readRecord_bounds hread
    have hhead : 0 < walHeaderSize := by decide
    cases fuel with
    | zero => omega
    | succ fuel =>
      rw [scanLoop, hread]
      simp only
      rw [ih hstop _ (by omega), List.append_assoc, List.singleton_append]

end Passes

/-- Every scan passes over the records it returns and stops where none is left. -/
theorem passes_scanLoop (file : LogFile) {fuel offset : Nat} (lsn : Nat) (acc : List WalRecord)
    (hfuel : file.length ≤ offset + fuel) :
    ∃ records stop last, Passes crc file offset lsn records stop last ∧
      readRecord crc file stop last = none ∧
      scanLoop crc file fuel offset lsn acc = (acc ++ records, stop) := by
  induction fuel generalizing offset lsn acc with
  | zero =>
    refine ⟨[], offset, lsn, .done, ?_, by simp [scanLoop]⟩
    cases hread : readRecord crc file offset lsn with
    | none => rfl
    | some pair =>
      have hbounds := readRecord_bounds hread
      have hhead : 0 < walHeaderSize := by decide
      omega
  | succ fuel ih =>
    cases hread : readRecord crc file offset lsn with
    | none => exact ⟨[], offset, lsn, .done, hread, by simp [scanLoop, hread]⟩
    | some pair =>
      obtain ⟨record, n⟩ := pair
      have hbounds := readRecord_bounds hread
      have hhead : 0 < walHeaderSize := by decide
      obtain ⟨records, stop, last, hpass, hstop, hscan⟩ :=
        @ih (offset + n) record.lsn (acc ++ [record]) (by omega)
      refine ⟨record :: records, stop, last, .record hread hpass, hstop, ?_⟩
      rw [scanLoop, hread]
      simp only
      rw [hscan, List.append_assoc, List.singleton_append]

/-- The bytes of some framed records. -/
def frames (crc : Bytes → UInt32) (records : List WalRecord) : Bytes :=
  records.flatMap fun record => header crc record ++ framedPayload record.kind

/-- The LSNs of some records go on from a given one. -/
def Follows (lsn : Nat) (records : List WalRecord) : Prop :=
  (lsn :: records.map WalRecord.lsn).Pairwise (· < ·)

theorem Follows.cons {lsn : Nat} {rest : List WalRecord} (h : Follows lsn (record :: rest)) :
    lsn < record.lsn ∧ Follows record.lsn rest := by
  obtain ⟨hall, hrest⟩ := List.pairwise_cons.mp h
  exact ⟨hall record.lsn List.mem_cons_self, hrest⟩

theorem Follows.snoc {lsn : Nat} {records : List WalRecord} (h : Follows lsn records)
    (hnew : ∀ x ∈ lsn :: records.map WalRecord.lsn, x < record.lsn) :
    Follows lsn (records ++ [record]) := by
  rw [Follows, List.map_append, ← List.cons_append, List.pairwise_append]
  refine ⟨h, by simp, fun x hx y hy => ?_⟩
  rw [List.map_singleton, List.mem_singleton] at hy
  exact hy ▸ hnew x hx

/-- **A scan over framed records** returns them up to the first that is not
readable. -/
theorem passes_frames {file : LogFile} {base rest : Bytes} {records : List WalRecord} {lsn : Nat}
    (hbytes : file.bytes = base ++ (frames crc records ++ rest))
    (hlog : ∀ record ∈ records, Logged record) (hfollows : Follows lsn records)
    (hrest : ∀ last, readRecord crc file (base.length + (frames crc records).length) last = none) :
    ∃ stop last, Passes crc file base.length lsn (records.takeWhile (Readable ·.kind)) stop last ∧
      readRecord crc file stop last = none ∧
      ((∀ record ∈ records, Readable record.kind) →
        stop = base.length + (frames crc records).length) := by
  induction records generalizing base lsn with
  | nil => exact ⟨base.length, lsn, .done,
    by simpa [frames] using hrest lsn, fun _ => by simp [frames]⟩
  | cons record records ih =>
    have hframes : frames crc (record :: records) =
        header crc record ++ (framedPayload record.kind ++ frames crc records) := by
      simp [frames]
    have hbytes' := hbytes
    rw [hframes] at hbytes'
    simp only [List.append_assoc] at hbytes'
    have hread := readRecord_frame hbytes' (hlog record List.mem_cons_self) hfollows.cons.1
    by_cases hreadable : Readable record.kind
    · rw [if_pos hreadable] at hread
      have hbase : (base ++ (header crc record ++ framedPayload record.kind)).length =
          base.length + record.kind.recordLength := by
        simp only [List.length_append, length_header, recordLength_eq]
      have hlen : base.length + (frames crc (record :: records)).length =
          base.length + record.kind.recordLength + (frames crc records).length := by
        simp only [hframes, List.length_append, length_header, recordLength_eq]
        omega
      obtain ⟨stop, last, hpass, hstop, hall⟩ :=
        @ih (base ++ (header crc record ++ framedPayload record.kind)) record.lsn
          (by simp only [List.append_assoc]; exact hbytes')
          (fun r hr => hlog r (List.mem_cons_of_mem record hr)) hfollows.cons.2
          (by rw [hbase, ← hlen]; exact hrest)
      rw [hbase] at hpass
      refine ⟨stop, last, ?_, hstop, fun hr => ?_⟩
      · rw [List.takeWhile_cons_of_pos (by simpa using hreadable)]
        exact .record hread hpass
      · rw [hall fun r h => hr r (List.mem_cons_of_mem record h), hbase, hlen]
    · rw [if_neg hreadable] at hread
      refine ⟨base.length, lsn, ?_, hread,
        fun hr => absurd (hr record List.mem_cons_self) hreadable⟩
      rw [List.takeWhile_cons_of_neg (by simpa using hreadable)]
      exact .done

end

end QuantaDb.Frame
