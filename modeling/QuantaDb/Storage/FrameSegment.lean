import QuantaDb.Storage.FrameReader

/-!
# QuantaDb.Storage.FrameSegment

The bytes of a segment file while records are appended to it, and after it is
opened.

`Segment.Holds` says what a segment file consists of: bytes that scan as the
records found at opening, the frames of the records appended since, and then
something that is no record.  Appending keeps it (`Segment.Holds.append`), and
opening establishes it for any file (`Segment.holds_of_open`).
-/

namespace QuantaDb.Frame

open Fallible

/-! ## the bytes of a segment -/

variable {file file' : LogFile} {offset : Nat}

theorem LogFile.bytes_of_writeAllAt {buffer : Bytes}
    (h : file.writeAllAt buffer offset = .ok file') :
    file'.bytes = splice file.bytes offset buffer := by
  unfold LogFile.writeAllAt at h
  split at h
  · cases h; rfl
  · cases h

theorem LogFile.bytes_of_setLen {n : Nat} (h : file.setLen n = .ok file') (hn : file.length ≤ n) :
    file'.bytes = file.bytes ++ List.replicate (n - file.length) 0 := by
  unfold LogFile.setLen at h
  split at h
  · cases h
    simp only
    rw [List.take_of_length_le (show file.bytes.length ≤ n from hn)]
  · cases h

/-- A file that keeps some bytes at its start and its length. -/
structure Keeps (base : Bytes) (n : Nat) (file : LogFile) : Prop where
  start : ∃ rest, file.bytes = base ++ rest
  length : file.length = n

/-- A write beyond those bytes and within the file keeps both. -/
theorem Keeps.write {base buffer : Bytes} {n : Nat} (h : Keeps base n file)
    (hoff : base.length ≤ offset) (hend : offset + buffer.length ≤ n)
    (hw : file.writeAllAt buffer offset = .ok file') : Keeps base n file' := by
  obtain ⟨rest, hrest⟩ := h.start
  obtain ⟨k, rfl⟩ := Nat.exists_eq_add_of_le hoff
  have hbytes := LogFile.bytes_of_writeAllAt hw
  refine ⟨⟨splice rest k buffer, by rw [hbytes, hrest, splice_append_add]⟩, ?_⟩
  have hlen := h.length
  rw [LogFile.length] at hlen ⊢
  rw [hbytes, length_splice]
  omega

theorem Keeps.zeroFill {base : Bytes} {n stop : Nat} (h : Keeps base n file)
    (hoff : base.length ≤ offset) (hend : stop ≤ n) (hz : file.zeroFill offset stop = .ok file') :
    Keeps base n file' := by
  refine foldlM_keeps hz h fun chunk hchunk f f' hf hw => ?_
  have hlt : chunk * (64 * 2 ^ 10) < stop - offset := by
    rw [List.mem_range, Nat.lt_div_iff_mul_lt (by norm_num)] at hchunk
    omega
  refine hf.write (by omega) ?_ hw
  rw [List.length_replicate]
  omega

/-- No record can be read where the magic does not stand. -/
theorem readRecord_eq_none {crc : Bytes → UInt32} (h : (file.bytes.drop offset).take 4 ≠ walMagic)
    (lsn : Nat) :
    readRecord crc file offset lsn = none := by
  rw [Option.eq_none_iff_forall_ne_some]
  rintro ⟨record, n⟩ hsome
  obtain ⟨header, payload, rest, hdrop, -, hacc⟩ := readRecord_eq_some.mp hsome
  refine h ?_
  rw [hdrop, List.take_append_of_le_length (by rw [hacc.size]; decide), hacc.magic]

/-- Nor where the file ends before a header would. -/
theorem readRecord_eq_none_of_short {crc : Bytes → UInt32}
    (h : file.length < offset + walHeaderSize) (lsn : Nat) :
    readRecord crc file offset lsn = none := by
  rw [Option.eq_none_iff_forall_ne_some]
  rintro ⟨record, n⟩ hsome
  have hbounds := readRecord_bounds hsome
  omega

section

variable {crc : Bytes → UInt32}

/-- A segment whose file starts with bytes that scan as `found`, goes on with the
frames of `appended`, and then holds no further record. -/
structure Segment.Holds (crc : Bytes → UInt32) (seg : Segment) (base : Bytes)
    (found appended : List WalRecord) (last : Nat) : Prop where
  bytes : ∃ rest, seg.file.bytes = base ++ (frames crc appended ++ rest)
  found : Passes crc seg.file 0 0 found base.length last
  ends : ∀ lsn, readRecord crc seg.file seg.endOffset lsn = none
  endOffset : seg.endOffset = base.length + (frames crc appended).length
  fileLength : seg.file.length = seg.fileLength
  allocated : seg.endOffset ≤ seg.allocatedOffset

variable {seg seg' : Segment}

theorem Segment.reserve_ok {base : Bytes} {needed : Nat}
    (hkeeps : Keeps base seg.fileLength seg.file) (h : seg.reserve needed = .ok seg') :
    Keeps base seg'.fileLength seg'.file ∧ needed ≤ seg'.fileLength ∧
      seg'.endOffset = seg.endOffset ∧ seg'.allocatedOffset = seg.allocatedOffset := by
  unfold Segment.reserve at h
  split at h
  · next hlt =>
    rw [ite_error_eq_ok, map_eq_ok] at h
    obtain ⟨-, file, hset, rfl⟩ := h
    have hlen := hkeeps.length
    have hbytes := LogFile.bytes_of_setLen hset (by omega)
    obtain ⟨rest, hrest⟩ := hkeeps.start
    refine ⟨⟨⟨rest ++ List.replicate (needed + walPreallocateBytes - seg.file.length) 0, ?_⟩, ?_⟩,
      by simp, rfl, rfl⟩
    · rw [hbytes, hrest, List.append_assoc]
    · rw [LogFile.length, hbytes, List.length_append, List.length_replicate]
      rw [LogFile.length] at hlen ⊢
      simp only
      omega
  · next hle =>
    cases h
    exact ⟨hkeeps, by omega, rfl, rfl⟩

theorem Segment.fillAhead_ok {base : Bytes} {needed : Nat}
    (hkeeps : Keeps base seg.fileLength seg.file) (hbase : base.length ≤ seg.allocatedOffset)
    (hneeded : needed ≤ seg.fileLength) (h : seg.fillAhead needed = .ok seg') :
    Keeps base seg'.fileLength seg'.file ∧ seg'.fileLength = seg.fileLength ∧
      seg'.endOffset = seg.endOffset ∧ needed ≤ seg'.allocatedOffset := by
  have hbounded := seg.file.bounded
  have hlen := hkeeps.length
  rw [LogFile.length] at hlen
  unfold Segment.fillAhead at h
  split at h
  · rw [map_eq_ok] at h
    obtain ⟨file, hfill, rfl⟩ := h
    refine ⟨hkeeps.zeroFill hbase (Nat.min_le_right _ _) hfill, rfl, rfl, ?_⟩
    simp only
    omega
  · next hle =>
    cases h
    exact ⟨hkeeps, rfl, rfl, by omega⟩

theorem frames_append (records records' : List WalRecord) :
    frames crc (records ++ records') = frames crc records ++ frames crc records' := by
  simp [frames]

/-- Appending a record adds its frame and a stop marker. -/
theorem Segment.Holds.append {base : Bytes} {found appended : List WalRecord} {last : Nat}
    (h : seg.Holds crc base found appended last) (record : WalRecord)
    (happend : seg.appendRecord (header crc record) (framedPayload record.kind) = .ok seg') :
    seg'.Holds crc base found (appended ++ [record]) last := by
  have hmark : stopMarker.length = 4 := rfl
  have hhead : walHeaderSize = 40 := rfl
  obtain ⟨rest, hrest⟩ := h.bytes
  have hkeeps : Keeps (base ++ frames crc appended) seg.fileLength seg.file :=
    ⟨⟨rest, by rw [hrest, List.append_assoc]⟩, h.fileLength⟩
  have hend : (base ++ frames crc appended).length = seg.endOffset := by
    rw [List.length_append, h.endOffset]
  simp only [Segment.appendRecord, ite_error_eq_ok, bind_eq_ok] at happend
  obtain ⟨-, seg₁, hreserve, seg₂, hfill, file₁, hw₁, file₂, hw₂, file₃, hw₃, hseg⟩ := happend
  obtain ⟨hk₁, hneeded, he₁, ha₁⟩ := Segment.reserve_ok hkeeps hreserve
  obtain ⟨hk₂, hf₂, he₂, ha₂⟩ := Segment.fillAhead_ok hk₁ (by rw [hend, ha₁]; exact h.allocated)
    hneeded hfill
  obtain ⟨rest₂, hrest₂⟩ := hk₂.start
  have hoff : seg₂.endOffset = (base ++ frames crc appended).length := by rw [he₂, he₁, hend]
  -- the three writes follow one another, each where the one before it ended
  have hb₁ := LogFile.bytes_of_writeAllAt hw₁
  rw [hrest₂, hoff, splice_append] at hb₁
  have hb₂ := LogFile.bytes_of_writeAllAt hw₂
  have hoff₂ : seg₂.endOffset + walHeaderSize =
      (base ++ frames crc appended ++ header crc record).length := by
    simp only [hoff, List.length_append, length_header]
  rw [hb₁, ← List.append_assoc, hoff₂, splice_append] at hb₂
  have hb₃ := LogFile.bytes_of_writeAllAt hw₃
  have hoff₃ : seg.endOffset + (walHeaderSize + (framedPayload record.kind).length) =
      (base ++ frames crc appended ++ header crc record ++ framedPayload record.kind).length := by
    simp only [List.length_append, length_header] at hend ⊢
    omega
  rw [hb₂, ← List.append_assoc, hoff₃, splice_append] at hb₃
  obtain ⟨rest₃, hb₃⟩ : ∃ rest₃, file₃.bytes = base ++ frames crc appended ++ header crc record ++
      framedPayload record.kind ++ (stopMarker ++ rest₃) := ⟨_, hb₃⟩
  have hframes : frames crc (appended ++ [record]) =
      frames crc appended ++ (header crc record ++ framedPayload record.kind) := by
    rw [frames_append]
    simp [frames]
  have hk₃ : Keeps (base ++ frames crc appended) seg₂.fileLength file₃ := by
    have hlen : (framedPayload record.kind).length + seg.endOffset + 44 ≤ seg₂.fileLength := by
      omega
    have hpre : (base ++ frames crc appended).length = seg.endOffset := hend
    refine ((hk₂.write (by omega) ?_ hw₁).write (by omega) (by omega) hw₂).write (by omega) ?_ hw₃
    · rw [length_header]; omega
    · omega
  cases hseg
  have hdrop : (file₃.bytes.drop (seg.endOffset + (walHeaderSize +
      (framedPayload record.kind).length))).take 4 = stopMarker := by
    rw [hb₃, hoff₃, List.drop_left]
    rfl
  exact {
    bytes := ⟨stopMarker ++ rest₃, by rw [hb₃, hframes]; simp only [List.append_assoc]⟩
    found := by
      obtain ⟨rest₃, hrest₃⟩ := hk₃.start
      rw [List.append_assoc] at hrest₃
      exact h.found.congr hrest hrest₃ (Nat.le_refl _)
    ends := readRecord_eq_none (by rw [hdrop]; decide)
    endOffset := by
      rw [hframes]
      simp only [List.length_append, length_header] at hend ⊢
      omega
    fileLength := hk₃.length
    allocated := by simp only; omega }

variable {file : LogFile} {records : List WalRecord}

/-- The scan of a file whose records are known. -/
theorem Passes.scanAndRepair_eq {stop last : Nat} (h : Passes crc file 0 0 records stop last)
    (hstop : readRecord crc file stop last = none) :
    ∃ file', scanAndRepair crc file = .ok (records, stop, file') := by
  have hscan := h.scanLoop_eq hstop [] (Nat.le_of_eq (Nat.zero_add file.length).symm)
  rw [List.nil_append] at hscan
  simp only [scanAndRepair, hscan]
  split
  · next hle =>
    have hbounded := file.bounded
    rw [LogFile.length] at hle
    rw [LogFile.writeAllAt, dif_pos (by omega)]
    exact ⟨_, rfl⟩
  · exact ⟨_, rfl⟩

/-- What a scan leaves: the records it returned, and no more of them, whatever
zeros the file is extended with. -/
theorem scanAndRepair_ok {file' : LogFile} {stop : Nat}
    (h : scanAndRepair crc file = .ok (records, stop, file')) :
    ∃ last, Passes crc file' 0 0 records stop last ∧ stop ≤ file'.length ∧
      ((file'.bytes.drop stop).take 4 = stopMarker ∨ file'.length < stop + 4) := by
  have hmark : stopMarker.length = 4 := rfl
  obtain ⟨records₀, stop₀, last, hpass, -, hscan⟩ :=
    @passes_scanLoop crc file file.length 0 0 [] (Nat.le_of_eq (Nat.zero_add file.length).symm)
  have hle := hpass.le_length (Nat.zero_le _)
  rw [List.nil_append] at hscan
  simp only [scanAndRepair, hscan] at h
  split at h
  · next hfits =>
    rw [map_eq_ok] at h
    obtain ⟨file₁, hw, heq⟩ := h
    cases heq
    have hsplit : file.bytes = file.bytes.take stop ++ file.bytes.drop stop :=
      (List.take_append_drop _ _).symm
    have htake : (file.bytes.take stop).length = stop := by
      rw [List.length_take]
      exact Nat.min_eq_left hle
    have hbytes := LogFile.bytes_of_writeAllAt hw
    have hbytes' : file'.bytes = file.bytes.take stop ++
        (stopMarker ++ (file.bytes.drop stop).drop stopMarker.length) := by
      rw [hbytes, ← splice_append, List.take_append_drop, htake]
    refine ⟨last, hpass.congr hsplit hbytes' (Nat.le_of_eq htake.symm), ?_, Or.inl ?_⟩
    · rw [LogFile.length, hbytes', List.length_append, htake]
      omega
    · rw [hbytes', List.drop_left' htake]
      rfl
  · next hfits =>
    cases h
    exact ⟨last, hpass, hle, Or.inr (by omega)⟩

/-- No magic stands where fewer than four bytes are followed by zeros. -/
theorem take_zeros_ne_walMagic {bytes : Bytes} (h : bytes.length < 4) (n : Nat) :
    (bytes ++ List.replicate (n + 1) 0).take 4 ≠ walMagic := by
  intro heq
  have hmem : (0 : UInt8) ∈ (bytes ++ List.replicate (n + 1) 0).take 4 := by
    rw [List.take_append]
    refine List.mem_append_right _ ?_
    obtain ⟨k, hk⟩ : ∃ k, 4 - bytes.length = k + 1 := ⟨3 - bytes.length, by omega⟩
    rw [hk, List.replicate_succ, List.take_succ_cons]
    exact List.mem_cons_self
  rw [heq] at hmem
  exact absurd hmem (by decide)

/-- **Opening a segment** finds the records of its file. -/
theorem Segment.holds_of_open (h : Segment.open crc file = .ok (seg, records)) :
    ∃ base last, seg.Holds crc base records [] last := by
  simp only [Segment.open, bind_eq_ok] at h
  obtain ⟨⟨records₁, stop, file₁⟩, hscan, h⟩ := h
  simp only at h
  obtain ⟨last, hpass, hle, hends⟩ := scanAndRepair_ok hscan
  have hbase : (file₁.bytes.take stop).length = stop := by
    rw [List.length_take]
    exact Nat.min_eq_left hle
  have hsplit : file₁.bytes = file₁.bytes.take stop ++ file₁.bytes.drop stop :=
    (List.take_append_drop _ _).symm
  split at h
  · next hlt =>
    rw [bind_eq_ok] at h
    obtain ⟨file₂, hset, h⟩ := h
    cases h
    have hbytes := LogFile.bytes_of_setLen hset (Nat.le_of_lt hlt)
    have hbytes' : file₂.bytes = file₁.bytes.take stop ++
        (file₁.bytes.drop stop ++ List.replicate (walPreallocateBytes - file₁.length) 0) := by
      rw [hbytes, ← List.append_assoc, List.take_append_drop]
    refine ⟨file₁.bytes.take stop, last, ⟨_, by rw [hbytes']; rfl⟩, ?_, ?_, ?_, ?_, Nat.le_refl _⟩
    · rw [hbase]
      exact hpass.congr hsplit hbytes' (Nat.le_of_eq hbase.symm)
    · refine readRecord_eq_none ?_
      rw [hbytes', List.drop_left' hbase]
      rcases hends with hmark | hshort
      · have hlen : 4 ≤ (file₁.bytes.drop stop).length := by
          have := congrArg List.length hmark
          rw [List.length_take] at this
          have hmark4 : stopMarker.length = 4 := rfl
          omega
        rw [List.take_append_of_le_length hlen, hmark]
        decide
      · obtain ⟨k, hk⟩ : ∃ k, walPreallocateBytes - file₁.length = k + 1 :=
          ⟨walPreallocateBytes - file₁.length - 1, by omega⟩
        rw [hk]
        refine take_zeros_ne_walMagic ?_ k
        rw [List.length_drop]
        rw [LogFile.length] at hshort
        omega
    · simp [hbase, frames]
    · rw [LogFile.length, hbytes, List.length_append, List.length_replicate]
      rw [LogFile.length] at hlt ⊢
      simp only
      omega
  · cases h
    refine ⟨file₁.bytes.take stop, last, ⟨file₁.bytes.drop stop, hsplit⟩,
      by rw [hbase]; exact hpass,
      ?_, by simp [hbase, frames], rfl, Nat.le_refl _⟩
    rcases hends with hmark | hshort
    · exact readRecord_eq_none (by rw [hmark]; decide)
    · refine readRecord_eq_none_of_short ?_
      have hhead : walHeaderSize = 40 := rfl
      simp only
      omega

end

end QuantaDb.Frame
