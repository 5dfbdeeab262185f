import QuantaDb.Storage.Readers
import QuantaDb.Storage.Runs

/-!
# QuantaDb.Storage.ReaderRuns

Readers beside a background checkpoint, over whole runs without a crash.

The checkpointer holds no lock: between its read of a chunk and its write of a
page of it, batches may have made the page newer.  The page then still stands in
the dirty table, so no reader looks at what the checkpointer writes
(`JobLive.write`), and completing the checkpoint keeps it there, because it no
longer carries the LSN that was written (`JobLive.forgets`).
-/

namespace QuantaDb

open Crash DurableStore

variable {base : PageId → Except StorageError (Option Page)} {view : PageId → Option Bytes}
variable {s s' : DurableStore} {job : BackgroundCheckpoint}

/-! ## the checkpoint in progress -/

/-- What a background checkpoint holds of the pages it was asked to write: a page
it has read is dirty, perhaps by now under a later LSN; one it has written is in
the data file for as long as it is dirty under that LSN. -/
structure JobLive (s : DurableStore) (job : BackgroundCheckpoint) : Prop where
  inFlight : s.checkpointInFlight = true
  nodup : (job.written.map Prod.fst ++ (job.chunk.map Page.id ++ job.manifest.map Prod.fst)).Nodup
  chunk : ∀ page ∈ job.chunk, (∃ q, s.dirty[page.id]? = some q ∧ (q = page ∨ page.lsn < q.lsn)) ∧
    ∀ lsn, s.flushed[page.id]? = some lsn → lsn ≤ page.lsn
  written : ∀ entry ∈ job.written, entry.2 < s.wal.nextLsn ∧
    ∀ page, s.dirty[entry.1]? = some page → page.lsn = entry.2 →
      s.data.read entry.1 = .ok (some page)

/-- Batches beside the checkpoint only make pages newer. -/
theorem JobLive.moves (h : JobLive s job) (hlive : Live base view s) (hm : Moves s s') :
    JobLive s' job := by
  have hle := hm.lsn
  refine ⟨hm.inFlight.trans h.inFlight, h.nodup, fun page hp => ⟨?_, fun lsn hf => ?_⟩,
    fun entry he => ⟨?_, fun page hd hl => ?_⟩⟩
  · obtain ⟨⟨q, hq, hnewer⟩, -⟩ := h.chunk page hp
    have hlt : page.lsn < s.wal.nextLsn := by
      have := (hlive.dirty page.id q hq).2.2
      rcases hnewer with rfl | hnewer
      · exact this
      · omega
    obtain ⟨q', hq'⟩ := Option.ne_none_iff_exists'.mp (hm.stays page.id (by simp [hq]))
    refine ⟨q', hq', ?_⟩
    rcases hm.dirty page.id q' hq' with hold | hnew
    · rw [hq] at hold
      cases hold
      exact hnewer
    · exact Or.inr (by omega)
  · rw [hm.flushed] at hf
    exact (h.chunk page hp).2 lsn hf
  · have := (h.written entry he).1
    omega
  · obtain ⟨hlt, hheld⟩ := h.written entry he
    rw [hm.data]
    rcases hm.dirty entry.1 page hd with hold | hnew
    · exact hheld page hold hl
    · omega

/-- The checkpoint begins. -/
theorem Live.rotated (h : Live base view s) : Live base view s.rotated :=
  h.congr (fun _ => rfl) rfl rfl (Nat.le_refl _)

theorem JobLive.begin (s : DurableStore) (order : HashOrder) :
    JobLive s.rotated { manifest := s.dirtyList order, retired := s.wal.active,
                        boundaryLsn := s.wal.nextLsn } := by
  refine ⟨rfl, ?_, by simp, by simp⟩
  have hkeys : (order.walk s.dirty.keys).Nodup :=
    (order.perm _).nodup_iff.mpr Std.TreeMap.nodup_keys
  simpa using hkeys.sublist (dirtyList_ids order s)

/-- A chunk of the manifest is read. -/
theorem JobLive.read (h : JobLive s job) (hlive : Live base view s) (hc : job.chunk = []) :
    JobLive s { job with
      manifest := job.manifest.drop chunkSize
      chunk := readChunk s.dirty (job.manifest.take chunkSize) } := by
  refine ⟨h.inFlight, ?_, fun page hp => ?_, h.written⟩
  · have hnodup := h.nodup
    rw [hc, List.map_nil, List.nil_append] at hnodup
    refine hnodup.sublist ((List.Sublist.refl _).append ?_)
    rw [← List.take_append_drop chunkSize job.manifest, List.map_append]
    simp only [List.take_append_drop]
    exact (readChunk_ids (fun id page hd => (hlive.dirty id page hd).1) _).append
      (List.Sublist.refl _)
  · obtain ⟨id, -, hd⟩ := mem_readChunk.mp hp
    obtain ⟨hid, -⟩ := hlive.dirty id page hd
    subst hid
    exact ⟨⟨page, hd, Or.inl rfl⟩, fun lsn hf => ((hlive.flushed page.id lsn hf).2 page hd).1⟩

/-- A page of the chunk is written: readers find it in the dirty table still. -/
theorem Live.writeChunk (h : Live base view s) (hjob : JobLive s job) {page : Page}
    (hp : page ∈ job.chunk) (hplace : Placeable page.id) :
    Live base view { s with data := s.data.write page } := by
  obtain ⟨⟨q, hq, hnewer⟩, hfl⟩ := hjob.chunk page hp
  refine ⟨h.dirty, fun id hnone => ?_, h.start, fun id lsn hf => ?_⟩
  · have hne : page.id ≠ id := fun heq => by
      rw [← heq, hq] at hnone
      cases hnone
    rw [DataFile.read_write_of_ne _ hne]
    exact h.clean id hnone
  · by_cases heq : page.id = id
    · subst heq
      obtain ⟨hlt, hpage⟩ := h.flushed page.id lsn hf
      refine ⟨hlt, fun q' hq' => ⟨(hpage q' hq').1, fun hl => ?_⟩⟩
      rw [hq] at hq'
      cases hq'
      rcases hnewer with rfl | hnewer
      · exact DataFile.read_write_self hplace
      · have := hfl lsn hf
        omega
    · rw [DataFile.read_write_of_ne _ heq]
      exact h.flushed id lsn hf

theorem JobLive.write (h : JobLive s job) (hlive : Live base view s) {page : Page}
    {rest : List Page} (hc : job.chunk = page :: rest) (hplace : Placeable page.id) :
    JobLive { s with data := s.data.write page } { job with
      chunk := rest
      written := job.written ++ [(page.id, page.lsn)] } := by
  have hnodup := h.nodup
  rw [hc] at hnodup
  obtain ⟨⟨q, hq, hnewer⟩, -⟩ := h.chunk page (by simp [hc])
  refine ⟨h.inFlight, by simpa using hnodup, fun p hp => h.chunk p (by simp [hc, hp]),
    fun entry he => ?_⟩
  · rcases List.mem_append.mp he with he | he
    · have hne : page.id ≠ entry.1 := fun heq => by
        have := (List.nodup_append.mp hnodup).2.2 entry.1 (List.mem_map_of_mem he) page.id (by simp)
        exact this heq.symm
      rw [DataFile.read_write_of_ne _ hne]
      exact h.written entry he
    · rw [List.mem_singleton] at he
      subst he
      have hqlt := (hlive.dirty page.id q hq).2.2
      refine ⟨?_, fun p hp hl => ?_⟩
      · rcases hnewer with rfl | hnewer
        · exact hqlt
        · exact Nat.lt_trans hnewer hqlt
      · simp only at hp hl
        rw [hq] at hp
        cases hp
        rcases hnewer with rfl | hnewer
        · exact DataFile.read_write_self hplace
        · omega

/-- **One step of the checkpointer**, whatever it does. -/
theorem runStep_live {s₀ : DurableStore} (h : Live base view s₀) (hjob : JobLive s₀ job) :
    Meets (fun s => s = s₀) (runStep job)
      (fun job' s => Live base view s ∧ s.dirty = s₀.dirty ∧ JobLive s job')
      (fun _ _ => True) (fun _ => True) := by
  have hsegment : ∀ (f : Segment → Segment) (phase : RunPhase),
      Live base view (onWal (fun w => w.onSegment job.retired f) s₀) ∧
        JobLive (onWal (fun w => w.onSegment job.retired f) s₀) { job with phase := phase } :=
    fun f phase => ⟨h.congr (fun _ => rfl) rfl rfl (Nat.le_refl _),
      hjob.inFlight, hjob.nodup, hjob.chunk, hjob.written⟩
  unfold runStep
  cases hp : job.phase with
  | writing =>
    simp only
    cases hc : job.chunk with
    | cons page rest =>
      simp only
      unfold writeData
      refine Meets.bind (Q := fun _ s => Placeable page.id ∧
        s = { s₀ with data := s₀.data.write page }) ?_ fun _ => Meets.pure ?_
      · refine Meets.bind (Q := fun _ s => Placeable page.id ∧ s = s₀)
          (Meets.attempt (fun s hs offset ho => ⟨placeable_of_writeOffset ho, hs⟩)
            fun _ _ _ _ => trivial) fun _ => Meets.issue ?_
        rintro s ⟨hplace, rfl⟩
        exact ⟨trivial, hplace, rfl⟩
      · rintro s ⟨hplace, rfl⟩
        exact ⟨h.writeChunk hjob (by simp [hc]) hplace, rfl, hp ▸ hjob.write h hc hplace⟩
    | nil =>
      cases hm : job.manifest with
      | nil =>
        refine Meets.bind (Q := fun _ s => s = { s₀ with data := s₀.data.sync })
          (Meets.issue ?_) fun _ => Meets.pure ?_
        · rintro s rfl
          exact ⟨trivial, rfl⟩
        · rintro s rfl
          refine ⟨h.congr (fun id => DataFile.read_sync _ id) rfl rfl (Nat.le_refl _), rfl,
            hjob.inFlight, by simpa [hc, hm] using hjob.nodup, by simp, fun entry he => ?_⟩
          simp only [DataFile.read_sync]
          exact hjob.written entry he
      | cons entry entries =>
        refine Meets.bind (Q := fun dirty s => s = s₀ ∧ dirty = s₀.dirty)
          (Meets.read ?_) fun dirty => Meets.pure ?_
        · rintro s rfl
          exact ⟨rfl, rfl⟩
        · rintro s ⟨rfl, rfl⟩
          have := hjob.read h hc
          rw [hm] at this
          exact ⟨h, rfl, hp ▸ this⟩
  | dataSynced =>
    refine Meets.bind (Q := fun _ s => s = onWal (fun w => w.onSegment job.retired fun seg =>
      { seg with file := seg.file.stop }) s₀) (Meets.issue ?_) fun _ => Meets.pure ?_
    · rintro s rfl
      exact ⟨trivial, rfl⟩
    · rintro s rfl
      exact ⟨(hsegment _ .stopped).1, rfl, (hsegment _ .stopped).2⟩
  | stopped =>
    refine Meets.bind (Q := fun _ s => s = onWal (fun w => w.onSegment job.retired fun seg =>
      { seg with file := seg.file.sync }) s₀) (Meets.issue ?_) fun _ => Meets.pure ?_
    · rintro s rfl
      exact ⟨trivial, rfl⟩
    · rintro s rfl
      exact ⟨(hsegment _ .sealed).1, rfl, (hsegment _ .sealed).2⟩
  | sealed =>
    refine Meets.pure ?_
    rintro s rfl
    exact ⟨h, rfl, hjob⟩

/-! ## completing -/

theorem Forgets.refl (s : DurableStore) : Forgets s s :=
  ⟨rfl, Nat.le_refl _, fun _ _ h => h, fun _ _ hd hnone => (by rw [hd] at hnone; cases hnone),
    fun _ _ h => h⟩

theorem Forgets.trans {s₁ : DurableStore} (h : Forgets s s₁) (h' : Forgets s₁ s') :
    Forgets s s' := by
  refine ⟨h'.data.trans h.data, Nat.le_trans h.lsn h'.lsn,
    fun id page hd => h.dirty id page (h'.dirty id page hd), fun id page hd hnone => ?_,
    fun id lsn hf => h.flushed id lsn (h'.flushed id lsn hf)⟩
  cases hd₁ : s₁.dirty[id]? with
  | none =>
    rw [h'.data]
    exact h.removes id page hd hd₁
  | some q =>
    have := h.dirty id q hd₁
    rw [hd] at this
    cases this
    exact h'.removes id page hd₁ hnone

/-- One entry of the written pages leaves the tables. -/
theorem forgets_forgetWritten {entry : PageId × Nat}
    (hheld : ∀ page, s.dirty[entry.1]? = some page → page.lsn = entry.2 →
      s.data.read entry.1 = .ok (some page)) : Forgets s (s.forgetWritten entry) := by
  refine ⟨rfl, Nat.le_refl _, fun id page hd => ?_, fun id page hd hnone => ?_, fun id lsn hf => ?_⟩
  · simp only [forgetWritten] at hd
    split at hd
    · rw [getElem?_erase_page] at hd
      split at hd
      · cases hd
      · exact hd
    · exact hd
  · simp only [forgetWritten] at hnone
    split at hnone
    · next hany =>
      rw [getElem?_erase_page] at hnone
      split at hnone
      · next heq =>
        subst heq
        rw [hd, Option.any_some, beq_iff_eq] at hany
        exact hheld page hd hany
      · rw [hd] at hnone
        cases hnone
    · rw [hd] at hnone
      cases hnone
  · simp only [forgetWritten] at hf
    split at hf
    · rw [getElem?_erase_page] at hf
      split at hf
      · cases hf
      · exact hf
    · exact hf

/-- All of them leave. -/
theorem forgets_foldl (entries : List (PageId × Nat))
    (hheld : ∀ entry ∈ entries, ∀ page, s.dirty[entry.1]? = some page → page.lsn = entry.2 →
      s.data.read entry.1 = .ok (some page)) : Forgets s (entries.foldl forgetWritten s) := by
  induction entries generalizing s with
  | nil => exact Forgets.refl s
  | cons entry entries ih =>
    have hone := forgets_forgetWritten (hheld entry List.mem_cons_self)
    refine hone.trans (ih fun e he page hd hl => ?_)
    rw [hone.data]
    exact hheld e (List.mem_cons_of_mem entry he) page (hone.dirty _ _ hd) hl

/-- **`complete_background_checkpoint`** takes pages out of the dirty table where
the data file holds them, and nowhere else. -/
theorem complete_live {s₀ : DurableStore} (h : Live base view s₀) (hjob : JobLive s₀ job) :
    Live base view (completeBackgroundCheckpoint job s₀).state ∧
      Removes s₀ (completeBackgroundCheckpoint job s₀).state := by
  have hinner : Meets (fun s => s = s₀) (completeBackgroundCheckpointInner job)
      (fun _ => Forgets s₀) (fun _ => Forgets s₀) (fun _ => True) := by
    unfold completeBackgroundCheckpointInner finishRecycle
    refine Meets.bind (Q := fun _ => LogOnly s₀) ?_ fun _ => Meets.update fun s hs => ?_
    · refine Meets.bind (Q := fun wal s => s = s₀) (Meets.read fun s hs => hs) fun wal => ?_
      cases wal.retired with
      | none => exact Meets.fail fun s hs => hs ▸ Forgets.refl s₀
      | some retired =>
        refine Meets.update ?_
        rintro s rfl
        exact ⟨rfl, rfl, rfl, rfl, Nat.le_refl _⟩
    · have hlog : Forgets s₀ s := ⟨hs.data, hs.lsn, fun id page hd => by rwa [hs.dirty] at hd,
        fun id page hd hnone => (by rw [hs.dirty, hd] at hnone; cases hnone),
        fun id lsn hf => by rwa [hs.flushed] at hf⟩
      refine hlog.trans (forgets_foldl job.written fun entry he page hd hl => ?_)
      rw [hs.data]
      exact (hjob.written entry he).2 page (by rwa [hs.dirty] at hd) hl
  have hforgets : Forgets s₀ (poisonOnError (completeBackgroundCheckpointInner job) s₀).state := by
    have hmeets := poisonOnError_meets (F := fun _ => Forgets s₀) hinner fun _ s hs =>
      ⟨hs.data, hs.lsn, hs.dirty, hs.removes, hs.flushed⟩
    cases hr : (poisonOnError (completeBackgroundCheckpointInner job) s₀).result with
    | ok a => exact hmeets.ok rfl hr
    | error e => exact hmeets.error rfl hr
  have hdone : Forgets s₀ (completeBackgroundCheckpoint job s₀).state :=
    ⟨hforgets.data, hforgets.lsn, hforgets.dirty, hforgets.removes, hforgets.flushed⟩
  exact ⟨h.forgets hdone, hdone.removes⟩

/-! ## opening -/

/-- Nothing is dirty: readers find the data file. -/
def Quiet (s : DurableStore) : Prop :=
  (∀ id : PageId, s.dirty[id]? = none) ∧ ∀ id : PageId, s.flushed[id]? = none

theorem finds_payloadOf (found : Except StorageError (Option Page)) :
    Finds found found (payloadOf found) := by
  cases found with
  | error e => rfl
  | ok found =>
    cases found with
    | none => rfl
    | some page => exact ⟨page, rfl, rfl⟩

/-- Whatever readers find now can be taken for the start. -/
theorem Live.rebase (h : Live base view s) :
    Live s.readPage (fun id => payloadOf (s.readPage id)) s := by
  refine ⟨fun id page hd => ?_, fun id hnone => ?_, fun id hnone => hnone, h.flushed⟩
  · obtain ⟨hid, -, hlt⟩ := h.dirty id page hd
    exact ⟨hid, by simp [readPage, hd, payloadOf], hlt⟩
  · have hread : s.readPage id = s.data.read id := by simp [readPage, hnone]
    rw [hread]
    exact finds_payloadOf _

theorem Quiet.live (h : Quiet s) : Live s.data.read (fun id => payloadOf (s.data.read id)) s := by
  refine ⟨fun id page hd => ?_, fun id _ => finds_payloadOf _, fun id hnone => hnone,
    fun id lsn hf => ?_⟩
  · rw [h.1 id] at hd
    cases hd
  · rw [h.2 id] at hf
    cases hf

/-- Recovery dirties nothing. -/
theorem recover_quiet {E : StorageError → DurableStore → Prop} (hE : ∀ e s, E e s) :
    Meets Quiet recover (fun _ => Quiet) E (fun _ => True) := by
  unfold recover
  refine Meets.bind (Q := fun _ => Quiet) (Meets.attempt (fun s hs _ _ => hs) fun _ _ _ _ => hE _ _)
    fun records => ?_
  refine Meets.bind (Q := fun _ => Quiet) (Meets.forEach (I := fun _ _ => Quiet)
    fun _ write _ _ _ => ?_) fun wrote => Meets.when (fun _ => Meets.issue fun s hs =>
      ⟨trivial, hs⟩) fun _ s hs => hs
  unfold replayWrite writeData
  refine Meets.bind (Q := fun _ => Quiet) (Meets.attempt (fun s hs _ _ => hs) fun _ _ _ _ => hE _ _)
    fun current => ?_
  refine Meets.ite (fun _ => Meets.pure fun s hs => hs) fun _ => ?_
  refine Meets.bind (Q := fun _ => Quiet) (Meets.attempt (fun s hs _ _ => hs) fun _ _ _ _ => hE _ _)
    fun page => ?_
  refine Meets.bind (Q := fun _ => Quiet) ?_ fun _ => Meets.pure fun s hs => hs
  exact Meets.bind (Q := fun _ => Quiet) (Meets.attempt (fun s hs _ _ => hs)
    fun _ _ _ _ => hE _ _) fun _ => Meets.issue fun s hs => ⟨trivial, hs⟩

/-- **`DurableStore::open`** on any disk leaves a store that readers can use. -/
theorem open_live (order : HashOrder) (d : Disk) (h : («open» order d).result = .ok ()) :
    Live («open» order d).state.readPage
      (fun id => payloadOf ((«open» order d).state.readPage id)) («open» order d).state := by
  suffices hmeets : Meets Quiet (openAttached order (Wal.attach d.segments).2)
      (fun _ s => ∃ base view, Live base view s) (fun _ _ => True) (fun _ => True) by
    obtain ⟨base, view, hlive⟩ := hmeets.ok (s := attach d)
      ⟨fun id => by simp [attach], fun id => by simp [attach]⟩ h
    exact hlive.rebase
  unfold openAttached repairLog scanAndRepair
  refine Meets.bind (Q := fun _ => Quiet) (Meets.bind (Q := fun _ => Quiet)
    (Meets.issue fun s hs => ⟨trivial, hs⟩) fun _ => Meets.issue fun s hs => ⟨trivial, hs⟩)
    fun _ => ?_
  refine Meets.bind (Q := fun _ => Quiet) ?_ fun _ => ?_
  · cases (Wal.attach d.segments).2 with
    | none => exact Meets.pure fun s hs => hs
    | some i =>
      unfold sealGarbage sealAndSync sealFile
      exact Meets.bind (Q := fun _ => Quiet) (Meets.bind (Q := fun _ => Quiet)
        (Meets.issue fun s hs => ⟨trivial, hs⟩) fun _ => Meets.issue fun s hs => ⟨trivial, hs⟩)
        fun _ => Meets.update fun s hs => hs
  refine Meets.bind (recover_quiet fun _ _ => trivial) fun _ => ?_
  refine Meets.bind (Q := fun _ => Quiet)
    (Meets.attempt (fun s hs _ _ => hs) fun _ _ _ _ => trivial)
    fun maximum => ?_
  refine Meets.bind (Q := fun _ => Quiet) ?_ fun _ => ?_
  · unfold ensureNextLsnAfter
    refine Meets.bind (Q := fun _ => Quiet) (Meets.read fun s hs => hs) fun wal => ?_
    exact Meets.ite (fun _ => Meets.fail fun _ _ => trivial) fun _ => Meets.update fun s hs => hs
  refine Meets.bind (Q := fun _ => Quiet)
    (Meets.attempt (fun s hs _ _ => hs) fun _ _ _ _ => trivial)
    fun next => ?_
  refine Meets.bind (Q := fun _ => Quiet) (Meets.update fun s hs => hs) fun _ => ?_
  refine Meets.bind (Q := fun _ => Quiet) (Meets.update fun s hs => hs) fun _ => ?_
  refine Meets.bind (Q := fun _ => Quiet) (Meets.read fun s hs => hs) fun wal => ?_
  -- the checkpoint after a crash mid-rotation finds nothing dirty
  refine Meets.when (fun _ => Meets.of_state fun s₁ hq => ?_) fun _ s hs => ⟨_, _, hs.live⟩
  exact Meets.bind (Q := fun _ s => ∃ base view, Live base view s)
    ((checkpoint_live hq.live order).conseq (fun _ h => h) (fun _ _ hs => ⟨_, _, hs.1⟩)
      (fun _ _ _ => trivial) fun _ h => h) fun _ => Meets.pure fun s hs => hs

/-! ## runs -/

/-- A step of a store that stays up: a call, or a step of the background
checkpoint, which may be given up at any point. -/
inductive Serves : DurableStore × Option BackgroundCheckpoint → Label →
    DurableStore × Option BackgroundCheckpoint → Prop where
  | returned {s : DurableStore} {job : Option BackgroundCheckpoint} (call : Call)
      (h : (call.prog s).result = .ok ()) :
      Serves (s, job) (.returned call) ((call.prog s).state, job)
  | failed {s : DurableStore} {job : Option BackgroundCheckpoint} (call : Call) (e : StorageError)
      (h : (call.prog s).result = .error e) :
      Serves (s, job) (.failed call) ((call.prog s).state, job)
  | began {s : DurableStore} (order : HashOrder) (job : BackgroundCheckpoint)
      (h : (beginBackgroundCheckpoint order s).result = .ok job) :
      Serves (s, none) .began ((beginBackgroundCheckpoint order s).state, some job)
  | refused {s : DurableStore} {job : Option BackgroundCheckpoint} (order : HashOrder)
      (e : StorageError) (h : (beginBackgroundCheckpoint order s).result = .error e) :
      Serves (s, job) .began ((beginBackgroundCheckpoint order s).state, job)
  | ran {s : DurableStore} {job : BackgroundCheckpoint} (job' : BackgroundCheckpoint)
      (h : (runStep job s).result = .ok job') :
      Serves (s, some job) .ran ((runStep job s).state, some job')
  | completed {s : DurableStore} {job : BackgroundCheckpoint} (hp : job.phase = .sealed) :
      Serves (s, some job) .completed ((completeBackgroundCheckpoint job s).state, none)
  | aborted {s : DurableStore} {job : BackgroundCheckpoint} :
      Serves (s, some job) .aborted (abortBackgroundCheckpoint s, none)

/-- The runs of an open store, the labels newest first. -/
inductive Serving (start : DurableStore) : List Label →
    DurableStore × Option BackgroundCheckpoint → Prop where
  | start : Serving start [] (start, none)
  | step {labels : List Label} {node node' : DurableStore × Option BackgroundCheckpoint}
      {label : Label} (hrun : Serving start labels node) (hstep : Serves node label node') :
      Serving start (label :: labels) node'

/-- Readers see what was applied, and the checkpoint in progress is in order. -/
def ServesLive (base : PageId → Except StorageError (Option Page)) (view : PageId → Option Bytes)
    (node : DurableStore × Option BackgroundCheckpoint) : Prop :=
  Live base view node.1 ∧ ∀ job, node.2 = some job → JobLive node.1 job

/-- **One step**: the batches it applies are seen, and no page leaves the dirty
table that the data file does not hold. -/
theorem ServesLive.step {node node' : DurableStore × Option BackgroundCheckpoint} {label : Label}
    {l : Ledger} (h : ServesLive base (viewAfter view l.batches) node)
    (hstep : Serves node label node') :
    Removes node.1 node'.1 ∧ ∃ l', l.Next label l' ∧
      ServesLive base (viewAfter view l'.batches) node' := by
  obtain ⟨hlive, hjob⟩ := h
  cases hstep with
  | returned call hok =>
    obtain ⟨hlive', hstable⟩ := (call_live hlive call).ok rfl hok
    refine ⟨hstable.removes, _, .returned l call, ?_, fun job hj => ?_⟩
    · rw [viewAfter_append]
      exact hlive'
    · exact (hjob job hj).moves hlive (hstable.moves (hjob job hj).inFlight)
  | failed call e herr =>
    obtain ⟨count, hcount, hlive', hstable⟩ := (call_live hlive call).error rfl herr
    refine ⟨hstable.removes, _, .failed l call count hcount, ?_, fun job hj => ?_⟩
    · rw [viewAfter_append]
      exact hlive'
    · exact (hjob job hj).moves hlive (hstable.moves (hjob job hj).inFlight)
  | began order job hok =>
    obtain ⟨-, -, hs, rfl⟩ := (begin_meets _ order).ok rfl hok
    refine ⟨fun id page hd hnone => ?_, l, .began l, ?_⟩
    · simp only [hs] at hnone
      exact absurd (hd.symm.trans hnone) (by simp)
    · simp only [hs]
      refine ⟨hlive.rotated, fun job hj => ?_⟩
      cases hj
      exact JobLive.begin _ order
  | refused order e herr =>
    have hs := (begin_meets _ order).error rfl herr
    refine ⟨fun id page hd hnone => ?_, l, .began l, ?_⟩
    · simp only [hs] at hnone
      exact absurd (hd.symm.trans hnone) (by simp)
    · simp only [hs]
      exact ⟨hlive, hjob⟩
  | ran job' hok =>
    obtain ⟨hlive', hdirty, hjob'⟩ := (runStep_live hlive (hjob _ rfl)).ok rfl hok
    refine ⟨fun id page hd hnone => ?_, l, .ran l, hlive', fun job hj => ?_⟩
    · simp only [hdirty] at hnone
      exact absurd (hd.symm.trans hnone) (by simp)
    · cases hj
      exact hjob'
  | completed hp =>
    obtain ⟨hlive', hremoves⟩ := complete_live hlive (hjob _ rfl)
    exact ⟨hremoves, l, .completed l, hlive', fun job hj => by cases hj⟩
  | aborted =>
    refine ⟨fun id page hd hnone => ?_, l, .aborted l, ?_, fun job hj => by cases hj⟩
    · exact absurd (hd.symm.trans hnone) (by simp)
    · exact hlive.congr (fun _ => rfl) rfl rfl (Nat.le_refl _)

/-- **Whole runs**. -/
theorem Serving.live {start : DurableStore} (hstart : Live base view start) {labels : List Label}
    {node : DurableStore × Option BackgroundCheckpoint} (hrun : Serving start labels node) :
    ∃ l, Ledger.Runs labels l ∧ ServesLive base (viewAfter view l.batches) node := by
  induction hrun with
  | start => exact ⟨{}, .start, hstart, fun job hj => by cases hj⟩
  | step hrun hstep ih =>
    obtain ⟨l, hruns, hlive⟩ := ih
    obtain ⟨-, l', hnext, hlive'⟩ := hlive.step hstep
    exact ⟨l', .step hruns hnext, hlive'⟩

/-- **Readers always see the latest applied page.**  In every state of every run
of an open store, a reader of any page finds the payload that the batches
applied so far have given it (or what it found when the store was opened, if
none has touched it), and no step takes a page out of the dirty table unless the
data file holds that very page. -/
theorem readers_see_applied_batches {order : HashOrder} {d : Disk}
    (hopen : («open» order d).result = .ok ()) {labels : List Label}
    {node : DurableStore × Option BackgroundCheckpoint}
    (hrun : Serving («open» order d).state labels node) :
    ∃ l, Ledger.Runs labels l ∧
      (∀ id, Finds (node.1.readPage id) ((«open» order d).state.readPage id)
        (viewAfter (fun id => payloadOf ((«open» order d).state.readPage id)) l.batches id)) ∧
      ∀ label node', Serves node label node' → Removes node.1 node'.1 := by
  obtain ⟨l, hruns, hlive⟩ := Serving.live (open_live order d hopen) hrun
  exact ⟨l, hruns, fun id => hlive.1.finds id, fun label node' hstep => (hlive.step hstep).1⟩

def firstAppend : Call := .appendPages .sorted [⟨7, 0, [65, 66], false⟩]

def secondAppend : Call := .appendPages .sorted [⟨7, 2, [67, 68], false⟩]

/-- A store whose background checkpoint has read its only page. -/
def chunkRead : DurableStore × BackgroundCheckpoint :=
  let s := (firstAppend.prog fresh).state
  runSteps 1
    ((beginBackgroundCheckpoint .sorted s).state,
      jobOf (beginBackgroundCheckpoint .sorted s).result)

/-- The page grows, and then the checkpoint writes it as it was. -/
def staleWritten : DurableStore × BackgroundCheckpoint :=
  runSteps 1 ((secondAppend.prog chunkRead.1).state, chunkRead.2)

theorem readers_see_applied_batches_stale_write :
    staleWritten.1.data.read 7 = .ok (some ⟨7, 1, [65, 66], by decide⟩) ∧
      ∃ page, staleWritten.1.readPage 7 = .ok (some page) ∧ page.payload = [65, 66, 67, 68] := by
  refine ⟨by decide +kernel, ?_⟩
  have hread : Serving fresh [.ran, .began, .returned firstAppend]
    (chunkRead.1, some chunkRead.2) :=
    .step (.step (.step .start (.returned firstAppend (by decide +kernel)))
      (.began .sorted _ (eq_ok_jobOf (by decide +kernel))))
      (.ran _ (eq_ok_jobOf (by decide +kernel)))
  have hrun : Serving fresh [.ran, .returned secondAppend, .ran, .began, .returned firstAppend]
      (staleWritten.1, some staleWritten.2) :=
    .step (.step hread (.returned secondAppend (by decide +kernel)))
      (.ran _ (eq_ok_jobOf (by decide +kernel)))
  obtain ⟨l, hl, hfinds, -⟩ := readers_see_applied_batches (by decide +kernel) hrun
  have hfound := hfinds 7
  rw [hl.eq_of_plain rfl] at hfound
  exact hfound

end QuantaDb
