import QuantaDb.Storage.Loops

/-!
# QuantaDb.Storage.Batches

Logging and publishing a batch: `write_pages`, `append_pages` and
`apply_batch` keep the invariants, add their batch to the history, and leave a
disk that a power failure cannot take back behind the durable batches.

The page records of a batch are logged by one loop (`logChanges_meets`), closed
by its commit record (`commit_meets`), and only then published; so up to the
commit record a crash drops the batch, and behind it a crash may keep it.
-/

namespace QuantaDb

open Redo Crash

variable {mode : Mode} {H : History} {n : Nat} {b G : List CommittedWrite} {X : List PageId}

/-- The invariant of a store between two calls: it was given the history `H`, of
which the first `n` batches are durable. -/
structure Inv (mode : Mode) (H : History) (n : Nat) (s : DurableStore) : Prop where
  log : LogInv mode H n [] s
  mem : MemInv mode H.flatten [] s

open DurableStore

/-- A change with its number. -/
def Change.numbered (c : Change) (lsn : Nat) : CommittedWrite :=
  ⟨lsn, c.pageId, c.payload, c.appendAt⟩

variable {w : CommittedWrite}

/-- The numbered changes of a batch that can be read back. -/
theorem CommittedWrite.loggable_of_mem {changes : List Change}
    (hchg : b.map CommittedWrite.change = changes) (hlog : ∀ c ∈ changes, c.Loggable) (hw : w ∈ b) :
    w.change.Loggable :=
  hlog _ (hchg ▸ List.mem_map_of_mem hw)

variable {s : DurableStore}

/-- The log behind whatever is left of the other segment, or behind nothing. -/
theorem LogInv.tail_of_left (h : LogInv mode H n b s) {E : List WalRecord}
    (hE : E = [] ∨ s.spareFile.Leaves E) :
    ∃ L, Tail H n b (E ++ s.activeFile.synced) s.activeFile.written L := by
  rcases hE with rfl | hE
  · exact h.alone
  · obtain ⟨L, hv⟩ := h.views E hE
    exact ⟨L, hv.tail⟩

/-! ## what a batch leaves alone -/

/-- From `s₀` to `s`, the batches `bs` were logged and published, and nothing else
happened that a background checkpoint could notice. -/
structure Frame (s₀ : DurableStore) (bs : History) (s : DurableStore) : Prop where
  data : s.data = s₀.data
  active : s.wal.active = s₀.wal.active
  retired : s.wal.retired = s₀.wal.retired
  spare : s.wal.segments s.wal.spare = s₀.wal.segments s₀.wal.spare
  inFlight : s.checkpointInFlight = s₀.checkpointInFlight
  flushed : s.flushed = s₀.flushed
  lsn : s₀.wal.nextLsn ≤ s.wal.nextLsn
  lsns : ∀ w ∈ bs.flatten, s₀.wal.nextLsn ≤ w.lsn
  dirty : ∀ id, onPage id bs.flatten = [] → s.dirty[id]? = s₀.dirty[id]?
  stays : ∀ id : PageId, s₀.dirty[id]? ≠ none → s.dirty[id]? ≠ none
  /-- behind whatever is left of the other segment -/
  reads : ∀ E L, (E = [] ∨ s₀.spareFile.Leaves E) →
    Reads (E ++ s₀.activeFile.synced ++ s₀.activeFile.written) L →
      Reads (E ++ s.activeFile.synced ++ s.activeFile.written) (L ++ bs)

variable {s₀ : DurableStore}

theorem Frame.spareFile {bs : History} (h : Frame s₀ bs s) :
    s.spareFile = s₀.spareFile := by
  rw [DurableStore.spareFile, h.spare, DurableStore.spareFile]

theorem Frame.refl (s : DurableStore) : Frame s [] s :=
  ⟨rfl, rfl, rfl, rfl, rfl, rfl, Nat.le_refl _, by simp, fun _ _ => rfl,
    fun _ hd => hd, fun E L _ hL => by rw [List.append_nil]; exact hL⟩

theorem Frame.trans {s₁ s₂ : DurableStore} {bs₁ bs₂ : History} (h₁ : Frame s₀ bs₁ s₁)
    (h₂ : Frame s₁ bs₂ s₂) : Frame s₀ (bs₁ ++ bs₂) s₂ := by
  refine ⟨h₂.data.trans h₁.data, h₂.active.trans h₁.active, h₂.retired.trans h₁.retired,
    h₂.spare.trans h₁.spare, h₂.inFlight.trans h₁.inFlight, h₂.flushed.trans h₁.flushed,
    Nat.le_trans h₁.lsn h₂.lsn, fun w hw => ?_, fun id hid => ?_,
    fun id hd => h₂.stays id (h₁.stays id hd), fun E L hE hL => ?_⟩
  · rw [List.flatten_append, List.mem_append] at hw
    rcases hw with hw | hw
    · exact h₁.lsns w hw
    · exact Nat.le_trans h₁.lsn (h₂.lsns w hw)
  · rw [List.flatten_append, onPage_append, List.append_eq_nil_iff] at hid
    exact (h₂.dirty id hid.2).trans (h₁.dirty id hid.1)
  · rw [← List.append_assoc]
    exact h₂.reads E _ (h₁.spareFile ▸ hE) (h₁.reads E L hE hL)

/-- A record that is not a checkpoint leaves the rest of the store alone. -/
theorem Frame.push {bs bs' : History} (h : Frame s₀ bs s) (kind : WalKind)
    (hlsns : ∀ w ∈ bs'.flatten, s₀.wal.nextLsn ≤ w.lsn)
    (hpages : ∀ id, onPage id bs'.flatten = [] → onPage id bs.flatten = [])
    (hreads : ∀ E L, (E = [] ∨ s.spareFile.Leaves E) →
      Reads (E ++ s.activeFile.synced ++ s.activeFile.written) (L ++ bs) →
      Reads (E ++ s.activeFile.synced ++ (s.activeFile.written ++ [⟨s.wal.nextLsn, kind⟩]))
        (L ++ bs')) : Frame s₀ bs' (s.push kind) := by
  refine ⟨h.data, h.active, h.retired, (s.spareSegment_push kind).trans h.spare, h.inFlight,
    h.flushed, Nat.le_succ_of_le h.lsn, hlsns, fun id hid => h.dirty id (hpages id hid), h.stays,
    fun E L hE hL => ?_⟩
  rw [activeFile_push]
  exact hreads E L (h.spareFile ▸ hE) (h.reads E L hE hL)

theorem Inv.synced (h : Inv mode H n s) : Inv mode H H.length s.synced :=
  ⟨h.log.sync, h.mem.synced h.log.open_⟩

theorem Frame.synced {bs : History} (h : Frame s₀ bs s) (ho : s.activeFile.stopped = false) :
    Frame s₀ bs s.synced := by
  refine { h with
    spare := s.spareSegment_synced.trans h.spare
    reads := fun E L hE hL => ?_ }
  have hfile : s.synced.activeFile.synced ++ s.synced.activeFile.written =
      s.activeFile.synced ++ s.activeFile.written := by
    simp [SegmentFile.sync, SegmentFile.stored, ho]
  rw [List.append_assoc, hfile, ← List.append_assoc]
  exact h.reads E L hE hL

theorem Reads.push_write {records : List WalRecord} {L : History} (h : Reads records L)
    (w : CommittedWrite) : Reads (records ++ [⟨w.lsn, w.kind⟩]) L := by
  obtain ⟨pending, h⟩ := h
  exact ⟨pending ++ [w], by rw [scan_concat, h, Option.bind_some, Scan.step_write]⟩

/-! ## logging -/

/-- The state of a batch being logged: the page records `b` are in the log. -/
structure Logging (mode : Mode) (H : History) (n : Nat) (s₀ : DurableStore)
    (changes : List Change) (lsns : List Nat) (b : List CommittedWrite) (s : DurableStore) :
    Prop where
  log : LogInv mode H n b s
  mem : MemInv mode H.flatten [] s
  frame : Frame s₀ [] s
  logged : ∀ id, s₀.Logged id → s.Logged id
  changes : b.map CommittedWrite.change = changes
  lsns : b.map CommittedWrite.lsn = lsns
  small : ∀ w ∈ b, w.payload.length ≤ maxPagePayload
  after : ∀ w ∈ b, s₀.wal.nextLsn ≤ w.lsn

/-- **Logging the page records of a batch.**  Whatever the log keeps of them, they
are not committed yet. -/
theorem logChanges_meets {α : Type} (hinv : Inv mode H n s₀) (items : List α)
    (change : α → Change) (log : α → StoreM Nat) {batches : List Batch}
    (hlog : ∀ a, log a = if maxPagePayload < (change a).payload.length
      then Prog.fail (.pageTooLarge (change a).payload.length maxPagePayload)
      else append ((change a).numbered 0).kind) (hloggable : ∀ a ∈ items, (change a).Loggable)
    (hp : H.given <+: batches) :
    Meets (fun s => s = s₀) (Prog.forEach items log)
      (fun lsns s => ∃ b, Logging mode H n s₀ (items.map change) lsns b s)
      (fun _ s => Inv mode H n s ∧ Frame s₀ [] s) (Keeps mode batches n) := by
  refine (logLoop_meets (I := fun done lsns s =>
    ∃ b, Logging mode H n s₀ (done.map change) lsns b s) hlog ?_ ?_).pre ?_
  · rintro done a lsns s ha ⟨b, h⟩ hlen hlsn
    have hinv : LogInv mode H n (b ++ [(change a).numbered s.wal.nextLsn])
        (s.push ((change a).numbered 0).kind) :=
      h.log.push_write (w := (change a).numbered s.wal.nextLsn)
        (hloggable a ha).readable rfl hlsn
    have hk : ((change a).numbered 0).kind ≠ .checkpoint :=
      CommittedWrite.kind_ne_checkpoint _
    refine ⟨hinv.keeps hp, _, hinv, h.mem.push hk, ?_, fun id hl => (h.logged id hl).push hk,
      ?_, ?_, ?_, ?_⟩
    · refine h.frame.push _ (by simp) (fun _ h => h) fun E L _ hL => ?_
      rw [← List.append_assoc]
      exact hL.push_write ((change a).numbered s.wal.nextLsn)
    · simp only [List.map_append, h.changes, List.map_cons, List.map_nil]
      rfl
    · simp only [List.map_append, h.lsns, List.map_cons, List.map_nil]
      rfl
    · exact List.forall_mem_append.mpr ⟨h.small, by simpa [Change.numbered] using hlen⟩
    · exact List.forall_mem_append.mpr ⟨h.after, by simpa [Change.numbered] using h.frame.lsn⟩
  · rintro done lsns s e ⟨b, h⟩
    refine ⟨⟨⟨h.log.forget, h.mem⟩, h.frame⟩, fun hlsn => ⟨⟨h.log.forget.skip hlsn,
      h.mem.congr rfl rfl rfl rfl rfl fun _ hl => hl⟩, ?_⟩⟩
    exact { h.frame with lsn := Nat.le_succ_of_le h.frame.lsn }
  · rintro s rfl
    exact ⟨[], hinv.log, hinv.mem, Frame.refl s, fun _ hl => hl, rfl, rfl, by simp, by simp⟩

/-- The store has logged the batch `b` on top of `H` and not published it. -/
structure Committed (mode : Mode) (H : History) (n : Nat) (s₀ : DurableStore)
    (b : List CommittedWrite) (s : DurableStore) : Prop where
  log : LogInv mode (H ++ [b]) n [] s
  mem : MemInv mode H.flatten [] s
  frame : Frame s₀ [b] s
  logged : ∀ w ∈ b, s.Logged w.pageId

/-- **The commit record** makes the batch part of the history. -/
theorem commit_meets {changes : List Change} {lsns : List Nat}
    (hloggable : ∀ c ∈ changes, c.Loggable) (hfits : ∀ w ∈ b, w.Fits)
    (htear : ∀ w ∈ b, TearOk mode H.flatten s₀ w) :
    Meets (Logging mode H n s₀ changes lsns b) (appendBatchCommit changes.length)
      (fun _ s => Committed mode H n s₀ b s)
      (fun _ s => Inv mode H n s ∧ Frame s₀ [] s) (Keeps mode (H.given ++ [changes]) n) := by
  unfold appendBatchCommit
  refine Meets.bind (Q := fun _ => Logging mode H n s₀ changes lsns b)
    (Meets.read fun s hs => hs) fun wal => ?_
  have hgive : ∀ s, Logging mode H n s₀ changes lsns b s → Inv mode H n s ∧ Frame s₀ [] s :=
    fun s h => ⟨⟨h.log.forget, h.mem⟩, h.frame⟩
  refine Meets.ite (fun _ => Meets.fail hgive) fun _ => Meets.ite (fun _ => Meets.fail hgive)
    fun hlen => append_meets _ ?_ ?_
  · intro s h hlsn
    have hbl : b.length = changes.length := by rw [← h.changes, List.length_map]
    rw [← hbl] at hlen ⊢
    have hplace : ∀ w ∈ b, Placeable w.pageId := fun w hw =>
      (CommittedWrite.loggable_of_mem h.changes hloggable hw).1
    have hlog := h.log.push_commit (by omega) hlsn hplace hfits fun w hw ht => by
      rcases htear w hw ht with himg | hnew | hlogged
      · exact Or.inl himg
      · exact Or.inr (Or.inl hnew)
      · exact Or.inr (Or.inr (h.logged _ hlogged))
    refine ⟨hlog.keeps ?_, hlog, h.mem.push (by simp), ?_, fun w hw => hlog.logged h.log.durable hw⟩
    · simp [History.given, h.changes]
    · refine h.frame.push _ (fun w hw => h.after w (by simpa using hw)) (fun _ _ => rfl)
        fun E L hE hL => ?_
      obtain ⟨La, ha⟩ := h.log.tail_of_left hE
      obtain ⟨pending, hall, -⟩ := ha.all
      obtain ⟨pending', hall', -⟩ := (ha.commit h.log.durable (by omega) s.wal.nextLsn).all
      rw [List.append_nil] at hL
      rw [hL.unique ⟨pending, hall⟩, List.append_assoc La,
        ← List.drop_append_of_le_length h.log.durable]
      exact ⟨pending', hall'⟩
  · intro s e h _
    refine ⟨hgive s h, fun hlsn => ⟨⟨h.log.forget.skip hlsn,
      h.mem.congr rfl rfl rfl rfl rfl fun _ hl => hl⟩, ?_⟩⟩
    exact { h.frame with lsn := Nat.le_succ_of_le h.frame.lsn }

theorem Committed.synced (h : Committed mode H n s₀ b s) :
    Committed mode H (H.length + 1) s₀ b s.synced := by
  have hlog := h.log.sync
  rw [List.length_append, List.length_singleton] at hlog
  exact ⟨hlog, h.mem.synced h.log.open_, h.frame.synced h.log.open_,
    fun w hw => (h.logged w hw).synced h.log.open_⟩

/-- How many batches are durable once the log sync, if any, has run. -/
def durableAfter (durable : Bool) (H : History) (n : Nat) : Nat :=
  if durable then H.length + 1 else n

theorem syncIfDurable_meets (durable : Bool) {m : Nat} (hm : m ≤ n)
    {E : StorageError → DurableStore → Prop} {batches : List Batch}
    (hp : (H ++ [b]).given <+: batches) :
    Meets (Committed mode H n s₀ b) (Prog.when durable syncWal)
      (fun _ s => Committed mode H (durableAfter durable H n) s₀ b s) E (Keeps mode batches m) := by
  refine Meets.when (fun hd => syncWal_meets fun s h => ?_) fun hd s h => ?_
  · have hs := h.synced
    have hdur := h.log.durable
    rw [List.length_append, List.length_singleton] at hdur
    exact ⟨(hs.log.keeps hp).mono (List.prefix_refl _) (by omega),
      by rw [durableAfter, if_pos hd]; exact hs⟩
  · simpa [durableAfter, hd] using h

/-! ## publishing -/

/-- The store has published the part `done` of the logged batch `b`. -/
structure Publishing (mode : Mode) (H : History) (n : Nat) (s₀ : DurableStore)
    (b done : List CommittedWrite) (s : DurableStore) : Prop where
  log : LogInv mode (H ++ [b]) n [] s
  mem : MemInv mode (H.flatten ++ done) [] s
  frame : Frame s₀ [b] s
  logged : ∀ w ∈ b, s.Logged w.pageId

theorem Committed.publishing (h : Committed mode H n s₀ b s) :
    Publishing mode H n s₀ b [] s :=
  ⟨h.log, by simpa using h.mem, h.frame, h.logged⟩

theorem Publishing.inv (h : Publishing mode H n s₀ b b s) :
    Inv mode (H ++ [b]) n s ∧ Frame s₀ [b] s :=
  ⟨⟨h.log, by simpa using h.mem⟩, h.frame⟩

/-- One page of the batch enters the dirty table. -/
theorem Publishing.publish {s' : DurableStore} {done done' : List CommittedWrite}
    (h : Publishing mode H n s₀ b done s) (page : Page) (hw : w ∈ b) (hid : w.pageId = page.id)
    (hother : ∀ id, page.id ≠ id → onPage id done' = onPage id done)
    (himg : imageOf (onPage page.id (H.flatten ++ done')) = some page.stamped)
    (hnew : covers (imageOf (onPage page.id (H.flatten ++ done))) page.lsn = false)
    (hd : s'.data = s.data) (hwal : s'.wal = s.wal)
    (hdirty : s'.dirty = s.dirty.insert page.id page) (hf : s'.flushed = s.flushed)
    (hc : s'.checkpointInFlight = s.checkpointInFlight)
    (hq : ∀ id ∈ s.flushQueue, id ∈ s'.flushQueue)
    (ho : ∀ id, page.id ≠ id → id ∈ s.openPages → id ∈ s'.openPages)
    (hin : page.id ∈ s'.flushQueue ∨ page.id ∈ s'.openPages) :
    Publishing mode H n s₀ b done' s' := by
  have hlogged : ∀ id, s.Logged id → s'.Logged id := fun id hl => by
    simpa [DurableStore.Logged, DurableStore.activeFile, hwal] using hl
  refine ⟨h.log.congr hd (by rw [hwal]) (by rw [hwal]) (by rw [hwal]) (fun _ hi => by rw [hc, hi]),
    h.mem.publish (fun id hne => ?_) himg hnew (fun _ => hid ▸ h.logged w hw) hd hwal hdirty hf hq
      ho hin, ?_, fun v hv => hlogged _ (h.logged v hv)⟩
  · rw [onPage_append, onPage_append, hother id hne]
  · refine { h.frame with
      data := hd.trans h.frame.data
      active := by rw [hwal]; exact h.frame.active
      retired := by rw [hwal]; exact h.frame.retired
      spare := by rw [hwal]; exact h.frame.spare
      inFlight := hc.trans h.frame.inFlight
      flushed := hf.trans h.frame.flushed
      lsn := by rw [hwal]; exact h.frame.lsn
      dirty := fun id hnil => ?_
      stays := fun id hne => ?_
      reads := by simpa only [DurableStore.activeFile, DurableStore.spareFile,
        hwal] using h.frame.reads }
    swap
    · rw [hdirty, getElem?_insert_page]
      split
      · simp
      · exact h.frame.stays id hne
    have hne : page.id ≠ id := by
      rintro rfl
      have hmem : w ∈ onPage page.id [b].flatten := mem_onPage.mpr ⟨by simpa using hw, hid⟩
      rw [hnil] at hmem
      cases hmem
    rw [hdirty, getElem?_insert_page, if_neg hne]
    exact h.frame.dirty id hnil

/-- Behind a page's changes, a change of the same batch makes the newer image. -/
theorem imageOf_concat {F done rest : List CommittedWrite} {w : CommittedWrite}
    (hord : Ordered CommittedWrite.lsn (F ++ (done ++ w :: rest))) :
    imageOf (onPage w.pageId (F ++ (done ++ [w]))) =
        some ⟨w.lsn, w.apply ((imageOf (onPage w.pageId (F ++ done))).map Stamped.value)⟩ ∧
      covers (imageOf (onPage w.pageId (F ++ done))) w.lsn = false := by
  have hsub : (onPage w.pageId (F ++ done) ++ [w]).Sublist (F ++ (done ++ w :: rest)) := by
    rw [← List.append_assoc]
    refine List.filter_sublist.append ?_
    simp
  have hord' : Ordered CommittedWrite.lsn (onPage w.pageId (F ++ done) ++ [w]) := hord.sublist hsub
  constructor
  · rw [← List.append_assoc, onPage_append _ (F ++ done), onPage_singleton_self]
    exact latest_concat hord'
  · exact not_covers_latest hord'.lt_of_append_cons

/-- `publishWrite` on a logged image. -/
theorem publishWrite_meets {done rest : List CommittedWrite} (hb : b = done ++ w :: rest)
    (himage : w.appendAt = none) {C : Disk → Prop} :
    Meets (Publishing mode H n s₀ b done) (publishWrite ⟨w.pageId, w.payload⟩ w.lsn)
      (fun _ => Publishing mode H n s₀ b (done ++ [w])) (fun _ _ => False) C := by
  have hw : w ∈ b := by rw [hb]; simp
  unfold publishWrite
  refine Meets.bind (Q := fun page s => Publishing mode H n s₀ b done s ∧
    page.id = w.pageId ∧ page.lsn = w.lsn ∧ page.payload = w.payload)
    (Meets.attempt (fun s hs page hpage => ⟨hs, Page.withLsn_eq_ok hpage⟩) ?_) fun page =>
      Meets.update ?_
  · intro s hs e he
    have hfit := hs.log.proper.fits w (by simp [hw])
    simp only [CommittedWrite.Fits, himage] at hfit
    rw [Page.withLsn_of_fits hfit] at he
    cases he
  · rintro s ⟨h, hid, hlsn, hpay⟩
    have hord := h.log.proper.ordered
    rw [List.flatten_append, List.flatten_singleton, hb] at hord
    obtain ⟨himg, hnew⟩ := imageOf_concat hord
    have hstamp : page.stamped = ⟨w.lsn,
        w.apply ((imageOf (onPage w.pageId (H.flatten ++ done))).map Stamped.value)⟩ := by
      simp [Page.stamped, hlsn, hpay, CommittedWrite.apply, himage]
    refine h.publish page hw hid.symm (fun id hne => ?_) ?_ ?_ rfl rfl ?_ rfl rfl ?_
      (fun _ _ ho => ho) ?_
    · rw [onPage_append, onPage_singleton_of_ne (by rw [← hid]; exact hne), List.append_nil]
    · rw [hid, himg, hstamp]
    · rw [hid, hlsn]; exact hnew
    · simp only [hid]
    · intro id hin
      simp [hin]
    · left
      simp [hid]

/-! ## `write_pages` -/

theorem zip_of_numbered {writes : List PageWrite} {lsns : List Nat}
    (hc : b.map CommittedWrite.change = writes.map PageWrite.change)
    (hl : b.map CommittedWrite.lsn = lsns) :
    writes.zip lsns = b.map fun w => (⟨w.pageId, w.payload⟩, w.lsn) := by
  have hw : writes = b.map fun w => ⟨w.pageId, w.payload⟩ := by
    have := congrArg (List.map fun c : Change => (⟨c.pageId, c.payload⟩ : PageWrite)) hc
    simpa [Function.comp_def, CommittedWrite.change, PageWrite.change] using this.symm
  rw [← hl, hw, List.zip_map']

theorem appendAt_of_writes {writes : List PageWrite}
    (hc : b.map CommittedWrite.change = writes.map PageWrite.change) :
    ∀ w ∈ b, w.appendAt = none := by
  intro w hw
  have hmem : w.change ∈ writes.map PageWrite.change := hc ▸ List.mem_map_of_mem hw
  obtain ⟨write, hwrite, heq⟩ := List.mem_map.mp hmem
  simp only [PageWrite.change, CommittedWrite.change, Change.mk.injEq] at heq
  exact heq.2.2.symm

/-- **`write_pages_inner`** adds its batch to the history. -/
theorem writePagesInner_meets (hinv : Inv mode H n s₀) (writes : List PageWrite) (durable : Bool)
    (hloggable : ∀ c ∈ writes.map PageWrite.change, c.Loggable) :
    Meets (fun s => s = s₀) (writePagesInner writes durable)
      (fun _ s => ∃ b, b.map CommittedWrite.change = writes.map PageWrite.change ∧
        Inv mode (H ++ [b]) (durableAfter durable H n) s ∧ Frame s₀ [b] s)
      (fun _ s => Inv mode H n s ∧ Frame s₀ [] s)
      (Keeps mode (H.given ++ [writes.map PageWrite.change]) n) := by
  unfold writePagesInner
  refine Meets.bind (logChanges_meets hinv writes PageWrite.change _ (fun write => rfl)
    (by simpa using hloggable) (List.prefix_append _ _)) fun lsns => Meets.exists_pre fun b => ?_
  refine Meets.assuming (p := b.map CommittedWrite.change = writes.map PageWrite.change ∧
      b.map CommittedWrite.lsn = lsns ∧ ∀ w ∈ b, w.payload.length ≤ maxPagePayload)
    (fun s h => ⟨h.changes, h.lsns, h.small⟩) fun ⟨hchg, hlsns, hsmall⟩ => ?_
  have himages := appendAt_of_writes hchg
  have hgiven : (H ++ [b]).given = H.given ++ [writes.map PageWrite.change] := by
    simp [History.given, hchg]
  rw [show writes.length = (writes.map PageWrite.change).length by simp]
  refine Meets.bind (commit_meets hloggable ?_ ?_) fun _ => ?_
  · intro w hw
    simp only [CommittedWrite.Fits, himages w hw]
    exact hsmall w hw
  · exact fun w hw _ => Or.inl (himages w hw)
  refine Meets.bind (syncIfDurable_meets durable (Nat.le_refl n)
    (hgiven ▸ List.prefix_refl _)) fun _ => ?_
  rw [zip_of_numbered hchg hlsns, Prog.forEach_map]
  refine Meets.bind (Q := fun _ => Publishing mode H (durableAfter durable H n) s₀ b b)
    ?_ fun _ => Meets.pure fun s h => ⟨b, hchg, h.inv⟩
  refine ((Meets.forEach (I := fun done _ => Publishing mode H (durableAfter durable H n) s₀ b done)
    fun done w rest _ hb => publishWrite_meets hb (himages w ?_)).pre
      fun s h => h.publishing).conseq (fun _ h => h) (fun _ _ h => h) (fun _ _ h => h.elim)
        (fun _ h => h)
  rw [hb]; simp

end QuantaDb
