import QuantaDb.Storage.Calls

/-!
# QuantaDb.Storage.Readers

What readers see while the store is running.

A reader looks for a page in the dirty table first and in the data file second.
Between the two stand the flusher, both kinds of checkpoint, and a background
checkpointer that writes pages without the store's lock.  `Live` says that a
reader finds every page as it was last changed; each call and each step of the
checkpointer keeps it, and takes a page out of the dirty table only where the
data file holds that very page (`Removes`).

No crash is considered here, so unlike the durability of a batch this needs no
condition on what callers do.
-/

namespace QuantaDb

open Crash DurableStore

/-! ## reading the data file -/

namespace DataFile

theorem read_sync (data : DataFile) (id : PageId) : data.sync.read id = data.read id := by
  simp only [read, decode, slot_sync, Slot.current_sync]

/-- A page that has a place is read back once written. -/
theorem read_write_self {data : DataFile} {page : Page} (h : Placeable page.id) :
    (data.write page).read page.id = .ok (some page) := by
  simp only [read_of_placeable _ h, decode, slot_write_self, Slot.current_write, if_true]

theorem read_write_of_ne (data : DataFile) {page : Page} {id : PageId} (h : page.id ≠ id) :
    (data.write page).read id = data.read id := by
  simp only [read, decode, data.slot_write_of_ne h]

end DataFile

/-! ## what a reader must find -/

/-- A read finds the payload the page was last given; where it was given none, it
finds what it found at the start. -/
def Finds (found base : Except StorageError (Option Page)) : Option Bytes → Prop
  | some payload => ∃ page, found = .ok (some page) ∧ page.payload = payload
  | none => found = base

/-- The payload a page had at the start, if it could be read. -/
def payloadOf (found : Except StorageError (Option Page)) : Option Bytes :=
  match found with
  | .ok (some page) => some page.payload
  | _ => none

/-- The payload of every page after some batches. -/
def viewAfter (view : PageId → Option Bytes) (batches : List Batch) (id : PageId) : Option Bytes :=
  payloadAfter (view id) batches.flatten id

/-- Readers find `view`, and a page that counts as flushed is one the data file
holds. -/
structure Live (base : PageId → Except StorageError (Option Page)) (view : PageId → Option Bytes)
    (s : DurableStore) : Prop where
  dirty : ∀ id page, s.dirty[id]? = some page →
    page.id = id ∧ view id = some page.payload ∧ page.lsn < s.wal.nextLsn
  clean : ∀ id, s.dirty[id]? = none → Finds (s.data.read id) (base id) (view id)
  start : ∀ id, view id = none → payloadOf (base id) = none
  flushed : ∀ id lsn, s.flushed[id]? = some lsn → lsn < s.wal.nextLsn ∧
    ∀ page, s.dirty[id]? = some page → lsn ≤ page.lsn ∧
      (page.lsn = lsn → s.data.read id = .ok (some page))

/-- **What a reader finds.** -/
theorem Live.finds {base : PageId → Except StorageError (Option Page)}
    {view : PageId → Option Bytes} {s : DurableStore} (h : Live base view s) (id : PageId) :
    Finds (s.readPage id) (base id) (view id) := by
  unfold DurableStore.readPage
  cases hd : s.dirty[id]? with
  | none => exact h.clean id hd
  | some page =>
    rw [(h.dirty id page hd).2.1]
    exact ⟨page, rfl, rfl⟩

/-- A page leaves the dirty table only where the data file holds it. -/
def Removes (s s' : DurableStore) : Prop :=
  ∀ (id : PageId) (page : Page), s.dirty[id]? = some page → s'.dirty[id]? = none →
    s'.data.read id = .ok (some page)

/-- What a call may do beside a background checkpoint: make pages newer. -/
structure Moves (s₀ s : DurableStore) : Prop where
  data : s.data = s₀.data
  flushed : s.flushed = s₀.flushed
  inFlight : s.checkpointInFlight = s₀.checkpointInFlight
  lsn : s₀.wal.nextLsn ≤ s.wal.nextLsn
  dirty : ∀ (id : PageId) (page : Page), s.dirty[id]? = some page →
    s₀.dirty[id]? = some page ∨ s₀.wal.nextLsn ≤ page.lsn
  stays : ∀ id : PageId, s₀.dirty[id]? ≠ none → s.dirty[id]? ≠ none

/-- Only the log moved. -/
structure LogOnly (s₀ s : DurableStore) : Prop where
  data : s.data = s₀.data
  dirty : s.dirty = s₀.dirty
  flushed : s.flushed = s₀.flushed
  inFlight : s.checkpointInFlight = s₀.checkpointInFlight
  lsn : s₀.wal.nextLsn ≤ s.wal.nextLsn

theorem LogOnly.refl (s : DurableStore) : LogOnly s s := ⟨rfl, rfl, rfl, rfl, Nat.le_refl _⟩

theorem LogOnly.trans {s₀ s s₁ : DurableStore} (h : LogOnly s₀ s) (h' : LogOnly s s₁) :
    LogOnly s₀ s₁ :=
  ⟨h'.data.trans h.data, h'.dirty.trans h.dirty, h'.flushed.trans h.flushed,
    h'.inFlight.trans h.inFlight, Nat.le_trans h.lsn h'.lsn⟩

theorem LogOnly.moves {s₀ s : DurableStore} (h : LogOnly s₀ s) : Moves s₀ s :=
  ⟨h.data, h.flushed, h.inFlight, h.lsn, fun _ _ hd => Or.inl (h.dirty ▸ hd),
    fun _ hd => h.dirty ▸ hd⟩

/-- What every call does to the tables. -/
structure Stable (s₀ s : DurableStore) : Prop where
  removes : Removes s₀ s
  moves : s₀.checkpointInFlight = true → Moves s₀ s

namespace Moves

variable {s₀ s s₁ : DurableStore}

theorem refl (s : DurableStore) : Moves s s :=
  ⟨rfl, rfl, rfl, Nat.le_refl _, fun _ _ h => Or.inl h, fun _ h => h⟩

theorem trans (h : Moves s₀ s) (h' : Moves s s₁) : Moves s₀ s₁ := by
  refine ⟨h'.data.trans h.data, h'.flushed.trans h.flushed, h'.inFlight.trans h.inFlight,
    Nat.le_trans h.lsn h'.lsn, fun id page hd => ?_, fun id hne => h'.stays id (h.stays id hne)⟩
  rcases h'.dirty id page hd with hold | hnew
  · exact h.dirty id page hold
  · exact Or.inr (Nat.le_trans h.lsn hnew)

theorem stable (h : Moves s₀ s) : Stable s₀ s :=
  ⟨fun id page hd hnone => absurd hnone (h.stays id (by simp [hd])), fun _ => h⟩

end Moves

section

variable {base : PageId → Except StorageError (Option Page)} {view : PageId → Option Bytes}
variable {s s' : DurableStore}

/-- Only the log moved. -/
theorem Live.congr (h : Live base view s) (hdata : ∀ id, s'.data.read id = s.data.read id)
    (hdirty : s'.dirty = s.dirty) (hflushed : s'.flushed = s.flushed)
    (hlsn : s.wal.nextLsn ≤ s'.wal.nextLsn) : Live base view s' := by
  refine ⟨fun id page hd => ?_, fun id hd => ?_, h.start, fun id lsn hf => ?_⟩
  · rw [hdirty] at hd
    obtain ⟨hid, hview, hlt⟩ := h.dirty id page hd
    exact ⟨hid, hview, by omega⟩
  · rw [hdirty] at hd
    rw [hdata]
    exact h.clean id hd
  · rw [hflushed] at hf
    obtain ⟨hlt, hpage⟩ := h.flushed id lsn hf
    refine ⟨by omega, fun page hd => ?_⟩
    rw [hdirty] at hd
    rw [hdata]
    exact hpage page hd

theorem Live.logOnly (h : Live base view s) (hlog : LogOnly s s') : Live base view s' :=
  h.congr (fun id => by rw [hlog.data]) hlog.dirty hlog.flushed hlog.lsn

/-- A page enters the dirty table under a new LSN. -/
theorem Live.publish (h : Live base view s) (page : Page) (hdata : s'.data = s.data)
    (hdirty : s'.dirty = s.dirty.insert page.id page) (hflushed : s'.flushed = s.flushed)
    (hwal : s'.wal = s.wal) (hlsn : page.lsn < s.wal.nextLsn)
    (hnew : ∀ lsn, s.flushed[page.id]? = some lsn → lsn < page.lsn) :
    Live base (Function.update view page.id (some page.payload)) s' := by
  refine ⟨fun id q hd => ?_, fun id hd => ?_, fun id hnone => ?_, fun id lsn hf => ?_⟩
  · rw [hdirty, getElem?_insert_page] at hd
    split at hd
    · next heq =>
      cases hd
      subst heq
      exact ⟨rfl, by simp, by rw [hwal]; exact hlsn⟩
    · next hne =>
      obtain ⟨hid, hview, hlt⟩ := h.dirty id q hd
      exact ⟨hid, by rw [Function.update_of_ne (Ne.symm hne), hview], by rw [hwal]; exact hlt⟩
  · rw [hdirty, getElem?_insert_page] at hd
    split at hd
    · cases hd
    · next hne =>
      rw [Function.update_of_ne (Ne.symm hne), hdata]
      exact h.clean id hd
  · by_cases heq : id = page.id
    · rw [heq, Function.update_self] at hnone
      cases hnone
    · rw [Function.update_of_ne heq] at hnone
      exact h.start id hnone
  · rw [hflushed] at hf
    obtain ⟨hlt, hpage⟩ := h.flushed id lsn hf
    refine ⟨by rw [hwal]; exact hlt, fun q hd => ?_⟩
    rw [hdirty, getElem?_insert_page] at hd
    split at hd
    · next heq =>
      cases hd
      subst heq
      have hlt' := hnew lsn hf
      exact ⟨Nat.le_of_lt hlt', fun heq => absurd heq (Nat.ne_of_gt hlt')⟩
    · rw [hdata]
      exact hpage q hd

/-! ## logging and publishing -/

/-- Appending a record moves only the log. -/
theorem append_logOnly (kind : WalKind) (s₀ : DurableStore) :
    Meets (LogOnly s₀) (append kind)
      (fun lsn s => LogOnly s₀ s ∧ s₀.wal.nextLsn ≤ lsn ∧ lsn < s.wal.nextLsn)
      (fun _ s => LogOnly s₀ s) (fun _ => True) := by
  refine append_meets kind (fun s h _ => ⟨trivial, ?_, h.lsn, Nat.lt_succ_self _⟩)
    fun s e h _ => ⟨h, fun _ => ?_⟩
  · exact ⟨h.data, h.dirty, h.flushed, h.inFlight, Nat.le_succ_of_le h.lsn⟩
  · exact ⟨h.data, h.dirty, h.flushed, h.inFlight, Nat.le_succ_of_le h.lsn⟩

/-- The page records of a batch. -/
theorem logAll_logOnly {α : Type} (items : List α) (log : α → StoreM Nat) (size : α → Nat)
    (kind : α → WalKind)
    (hlog : ∀ a, log a = if maxPagePayload < size a
      then Prog.fail (.pageTooLarge (size a) maxPagePayload) else append (kind a))
    (s₀ : DurableStore) :
    Meets (LogOnly s₀) (Prog.forEach items log)
      (fun lsns s => LogOnly s₀ s ∧ lsns.length = items.length ∧
        (∀ lsn ∈ lsns, s₀.wal.nextLsn ≤ lsn ∧ lsn < s.wal.nextLsn) ∧
          ∀ a ∈ items, size a ≤ maxPagePayload)
      (fun _ s => LogOnly s₀ s) (fun _ => True) := by
  have hnext : ∀ {s : DurableStore} (s' : DurableStore), LogOnly s₀ s → LogOnly s s' →
      LogOnly s₀ s' := fun _ h h' => h.trans h'
  refine (logLoop_meets (I := fun done lsns s => LogOnly s₀ s ∧ lsns.length = done.length ∧
    (∀ lsn ∈ lsns, s₀.wal.nextLsn ≤ lsn ∧ lsn < s.wal.nextLsn) ∧
      ∀ a ∈ done, size a ≤ maxPagePayload) hlog ?_ ?_).pre fun s h => ⟨h, rfl, by simp, by simp⟩
  · rintro done a lsns s - ⟨h, hlen, hall, hfit⟩ hsize -
    have hpush : (s.push (kind a)).wal.nextLsn = s.wal.nextLsn + 1 := rfl
    refine ⟨trivial, hnext _ h ⟨rfl, rfl, rfl, rfl, Nat.le_succ _⟩, by simp [hlen], ?_, ?_⟩
    · rw [hpush]
      refine List.forall_mem_append.mpr ⟨fun lsn hl => ?_, by simpa using h.lsn⟩
      have := hall lsn hl
      omega
    · exact List.forall_mem_append.mpr ⟨hfit, by simpa using hsize⟩
  · rintro done lsns s e ⟨h, -⟩
    exact ⟨h, fun _ => hnext _ h ⟨rfl, rfl, rfl, rfl, Nat.le_succ _⟩⟩

theorem appendBatchCommit_logOnly (count : Nat) (s₀ : DurableStore) :
    Meets (LogOnly s₀) (appendBatchCommit count) (fun _ => LogOnly s₀) (fun _ => LogOnly s₀)
      (fun _ => True) := by
  unfold appendBatchCommit
  refine Meets.bind (Q := fun _ => LogOnly s₀) (Meets.read fun s h => h) fun wal => ?_
  refine Meets.ite (fun _ => Meets.fail fun s h => h) fun _ => ?_
  refine Meets.ite (fun _ => Meets.fail fun s h => h) fun _ => ?_
  exact (append_logOnly _ s₀).post fun lsn s h => h.1

theorem syncWal_logOnly (s₀ : DurableStore) {E : StorageError → DurableStore → Prop} :
    Meets (LogOnly s₀) syncWal (fun _ => LogOnly s₀) E (fun _ => True) :=
  syncWal_meets fun _ h => ⟨trivial, h.data, h.dirty, h.flushed, h.inFlight, h.lsn⟩

/-- A batch is being published: the log is done with, and pages become newer. -/
structure Publishes (base : PageId → Except StorageError (Option Page))
    (view : PageId → Option Bytes) (s₀ s : DurableStore) : Prop where
  live : Live base view s
  moves : Moves s₀ s
  old : ∀ (id : PageId) lsn, s₀.flushed[id]? = some lsn → lsn < s₀.wal.nextLsn

variable {s₀ : DurableStore}

theorem LogOnly.publishes (h : Live base view s₀) (hlog : LogOnly s₀ s) :
    Publishes base view s₀ s :=
  ⟨h.logOnly hlog, hlog.moves, fun id lsn hf => (h.flushed id lsn hf).1⟩

/-- The queues do not matter to readers. -/
theorem Publishes.congr (h : Publishes base view s₀ s) (hdata : s'.data = s.data)
    (hdirty : s'.dirty = s.dirty) (hflushed : s'.flushed = s.flushed)
    (hin : s'.checkpointInFlight = s.checkpointInFlight) (hwal : s'.wal = s.wal) :
    Publishes base view s₀ s' := by
  have hlog : LogOnly s s' := ⟨hdata, hdirty, hflushed, hin, by rw [hwal]⟩
  exact ⟨h.live.logOnly hlog, h.moves.trans hlog.moves, h.old⟩

/-- One page is published under an LSN of the batch. -/
theorem Publishes.insert (h : Publishes base view s₀ s) (page : Page)
    (hge : s₀.wal.nextLsn ≤ page.lsn) (hlt : page.lsn < s.wal.nextLsn) (hdata : s'.data = s.data)
    (hdirty : s'.dirty = s.dirty.insert page.id page) (hflushed : s'.flushed = s.flushed)
    (hin : s'.checkpointInFlight = s.checkpointInFlight) (hwal : s'.wal = s.wal) :
    Publishes base (Function.update view page.id (some page.payload)) s₀ s' := by
  refine ⟨h.live.publish page hdata hdirty hflushed hwal hlt fun lsn hf => ?_, ?_, h.old⟩
  · rw [h.moves.flushed] at hf
    exact Nat.lt_of_lt_of_le (h.old page.id lsn hf) hge
  · refine ⟨hdata.trans h.moves.data, hflushed.trans h.moves.flushed, hin.trans h.moves.inFlight,
      by rw [hwal]; exact h.moves.lsn, fun id q hd => ?_, fun id hne => ?_⟩
    · rw [hdirty, getElem?_insert_page] at hd
      split at hd
      · cases hd
        exact Or.inr hge
      · exact h.moves.dirty id q hd
    · rw [hdirty, getElem?_insert_page]
      split
      · simp
      · exact h.moves.stays id hne

/-- **`write_pages_inner`** gives its pages their payloads. -/
theorem writePagesInner_live (h : Live base view s₀) (writes : List PageWrite) (durable : Bool) :
    Meets (fun s => s = s₀) (writePagesInner writes durable)
      (fun _ s => Live base (viewAfter view [writes.map PageWrite.change]) s ∧ Moves s₀ s)
      (fun _ s => Live base view s ∧ Moves s₀ s) (fun _ => True) := by
  have hfail : ∀ s, LogOnly s₀ s → Live base view s ∧ Moves s₀ s := fun s hs =>
    ⟨h.logOnly hs, hs.moves⟩
  unfold writePagesInner
  refine Meets.bind ((logAll_logOnly writes _ (fun w => w.payload.length)
    (fun w => .pageImage w.pageId w.payload) (fun w => rfl) s₀).conseq
      (fun s hs => hs ▸ LogOnly.refl s₀) (fun _ _ hs => hs) (fun _ s hs => hfail s hs)
      (fun _ => id)) fun lsns => ?_
  refine Meets.of_state fun s₁ ⟨h₁, hlen, hlsns, hfit⟩ => ?_
  refine Meets.bind ((appendBatchCommit_logOnly _ s₁).conseq (fun s hs => hs ▸ LogOnly.refl s₁)
    (fun _ _ hs => hs) (fun _ s hs => hfail s (h₁.trans hs)) (fun _ => id)) fun _ => ?_
  refine Meets.bind (Q := fun _ => LogOnly s₁) (Meets.when (fun _ => syncWal_logOnly s₁)
    fun _ s hs => hs) fun _ => ?_
  -- each write of the batch replaces its page
  refine Meets.bind (Q := fun _ s => Publishes base (viewAfter view [writes.map PageWrite.change])
    s₀ s) ?_ fun _ => Meets.pure fun s hs => ⟨hs.live, hs.moves⟩
  have hzip : (writes.zip lsns).map (fun p => p.1.change) = writes.map PageWrite.change := by
    have hfst : (writes.zip lsns).map Prod.fst = writes := List.map_fst_zip (by omega)
    conv_rhs => rw [← hfst, List.map_map]
    rfl
  refine ((Meets.forEach (l := writes.zip lsns) (I := fun done _ s =>
    Publishes base (viewAfter view [done.map fun p => p.1.change]) s₀ s ∧
      s₁.wal.nextLsn ≤ s.wal.nextLsn) ?_).pre fun s hs => ⟨?_, hs.lsn⟩).conseq (fun _ => id) ?_
      (fun _ _ => id) (fun _ => id)
  · rintro done ⟨write, lsn⟩ rest _ hsplit
    have hmem : (write, lsn) ∈ writes.zip lsns := by rw [hsplit]; simp
    have hlsn := hlsns lsn (List.of_mem_zip hmem).2
    have hsmall := hfit write (List.of_mem_zip hmem).1
    unfold publishWrite
    refine Meets.bind (Q := fun page s => (Publishes base
      (viewAfter view [done.map fun p => p.1.change]) s₀ s ∧ s₁.wal.nextLsn ≤ s.wal.nextLsn) ∧
        page.id = write.pageId ∧ page.lsn = lsn ∧ page.payload = write.payload)
      (Meets.attempt (fun s hs page hpage => ⟨hs, Page.withLsn_eq_ok hpage⟩) ?_) fun page =>
        Meets.update ?_
    · intro s _ e he
      rw [Page.withLsn_of_fits hsmall] at he
      cases he
    · rintro s ⟨⟨hs, hle⟩, hid, rfl, hpay⟩
      have hview : viewAfter view [(done ++ [(write, page.lsn)]).map fun p => p.1.change] =
          Function.update (viewAfter view [done.map fun p => p.1.change]) page.id
            (some page.payload) := by
        funext id
        simp only [viewAfter, List.flatten_singleton, List.map_append, List.map_cons, List.map_nil]
        rw [payloadAfter_concat, hid, hpay]
        show (if write.pageId = id then some write.payload else _) = _
        by_cases heq : write.pageId = id
        · subst heq
          rw [if_pos rfl, Function.update_self]
        · rw [if_neg heq, Function.update_of_ne (Ne.symm heq)]
          simp only [viewAfter, List.flatten_singleton]
      rw [hview]
      exact ⟨hs.insert page hlsn.1 (Nat.lt_of_lt_of_le hlsn.2 hle) rfl (by rw [hid]) rfl rfl rfl,
        hle⟩
  · have hnil : viewAfter view [[]] = view := rfl
    rw [List.map_nil, hnil]
    exact LogOnly.publishes h (h₁.trans hs)
  · rintro _ s ⟨hs, -⟩
    rw [hzip] at hs
    exact hs

/-! ## appending -/

/-- The images that a batch of appends grows are those that readers find with it. -/
theorem Live.grown (h : Live base view s) {appends : List PageAppend}
    {grown : Std.TreeMap PageId Bytes} (hgrew : Grew s appends grown) {id : PageId}
    {payload : Bytes} (hg : grown[id]? = some payload) :
    payloadAfter (view id) (appends.map PageAppend.change) id = some payload := by
  have hcontent := (hgrew.touched id payload hg).2
  have hfinds := h.finds id
  unfold DurableStore.content at hcontent
  cases hv : view id with
  | some old =>
    rw [hv] at hfinds
    obtain ⟨page, hread, rfl⟩ := hfinds
    rw [hread, Except.map, Option.map_some, contentAfter_ok] at hcontent
    exact Except.ok.inj hcontent
  | none =>
    have hstart := h.start id hv
    rw [hv] at hfinds
    rw [← show s.readPage id = base id from hfinds] at hstart
    cases hread : s.readPage id with
    | error e =>
      rw [hread, Except.map, contentAfter_error] at hcontent
      cases hcontent
    | ok found =>
      rw [hread] at hcontent hstart
      cases found with
      | some page => cases hstart
      | none =>
        rw [Except.map, Option.map_none, contentAfter_ok] at hcontent
        exact Except.ok.inj hcontent

/-- A page of an append batch gets one of the batch's LSNs. -/
theorem newest_mem {appends : List PageAppend} {lsns : List Nat}
    (hlen : lsns.length = appends.length) {id : PageId} (hid : ∃ a ∈ appends, a.pageId = id) :
    (newest appends lsns).getD id 0 ∈ lsns := by
  suffices aux : ∀ (pairs : List (PageAppend × Nat)) (m : Std.TreeMap PageId Nat),
      ((∃ p ∈ pairs, p.1.pageId = id) ∨ m.getD id 0 ∈ lsns) → (∀ p ∈ pairs, p.2 ∈ lsns) →
      (pairs.foldl (fun m p => m.insert p.1.pageId p.2) m).getD id 0 ∈ lsns by
    refine aux (appends.zip lsns) ∅ (Or.inl ?_) fun p hp => (List.of_mem_zip hp).2
    obtain ⟨a, ha, haid⟩ := hid
    have hfst : (appends.zip lsns).map Prod.fst = appends := List.map_fst_zip (by omega)
    rw [← hfst, List.mem_map] at ha
    obtain ⟨p, hp, rfl⟩ := ha
    exact ⟨p, hp, haid⟩
  intro pairs
  induction pairs with
  | nil =>
    intro m h _
    rcases h with ⟨p, hp, -⟩ | h
    · cases hp
    · exact h
  | cons p pairs ih =>
    intro m h hall
    refine ih _ ?_ fun q hq => hall q (List.mem_cons_of_mem p hq)
    by_cases heq : p.1.pageId = id
    · right
      rw [Std.TreeMap.getD_insert]
      simp [heq, hall p List.mem_cons_self]
    · rcases h with ⟨q, hq, hqid⟩ | h
      · rcases List.mem_cons.mp hq with rfl | hq
        · exact absurd hqid heq
        · exact Or.inl ⟨q, hq, hqid⟩
      · right
        rw [Std.TreeMap.getD_insert]
        simpa [heq] using h

/-- **`append_pages_inner`** gives its pages the grown images. -/
theorem appendPagesInner_live (h : Live base view s₀) (order : HashOrder)
    (appends : List PageAppend) (durable : Bool) :
    Meets (fun s => s = s₀) (appendPagesInner order appends durable)
      (fun _ s => Live base (viewAfter view [appends.map PageAppend.change]) s ∧ Moves s₀ s)
      (fun _ s => Live base view s ∧ Moves s₀ s) (fun _ => True) := by
  have hfail : ∀ s, LogOnly s₀ s → Live base view s ∧ Moves s₀ s := fun s hs =>
    ⟨h.logOnly hs, hs.moves⟩
  unfold appendPagesInner
  refine Meets.bind (Q := fun grown s => s = s₀ ∧ Grew s₀ appends grown)
    (Meets.attempt (fun s hs grown hg => ⟨hs, grow_grew (hs ▸ hg)⟩)
      fun s hs _ _ => hfail s (hs ▸ LogOnly.refl s₀)) fun grown => ?_
  refine Meets.assuming (p := Grew s₀ appends grown) (fun s hs => hs.2) fun hgrown => ?_
  refine Meets.bind ((logAll_logOnly appends _ (fun a => a.payload.length)
    (fun a => .pageAppend a.pageId a.offset a.payload) (fun a => rfl) s₀).conseq
      (fun s hs => hs.1 ▸ LogOnly.refl s₀) (fun _ _ hs => hs) (fun _ s hs => hfail s hs)
      (fun _ => id)) fun lsns => ?_
  refine Meets.of_state fun s₁ ⟨h₁, hlen, hlsns, _⟩ => ?_
  refine Meets.bind ((appendBatchCommit_logOnly _ s₁).conseq (fun s hs => hs ▸ LogOnly.refl s₁)
    (fun _ _ hs => hs) (fun _ s hs => hfail s (h₁.trans hs)) (fun _ => id)) fun _ => ?_
  refine Meets.bind (Q := fun _ => LogOnly s₁) (Meets.when (fun _ => syncWal_logOnly s₁)
    fun _ s hs => hs) fun _ => ?_
  have hwalk : ∀ {id : PageId}, id ∈ order.walk grown.keys ↔ grown[id]?.isSome := fun {id} => by
    rw [(order.perm grown.keys).mem_iff, Std.TreeMap.mem_keys, Std.TreeMap.mem_iff_isSome_getElem?]
  -- the pages are published one by one, in the hasher's order
  refine Meets.bind (Q := fun _ s => Publishes base
    (fun id => if id ∈ order.walk grown.keys then grown[id]? else view id) s₀ s) ?_
    fun _ => Meets.pure fun s hs => ?_
  swap
  · have hview : (fun id => if id ∈ order.walk grown.keys then grown[id]? else view id) =
        viewAfter view [appends.map PageAppend.change] := by
      funext id
      rw [viewAfter, List.flatten_singleton]
      cases hg : grown[id]? with
      | some payload =>
        rw [if_pos (hwalk.mpr (by rw [hg]; rfl)), h.grown hgrown hg]
      | none =>
        rw [if_neg (fun hm => by simpa [hg] using hwalk.mp hm)]
        exact (payloadAfter_of_forall_ne (hgrown.forall_ne hg)).symm
    rw [hview] at hs
    exact ⟨hs.live, hs.moves⟩
  refine ((Meets.forEach (l := order.walk grown.keys) (I := fun done _ s =>
    Publishes base (fun id => if id ∈ done then grown[id]? else view id) s₀ s ∧
      s₁.wal.nextLsn ≤ s.wal.nextLsn) ?_).pre fun s hs => ⟨?_, hs.lsn⟩).conseq (fun _ => id)
      (fun _ _ hs => hs.1) (fun _ _ => id) (fun _ => id)
  · intro done id rest _ hsplit
    have hmem : id ∈ order.walk grown.keys := by rw [hsplit]; simp
    obtain ⟨payload, hpayload⟩ := Option.isSome_iff_exists.mp (hwalk.mp hmem)
    have hlsn := hlsns _ (newest_mem hlen (hgrown.touched id payload hpayload).1)
    have hget : grown.getD id [] = payload := by
      rw [Std.TreeMap.getD_eq_getD_getElem?, hpayload, Option.getD_some]
    unfold publishAppend
    refine Meets.bind (Q := fun page s => (Publishes base
      (fun id => if id ∈ done then grown[id]? else view id) s₀ s ∧
        s₁.wal.nextLsn ≤ s.wal.nextLsn) ∧ page.id = id ∧
          page.lsn = (newest appends lsns).getD id 0 ∧ page.payload = payload)
      (Meets.attempt (fun s hs page hpage => ⟨hs, ?_⟩) ?_) fun page => ?_
    · rw [hget] at hpage
      exact Page.withLsn_eq_ok hpage
    · intro s _ e he
      rw [hget, Page.withLsn_of_fits (hgrown.fits id payload hpayload)] at he
      cases he
    · refine Meets.bind (Q := fun _ s => Publishes base
        (fun id' => if id' ∈ done ++ [id] then grown[id']? else view id') s₀ s ∧
          s₁.wal.nextLsn ≤ s.wal.nextLsn) (Meets.update ?_) fun _ => ?_
      · rintro s ⟨⟨hs, hle⟩, rfl, hpl, hpay⟩
        have hview : (fun id' => if id' ∈ done ++ [page.id] then grown[id']? else view id') =
            Function.update (fun id' => if id' ∈ done then grown[id']? else view id') page.id
              (some page.payload) := by
          funext id'
          by_cases heq : id' = page.id
          · rw [heq, Function.update_self, if_pos (by simp), hpayload, hpay]
          · rw [Function.update_of_ne heq]
            simp [heq]
        rw [hview]
        rw [← hpl] at hlsn
        exact ⟨hs.insert page hlsn.1 (Nat.lt_of_lt_of_le hlsn.2 hle) rfl rfl rfl rfl rfl, hle⟩
      · refine Meets.bind (Q := fun _ s => Publishes base
          (fun id' => if id' ∈ done ++ [id] then grown[id']? else view id') s₀ s ∧
            s₁.wal.nextLsn ≤ s.wal.nextLsn) (Meets.update fun s hs => ?_) fun _ =>
              Meets.update fun s hs => ⟨hs.1.congr rfl rfl rfl rfl rfl, hs.2⟩
        unfold queueIfSealed
        split
        · exact ⟨hs.1.congr rfl rfl rfl rfl rfl, hs.2⟩
        · exact ⟨hs.1.congr rfl rfl rfl rfl rfl, hs.2⟩
  · simp only [List.not_mem_nil, if_false]
    exact LogOnly.publishes h (h₁.trans hs)

/-! ## the calls -/

/-- What a call leaves: the batches it applied are seen. -/
def Shown (base : PageId → Except StorageError (Option Page)) (view : PageId → Option Bytes)
    (batches : List Batch) (s₀ s : DurableStore) : Prop :=
  Live base (viewAfter view batches) s ∧ Stable s₀ s

/-- What a call that fails leaves: a proper prefix of its batches is seen. -/
def ShownPrefix (base : PageId → Except StorageError (Option Page)) (view : PageId → Option Bytes)
    (call : Call) (s₀ s : DurableStore) : Prop :=
  ∃ count, (count < call.batches.length ∨ call.batches = []) ∧
    Shown base view (call.batches.take count) s₀ s

theorem Live.poison (h : Live base view s) : Live base view s.poison :=
  h.congr (fun _ => rfl) rfl rfl (Nat.le_refl _)

theorem Stable.poison (h : Stable s₀ s) : Stable s₀ s.poison :=
  ⟨h.removes, fun hin => (h.moves hin).trans ⟨rfl, rfl, rfl, Nat.le_refl _, fun _ _ h => Or.inl h,
    fun _ h => h⟩⟩

theorem ShownPrefix.poison {call : Call} (h : ShownPrefix base view call s₀ s) :
    ShownPrefix base view call s₀ s.poison := by
  obtain ⟨count, hcount, hlive, hstable⟩ := h
  exact ⟨count, hcount, hlive.poison, hstable.poison⟩

theorem shownPrefix_zero {call : Call} (h : Live base view s) (hstable : Stable s₀ s) :
    ShownPrefix base view call s₀ s := by
  refine ⟨0, ?_, h, hstable⟩
  cases hb : call.batches with
  | nil => exact Or.inr rfl
  | cons _ _ => exact Or.inl (by simp)

theorem viewAfter_append (view : PageId → Option Bytes) (bs bs' : List Batch) :
    viewAfter view (bs ++ bs') = viewAfter (viewAfter view bs) bs' := by
  funext id
  simp [viewAfter, payloadAfter, List.foldl_append]

/-- A dirty page goes to the data file and counts as flushed. -/
theorem Live.flush (h : Live base view s) {page : Page} (hd : s.dirty[page.id]? = some page)
    (hplace : Placeable page.id) :
    Live base view { s with
      data := s.data.write page, flushed := s.flushed.insert page.id page.lsn } := by
  refine ⟨h.dirty, fun id hnone => ?_, h.start, fun id lsn hf => ?_⟩
  · have hne : page.id ≠ id := fun heq => by
      rw [← heq, hd] at hnone
      cases hnone
    rw [DataFile.read_write_of_ne _ hne]
    exact h.clean id hnone
  · rw [getElem?_insert_page] at hf
    split at hf
    · next heq =>
      subst heq
      cases hf
      refine ⟨(h.dirty page.id page hd).2.2, fun q hq => ?_⟩
      rw [hd] at hq
      cases hq
      exact ⟨Nat.le_refl _, fun _ => DataFile.read_write_self hplace⟩
    · next hne =>
      rw [DataFile.read_write_of_ne _ hne]
      exact h.flushed id lsn hf

/-- The flusher moves no page and no log. -/
def Flushes (base : PageId → Except StorageError (Option Page)) (view : PageId → Option Bytes)
    (s₀ s : DurableStore) : Prop :=
  Live base view s ∧ s.dirty = s₀.dirty ∧ s.checkpointInFlight = s₀.checkpointInFlight

theorem Flushes.logOnly (h : Flushes base view s₀ s) (hlog : LogOnly s s') :
    Flushes base view s₀ s' :=
  ⟨h.1.logOnly hlog, hlog.dirty.trans h.2.1, hlog.inFlight.trans h.2.2⟩

/-- Pages leave the tables, those in the dirty table only where the data file
holds them. -/
structure Forgets (s s' : DurableStore) : Prop where
  data : s'.data = s.data
  lsn : s.wal.nextLsn ≤ s'.wal.nextLsn
  dirty : ∀ (id : PageId) (page : Page), s'.dirty[id]? = some page → s.dirty[id]? = some page
  removes : Removes s s'
  flushed : ∀ (id : PageId) lsn, s'.flushed[id]? = some lsn → s.flushed[id]? = some lsn

theorem Live.forgets (h : Live base view s) (hf : Forgets s s') : Live base view s' := by
  have hle := hf.lsn
  refine ⟨fun id page hd => ?_, fun id hnone => ?_, h.start, fun id lsn hfl => ?_⟩
  · obtain ⟨hid, hview, hlt⟩ := h.dirty id page (hf.dirty id page hd)
    exact ⟨hid, hview, by omega⟩
  · cases hd : s.dirty[id]? with
    | none =>
      rw [hf.data]
      exact h.clean id hd
    | some page =>
      rw [(h.dirty id page hd).2.1, hf.removes id page hd hnone]
      exact ⟨page, rfl, rfl⟩
  · obtain ⟨hlt, hpage⟩ := h.flushed id lsn (hf.flushed id lsn hfl)
    refine ⟨by omega, fun page hd => ?_⟩
    rw [hf.data]
    exact hpage page (hf.dirty id page hd)

/-- Dropping the pages that count as flushed. -/
theorem Live.dropFlushed (h : Live base view s)
    (hdirty : s'.dirty = s.dirty.filter fun id page => decide (s.flushed[id]? ≠ some page.lsn))
    (hflushed : s'.flushed = ∅) (hdata : s'.data = s.data) (hwal : s'.wal = s.wal) :
    Forgets s s' := by
  have hget : ∀ (id : PageId), s'.dirty[id]? =
      s.dirty[id]?.filter fun page => decide (s.flushed[id]? ≠ some page.lsn) := fun id => by
    rw [hdirty, Std.TreeMap.getElem?_filter']
  refine ⟨hdata, by rw [hwal], fun id page hd => ?_, fun id page hd hnone => ?_,
    fun id lsn hf => ?_⟩
  · rw [hget, Option.filter_eq_some_iff] at hd
    exact hd.1
  · rw [hget, hd, Option.filter_some, ite_eq_right_iff] at hnone
    have hfl : s.flushed[id]? = some page.lsn := by simpa using hnone
    rw [hdata]
    exact ((h.flushed id page.lsn hfl).2 page hd).2 rfl
  · rw [hflushed] at hf
    simp at hf

/-- The log is emptied; readers do not notice. -/
theorem resetAfterCheckpoint_logOnly (s₀ : DurableStore)
    {E : StorageError → DurableStore → Prop} :
    Meets (LogOnly s₀) resetAfterCheckpoint (fun _ => LogOnly s₀) E (fun _ => True) := by
  have hseg : ∀ i, Meets (LogOnly s₀) (resetSegment i) (fun _ => LogOnly s₀) E (fun _ => True) := by
    intro i
    unfold resetSegment sealAndSync sealFile
    refine Meets.bind (Q := fun _ => LogOnly s₀) (Meets.read fun s hs => hs) fun wal => ?_
    refine Meets.when (fun _ => ?_) fun _ s hs => hs
    refine Meets.bind (Q := fun _ => LogOnly s₀) ?_ fun _ => Meets.update fun s hs =>
      ⟨hs.data, hs.dirty, hs.flushed, hs.inFlight, hs.lsn⟩
    exact Meets.bind (Q := fun _ => LogOnly s₀) (Meets.issue fun s hs =>
      ⟨trivial, hs.data, hs.dirty, hs.flushed, hs.inFlight, hs.lsn⟩) fun _ => Meets.issue
        fun s hs => ⟨trivial, hs.data, hs.dirty, hs.flushed, hs.inFlight, hs.lsn⟩
  unfold resetAfterCheckpoint
  exact Meets.bind (hseg segmentA) fun _ => Meets.bind (hseg segmentB) fun _ =>
    Meets.update fun s hs => ⟨hs.data, hs.dirty, hs.flushed, hs.inFlight, hs.lsn⟩

section

variable {s₀ : DurableStore} (h : Live base view s₀)
include h

/-- `write_pages_with`. -/
theorem writePages_live (writes : List PageWrite) (durable : Bool) :
    Meets (fun s => s = s₀) (Call.writePages writes durable).prog
      (fun _ => Shown base view (Call.writePages writes durable).batches s₀)
      (fun _ => ShownPrefix base view (.writePages writes durable) s₀) (fun _ => True) := by
  have hrefl : ShownPrefix base view (.writePages writes durable) s₀ s₀ :=
    shownPrefix_zero h (Moves.refl s₀).stable
  unfold Call.prog writePagesWith
  refine Meets.bind (Q := fun _ => Shown base view (Call.writePages writes durable).batches s₀) ?_
    fun _ => Meets.pure fun _ h => h
  refine Meets.bind (refuseIfPoisoned_meets (R := fun s => s = s₀) (fun s hs _ => hs)
    fun s hs _ => hs ▸ hrefl) fun _ => ?_
  refine Meets.bind (Q := fun _ s => s = s₀) (Meets.forEach (I := fun _ _ s => s = s₀)
    fun _ write _ _ _ => Meets.attempt (fun s hs _ _ => hs) fun s hs _ _ => hs ▸ hrefl) fun _ => ?_
  refine Meets.ite (fun hnil => Meets.pure ?_) fun hne => ?_
  · rintro s rfl
    subst hnil
    exact ⟨h, (Moves.refl s).stable⟩
  have hbatch : (Call.writePages writes durable).batches = [writes.map PageWrite.change] :=
    batch_of_ne_nil (by simpa using hne)
  rw [hbatch]
  refine poisonOnError_meets ((writePagesInner_live h writes durable).post
    fun _ s hs => ⟨hs.1, hs.2.stable⟩) fun _ s hs => ?_
  exact (shownPrefix_zero hs.1 hs.2.stable).poison

/-- `append_pages`. -/
theorem appendPages_live (order : HashOrder) (appends : List PageAppend) :
    Meets (fun s => s = s₀) (Call.appendPages order appends).prog
      (fun _ => Shown base view (Call.appendPages order appends).batches s₀)
      (fun _ => ShownPrefix base view (.appendPages order appends) s₀) (fun _ => True) := by
  unfold Call.prog DurableStore.appendPages
  refine Meets.bind (Q := fun _ => Shown base view (Call.appendPages order appends).batches s₀) ?_
    fun _ => Meets.pure fun _ h => h
  refine Meets.ite (fun hnil => Meets.pure ?_) fun hne => ?_
  · rintro s rfl
    subst hnil
    exact ⟨h, (Moves.refl s).stable⟩
  refine Meets.bind (refuseIfPoisoned_meets (R := fun s => s = s₀) (fun s hs _ => hs) ?_)
    fun _ => ?_
  · rintro s rfl _
    exact shownPrefix_zero h (Moves.refl s).stable
  have hbatch : (Call.appendPages order appends).batches = [appends.map PageAppend.change] :=
    batch_of_ne_nil (by simpa using hne)
  rw [hbatch]
  refine poisonOnError_meets ((appendPagesInner_live h order appends true).post
    fun _ s hs => ⟨hs.1, hs.2.stable⟩) fun _ s hs => ?_
  exact (shownPrefix_zero hs.1 hs.2.stable).poison

/-- `execute_group`: the images of a group, then its appends. -/
theorem executeGroup_live (order : HashOrder) (requests : List CommitRequest) :
    Meets (fun s => s = s₀) (Call.executeGroup order requests).prog
      (fun _ => Shown base view (Call.executeGroup order requests).batches s₀)
      (fun _ => ShownPrefix base view (.executeGroup order requests) s₀) (fun _ => True) := by
  unfold Call.prog DurableStore.executeGroup applyBatch
  refine Meets.bind (Q := fun _ => Shown base view (Call.executeGroup order requests).batches s₀) ?_
    fun _ => Meets.pure fun _ h => h
  refine Meets.bind (Q := fun _ => Shown base view (Call.executeGroup order requests).batches s₀) ?_
    fun _ => Meets.pure fun _ h => h
  refine Meets.bind (refuseIfPoisoned_meets (R := fun s => s = s₀) (fun s hs _ => hs) ?_)
    fun _ => ?_
  · rintro s rfl _
    exact shownPrefix_zero h (Moves.refl s).stable
  refine poisonOnError_meets (E := fun _ => ShownPrefix base view (.executeGroup order requests) s₀)
    ?_ fun _ s hs => hs.poison
  generalize hW : Call.batch ((requests.flatMap (·.writes)).map PageWrite.change) = W
  generalize hA : Call.batch ((requests.flatMap (·.appends)).map PageAppend.change) = A
  have hbatches : (Call.executeGroup order requests).batches = W ++ A := by
    rw [← hW, ← hA]; rfl
  unfold applyBatchInner
  refine Meets.bind (Q := fun _ s => Live base (viewAfter view W) s ∧ Moves s₀ s) ?_
    fun _ => Meets.of_state fun s₁ ⟨h₁, hm₁⟩ => ?_
  · subst hW
    refine Meets.ite (fun hnil => Meets.pure ?_) fun hne => ?_
    · rintro s rfl
      rw [hnil]
      exact ⟨h, Moves.refl s⟩
    · rw [batch_of_ne_nil (by simpa using hne)]
      exact (writePagesInner_live h _ false).conseq (fun _ h => h) (fun _ _ h => h)
        (fun _ s hs => shownPrefix_zero hs.1 hs.2.stable) fun _ h => h
  refine Meets.bind (Q := fun _ s => Live base (viewAfter view (W ++ A)) s ∧ Moves s₀ s) ?_
    fun _ => ?_
  · rw [viewAfter_append]
    subst hA
    refine Meets.ite (fun hnil => Meets.pure ?_) fun hne => ?_
    · rintro s rfl
      rw [hnil]
      exact ⟨h₁, hm₁⟩
    · have hone : Call.batch ((requests.flatMap (·.appends)).map PageAppend.change) =
          [(requests.flatMap (·.appends)).map PageAppend.change] :=
        batch_of_ne_nil (by simpa using hne)
      rw [hone]
      refine (appendPagesInner_live h₁ order _ false).conseq (fun _ h => h)
        (fun _ _ hs => ⟨hs.1, hm₁.trans hs.2⟩) (fun _ s hs => ?_) fun _ h => h
      -- the images of the group are applied, its appends are not
      refine ⟨W.length, Or.inl (by simp [hbatches, hone]), ?_⟩
      rw [hbatches, List.take_left]
      exact ⟨hs.1, (hm₁.trans hs.2).stable⟩
  rw [hbatches]
  refine Meets.bind (Q := fun _ => Shown base view (W ++ A) s₀)
    (Meets.when (fun _ => syncWal_meets fun s hs => ⟨trivial, ?_⟩) fun _ s hs => ?_)
    fun _ => Meets.pure fun _ h => h
  · have hlog : LogOnly s { s with wal := s.wal.onSegment s.wal.active fun seg =>
        { seg with file := seg.file.sync } } := ⟨rfl, rfl, rfl, rfl, Nat.le_refl _⟩
    exact ⟨hs.1.logOnly hlog, (hs.2.trans hlog.moves).stable⟩
  · exact ⟨hs.1, hs.2.stable⟩

/-- `flush_some_dirty`; it does nothing beside a background checkpoint. -/
theorem flushSomeDirty_live (budget : Nat) :
    Meets (fun s => s = s₀) (flushSomeDirty budget)
      (fun _ s => Flushes base view s₀ s ∧ (s₀.checkpointInFlight = true → s = s₀))
      (fun _ s => Flushes base view s₀ s ∧ (s₀.checkpointInFlight = true → s = s₀))
      (fun _ => True) := by
  unfold flushSomeDirty
  refine Meets.bind (Q := fun inFlight s => s = s₀ ∧ inFlight = s₀.checkpointInFlight)
    (Meets.read fun s hs => ⟨hs, by rw [hs]⟩) fun inFlight => ?_
  refine Meets.ite (fun _ => Meets.pure ?_) fun hf => ?_
  · rintro s ⟨rfl, -⟩
    exact ⟨⟨h, rfl, rfl⟩, fun _ => rfl⟩
  refine Meets.bind (Q := fun p s => s = s₀ ∧ s₀.checkpointInFlight = false ∧
    p = collectPending s₀.dirty s₀.flushed budget s₀.flushQueue) (Meets.read ?_) fun p => ?_
  · rintro s ⟨rfl, rfl⟩
    exact ⟨rfl, by simpa using hf, rfl⟩
  refine Meets.assuming (p := s₀.checkpointInFlight = false ∧
    p = collectPending s₀.dirty s₀.flushed budget s₀.flushQueue) (fun s hs => hs.2) ?_
  rintro ⟨hidle, rfl⟩
  have hbusy : ∀ s, s₀.checkpointInFlight = true → s = s₀ := fun s hin => by
    rw [hidle] at hin
    cases hin
  refine Meets.bind (Q := fun _ => Flushes base view s₀) (Meets.update ?_) fun _ => ?_
  · rintro s ⟨rfl, -⟩
    exact ⟨h.congr (fun _ => rfl) rfl rfl (Nat.le_refl _), rfl, rfl⟩
  refine Meets.bind (Q := fun _ => Flushes base view s₀) (Meets.forEach
    (I := fun _ _ => Flushes base view s₀) fun done page rest _ hsplit => ?_) fun _ =>
      Meets.pure fun s hs => ⟨hs, hbusy s⟩
  have hpage : s₀.dirty[page.id]? = some page := by
    obtain ⟨id, hid⟩ := mem_collectPending (by rw [hsplit]; simp : page ∈ _)
    rw [(h.dirty id page hid).1]
    exact hid
  unfold flushPage writeData
  refine Meets.bind (Q := fun _ s => ∃ s₁, Flushes base view s₀ s₁ ∧
    Placeable page.id ∧ s = { s₁ with data := s₁.data.write page }) ?_
    fun _ => Meets.update ?_
  · refine Meets.bind (Q := fun _ s => Flushes base view s₀ s ∧ Placeable page.id)
      (Meets.attempt (fun s hs offset ho => ⟨hs, placeable_of_writeOffset ho⟩)
        fun s hs _ _ => ⟨hs, hbusy s⟩) fun _ =>
          Meets.issue fun s hs => ⟨trivial, s, hs.1, hs.2, rfl⟩
  · rintro _ ⟨s₁, ⟨hlive, hdirty, hin⟩, hplace, rfl⟩
    exact ⟨hlive.flush (by rw [hdirty]; exact hpage) hplace, hdirty, hin⟩

theorem flushLoop_live (turns : Nat) :
    Meets (fun s => s = s₀) (flushLoop turns) (fun _ => Flushes base view s₀)
      (fun _ => Flushes base view s₀) (fun _ => True) := by
  induction turns generalizing s₀ with
  | zero =>
    refine Meets.pure ?_
    rintro s rfl
    exact ⟨h, rfl, rfl⟩
  | succ turns ih =>
    unfold flushLoop
    refine Meets.bind (Q := fun _ => Flushes base view s₀) ((flushSomeDirty_live h usizeMax).conseq
      (fun _ h => h) (fun _ _ hs => hs.1) (fun _ _ hs => hs.1) fun _ h => h) fun count => ?_
    refine Meets.when (fun _ => Meets.of_state fun s₁ hs₁ => ?_) fun _ s hs => hs
    obtain ⟨h₁, hdirty, hin⟩ := hs₁
    have htrans : ∀ s, Flushes base view s₁ s → Flushes base view s₀ s := fun s hs =>
      ⟨hs.1, hs.2.1.trans hdirty, hs.2.2.trans hin⟩
    exact (ih h₁).conseq (fun _ h => h) (fun _ s hs => htrans s hs) (fun _ s hs => htrans s hs)
      fun _ h => h

/-- `checkpoint_inner`. -/
theorem checkpointInner_live (order : HashOrder) :
    Meets (fun s => s = s₀) (checkpointInner order)
      (fun _ s => Live base view s ∧ Removes s₀ s)
      (fun _ s => Live base view s ∧ Removes s₀ s) (fun _ => True) := by
  have hfail : ∀ s, Flushes base view s₀ s → Live base view s ∧ Removes s₀ s := fun s hs =>
    ⟨hs.1, fun id page hd hnone => by rw [hs.2.1, hd] at hnone; cases hnone⟩
  unfold checkpointInner
  refine Meets.bind (Q := fun _ => Flushes base view s₀) (Meets.update ?_) fun _ => ?_
  · rintro s rfl
    exact ⟨h.congr (fun _ => rfl) rfl rfl (Nat.le_refl _), rfl, rfl⟩
  refine Meets.bind (Q := fun _ => Flushes base view s₀) (Meets.read fun s hs => hs) fun turns => ?_
  refine Meets.bind (Q := fun _ => Flushes base view s₀) (Meets.of_state fun s₁ h₁ => ?_)
    fun _ => ?_
  · have htrans : ∀ s, Flushes base view s₁ s → Flushes base view s₀ s := fun s hs =>
      ⟨hs.1, hs.2.1.trans h₁.2.1, hs.2.2.trans h₁.2.2⟩
    exact (flushLoop_live h₁.1 turns).conseq (fun _ h => h) (fun _ s hs => htrans s hs)
      (fun _ s hs => hfail s (htrans s hs)) fun _ h => h
  refine Meets.bind (Q := fun _ => Flushes base view s₀) (Meets.issue fun s hs => ⟨trivial, ?_⟩)
    fun _ => Meets.of_state fun s₁ h₁ => ?_
  · exact ⟨hs.1.congr (fun id => DataFile.read_sync s.data id) rfl rfl (Nat.le_refl _),
      hs.2.1, hs.2.2⟩
  refine Meets.bind ((append_logOnly .checkpoint s₁).conseq (fun s hs => hs ▸ LogOnly.refl s₁)
    (fun _ s hs => hs.1) (fun _ s hs => hfail s (h₁.logOnly hs)) fun _ h => h) fun lsn => ?_
  refine Meets.bind (syncWal_logOnly s₁) fun _ => ?_
  refine Meets.bind (resetAfterCheckpoint_logOnly s₁) fun _ => ?_
  refine Meets.bind (Q := fun _ s => Live base view s ∧ Removes s₀ s)
    (Meets.update fun s hs => ?_) fun _ => Meets.pure fun _ h => h
  have hlive := (h₁.logOnly hs).1
  have hforgets : Forgets s { s with
      dirty := s.dirty.filter fun id page => decide (s.flushed[id]? ≠ some page.lsn)
      flushed := ∅ } := hlive.dropFlushed rfl rfl rfl rfl
  refine ⟨hlive.forgets hforgets, fun id page hd hnone => hforgets.removes id page ?_ hnone⟩
  rw [(h₁.logOnly hs).2.1]
  exact hd

/-- `checkpoint`, which is refused beside a background checkpoint. -/
theorem checkpoint_live (order : HashOrder) :
    Meets (fun s => s = s₀) (DurableStore.checkpoint order)
      (fun _ s => Live base view s ∧ Stable s₀ s)
      (fun _ s => Live base view s ∧ Stable s₀ s) (fun _ => True) := by
  unfold DurableStore.checkpoint
  refine Meets.bind (refuseIfPoisoned_meets (R := fun s => s = s₀) (fun s hs _ => hs) ?_)
    fun _ => ?_
  · rintro s rfl _
    exact ⟨h, (Moves.refl s).stable⟩
  refine Meets.bind (Q := fun inFlight s => s = s₀ ∧ inFlight = s₀.checkpointInFlight)
    (Meets.read fun s hs => ⟨hs, by rw [hs]⟩) fun inFlight => ?_
  refine Meets.ite (fun ht => Meets.fail ?_) fun hf => ?_
  · rintro s ⟨rfl, -⟩
    exact ⟨h, (Moves.refl s).stable⟩
  refine Meets.assuming (p := s₀.checkpointInFlight = false) ?_ fun hidle => ?_
  · rintro s ⟨-, rfl⟩
    simpa using hf
  have hstable : ∀ s, Removes s₀ s → Stable s₀ s := fun s hs =>
    ⟨hs, fun hin => by rw [hidle] at hin; cases hin⟩
  refine poisonOnError_meets (((checkpointInner_live h order).pre fun s hs => hs.1).post
    fun _ s hs => ⟨hs.1, hstable s hs.2⟩) fun _ s hs => ?_
  exact ⟨hs.1.poison, (hstable s hs.2).poison⟩

/-- **Every call** that returns has its batches seen, and one that fails has a
proper prefix of them seen; neither needs any condition. -/
theorem call_live (call : Call) :
    Meets (fun s => s = s₀) call.prog (fun _ => Shown base view call.batches s₀)
      (fun _ => ShownPrefix base view call s₀) (fun _ => True) := by
  have hflushed : ∀ s, Flushes base view s₀ s ∧ (s₀.checkpointInFlight = true → s = s₀) →
      Live base view s ∧ Stable s₀ s := by
    rintro s ⟨⟨hlive, hdirty, -⟩, hsame⟩
    refine ⟨hlive, fun id page hd hnone => ?_, fun hin => ?_⟩
    · rw [hdirty, hd] at hnone
      cases hnone
    · rw [hsame hin]
      exact Moves.refl s₀
  cases call with
  | writePages writes durable => exact writePages_live h writes durable
  | appendPages order appends => exact appendPages_live h order appends
  | executeGroup order requests => exact executeGroup_live h order requests
  | flushSomeDirty budget =>
    refine Meets.bind (Q := fun _ => Shown base view (Call.flushSomeDirty budget).batches s₀)
      ((flushSomeDirty_live h budget).conseq (fun _ h => h) (fun _ s hs => hflushed s hs)
        (fun _ s hs => ?_) fun _ h => h) fun _ => Meets.pure fun _ h => h
    exact shownPrefix_zero (hflushed s hs).1 (hflushed s hs).2
  | paceFlush pages =>
    rintro s rfl
    show _ ∧ _ ∧ _
    unfold Call.prog
    simp only
    unfold DurableStore.paceFlush
    by_cases hz : pages = 0
    · rw [if_pos hz]
      exact ⟨by simp, fun _ _ => ⟨h, (Moves.refl s).stable⟩, fun e he => by cases he⟩
    · rw [if_neg hz]
      refine ⟨fun _ _ => trivial, fun _ _ => ?_, fun e he => by cases he⟩
      have hmeets := flushSomeDirty_live h pages
      cases hr : (DurableStore.flushSomeDirty pages s).result with
      | ok count => exact hflushed _ (hmeets.ok rfl hr)
      | error e => exact hflushed _ (hmeets.error rfl hr)
  | checkpoint order =>
    refine Meets.bind (Q := fun _ => Shown base view (Call.checkpoint order).batches s₀)
      ((checkpoint_live h order).conseq (fun _ h => h) (fun _ s hs => hs)
        (fun _ s hs => shownPrefix_zero hs.1 hs.2) fun _ h => h) fun _ => Meets.pure fun _ h => h

end

end

end QuantaDb
