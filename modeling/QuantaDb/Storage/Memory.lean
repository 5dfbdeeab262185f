import QuantaDb.Storage.LogSteps

/-!
# QuantaDb.Storage.Memory

The dirty table and the flush bookkeeping of an open store.

`MemInv mode G X s` says that a reader finds every page as the changes `G` make
it, in the dirty table or in the data file, and that no dirty page is forgotten
by the flusher: it is queued, or still open for appends, or already written, or
one of the pages `X` an operation has in hand.
-/

namespace QuantaDb

open Redo

/-! ## tables keyed by page -/

theorem getElem?_insert_page {β : Type} (t : Std.TreeMap PageId β) (k id : PageId) (v : β) :
    (t.insert k v)[id]? = if k = id then some v else t[id]? := by
  simp [Std.TreeMap.getElem?_insert]

theorem getElem?_erase_page {β : Type} (t : Std.TreeMap PageId β) (k id : PageId) :
    (t.erase k)[id]? = if k = id then none else t[id]? := by
  simp [Std.TreeMap.getElem?_erase]

structure MemInv (mode : Mode) (G : List CommittedWrite) (X : List PageId) (s : DurableStore) :
    Prop where
  dirty : ∀ id page, s.dirty[id]? = some page →
    page.id = id ∧ imageOf (onPage id G) = some page.stamped
  clean : ∀ id, s.dirty[id]? = none → Holds (s.data.slot id).current (imageOf (onPage id G))
  /-- a dirty page counts as flushed only while the data file holds that very page -/
  flushed : ∀ id lsn, s.flushed[id]? = some lsn → covers (imageOf (onPage id G)) lsn = true ∧
    ∀ page, s.dirty[id]? = some page → page.lsn = lsn →
      (s.data.slot id).current = some (.page page)
  queued : ∀ id page, s.dirty[id]? = some page →
    id ∈ s.flushQueue ∨ id ∈ s.openPages ∨ s.flushed[id]? = some page.lsn ∨ id ∈ X
  logged : mode.tears = true → ∀ id, s.dirty[id]? ≠ none → s.Logged id

variable {mode : Mode} {H : History} {n : Nat} {b G : List CommittedWrite} {X : List PageId}
variable {s s' : DurableStore}

/-! ## reading -/

/-- **What a caller reads** is what the history makes of the page. -/
theorem shows_of_inv (hlog : LogInv mode H n b s) (hmem : MemInv mode H.flatten X s) :
    s.Shows H.given := by
  intro id hp
  rw [contents_given hlog.proper]
  unfold DurableStore.readPage
  cases hd : s.dirty[id]? with
  | some page =>
    rw [(hmem.dirty id page hd).2]
    rfl
  | none =>
    by_cases hplace : Placeable id
    swap
    · -- no change was ever made to such a page
      rw [imageOf_of_not_placeable hlog.proper hplace]
      simp only [s.data.read_of_not_placeable hp hplace]
      rfl
    obtain ⟨hintact, himg⟩ := hmem.clean id hd
    have hleaves := Slot.leaves_current mode.tears (s.data.slot id)
    simp only [s.data.read_of_placeable hplace, DataFile.decode]
    cases hc : (s.data.slot id).current with
    | none =>
      rw [hc] at himg
      rw [← himg]
      rfl
    | some image =>
      cases image with
      | torn reason => exact absurd hc (hintact reason)
      | page page =>
        rw [hc] at himg hleaves
        rw [← himg]
        simp [hlog.slots.ids id page hleaves, Except.map, Page.stamped]

/-! ## the log grows -/

theorem Reads.of_concat {records : List WalRecord} {record : WalRecord} {L : History}
    (h : Reads (records ++ [record]) L) (hk : record.kind ≠ .checkpoint) :
    ∃ L₀, Reads records L₀ ∧ L₀ <+: L := by
  obtain ⟨pending, h⟩ := h
  obtain ⟨st, hst, hrun⟩ := Scan.run_prefix h
  have hpre := Scan.batches_prefix_of_run hrun (by simpa using hk)
  exact ⟨st.batches, ⟨st.pending, hst⟩, hpre⟩

theorem DurableStore.Logged.push {id : PageId} (h : s.Logged id) {kind : WalKind}
    (hk : kind ≠ .checkpoint) : (s.push kind).Logged id := by
  intro L hL
  rw [DurableStore.activeFile_push] at hL
  simp only [SegmentFile.append] at hL
  rw [← List.append_assoc] at hL
  obtain ⟨L₀, hL₀, rest, rfl⟩ := hL.of_concat hk
  rw [List.flatten_append, onPage_append]
  exact List.append_ne_nil_of_left_ne_nil (h L₀ hL₀) _

theorem DurableStore.Logged.synced {id : PageId} (h : s.Logged id)
    (ho : s.activeFile.stopped = false) : s.synced.Logged id := by
  intro L hL
  rw [DurableStore.activeFile_synced] at hL
  simp only [SegmentFile.sync, SegmentFile.stored, ho, Bool.false_eq_true, if_false,
    List.append_nil] at hL
  exact h L hL

/-- The changes of a logged batch that is not durable yet are in the log. -/
theorem LogInv.logged (h : LogInv mode (H ++ [b]) n [] s) (hn : n ≤ H.length) {w : CommittedWrite}
    (hw : w ∈ b) : s.Logged w.pageId := by
  intro L hL
  obtain ⟨La, ha⟩ := h.alone
  obtain ⟨pending, hall, -⟩ := ha.all
  rw [hL.unique ⟨pending, hall⟩, List.drop_append_of_le_length hn]
  simp only [List.flatten_append, List.flatten_singleton, onPage_append]
  intro hnil
  have hmem : w ∈ onPage w.pageId b := mem_onPage.mpr ⟨hw, rfl⟩
  simp only [List.append_eq_nil_iff] at hnil
  rw [hnil.2.2] at hmem
  cases hmem

/-- Only the tables, the data file and what the log holds matter. -/
theorem MemInv.congr (h : MemInv mode G X s) (hd : s'.data = s.data) (hdirty : s'.dirty = s.dirty)
    (hf : s'.flushed = s.flushed) (hq : s'.flushQueue = s.flushQueue)
    (ho : s'.openPages = s.openPages) (hl : ∀ id, s.Logged id → s'.Logged id) :
    MemInv mode G X s' := by
  refine ⟨hdirty ▸ h.dirty, ?_, ?_, ?_, fun ht id hne => hl id (h.logged ht id (hdirty ▸ hne))⟩
  · rw [hdirty, hd]; exact h.clean
  · rw [hdirty, hd, hf]; exact h.flushed
  · rw [hdirty, hf, hq, ho]; exact h.queued

theorem MemInv.push (h : MemInv mode G X s) {kind : WalKind} (hk : kind ≠ .checkpoint) :
    MemInv mode G X (s.push kind) :=
  h.congr rfl rfl rfl rfl rfl fun _ hl => hl.push hk

theorem MemInv.synced (h : MemInv mode G X s) (ho : s.activeFile.stopped = false) :
    MemInv mode G X s.synced :=
  h.congr rfl rfl rfl rfl rfl fun _ hl => hl.synced ho

/-! ## publishing and flushing -/

/-- A newer image of a page enters the dirty table. -/
theorem MemInv.publish (h : MemInv mode G X s) {page : Page} {G' : List CommittedWrite}
    (hother : ∀ id, page.id ≠ id → onPage id G' = onPage id G)
    (himg : imageOf (onPage page.id G') = some page.stamped)
    (hnew : covers (imageOf (onPage page.id G)) page.lsn = false)
    (hlogged : mode.tears = true → s.Logged page.id)
    (hd : s'.data = s.data) (hw : s'.wal = s.wal) (hdirty : s'.dirty = s.dirty.insert page.id page)
    (hf : s'.flushed = s.flushed) (hq : ∀ id ∈ s.flushQueue, id ∈ s'.flushQueue)
    (ho : ∀ id, page.id ≠ id → id ∈ s.openPages → id ∈ s'.openPages)
    (hin : page.id ∈ s'.flushQueue ∨ page.id ∈ s'.openPages) : MemInv mode G' X s' := by
  have hfiles : ∀ id, s'.Logged id ↔ s.Logged id := fun id => by
    simp [DurableStore.Logged, DurableStore.activeFile, hw]
  refine ⟨?_, ?_, ?_, ?_, ?_⟩
  · intro id q hq'
    rw [hdirty, getElem?_insert_page] at hq'
    split at hq'
    · next heq =>
      cases hq'
      subst heq
      exact ⟨rfl, himg⟩
    · next hne =>
      rw [hother id hne]
      exact h.dirty id q hq'
  · intro id hnone
    rw [hdirty, getElem?_insert_page] at hnone
    split at hnone
    · cases hnone
    · next hne =>
      rw [hother id hne, hd]
      exact h.clean id hnone
  · intro id lsn hl
    rw [hf] at hl
    obtain ⟨hcov, hcur⟩ := h.flushed id lsn hl
    by_cases hne : page.id = id
    · subst hne
      -- the new image has a larger number than anything flushed before
      have hlt : lsn < page.lsn := by
        cases hold : imageOf (onPage page.id G) with
        | none => rw [hold] at hcov; cases hcov
        | some old =>
          rw [hold] at hcov hnew
          simp only [covers_some, decide_eq_true_eq, decide_eq_false_iff_not] at hcov hnew
          omega
      refine ⟨?_, fun q hq' heq => ?_⟩
      · rw [himg]
        simp only [Page.stamped, covers_some, decide_eq_true_eq]
        omega
      · rw [hdirty, getElem?_insert_page, if_pos rfl] at hq'
        cases hq'
        omega
    · rw [hother id hne, hd, hdirty, getElem?_insert_page, if_neg hne]
      exact ⟨hcov, hcur⟩
  · intro id q hq'
    by_cases hne : page.id = id
    · subst hne
      rcases hin with hin | hin
      · exact Or.inl hin
      · exact Or.inr (Or.inl hin)
    · rw [hdirty, getElem?_insert_page, if_neg hne] at hq'
      rw [hf]
      rcases h.queued id q hq' with hin | hin | hin | hin
      · exact Or.inl (hq id hin)
      · exact Or.inr (Or.inl (ho id hne hin))
      · exact Or.inr (Or.inr (Or.inl hin))
      · exact Or.inr (Or.inr (Or.inr hin))
  · intro ht id hne
    rw [hfiles]
    by_cases hid : page.id = id
    · exact hid ▸ hlogged ht
    · rw [hdirty, getElem?_insert_page, if_neg hid] at hne
      exact h.logged ht id hne

/-- A dirty page in hand is written to the data file. -/
theorem MemInv.flush (h : MemInv mode G (page.id :: X) s) (hd : s.dirty[page.id]? = some page) :
    MemInv mode G X { s with
      data := s.data.write page, flushed := s.flushed.insert page.id page.lsn } := by
  have himg := (h.dirty _ _ hd).2
  refine ⟨h.dirty, ?_, ?_, ?_, h.logged⟩
  · intro id hnone
    have hne : page.id ≠ id := by
      rintro rfl
      rw [hd] at hnone
      cases hnone
    simp only [DataFile.slot_write_of_ne _ hne]
    exact h.clean id hnone
  · intro id lsn hl
    simp only [getElem?_insert_page] at hl
    by_cases hne : page.id = id
    · subst hne
      rw [if_pos rfl] at hl
      cases hl
      refine ⟨by rw [himg]; simp [Page.stamped], fun q hq _ => ?_⟩
      rw [hd] at hq
      cases hq
      simp
    · rw [if_neg hne] at hl
      simp only [DataFile.slot_write_of_ne _ hne]
      exact h.flushed id lsn hl
  · intro id q hq
    simp only [getElem?_insert_page]
    by_cases hne : page.id = id
    · subst hne
      rw [hd] at hq
      cases hq
      simp
    · rw [if_neg hne]
      rcases h.queued id q hq with hin | hin | hin | hin
      · exact Or.inl hin
      · exact Or.inr (Or.inl hin)
      · exact Or.inr (Or.inr (Or.inl hin))
      · rcases List.mem_cons.mp hin with heq | hin
        · exact absurd heq.symm hne
        · exact Or.inr (Or.inr (Or.inr hin))

end QuantaDb
