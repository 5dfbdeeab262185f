import QuantaDb.Storage.Appends

/-!
# QuantaDb.Storage.Flush

`flush_some_dirty`: dirty pages go to the data file, ahead of the checkpoint
that will sync it.

A page may be flushed once every batch that changed it is durable
(`flushSomeDirty_meets`); then whatever a power failure leaves in its slot, the
log can redo.  Flushing everything leaves every page of the history in the data
file (`flushLoop_meets`).
-/

namespace QuantaDb

open Redo Crash DurableStore

variable {mode : Mode} {H : History} {n : Nat} {b G : List CommittedWrite} {X : List PageId}
variable {s : DurableStore}

/-! ## choosing the pages -/

variable {page : Page}

/-- Every page collected is the dirty page of its slot. -/
theorem mem_collectPending {dirty : Std.TreeMap PageId Page} {flushed : Std.TreeMap PageId Nat}
    {budget : Nat} {queue : List PageId}
    (h : page ∈ (collectPending dirty flushed budget queue).1) :
    ∃ id : PageId, dirty[id]? = some page := by
  fun_induction collectPending dirty flushed budget queue with
  | case1 queue => cases h
  | case2 budget => cases h
  | case3 budget id queue hnone ih => exact ih h
  | case4 budget id queue q hq hfl ih => exact ih h
  | case5 budget id queue q hq hfl pages rest hrec ih =>
    rcases List.mem_cons.mp h with rfl | h
    · exact ⟨id, hq⟩
    · exact ih (by rw [hrec]; exact h)

/-- A queued page is collected, stays queued, or needs no flush. -/
theorem collectPending_cases {dirty : Std.TreeMap PageId Page} {flushed : Std.TreeMap PageId Nat}
    {budget : Nat} {queue : List PageId} {id : PageId} (hid : id ∈ queue) {page : Page}
    (hd : dirty[id]? = some page) :
    id ∈ (collectPending dirty flushed budget queue).2 ∨ flushed[id]? = some page.lsn ∨
      page ∈ (collectPending dirty flushed budget queue).1 := by
  fun_induction collectPending dirty flushed budget queue with
  | case1 queue => exact Or.inl hid
  | case2 budget => cases hid
  | case3 budget id' queue hnone ih =>
    rcases List.mem_cons.mp hid with rfl | hid
    · rw [hnone] at hd; cases hd
    · exact ih hid
  | case4 budget id' queue q hq hfl ih =>
    rcases List.mem_cons.mp hid with rfl | hid
    · rw [hq] at hd
      cases hd
      exact Or.inr (Or.inl hfl)
    · exact ih hid
  | case5 budget id' queue q hq hfl pages rest hrec ih =>
    rw [hrec] at ih
    rcases List.mem_cons.mp hid with rfl | hid
    · rw [hq] at hd
      cases hd
      exact Or.inr (Or.inr List.mem_cons_self)
    · rcases ih hid with h | h | h
      · exact Or.inl h
      · exact Or.inr (Or.inl h)
      · exact Or.inr (Or.inr (List.mem_cons_of_mem _ h))

/-- Collecting uses up the queue: all of it if nothing was found, and some of it
if something was. -/
theorem collectPending_rest {dirty : Std.TreeMap PageId Page} {flushed : Std.TreeMap PageId Nat}
    {budget : Nat} {queue : List PageId} (hb : 0 < budget) :
    ((collectPending dirty flushed budget queue).1 = [] →
        (collectPending dirty flushed budget queue).2 = []) ∧
      (collectPending dirty flushed budget queue).2.length ≤ queue.length ∧
      ((collectPending dirty flushed budget queue).1 ≠ [] →
        (collectPending dirty flushed budget queue).2.length < queue.length) := by
  have hle : ∀ budget queue,
      (collectPending dirty flushed budget queue).2.length ≤ queue.length := by
    intro budget queue
    fun_induction collectPending dirty flushed budget queue with
    | case1 queue => exact Nat.le_refl _
    | case2 budget => exact Nat.le_refl _
    | case3 budget id queue hnone ih => exact Nat.le_succ_of_le ih
    | case4 budget id queue q hq hfl ih => exact Nat.le_succ_of_le ih
    | case5 budget id queue q hq hfl pages rest hrec ih =>
      rw [hrec] at ih
      exact Nat.le_succ_of_le ih
  refine ⟨?_, hle budget queue, ?_⟩
  · intro hnil
    fun_induction collectPending dirty flushed budget queue with
    | case1 queue => omega
    | case2 budget => rfl
    | case3 budget id queue hnone ih => exact ih (by omega) hnil
    | case4 budget id queue q hq hfl ih => exact ih (by omega) hnil
    | case5 budget id queue q hq hfl pages rest hrec ih => cases hnil
  · intro hne
    fun_induction collectPending dirty flushed budget queue with
    | case1 queue => omega
    | case2 budget => exact absurd rfl hne
    | case3 budget id queue hnone ih => exact Nat.lt_succ_of_lt (ih (by omega) hne)
    | case4 budget id queue q hq hfl ih => exact Nat.lt_succ_of_lt (ih (by omega) hne)
    | case5 budget id queue q hq hfl pages rest hrec ih =>
      have := hle budget queue
      rw [hrec] at this
      exact Nat.lt_succ_of_le this

/-! ## one page -/

/-- A dirty page whose batches are all durable may go to the data file. -/
theorem LogInv.flush (h : LogInv mode H n [] s) (hm : MemInv mode H.flatten X s)
    (hd : s.dirty[page.id]? = some page) (hsafe : onPage page.id (H.drop n).flatten = []) :
    LogInv mode H n [] { s with data := s.data.write page } := by
  have himg := (hm.dirty _ _ hd).2
  have hsplit : onPage page.id H.flatten = onPage page.id (H.take n).flatten := by
    conv => lhs; rw [← List.take_append_drop n H, List.flatten_append, onPage_append, hsafe,
      List.append_nil]
  refine h.write_data (placeable_of_image h.proper himg) fun E L hE hv => ⟨?_, fun ht => ?_⟩
  · rw [hsplit] at himg
    rw [← himg]
    exact Redo.Rebuilds.of_latest (onPage_sublist hv.tail.sub page.id)
  · have hE' : E = [] := by
      rw [h.single (Mode.rotates_of_tears ht)] at hE
      simpa using SegmentFile.leaves_settled hE
    obtain ⟨pending, hall, -⟩ := hv.tail.all
    rw [hE', List.nil_append] at hall
    have := hm.logged ht page.id (by rw [hd]; simp) _ ⟨pending, hall⟩
    rwa [List.flatten_append, onPage_append, hsafe, List.append_nil] at this

/-- `DataFile::write` on a page that has a place. -/
theorem writeData_meets {P : DurableStore → Prop} {Q : Unit → DurableStore → Prop}
    {E : StorageError → DurableStore → Prop} {C : Disk → Prop} (hp : ∀ s, P s → Placeable page.id)
    (h : ∀ s, P s → C (DurableStore.disk { s with data := s.data.write page }) ∧
      Q () { s with data := s.data.write page }) : Meets P (writeData page) Q E C := by
  unfold writeData
  refine Meets.bind (Q := fun _ => P) (Meets.attempt (fun s hs _ _ => hs) ?_) fun _ =>
    Meets.issue h
  intro s hs e he
  rw [writeOffset_of_placeable (hp s hs)] at he
  cases he

/-- The part of the store a flush leaves alone. -/
structure FlushFrame (s₀ s : DurableStore) : Prop where
  wal : s.wal = s₀.wal
  dirty : s.dirty = s₀.dirty
  openPages : s.openPages = s₀.openPages
  inFlight : s.checkpointInFlight = s₀.checkpointInFlight

variable {s₀ : DurableStore}

theorem flushPage_meets {queue : List PageId} (hd : s₀.dirty[page.id]? = some page)
    (hsafe : onPage page.id (H.drop n).flatten = []) :
    Meets (fun s => LogInv mode H n [] s ∧ MemInv mode H.flatten (page.id :: X) s ∧
        FlushFrame s₀ s ∧ s.flushQueue = queue) (flushPage page)
      (fun _ s => LogInv mode H n [] s ∧ MemInv mode H.flatten X s ∧ FlushFrame s₀ s ∧
        s.flushQueue = queue)
      (fun _ _ => False) (Keeps mode H.given n) := by
  unfold flushPage
  refine Meets.bind (Q := fun _ s' => ∃ s, (LogInv mode H n [] s ∧
      MemInv mode H.flatten (page.id :: X) s ∧ FlushFrame s₀ s ∧ s.flushQueue = queue) ∧
      s' = { s with data := s.data.write page })
    (writeData_meets ?_ ?_) fun _ => Meets.update ?_
  · rintro s ⟨hlog, hmem, hfr, -⟩
    rw [← hfr.dirty] at hd
    exact placeable_of_image hlog.proper (hmem.dirty _ _ hd).2
  · rintro s ⟨hlog, hmem, hfr, hq⟩
    have hd' := hd
    rw [← hfr.dirty] at hd'
    exact ⟨(hlog.flush hmem hd' hsafe).keeps (List.prefix_refl _), s, ⟨hlog, hmem, hfr, hq⟩, rfl⟩
  · rintro _ ⟨s, ⟨hlog, hmem, hfr, hq⟩, rfl⟩
    rw [← hfr.dirty] at hd
    exact ⟨(hlog.flush hmem hd hsafe).congr rfl rfl rfl rfl fun _ h => h, hmem.flush hd,
      ⟨hfr.wal, hfr.dirty, hfr.openPages, hfr.inFlight⟩, hq⟩

/-! ## flushing -/

/-- **`flush_some_dirty`** writes dirty pages to the data file, if every batch
that changed them is durable. -/
theorem flushSomeDirty_meets (hinv : Inv mode H n s₀) (budget : Nat)
    (hsafe : s₀.checkpointInFlight = false →
      ∀ page ∈ (collectPending s₀.dirty s₀.flushed budget s₀.flushQueue).1,
        onPage page.id (H.drop n).flatten = []) :
    Meets (fun s => s = s₀) (flushSomeDirty budget)
      (fun count s => Inv mode H n s ∧ FlushFrame s₀ s ∧
        (s₀.checkpointInFlight = true → s = s₀) ∧
        (s₀.checkpointInFlight = false →
          count = (collectPending s₀.dirty s₀.flushed budget s₀.flushQueue).1.length ∧
          s.flushQueue = (collectPending s₀.dirty s₀.flushed budget s₀.flushQueue).2))
      (fun _ _ => False) (Keeps mode H.given n) := by
  unfold flushSomeDirty
  refine Meets.bind (Q := fun inFlight s => s = s₀ ∧ inFlight = s₀.checkpointInFlight)
    (Meets.read fun s hs => ⟨hs, by rw [hs]⟩) fun inFlight => ?_
  refine Meets.ite (fun ht => Meets.pure ?_) fun hf => ?_
  · rintro s ⟨rfl, rfl⟩
    exact ⟨hinv, ⟨rfl, rfl, rfl, rfl⟩, fun _ => rfl, fun h => by rw [h] at ht; cases ht⟩
  obtain ⟨pending, rest, hcollect⟩ : ∃ pending rest,
      collectPending s₀.dirty s₀.flushed budget s₀.flushQueue = (pending, rest) := ⟨_, _, rfl⟩
  rw [hcollect] at hsafe ⊢
  refine Meets.bind (Q := fun p s => (s = s₀ ∧ inFlight = s₀.checkpointInFlight) ∧
    p = (pending, rest)) (Meets.read ?_) fun p => ?_
  · rintro s ⟨rfl, hi⟩
    exact ⟨⟨rfl, hi⟩, hcollect⟩
  refine Meets.assuming (p := p = (pending, rest) ∧ s₀.checkpointInFlight = false)
    (fun s h => ⟨h.2, by rw [← h.1.2]; simpa using hf⟩) ?_
  rintro ⟨rfl, hflight⟩
  have hpage : ∀ page ∈ pending, s₀.dirty[page.id]? = some page := by
    intro page hin
    obtain ⟨id, hid⟩ := mem_collectPending (by rw [hcollect]; exact hin)
    rw [(hinv.mem.dirty id page hid).1]
    exact hid
  refine Meets.bind (Q := fun _ s => LogInv mode H n [] s ∧
    MemInv mode H.flatten (pending.map Page.id) s ∧ FlushFrame s₀ s ∧ s.flushQueue = rest)
    (Meets.update ?_) fun _ => ?_
  · rintro s ⟨⟨rfl, -⟩, -⟩
    refine ⟨hinv.log.congr rfl rfl rfl rfl fun _ h => h, { hinv.mem with
      queued := fun id page hd => ?_ }, ⟨rfl, rfl, rfl, rfl⟩, rfl⟩
    rcases hinv.mem.queued id page hd with hin | hin | hin | hin
    · have := @collectPending_cases _ s.flushed budget _ _ hin _ hd
      rw [hcollect] at this
      rcases this with h | h | h
      · exact Or.inl h
      · exact Or.inr (Or.inr (Or.inl h))
      · refine Or.inr (Or.inr (Or.inr ?_))
        rw [← (hinv.mem.dirty id page hd).1]
        exact List.mem_map_of_mem h
    · exact Or.inr (Or.inl hin)
    · exact Or.inr (Or.inr (Or.inl hin))
    · cases hin
  have hloop := Meets.forEach (l := pending) (f := flushPage) (E := fun _ _ => False)
    (C := Keeps mode H.given n)
    (I := fun done _ s => LogInv mode H n [] s ∧
      MemInv mode H.flatten ((pending.drop done.length).map Page.id) s ∧ FlushFrame s₀ s ∧
      s.flushQueue = rest)
    (fun done page todo _ hsplit => by
      have hin : page ∈ pending := by rw [hsplit]; simp
      have hdrop : pending.drop done.length = page :: todo := by
        rw [hsplit, List.drop_left]
      have hdrop' : pending.drop (done ++ [page]).length = todo := by
        rw [hsplit, List.length_append, List.length_singleton, ← List.drop_drop, List.drop_left]
        rfl
      simp only [hdrop, hdrop', List.map_cons]
      exact flushPage_meets (hpage page hin) (hsafe hflight page hin))
  refine Meets.bind (hloop.pre fun s h => by simpa using h) fun _ => Meets.pure ?_
  rintro s ⟨hlog, hmem, hfr, hq⟩
  rw [List.drop_length, List.map_nil] at hmem
  exact ⟨⟨hlog, hmem⟩, hfr, fun h => absurd (hflight.symm.trans h) (by simp), fun _ => ⟨rfl, hq⟩⟩

/-- The flush loop of a checkpoint drains the queue. -/
theorem flushLoop_meets (turns : Nat) (hinv : Inv mode H H.length s₀)
    (hf : s₀.checkpointInFlight = false) (ht : s₀.flushQueue.length < turns) :
    Meets (fun s => s = s₀) (flushLoop turns)
      (fun _ s => Inv mode H H.length s ∧ FlushFrame s₀ s ∧ s.flushQueue = [])
      (fun _ _ => False) (Keeps mode H.given H.length) := by
  induction turns generalizing s₀ with
  | zero => omega
  | succ turns ih =>
    unfold flushLoop
    have hrest := @collectPending_rest s₀.dirty s₀.flushed usizeMax s₀.flushQueue (by decide)
    refine Meets.bind (flushSomeDirty_meets hinv usizeMax fun _ page _ => by simp)
      fun count => Meets.of_state ?_
    rintro s ⟨hi, hfr, -, hcount⟩
    obtain ⟨hc, hq⟩ := hcount hf
    refine Meets.when (fun hpos => ?_) (fun hzero => ?_)
    · refine (ih hi (hfr.inFlight.trans hf) ?_).post ?_
      · have hne : (collectPending s₀.dirty s₀.flushed usizeMax s₀.flushQueue).1 ≠ [] := by
          intro hnil
          rw [hnil] at hc
          simp [hc] at hpos
        rw [hq]
        have := hrest.2.2 hne
        omega
      · rintro _ s' ⟨hi', hfr', hq'⟩
        exact ⟨hi', ⟨hfr'.wal.trans hfr.wal, hfr'.dirty.trans hfr.dirty,
          hfr'.openPages.trans hfr.openPages, hfr'.inFlight.trans hfr.inFlight⟩, hq'⟩
    · rintro _ rfl
      refine ⟨hi, hfr, ?_⟩
      rw [hq]
      refine hrest.1 (List.length_eq_zero_iff.mp ?_)
      rw [← hc]
      simpa using hzero

end QuantaDb
