import QuantaDb.Storage.Durability

/-!
# QuantaDb.Storage.Rotation

What survives a crash when the log is rotated under running batches.

* `rotated_run_agrees` — a relaxed batch is durable once a later durable one has
  returned, if the log is only rotated with no unsynced batch in it;
* `sealed_crash_reads_back` — once a background checkpoint has sealed the retired
  segment, a crash loses nothing, if no append went to a page the checkpoint had
  listed and not read.

`Wal::sync` reaches the active segment only, so a rotation strands an unsynced
batch (`rotation_strands_relaxed_batch`); and the checkpoint skips a page that
changed under it although an append needs the skipped part
(`skipped_append_loses_base`).
-/

namespace QuantaDb

open Redo Crash DurableStore

/-- Crashes, reopening, calls from `ok`, and background steps from `bg`. -/
def WithRotation (ok : DurableStore → Option BackgroundCheckpoint → Call → Prop)
    (bg : DurableStore → Label → Prop) : Node → Label → Prop
  | .down _, .reopened => True
  | .down _, .haltedOpening => True
  | .down _, .lostPower => True
  | .up s job, .returned call => ok s job call
  | .up s job, .failed call => ok s job call
  | .up s job, .halted call => ok s job call
  | .up _ _, .closed => True
  | .up s _, label => label.isBackground = true ∧ bg s label
  | _, _ => False

variable {s : DurableStore} {job : Option BackgroundCheckpoint} {call : Call}

theorem WithRotation.ok_of_call {ok : DurableStore → Option BackgroundCheckpoint → Call → Prop}
    {bg : DurableStore → Label → Prop} {label : Label} (h : WithRotation ok bg (.up s job) label)
    (hl : label = .returned call ∨ label = .failed call ∨ label = .halted call) :
    ok s job call := by
  rcases hl with rfl | rfl | rfl <;> exact h

theorem WithRotation.bg_of_background
    {ok : DurableStore → Option BackgroundCheckpoint → Call → Prop}
    {bg : DurableStore → Label → Prop} {label : Label} (h : WithRotation ok bg (.up s job) label)
    (hb : label.isBackground = true) :
    bg s label := by
  cases label <;> first | exact h.2 | cases hb

/-- A batch of images or appends. -/
def BatchCall : Call → Prop
  | .writePages _ _ => True
  | .appendPages _ _ => True
  | _ => False

variable {H : History} {n : Nat}

/-- Where no page tears, a batch is safe at any time. -/
theorem BatchCall.safe {mode : Mode} (h : BatchCall call) (hloggable : call.Loggable)
    (htears : mode.tears = false) :
    call.Safe mode H n s := by
  refine ⟨hloggable, ?_⟩
  cases call with
  | writePages writes durable => trivial
  | appendPages order appends =>
    intro ht
    rw [htears] at ht
    cases ht
  | _ => exact h.elim

/-! ## rotation and relaxed batches -/

/-- Rotation, while no batch commit waits for a sync of the active segment. -/
def RotatesSynced (s : DurableStore) : Label → Prop
  | .began => commits s.activeFile.written = 0
  | _ => False

/-- If no commit record is unsynced, every batch is durable. -/
theorem LogInv.durable_of_commits {mode : Mode} {b : List CommittedWrite}
    (h : LogInv mode H n b s) (hc : commits s.activeFile.written = 0) :
    n = H.length := by
  obtain ⟨La, ha⟩ := h.alone
  obtain ⟨pending, hall, -⟩ := ha.all
  obtain ⟨-, hreads⟩ := ha.reads_take h.durable h.noCheckpoint s.activeFile.written.length
  rw [List.take_length, hc, Nat.add_zero] at hreads
  have hL := hreads.unique ⟨pending, hall⟩
  have hlen := congrArg List.length hL
  simp only [List.length_append, List.length_drop, List.length_take] at hlen
  have := h.durable
  omega

theorem rotated_discipline : Discipline .rotating
    (WithRotation (fun _ _ call => BatchCall call ∧ call.Loggable) RotatesSynced)
    fun _ _ _ _ => True where
  opened _ _ _ := trivial
  safe := by
    rintro H n s job label call hallowed hl hinv -
    obtain ⟨hbatch, hloggable⟩ := hallowed.ok_of_call hl
    exact hbatch.safe hloggable rfl
  returned _ _ _ _ _ _ := trivial
  failed _ _ _ _ _ _ _ := trivial
  background := by
    rintro H n s job label s' job' hallowed hb hstep hinv -
    have hbg := hallowed.bg_of_background hb
    cases hstep with
    | «return» => cases hb
    | fail => cases hb
    | begin order job hok =>
      obtain ⟨hrot, hidle, hs', -⟩ := (begin_meets s order).ok rfl hok
      obtain rfl := hinv.log.durable_of_commits hbg
      rw [hs']
      exact ⟨hinv.rotated rfl hrot hidle, trivial⟩
    | run => exact hbg.elim
    | complete => exact hbg.elim
    | abort => exact hbg.elim

/-- **A relaxed batch becomes durable with the next durable one**, in every run of
batches and rotations that rotates with no unsynced batch in the active segment. -/
theorem rotated_run_agrees {labels : List Label} {node : Node}
    (hrun : Run false (WithRotation (fun _ _ call => BatchCall call ∧ call.Loggable)
      RotatesSynced) labels node)
    (hroom : ∀ d, node = .down d → d.HasRoom) : ∃ l, Ledger.Runs labels l ∧ node.Agrees l := by
  obtain ⟨l, hruns, hinv⟩ := rotated_discipline.run hrun
  exact ⟨l, hruns, hinv.agrees fun _ => hroom⟩

/-- A disk whose data file is empty and whose log is short has room. -/
theorem Disk.hasRoom_of_empty {d : Disk} (hdata : d.data.slots.isEmpty = true)
    (hlsn : (Wal.attach d.segments).1.nextLsn + 1 < 2 ^ 64)
    (hend : ((Wal.attach d.segments).1.segments (Wal.attach d.segments).1.active).endOffset +
      WalKind.checkpoint.recordLength + 2 ^ 26 ≤ maxFileLength) : d.HasRoom := by
  refine fun _ => ⟨hlsn, hend, fun id page hc => ?_⟩
  simp [DataFile.slot, Std.TreeMap.getElem?_of_isEmpty hdata, Slot.current] at hc

/-- The store after a relaxed image, a durable one, a rotation and another
durable one. -/
def afterRotation : DurableStore :=
  ((Call.writePages [⟨2, [67]⟩] true).prog (beginBackgroundCheckpoint .sorted
    ((Call.writePages [⟨1, [66]⟩] true).prog
      ((Call.writePages [⟨0, [65]⟩] false).prog fresh).state).state).state).state

theorem rotated_run_agrees_after_sync : ∃ l, Ledger.Runs [.lostPower, .closed,
      .returned (.writePages [⟨2, [67]⟩] true), .began,
      .returned (.writePages [⟨1, [66]⟩] true), .returned (.writePages [⟨0, [65]⟩] false),
      .reopened] l ∧ (Node.down afterRotation.disk.keepSynced).Agrees l :=
  rotated_run_agrees (.crash (.step (.step (.step (.step (.fresh trivial)
      ⟨trivial, by decide⟩
        (.return (.writePages [⟨0, [65]⟩] false) (by decide +kernel)))
      ⟨trivial, by decide⟩
        (.return (.writePages [⟨1, [66]⟩] true) (by decide +kernel)))
      ⟨rfl, show commits _ = 0 by decide +kernel⟩
      (.begin .sorted _ (eq_ok_jobOf (by decide +kernel))))
      ⟨trivial, by decide⟩
        (.return (.writePages [⟨2, [67]⟩] true) (by decide +kernel))) trivial trivial
      (Disk.crash_keepSynced _ _)) fun d hd => by
    obtain rfl := Node.down.inj hd
    exact Disk.hasRoom_of_empty (by decide +kernel) (by decide +kernel) (by decide +kernel)

/-- A relaxed batch left unsynced in the segment that is retired is lost, although
the durable batch behind it is kept. -/
theorem rotation_strands_relaxed_batch : ∃ labels d,
    Run false (WithRotation (fun _ _ call => BatchCall call ∧ call.Loggable)
      fun _ label => label = .began) labels (.down d) ∧ d.HasRoom ∧
      ¬ ∃ l, Ledger.Runs labels l ∧ (Node.down d).Agrees l := by
  let relaxed : Call := .writePages [⟨0, [65]⟩] false
  let durable : Call := .writePages [⟨1, [66]⟩] true
  let s₁ := (relaxed.prog fresh).state
  let s₂ := (beginBackgroundCheckpoint .sorted s₁).state
  let s₃ := (durable.prog s₂).state
  refine ⟨_, s₃.disk.keepSynced, .crash (.step (.step (.step (.fresh trivial)
      ⟨trivial, by decide⟩
        (.return relaxed (by decide +kernel)))
      ⟨rfl, rfl⟩ (.begin .sorted _ (eq_ok_jobOf (by decide +kernel))))
      ⟨trivial, by decide⟩
        (.return durable (by decide +kernel))) trivial trivial (Disk.crash_keepSynced _ _),
    Disk.hasRoom_of_empty (by decide +kernel) (by decide +kernel) (by decide +kernel), ?_⟩
  rintro ⟨l, hruns, hagrees⟩
  obtain ⟨count, hge, hle, hshows⟩ := hruns.shows_prefix [.closed, .returned durable, .began,
    .returned relaxed] rfl hagrees
  obtain rfl : count = 2 := Nat.le_antisymm hle hge
  have hread := hshows 0 (by decide)
  exact absurd hread (by decide +kernel)

/-! ## checkpoints beside running batches -/

/-- A batch that is durable when it returns. -/
def DurableBatch : Call → Prop
  | .writePages _ durable => durable = true
  | .appendPages _ _ => True
  | _ => False

theorem DurableBatch.durableCall (h : DurableBatch call) : DurableCall call := by
  cases call <;> first | exact h | exact h.elim

theorem DurableBatch.batchCall (h : DurableBatch call) : BatchCall call := by
  cases call <;> trivial

/-- No append goes to a page that the running checkpoint exposes. -/
def Call.SparesExposed (s : DurableStore) (job : Option BackgroundCheckpoint) : Call → Prop
  | .appendPages _ appends => ∀ j, job = some j → ∀ append ∈ appends, ¬ j.Exposes s append.pageId
  | _ => True

/-- The steps of a background checkpoint that runs to its end. -/
def RunsCheckpoint (_ : DurableStore) (label : Label) : Prop := label ≠ .aborted

/-- Durable batches that spare the pages the checkpoint has yet to read. -/
def SafeBesideCheckpoint (s : DurableStore) (job : Option BackgroundCheckpoint) (call : Call) :
    Prop :=
  DurableBatch call ∧ call.Loggable ∧ call.SparesExposed s job

/-- Every batch is durable, and the checkpoint, if there is one, keeps its
invariant. -/
def CheckpointInv (H : History) (n : Nat) (s : DurableStore) (job : Option BackgroundCheckpoint) :
    Prop :=
  n = H.length ∧ match job with
    | none => s.checkpointInFlight = false ∧ s.spareFile = {}
    | some job => JobInv .rotating H s job

theorem CheckpointInv.frame {s' : DurableStore} {bs : History} (h : CheckpointInv H n s job)
    (hinv : Inv .rotating H n s) (hinv' : Inv .rotating (H ++ bs) (H ++ bs).length s')
    (hframe : CallFrame s bs s')
    (hsafe : ∀ j, job = some j → ∀ id, j.Exposes s id → onPage id bs.flatten = [] ∨
      ∃ w ∈ bs.flatten, w.pageId = id ∧ w.appendAt = none) :
    CheckpointInv (H ++ bs) (H ++ bs).length s' job := by
  refine ⟨rfl, ?_⟩
  cases job with
  | none => exact ⟨hframe.inFlight.trans h.2.1, hframe.spare h.2.2⟩
  | some j =>
    have hjob : JobInv .rotating H s j := h.2
    exact hjob.frame hinv hinv' (hframe.frame hjob.inFlight) (hsafe j rfl)

theorem batch_of_given {bs : History} {changes : Batch} (h : bs.given = Call.batch changes) :
    bs.flatten.map CommittedWrite.change = changes := by
  rw [List.map_flatten]
  unfold History.given at h
  rw [h, Call.batch]
  split
  · next hnil => rw [hnil]; rfl
  · simp

/-- Images replace the pages they touch, and appends spare the exposed ones. -/
theorem SafeBesideCheckpoint.spares (h : SafeBesideCheckpoint s job call) {bs : History}
    (hbs : bs.given = call.batches) {j : BackgroundCheckpoint} (hj : job = some j) {id : PageId}
    (hid : j.Exposes s id) :
    onPage id bs.flatten = [] ∨ ∃ w ∈ bs.flatten, w.pageId = id ∧ w.appendAt = none := by
  by_cases hnil : onPage id bs.flatten = []
  · exact Or.inl hnil
  obtain ⟨w, hw⟩ := List.exists_mem_of_ne_nil _ hnil
  obtain ⟨hwb, rfl⟩ := mem_onPage.mp hw
  refine Or.inr ⟨w, hwb, rfl, ?_⟩
  obtain ⟨hbatch, -, hspare⟩ := h
  have hmem : ∀ {changes : Batch}, bs.given = Call.batch changes → w.change ∈ changes := by
    intro changes hg
    rw [← batch_of_given hg]
    exact List.mem_map_of_mem hwb
  cases call with
  | writePages writes durable =>
    obtain ⟨write, -, heq⟩ := List.mem_map.mp (hmem hbs)
    exact (congrArg Change.appendAt heq).symm
  | appendPages order appends =>
    obtain ⟨append, ha, heq⟩ := List.mem_map.mp (hmem hbs)
    have hpage : append.pageId = w.pageId := congrArg Change.pageId heq
    exact absurd (hpage ▸ hid) (hspare j hj append ha)
  | _ => exact hbatch.elim

theorem checkpoint_discipline : Discipline .rotating
    (WithRotation SafeBesideCheckpoint RunsCheckpoint) CheckpointInv where
  opened _ hidle hspare := ⟨rfl, hidle, hspare⟩
  safe := by
    rintro H n s job label call hallowed hl - -
    obtain ⟨hbatch, hloggable, -⟩ := hallowed.ok_of_call hl
    exact hbatch.batchCall.safe hloggable rfl
  returned := by
    rintro H n s job call s' bs hallowed hinv hJ hbs hinv' hframe
    have hsafe : SafeBesideCheckpoint s job call := hallowed
    have hn : (if call.durable then (H ++ bs).length else n) = (H ++ bs).length := by
      rcases hsafe.1.durableCall.durable_or with hdur | hnil
      · rw [hdur, if_pos rfl]
      · rw [hnil, History.given, List.map_eq_nil_iff] at hbs
        simp [hbs, hJ.1]
    rw [hn] at hinv' ⊢
    exact hJ.frame hinv hinv' hframe fun j hj id hid => hsafe.spares hbs hj hid
  failed := by
    rintro H n s job call s' count bs hallowed hinv hJ hcount hbs hinv' hframe
    have hsafe : SafeBesideCheckpoint s job call := hallowed
    rw [hsafe.1.durableCall.take_eq_nil hcount, History.given, List.map_eq_nil_iff] at hbs
    subst hbs
    have hn : n = (H ++ []).length := by simpa using hJ.1
    rw [hn] at hinv' ⊢
    exact hJ.frame hinv hinv' hframe fun j _ id _ => Or.inl rfl
  background := by
    rintro H n s job label s' job' hallowed hb hstep hinv ⟨rfl, hJ⟩
    have hbg := hallowed.bg_of_background hb
    cases hstep with
    | «return» => cases hb
    | fail => cases hb
    | begin order job hok =>
      obtain ⟨hrot, hidle, hs', hjob⟩ := (begin_meets s order).ok rfl hok
      rw [hs', hjob]
      exact ⟨hinv.rotated rfl hrot hidle, rfl, JobInv.begin hinv hrot hidle order⟩
    | run job' hok =>
      obtain ⟨hinv', hjob'⟩ := (runStep_meets hinv rfl hJ).ok rfl hok
      exact ⟨hinv', rfl, hjob'⟩
    | complete hp hok =>
      obtain ⟨hinv', hidle, hspare⟩ := (complete_meets hinv rfl hJ hp).ok rfl hok
      exact ⟨hinv', rfl, hidle, hspare⟩
    | abort => exact absurd rfl hbg

/-- With one segment in use, nothing distinguishes a store from one whose log was
never rotated. -/
theorem Inv.plain (h : Inv .rotating H n s) (hspare : s.spareFile = {}) : Inv .plain H n s := by
  constructor
  · refine ⟨h.log.proper, h.log.ordered, h.log.below, h.log.bound, h.log.durable,
      ⟨h.log.slots.ids, h.log.slots.count, h.log.slots.intact⟩, h.log.open_, h.log.noCheckpoint,
      h.log.fresh, h.log.alone, fun E hE => ?_, h.log.spareLive, h.log.activeLive, fun _ => hspare,
      h.log.stopped⟩
    obtain ⟨L, hv⟩ := h.log.views E hE
    exact ⟨L, hv.tail, hv.covered, (fun ht => by cases ht), hv.sorted, hv.below, hv.readable,
      hv.earlier⟩
  · exact ⟨h.mem.dirty, h.mem.clean, h.mem.flushed, h.mem.queued, fun ht => by cases ht⟩

/-- Once the retired segment is sealed, the store has one segment in use. -/
theorem CheckpointInv.spareFile_eq (h : CheckpointInv H n s job)
    (hsealed : ∀ j, job = some j → j.phase = .sealed) : s.spareFile = {} := by
  cases job with
  | none => exact h.2.2
  | some j =>
    have hjob : JobInv .rotating H s j := h.2
    exact hjob.sealed (hsealed j rfl)

/-- **A sealed checkpoint loses nothing.**  In every run of durable batches beside
background checkpoints that spares the exposed pages, from any state in which no
checkpoint is under way or the retired segment is sealed: a crash between two
calls reads back exactly what was read before it, and a crash within a call
reads back that, with or without the batch of the call. -/
theorem sealed_crash_reads_back {labels : List Label} {s : DurableStore}
    {job : Option BackgroundCheckpoint}
    (hrun : Run false (WithRotation SafeBesideCheckpoint RunsCheckpoint) labels (.up s job))
    (hsealed : ∀ j, job = some j → j.phase = .sealed) :
    (∀ d order, s.disk.Crash false d → («open» order d).result = .ok () ∧
      ∀ id, Addressable id → ((«open» order d).state.readPage id).map (Option.map Page.payload) =
        (s.readPage id).map (Option.map Page.payload)) ∧
    (∀ call, SafeBesideCheckpoint s job call → ∀ d' ∈ (call.prog s).during, ∀ d order,
      d'.Crash false d → («open» order d).result = .ok () ∧ ∃ batches, s.Shows batches ∧
        ((«open» order d).state.Shows batches ∨
          («open» order d).state.Shows (batches ++ call.batches))) := by
  obtain ⟨l, -, H, n, -, -, hinv, hJ⟩ := checkpoint_discipline.run hrun
  obtain rfl := hJ.1
  have hplain := hinv.plain (hJ.spareFile_eq hsealed)
  have hshows := shows_of_inv hinv.log hinv.mem
  have hcrash : ∀ {batches : List Batch} {d' d : Disk} {order : HashOrder},
      Keeps .plain batches H.length d' → d'.Crash false d →
      («open» order d).result = .ok () ∧ ∃ count, H.length ≤ count ∧ count ≤ batches.length ∧
        («open» order d).state.Shows (batches.take count) := by
    intro batches d' d order hkeeps hc
    obtain ⟨H', ⟨m, hm, hm', hgiven⟩, hdur⟩ := hkeeps d (@Disk.Crash.narrows .plain _ _ hc)
    have hreopens := Keeps.reopens (l := ⟨batches, H.length⟩) (hdur.keeps hm hm' hgiven)
      (fun hr => by cases hr)
    exact hreopens order
  refine ⟨fun d order hc => ?_, fun call hcall d' hd' d order hc => ?_⟩
  · obtain ⟨hok, count, hge, hle, hs⟩ := hcrash (hplain.log.keeps (List.prefix_refl H.given)) hc
    rw [List.take_of_length_le (by rw [History.length_given]; exact hge)] at hs
    exact ⟨hok, fun id hp => (hs id hp).trans (hshows id hp).symm⟩
  · have hsafe : call.Safe .plain H H.length s := hcall.1.batchCall.safe hcall.2.1 rfl
    obtain ⟨hok, count, hge, hle, hs⟩ := hcrash ((call_meets hplain call hsafe).during rfl hd') hc
    refine ⟨hok, H.given, hshows, ?_⟩
    have hone := hcall.1.durableCall.length_batches_le
    rw [List.length_append, History.length_given] at hle
    rcases Nat.eq_or_lt_of_le hge with heq | hlt
    · left
      rwa [← heq, ← History.length_given, List.take_left] at hs
    · right
      rwa [List.take_of_length_le (by rw [List.length_append, History.length_given]; omega)] at hs

/-- A store with one append, whose log was rotated, and the checkpoint it began. -/
def afterBegin : DurableStore × BackgroundCheckpoint :=
  let s := ((Call.appendPages .sorted [⟨7, 0, [65, 66], false⟩]).prog fresh).state
  ((beginBackgroundCheckpoint .sorted s).state, jobOf (beginBackgroundCheckpoint .sorted s).result)

theorem sealed_crash_reads_back_one_append :
    ∃ labels, Run false (WithRotation SafeBesideCheckpoint RunsCheckpoint) labels
        (.up (runSteps 5 afterBegin).1 (some (runSteps 5 afterBegin).2)) ∧
      («open» .sorted (runSteps 5 afterBegin).1.disk.keepSynced).result = .ok () := by
  have hbegin : Run false (WithRotation SafeBesideCheckpoint RunsCheckpoint) [.began,
      .returned (.appendPages .sorted [⟨7, 0, [65, 66], false⟩]), .reopened]
      (.up afterBegin.1 (some afterBegin.2)) :=
    .step (.step (.fresh trivial) ⟨trivial, by decide, fun _ hj => by cases hj⟩
      (.return (.appendPages .sorted [⟨7, 0, [65, 66], false⟩]) (by decide +kernel)))
      ⟨rfl, by simp [RunsCheckpoint]⟩ (.begin .sorted _ (eq_ok_jobOf (by decide +kernel)))
  obtain ⟨labels, hrun⟩ := Run.ran (fun _ _ => ⟨rfl, by simp [RunsCheckpoint]⟩) 5 hbegin
    (by decide +kernel)
  refine ⟨labels, hrun, ((sealed_crash_reads_back hrun ?_).1 _ _ (Disk.crash_keepSynced _ _)).1⟩
  intro j hj
  rw [Option.some.injEq] at hj
  rw [← hj]
  decide +kernel

/-- The same store after a further append to the page, which the checkpoint has
listed. -/
def afterAppend : DurableStore × BackgroundCheckpoint :=
  (((Call.appendPages .sorted [⟨7, 2, [67, 68], false⟩]).prog afterBegin.1).state, afterBegin.2)

/-- An append to a page that the checkpoint has listed makes it skip the page; once
the retired segment is sealed, the bytes below the append are gone. -/
theorem skipped_append_loses_base : ∃ labels s job d,
    Run false (WithRotation (fun _ _ call => DurableBatch call ∧ call.Loggable)
      RunsCheckpoint) labels (.up s (some job)) ∧ job.phase = .sealed ∧ s.disk.Crash false d ∧
      («open» .sorted d).result = .ok () ∧
      (s.readPage 7).map (Option.map Page.payload) = .ok (some [65, 66, 67, 68]) ∧
      ((«open» .sorted d).state.readPage 7).map (Option.map Page.payload) =
        .ok (some [0, 0, 67, 68]) := by
  have hbegin : Run false (WithRotation (fun _ _ call => DurableBatch call ∧ call.Loggable)
      RunsCheckpoint) [.began, .returned (.appendPages .sorted [⟨7, 0, [65, 66], false⟩]),
        .reopened] (.up afterBegin.1 (some afterBegin.2)) :=
    .step (.step (.fresh trivial) ⟨trivial, by decide⟩
      (.return (.appendPages .sorted [⟨7, 0, [65, 66], false⟩]) (by decide +kernel)))
      ⟨rfl, by simp [RunsCheckpoint]⟩ (.begin .sorted _ (eq_ok_jobOf (by decide +kernel)))
  have happend : Run false (WithRotation (fun _ _ call => DurableBatch call ∧ call.Loggable)
      RunsCheckpoint) [.returned (.appendPages .sorted [⟨7, 2, [67, 68], false⟩]), .began,
        .returned (.appendPages .sorted [⟨7, 0, [65, 66], false⟩]), .reopened]
      (.up afterAppend.1 (some afterAppend.2)) :=
    .step hbegin ⟨trivial, by decide⟩
      (.return (.appendPages .sorted [⟨7, 2, [67, 68], false⟩]) (by decide +kernel))
  obtain ⟨labels, hrun⟩ := Run.ran (fun _ _ => ⟨rfl, by simp [RunsCheckpoint]⟩) 4 happend
    (by decide +kernel)
  exact ⟨labels, _, _, _, hrun, by decide +kernel, Disk.crash_keepSynced _ _, by decide +kernel,
    by decide +kernel, by decide +kernel⟩

end QuantaDb
