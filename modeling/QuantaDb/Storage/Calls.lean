import QuantaDb.Storage.Appends
import QuantaDb.Storage.Checkpoint

/-!
# QuantaDb.Storage.Calls

One specification for every call on an open store (`call_meets`).

A call that returns has added its batches to the history, one that fails has
added a proper prefix of them, and whatever power failure comes in between
leaves the batches that were durable before it and some of those behind them.
What a call must not do for this to hold is `Call.Safe`.
-/

namespace QuantaDb

open Redo Crash DurableStore

variable {mode : Mode} {H : History} {n : Nat}

/-! ## poisoning -/

theorem Inv.congr {s s' : DurableStore} (h : Inv mode H n s) (hd : s'.data = s.data)
    (hseg : s'.wal.segments = s.wal.segments) (ha : s'.wal.active = s.wal.active)
    (hl : s'.wal.nextLsn = s.wal.nextLsn) (hdirty : s'.dirty = s.dirty)
    (hf : s'.flushed = s.flushed) (hq : s'.flushQueue = s.flushQueue)
    (ho : s'.openPages = s.openPages)
    (hi : s.spareFile.stopped = true → s.checkpointInFlight = true →
      s'.checkpointInFlight = true) : Inv mode H n s' := by
  refine ⟨h.log.congr hd hseg ha hl hi, h.mem.congr hd hdirty hf hq ho fun id hlog => ?_⟩
  simpa [DurableStore.Logged, DurableStore.activeFile, hseg, ha] using hlog

/-- The store after a failed operation. -/
def DurableStore.poison (s : DurableStore) : DurableStore := { s with poisoned := true }

theorem Inv.poison {s : DurableStore} (h : Inv mode H n s) : Inv mode H n s.poison :=
  h.congr rfl rfl rfl rfl rfl rfl rfl rfl fun _ h => h

theorem Frame.poison {s₀ s : DurableStore} {bs : History} (h : Frame s₀ bs s) :
    Frame s₀ bs s.poison :=
  ⟨h.data, h.active, h.retired, h.spare, h.inFlight, h.flushed, h.lsn, h.lsns, h.dirty, h.stays,
    h.reads⟩

section

variable {α : Type} {P : DurableStore → Prop} {m : StoreM α} {Q : α → DurableStore → Prop}
variable {E F : StorageError → DurableStore → Prop} {R : DurableStore → Prop} {C : Disk → Prop}

theorem poisonOnError_meets (h : Meets P m Q E C) (hE : ∀ e s, E e s → F e s.poison) :
    Meets P (poisonOnError m) Q F C := by
  intro s hs
  unfold poisonOnError
  cases hr : (m s).result with
  | ok a =>
    simp only
    exact ⟨fun d hd => h.during hs hd, fun b hb => h.ok hs hb,
      fun e he => by rw [hr] at he; cases he⟩
  | error e =>
    simp only [hr]
    refine ⟨fun d hd => h.during hs hd, fun b hb => (by cases hb), fun e' he => ?_⟩
    cases he
    exact hE _ _ (h.error hs hr)

/-- A poisoned store refuses and stays as it is. -/
theorem refuseIfPoisoned_meets (hR : ∀ s, P s → s.poisoned = false → R s)
    (hE : ∀ s, P s → s.poisoned = true → E .poisoned s) :
    Meets P refuseIfPoisoned (fun _ => R) E C := by
  unfold refuseIfPoisoned
  refine Meets.bind (Q := fun poisoned s => P s ∧ poisoned = s.poisoned)
    (Meets.read fun s hs => ⟨hs, rfl⟩) fun poisoned => Meets.when (fun hp => Meets.fail ?_) ?_
  · rintro s ⟨hs, rfl⟩
    exact hE s hs hp
  · rintro hp s ⟨hs, rfl⟩
    exact hR s hs hp

end

/-! ## the calls -/

/-- What the results of this development need of the store when a call is made: where
pages tear, an append goes to a page that is new or has a change in the log; and the
data file gets no page of a batch that is not durable. -/
def Call.Timely (mode : Mode) (H : History) (n : Nat) (s : DurableStore) : Call → Prop
  | .writePages _ _ => True
  | .appendPages _ appends => mode.tears = true → ∀ append ∈ appends,
      onPage append.pageId H.flatten = [] ∨ s.Logged append.pageId
  | .executeGroup _ _ => mode.tears = false
  | .flushSomeDirty budget | .paceFlush budget => s.checkpointInFlight = false →
      ∀ page ∈ (collectPending s.dirty s.flushed budget s.flushQueue).1,
        onPage page.id (H.drop n).flatten = []
  | .checkpoint _ => s.checkpointInFlight = false → n = H.length

/-- A call whose changes can be read back, at a time when it is safe. -/
structure Call.Safe (mode : Mode) (H : History) (n : Nat) (s : DurableStore) (call : Call) :
    Prop where
  loggable : call.Loggable
  timely : call.Timely mode H n s

theorem Call.forall_mem_batch {changes : Batch} {p : Change → Prop} :
    (∀ batch ∈ Call.batch changes, ∀ c ∈ batch, p c) ↔ ∀ c ∈ changes, p c := by
  unfold Call.batch
  split
  · next h => simp [h]
  · simp

/-- The images and the appends of a group. -/
theorem Call.loggable_executeGroup {order : HashOrder} {requests : List CommitRequest}
    (h : (Call.executeGroup order requests).Loggable) :
    (∀ c ∈ (requests.flatMap (·.writes)).map PageWrite.change, c.Loggable) ∧
      ∀ c ∈ (requests.flatMap (·.appends)).map PageAppend.change, c.Loggable := by
  unfold Loggable batches at h
  rw [List.forall_mem_append, forall_mem_batch, forall_mem_batch] at h
  exact h

/-- What a call leaves alone if it has logged the batches `bs`. -/
structure CallFrame (s₀ : DurableStore) (bs : History) (s : DurableStore) : Prop where
  inFlight : s.checkpointInFlight = s₀.checkpointInFlight
  spare : s₀.spareFile = {} → s.spareFile = {}
  frame : s₀.checkpointInFlight = true → Frame s₀ bs s

theorem Frame.callFrame {s₀ s : DurableStore} {bs : History} (h : Frame s₀ bs s) :
    CallFrame s₀ bs s := ⟨h.inFlight, fun hs => h.spareFile.trans hs, fun _ => h⟩

/-- A call returned. -/
def Returned (mode : Mode) (H : History) (n : Nat) (s₀ : DurableStore) (call : Call)
    (s : DurableStore) : Prop :=
  ∃ bs : History, bs.given = call.batches ∧
    Inv mode (H ++ bs) (if call.durable then (H ++ bs).length else n) s ∧ CallFrame s₀ bs s

/-- A call failed. -/
def Failed (mode : Mode) (H : History) (n : Nat) (s₀ : DurableStore) (call : Call)
    (s : DurableStore) : Prop :=
  ∃ count, (count < call.batches.length ∨ call.batches = []) ∧
    ∃ bs : History, bs.given = call.batches.take count ∧ Inv mode (H ++ bs) n s ∧ CallFrame s₀ bs s

theorem failed_of_inv {s₀ s : DurableStore} {call : Call} (h : Inv mode H n s)
    (hf : CallFrame s₀ [] s) : Failed mode H n s₀ call s := by
  refine ⟨0, ?_, [], rfl, by simpa using h, hf⟩
  cases hb : call.batches with
  | nil => exact Or.inr rfl
  | cons _ _ => exact Or.inl (by simp)

theorem batch_of_ne_nil {changes : Batch} (h : changes ≠ []) : Call.batch changes = [changes] :=
  if_neg h

theorem durableAfter_eq (durable : Bool) (H : History) (n : Nat) (b : List CommittedWrite) :
    durableAfter durable H n = if durable then (H ++ [b]).length else n := by
  simp [durableAfter]

section

variable {s₀ : DurableStore} (hinv : Inv mode H n s₀)
include hinv

/-- `write_pages_with`. -/
theorem writePages_meets (writes : List PageWrite) (durable : Bool)
    (hsafe : (Call.writePages writes durable).Safe mode H n s₀) :
    Meets (fun s => s = s₀) (Call.writePages writes durable).prog
      (fun _ => Returned mode H n s₀ (.writePages writes durable))
      (fun _ => Failed mode H n s₀ (.writePages writes durable))
      (Keeps mode (H.given ++ (Call.writePages writes durable).batches) n) := by
  have hrefl : Failed mode H n s₀ (.writePages writes durable) s₀ :=
    failed_of_inv hinv (Frame.refl s₀).callFrame
  unfold Call.prog writePagesWith
  refine Meets.bind (Q := fun _ => Returned mode H n s₀ (.writePages writes durable)) ?_
    fun _ => Meets.pure fun _ h => h
  refine Meets.bind (refuseIfPoisoned_meets (R := fun s => s = s₀) (fun s hs _ => hs) ?_)
    fun _ => ?_
  · rintro s rfl _
    exact hrefl
  refine Meets.bind (Q := fun _ s => s = s₀) (Meets.forEach (I := fun _ _ s => s = s₀)
    fun _ write _ _ _ => Meets.attempt (fun s hs _ _ => hs) ?_) fun _ => ?_
  · rintro s rfl _ _
    exact hrefl
  refine Meets.ite (fun hnil => Meets.pure ?_) fun hne => ?_
  · rintro s rfl
    subst hnil
    refine ⟨[], rfl, ?_, (Frame.refl s).callFrame⟩
    simpa [Call.durable] using hinv
  have hbatch : (Call.writePages writes durable).batches = [writes.map PageWrite.change] :=
    batch_of_ne_nil (by simpa using hne)
  rw [hbatch]
  refine poisonOnError_meets ((writePagesInner_meets hinv writes durable
    (Call.forall_mem_batch.mp hsafe.loggable)).post ?_) ?_
  · rintro _ s ⟨b, hb, hi, hf⟩
    have hdur : (Call.writePages writes durable).durable = durable := by
      simp [Call.durable, hne]
    refine ⟨[b], by rw [hbatch, ← hb]; rfl, ?_, hf.callFrame⟩
    rw [hdur, ← durableAfter_eq durable H n b]
    exact hi
  · rintro e s ⟨hi, hf⟩
    exact failed_of_inv hi.poison hf.poison.callFrame

/-- `append_pages`. -/
theorem appendPages_meets (order : HashOrder) (appends : List PageAppend)
    (hsafe : (Call.appendPages order appends).Safe mode H n s₀) :
    Meets (fun s => s = s₀) (Call.appendPages order appends).prog
      (fun _ => Returned mode H n s₀ (.appendPages order appends))
      (fun _ => Failed mode H n s₀ (.appendPages order appends))
      (Keeps mode (H.given ++ (Call.appendPages order appends).batches) n) := by
  unfold Call.prog DurableStore.appendPages
  refine Meets.bind (Q := fun _ => Returned mode H n s₀ (.appendPages order appends)) ?_
    fun _ => Meets.pure fun _ h => h
  refine Meets.ite (fun hnil => Meets.pure ?_) fun hne => ?_
  · rintro s rfl
    subst hnil
    exact ⟨[], rfl, by simpa [Call.durable] using hinv, (Frame.refl s).callFrame⟩
  refine Meets.bind (refuseIfPoisoned_meets (R := fun s => s = s₀) (fun s hs _ => hs) ?_)
    fun _ => ?_
  · rintro s rfl _
    exact failed_of_inv hinv (Frame.refl s).callFrame
  have hbatch : (Call.appendPages order appends).batches = [appends.map PageAppend.change] :=
    batch_of_ne_nil (by simpa using hne)
  rw [hbatch]
  refine poisonOnError_meets ((appendPagesInner_meets hinv order appends true
    (Call.forall_mem_batch.mp hsafe.loggable) hsafe.timely).post ?_) ?_
  · rintro _ s ⟨b, hb, hi, hf⟩
    have hdur : (Call.appendPages order appends).durable = true := by
      simp [Call.durable, hne]
    refine ⟨[b], by rw [hbatch, ← hb]; rfl, ?_, hf.callFrame⟩
    rw [hdur, ← durableAfter_eq true H n b]
    exact hi
  · rintro e s ⟨hi, hf⟩
    exact failed_of_inv hi.poison hf.poison.callFrame

/-- `flush_some_dirty`. -/
theorem flushCall_meets (budget : Nat)
    (hsafe : (Call.flushSomeDirty budget).Safe mode H n s₀) :
    Meets (fun s => s = s₀) (DurableStore.flushSomeDirty budget)
      (fun _ s => Inv mode H n s ∧ CallFrame s₀ [] s) (fun _ _ => False)
      (Keeps mode H.given n) := by
  refine (flushSomeDirty_meets hinv budget hsafe.timely).post ?_
  rintro _ s ⟨hi, hframe, hsame, -⟩
  refine ⟨hi, hframe.inFlight, fun hs => ?_, fun h => ?_⟩
  · rw [← hs]
    unfold DurableStore.spareFile
    rw [hframe.wal]
  · rw [hsame h]
    exact Frame.refl s₀

/-- `pace_flush`. -/
theorem paceFlush_meets (pages : Nat) (hsafe : (Call.paceFlush pages).Safe mode H n s₀) :
    Meets (fun s => s = s₀) (DurableStore.paceFlush pages)
      (fun _ s => Inv mode H n s ∧ CallFrame s₀ [] s) (fun _ _ => False)
      (Keeps mode H.given n) := by
  rintro s rfl
  unfold paceFlush
  by_cases hz : pages = 0
  · rw [if_pos hz]
    exact ⟨by simp, fun _ _ => ⟨hinv, (Frame.refl s).callFrame⟩, fun e he => by cases he⟩
  · rw [if_neg hz]
    have hflush := flushCall_meets hinv pages ⟨hsafe.loggable, hsafe.timely⟩
    obtain ⟨count, hcount, hpost⟩ := hflush.returns rfl
    exact ⟨fun d hd => hflush.during rfl hd, fun _ _ => hpost, fun e he => by cases he⟩

/-- `checkpoint`. -/
theorem checkpoint_meets (order : HashOrder)
    (hsafe : (Call.checkpoint order).Safe mode H n s₀) :
    Meets (fun s => s = s₀) (DurableStore.checkpoint order)
      (fun _ s => Inv mode H n s ∧ n = H.length ∧ CallFrame s₀ [] s ∧
        (∀ i, (s.wal.segments i).file = {}) ∧ s.wal.retired = none ∧ s₀.checkpointInFlight = false)
      (fun _ s => Inv mode H n s ∧ CallFrame s₀ [] s ∧ (s₀.poisoned = true ∨
        s₀.checkpointInFlight = true ∨ ¬ s₀.HasRoom .checkpoint)) (Keeps mode H.given n) := by
  unfold DurableStore.checkpoint
  refine Meets.bind (refuseIfPoisoned_meets (R := fun s => s = s₀) (fun s hs _ => hs) ?_)
    fun _ => ?_
  · rintro s rfl hp
    exact ⟨hinv, (Frame.refl s).callFrame, Or.inl hp⟩
  refine Meets.bind (Q := fun inFlight s => s = s₀ ∧ inFlight = s₀.checkpointInFlight)
    (Meets.read fun s hs => ⟨hs, by rw [hs]⟩) fun inFlight => ?_
  refine Meets.ite (fun ht => Meets.fail ?_) fun hf => ?_
  · rintro s ⟨rfl, rfl⟩
    exact ⟨hinv, (Frame.refl s).callFrame, Or.inr (Or.inl ht)⟩
  refine Meets.assuming (p := s₀.checkpointInFlight = false) ?_ fun hidle => ?_
  · rintro s ⟨-, rfl⟩
    simpa using hf
  obtain rfl := hsafe.timely hidle
  have hbusy : ∀ s, s₀.checkpointInFlight = true → Frame s₀ [] s := fun s h => by
    rw [hidle] at h; cases h
  refine poisonOnError_meets (((checkpointInner_meets hinv hidle order).pre fun s h => h.1).post ?_)
    ?_
  · rintro _ s ⟨hi, hfiles, hret, hidle'⟩
    exact ⟨hi, rfl, ⟨hidle'.trans hidle.symm, fun _ => hfiles _, hbusy s⟩, hfiles, hret, hidle⟩
  · rintro e s ⟨hi, hroom, hidle', hspare⟩
    exact ⟨hi.poison, ⟨hidle'.trans hidle.symm, fun hs => hspare.trans hs, hbusy _⟩,
      Or.inr (Or.inr hroom)⟩

/-- The images of a group: a batch of their own. -/
theorem writeStage_meets (writes : List PageWrite)
    (hloggable : ∀ c ∈ writes.map PageWrite.change, c.Loggable) :
    Meets (fun s => s = s₀) (if writes = [] then pure [] else writePagesInner writes false)
      (fun _ s => ∃ bs : History, bs.given = Call.batch (writes.map PageWrite.change) ∧
        Inv mode (H ++ bs) n s ∧ Frame s₀ bs s)
      (fun _ s => Call.batch (writes.map PageWrite.change) ≠ [] ∧ Inv mode H n s ∧ Frame s₀ [] s)
      (Keeps mode (H.given ++ Call.batch (writes.map PageWrite.change)) n) := by
  refine Meets.ite (fun hnil => Meets.pure ?_) fun hne => ?_
  · rintro s rfl
    subst hnil
    exact ⟨[], rfl, by simpa using hinv, Frame.refl s⟩
  rw [batch_of_ne_nil (by simpa using hne)]
  refine (writePagesInner_meets hinv writes false hloggable).conseq (fun _ h => h) ?_ ?_
    fun _ h => h
  · rintro _ s ⟨b, hb, hi, hf⟩
    exact ⟨[b], by rw [← hb]; rfl, hi, hf⟩
  · rintro _ s h
    exact ⟨List.cons_ne_nil _ _, h⟩

/-- The appends of a group: a batch behind the images. -/
theorem appendStage_meets (order : HashOrder) (appends : List PageAppend)
    (hloggable : ∀ c ∈ appends.map PageAppend.change, c.Loggable)
    (ht : mode.tears = false) :
    Meets (fun s => s = s₀) (if appends = [] then pure [] else appendPagesInner order appends false)
      (fun _ s => ∃ bs : History, bs.given = Call.batch (appends.map PageAppend.change) ∧
        Inv mode (H ++ bs) n s ∧ Frame s₀ bs s)
      (fun _ s => Call.batch (appends.map PageAppend.change) ≠ [] ∧ Inv mode H n s ∧ Frame s₀ [] s)
      (Keeps mode (H.given ++ Call.batch (appends.map PageAppend.change)) n) := by
  refine Meets.ite (fun hnil => Meets.pure ?_) fun hne => ?_
  · rintro s rfl
    subst hnil
    exact ⟨[], rfl, by simpa using hinv, Frame.refl s⟩
  rw [batch_of_ne_nil (by simpa using hne)]
  refine (appendPagesInner_meets hinv order appends false hloggable fun h => ?_).conseq
    (fun _ h => h) ?_ ?_ fun _ h => h
  · rw [ht] at h; cases h
  · rintro _ s ⟨b, hb, hi, hf⟩
    exact ⟨[b], by rw [← hb]; rfl, hi, hf⟩
  · rintro _ s h
    exact ⟨List.cons_ne_nil _ _, h⟩

/-- `execute_group`: both batches, then one sync if any request asked for it. -/
theorem executeGroup_meets (order : HashOrder) (requests : List CommitRequest)
    (hsafe : (Call.executeGroup order requests).Safe mode H n s₀) :
    Meets (fun s => s = s₀) (Call.executeGroup order requests).prog
      (fun _ => Returned mode H n s₀ (.executeGroup order requests))
      (fun _ => Failed mode H n s₀ (.executeGroup order requests))
      (Keeps mode (H.given ++ (Call.executeGroup order requests).batches) n) := by
  obtain ⟨hwrites, happends⟩ := Call.loggable_executeGroup hsafe.loggable
  have ht : mode.tears = false := hsafe.timely
  unfold Call.prog DurableStore.executeGroup applyBatch
  refine Meets.bind (Q := fun _ => Returned mode H n s₀ (.executeGroup order requests)) ?_
    fun _ => Meets.pure fun _ h => h
  refine Meets.bind (Q := fun _ => Returned mode H n s₀ (.executeGroup order requests)) ?_
    fun _ => Meets.pure fun _ h => h
  refine Meets.bind (refuseIfPoisoned_meets (R := fun s => s = s₀) (fun s hs _ => hs) ?_)
    fun _ => ?_
  · rintro s rfl _
    exact failed_of_inv hinv (Frame.refl s).callFrame
  refine poisonOnError_meets (E := fun _ => Failed mode H n s₀ (.executeGroup order requests)) ?_ ?_
  swap
  · rintro _ s ⟨count, hc, bs, hbs, hi, hf⟩
    exact ⟨count, hc, bs, hbs, hi.poison, hf.inFlight, hf.spare, fun h => (hf.frame h).poison⟩
  simp only [Call.batches]
  generalize hW : Call.batch ((requests.flatMap (·.writes)).map PageWrite.change) = W
  generalize hA : Call.batch ((requests.flatMap (·.appends)).map PageAppend.change) = A
  have hbatches : (Call.executeGroup order requests).batches = W ++ A := by
    rw [← hW, ← hA]; rfl
  unfold applyBatchInner
  refine Meets.bind (Q := fun _ s => ∃ bs : History, bs.given = W ∧ Inv mode (H ++ bs) n s ∧
    Frame s₀ bs s) ?_ fun _ => Meets.exists_pre fun bs₁ => Meets.of_state ?_
  · subst hW
    refine (writeStage_meets hinv _ hwrites).conseq (fun _ h => h) (fun _ _ h => h) ?_ ?_
    · rintro _ s ⟨hne, hi, hf⟩
      exact failed_of_inv hi hf.callFrame
    · exact fun d h => h.mono
        ((List.prefix_append_right_inj _).mpr (List.prefix_append _ _)) (Nat.le_refl n)
  rintro s₁ ⟨hbs₁, hi₁, hf₁⟩
  have hgiven : (H ++ bs₁).given ++ A = H.given ++ (W ++ A) := by
    rw [← hbs₁, ← List.append_assoc]
    simp [History.given]
  refine Meets.bind (Q := fun _ s => ∃ bs : History, bs.given = W ++ A ∧ Inv mode (H ++ bs) n s ∧
    Frame s₀ bs s) ?_ fun _ => Meets.exists_pre fun bs => ?_
  · subst hA
    refine (appendStage_meets hi₁ order _ happends ht).conseq (fun _ h => h) ?_ ?_ ?_
    · rintro _ s ⟨bs₂, hbs₂, hi, hf⟩
      refine ⟨bs₁ ++ bs₂, ?_, by simpa using hi, hf₁.trans hf⟩
      rw [← hbs₁, ← hbs₂]
      simp [History.given]
    · rintro _ s ⟨hne, hi, hf⟩
      refine ⟨W.length, Or.inl ?_, bs₁, ?_, hi, ?_⟩
      · rw [hbatches, List.length_append]
        have := List.length_pos_iff.mpr hne
        omega
      · rw [hbatches, List.take_left, hbs₁]
      · simpa using (hf₁.trans hf).callFrame
    · intro d h
      rwa [hgiven] at h
  refine Meets.bind (Q := fun _ => Returned mode H n s₀ (.executeGroup order requests))
    (Meets.when (fun hd => syncWal_meets ?_) ?_) fun _ => Meets.pure fun _ h => h
  · rintro s ⟨hbs, hi, hf⟩
    refine ⟨(hi.synced.log.keeps ?_).mono (List.prefix_refl _) hi.log.durable, bs, ?_, ?_,
      (hf.synced hi.log.open_).callFrame⟩
    · rw [← hbs]; simp [History.given]
    · rw [hbs, hbatches]
    · rw [show (Call.executeGroup order requests).durable = true from hd]
      exact hi.synced
  · rintro hd s ⟨hbs, hi, hf⟩
    refine ⟨bs, by rw [hbs, hbatches], ?_, hf.callFrame⟩
    rw [show (Call.executeGroup order requests).durable = false from hd]
    exact hi

/-- **Every call** keeps the invariant and adds its batches to the history. -/
theorem call_meets (call : Call) (hsafe : call.Safe mode H n s₀) :
    Meets (fun s => s = s₀) call.prog (fun _ => Returned mode H n s₀ call)
      (fun _ => Failed mode H n s₀ call) (Keeps mode (H.given ++ call.batches) n) := by
  have hnone : ∀ {call : Call} {s : DurableStore}, call.batches = [] → call.durable = false →
      Inv mode H n s ∧ CallFrame s₀ [] s → Returned mode H n s₀ call s := by
    rintro call s hb hd ⟨hi, hf⟩
    exact ⟨[], hb.symm, by simpa [hd] using hi, hf⟩
  cases call with
  | writePages writes durable => exact writePages_meets hinv writes durable hsafe
  | appendPages order appends => exact appendPages_meets hinv order appends hsafe
  | executeGroup order requests => exact executeGroup_meets hinv order requests hsafe
  | flushSomeDirty budget =>
    rw [show (Call.flushSomeDirty budget).batches = [] from rfl, List.append_nil]
    refine Meets.bind (Q := fun _ => Returned mode H n s₀ (.flushSomeDirty budget))
      ((flushCall_meets hinv budget hsafe).conseq (fun _ h => h) (fun _ _ h => hnone rfl rfl h)
        (fun _ _ h => h.elim) fun _ h => h) fun _ => Meets.pure fun _ h => h
  | paceFlush pages =>
    rw [show (Call.paceFlush pages).batches = [] from rfl, List.append_nil]
    exact (paceFlush_meets hinv pages hsafe).conseq (fun _ h => h) (fun _ _ h => hnone rfl rfl h)
      (fun _ _ h => h.elim) fun _ h => h
  | checkpoint order =>
    rw [show (Call.checkpoint order).batches = [] from rfl, List.append_nil]
    refine Meets.bind (Q := fun _ => Returned mode H n s₀ (.checkpoint order))
      ((checkpoint_meets hinv order hsafe).conseq (fun _ h => h)
        (fun _ _ h => hnone rfl rfl ⟨h.1, h.2.2.1⟩) (fun _ _ h => failed_of_inv h.1 h.2.1)
        fun _ h => h) fun _ => Meets.pure fun _ h => h

end

end QuantaDb
