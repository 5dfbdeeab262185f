import QuantaDb.Storage.Runs

/-!
# QuantaDb.Storage.Durability

What survives a crash when the log is not rotated.

* `durable_run_agrees` — acknowledged batches survive crashes anywhere, if every
  image goes to a page that has a place in the data file;
* `torn_run_agrees` — so they do when data pages tear, if appends go to pages
  that are new or have a change in the log;
* `relaxed_run_agrees` — relaxed batches are kept or lost whole and in order, if
  no page of an unsynced batch is flushed.

Each condition is needed: an image without a place blocks opening
(`unplaceable_image_blocks_open`), a torn page loses what the last checkpoint
took out of the log (`torn_append_loses_checkpointed_bytes`), and a flushed page
of an unsynced batch survives alone (`flush_splits_relaxed_batch`).
-/

namespace QuantaDb

open Redo Crash DurableStore

/-! ## classes of runs -/

/-- Crashes, reopening, and calls from `ok`, and nothing else. -/
def CallsOnly (ok : DurableStore → Call → Prop) : Node → Label → Prop
  | .down _, .reopened => True
  | .down _, .haltedOpening => True
  | .down _, .lostPower => True
  | .up s _, .returned call => ok s call
  | .up s _, .failed call => ok s call
  | .up s _, .halted call => ok s call
  | .up _ _, .closed => True
  | _, _ => False

variable {ok : DurableStore → Call → Prop} {call : Call}

theorem CallsOnly.ok_of_call {s : DurableStore} {job : Option BackgroundCheckpoint}
    {label : Label} (h : CallsOnly ok (.up s job) label)
    (hl : label = .returned call ∨ label = .failed call ∨ label = .halted call) : ok s call := by
  rcases hl with rfl | rfl | rfl <;> exact h

theorem CallsOnly.not_background {node : Node} {label : Label} (h : CallsOnly ok node label) :
    label.isBackground = false := by
  cases node <;> cases label <;> first | rfl | exact h.elim

/-- Batches that are durable when they return, flushes and checkpoints. -/
def DurableCall : Call → Prop
  | .writePages _ durable => durable = true
  | .appendPages _ _ => True
  | .flushSomeDirty _ => True
  | .checkpoint _ => True
  | _ => False

/-- A durable call that adds a batch makes it durable. -/
theorem DurableCall.durable_or (h : DurableCall call) :
    call.durable = true ∨ call.batches = [] := by
  cases call with
  | writePages writes durable =>
    obtain rfl : durable = true := h
    cases writes with
    | nil => exact Or.inr rfl
    | cons write writes => exact Or.inl rfl
  | appendPages order appends =>
    cases appends with
    | nil => exact Or.inr rfl
    | cons append appends => exact Or.inl rfl
  | executeGroup order requests => exact h.elim
  | flushSomeDirty budget => exact Or.inr rfl
  | paceFlush pages => exact Or.inr rfl
  | checkpoint order => exact Or.inr rfl

theorem length_batch_le (changes : Batch) : (Call.batch changes).length ≤ 1 := by
  unfold Call.batch
  split <;> simp

theorem DurableCall.length_batches_le (h : DurableCall call) :
    call.batches.length ≤ 1 := by
  cases call with
  | writePages writes durable => exact length_batch_le _
  | appendPages order appends => exact length_batch_le _
  | executeGroup order requests => exact h.elim
  | flushSomeDirty budget => exact Nat.zero_le 1
  | paceFlush pages => exact Nat.zero_le 1
  | checkpoint order => exact Nat.zero_le 1

/-- A durable call that fails has added nothing. -/
theorem DurableCall.take_eq_nil (h : DurableCall call) {count : Nat}
    (hc : count < call.batches.length ∨ call.batches = []) : call.batches.take count = [] := by
  rcases hc with hc | hc
  · have := h.length_batches_le
    obtain rfl : count = 0 := by omega
    rfl
  · rw [hc]; exact List.take_nil

/-! ## durable batches -/

/-- In a run of durable calls at most one batch is in doubt, and none while the
store is open. -/
theorem Ledger.Runs.one_pending {tears : Bool} (hok : ∀ s call, ok s call → DurableCall call)
    {labels : List Label} {node : Node} (hrun : Run tears (CallsOnly ok) labels node) {l : Ledger}
    (h : Ledger.Runs labels l) :
    l.batches.length ≤ l.durable + 1 ∧
      (∀ s job, node = .up s job → l.durable = l.batches.length) := by
  induction hrun generalizing l with
  | start =>
    cases h
    exact ⟨Nat.zero_le 1, fun _ _ hn => by cases hn⟩
  | step hrun hallowed hstep ih =>
    cases h with
    | step hruns hnext =>
      obtain ⟨hle, hup⟩ := ih hruns
      cases hstep with
      | reopen | losePower =>
        cases hnext
        rename_i count hc hc'
        rw [List.length_take_of_le hc']
        exact ⟨Nat.le_succ _, fun _ _ _ => rfl⟩
      | haltOpening =>
        cases hnext
        exact ⟨hle, fun _ _ hn => by cases hn⟩
      | close =>
        cases hnext
        exact ⟨hle, fun _ _ hn => by cases hn⟩
      | «return» call hr =>
        cases hnext
        have hd := hup _ _ rfl
        rcases (hok _ _ hallowed).durable_or with hdur | hnil
        · simp [hdur]
        · rw [hnil, List.append_nil]
          split
          · exact ⟨Nat.le_succ _, fun _ _ _ => rfl⟩
          · exact ⟨hle, fun _ _ _ => hd⟩
      | fail call e hr =>
        cases hnext
        rename_i count hc
        rw [(hok _ _ hallowed).take_eq_nil hc, List.append_nil]
        exact ⟨hle, fun _ _ _ => hup _ _ rfl⟩
      | halt call hm =>
        cases hnext
        have hd := hup _ _ rfl
        have := (hok _ _ hallowed).length_batches_le
        refine ⟨?_, fun _ _ hn => by cases hn⟩
        simp only [List.length_append]
        omega
      | begin => exact hallowed.elim
      | run => exact hallowed.elim
      | complete => exact hallowed.elim
      | abort => exact hallowed.elim

/-- An append that a torn page cannot hurt: the page is new, or the log holds a
change of it. -/
def Call.AppendsLogged (s : DurableStore) : Call → Prop
  | .appendPages _ appends => ∀ append ∈ appends,
      s.readPage append.pageId = .ok none ∨ s.Logged append.pageId
  | _ => True

/-- A page that reads as absent has no changes. -/
theorem Inv.onPage_eq_nil {mode : Mode} {H : History} {n : Nat} {s : DurableStore}
    (h : Inv mode H n s) {id : PageId} (hr : s.readPage id = .ok none) :
    onPage id H.flatten = [] := by
  by_contra hne
  obtain ⟨w, hw⟩ := List.exists_mem_of_ne_nil _ hne
  obtain ⟨hwH, rfl⟩ := mem_onPage.mp hw
  have hshow := shows_of_inv h.log h.mem w.pageId (h.log.proper.placeable w hwH).addressable
  have hcov : covers (imageOf (onPage w.pageId H.flatten)) w.lsn = true := covers_latest_of_mem hw
  rw [hr, contents_given h.log.proper] at hshow
  cases himg : imageOf (onPage w.pageId H.flatten) with
  | none => rw [himg] at hcov; cases hcov
  | some img => rw [himg] at hshow; cases hshow

/-- Runs of durable calls keep every batch durable while the store is open. -/
theorem durable_discipline {mode : Mode}
    (hok : ∀ s call, ok s call → DurableCall call ∧ call.Loggable)
    (htear : mode.tears = true → ∀ s call, ok s call → call.AppendsLogged s) :
    Discipline mode (CallsOnly ok) fun H n _ _ => n = H.length where
  opened _ _ _ := rfl
  safe := by
    rintro H n s job label call hallowed hl hinv rfl
    have hcall := hallowed.ok_of_call hl
    obtain ⟨hdur, hloggable⟩ := hok s call hcall
    refine ⟨hloggable, ?_⟩
    cases call with
    | writePages writes durable => trivial
    | appendPages order appends =>
      intro ht append happend
      rcases htear ht s _ hcall append happend with hr | hlog
      · exact Or.inl (hinv.onPage_eq_nil hr)
      · exact Or.inr hlog
    | executeGroup order requests => exact hdur.elim
    | flushSomeDirty budget => intro _ page _; simp
    | paceFlush pages => exact hdur.elim
    | checkpoint order => exact fun _ => rfl
  returned := by
    rintro H n s job call s' bs hallowed hinv rfl hbs - -
    rcases (hok s call hallowed).1.durable_or with hdur | hnil
    · rw [hdur, if_pos rfl]
    · rw [hnil, History.given, List.map_eq_nil_iff] at hbs
      simp [hbs]
  failed := by
    rintro H n s job call s' count bs hallowed hinv rfl hcount hbs - -
    rw [(hok s call hallowed).1.take_eq_nil hcount, History.given, List.map_eq_nil_iff] at hbs
    simp [hbs]
  background hallowed hb := by
    rw [hallowed.not_background] at hb
    cases hb

/-- **Acknowledged batches survive.**  In every run of durable batches, flushes and
checkpoints whose changes have a place in the data file and records that the log
reader takes, with crashes and reopening anywhere, what can be read is all the
acknowledged batches and possibly the one in progress, entirely or not at all. -/
theorem durable_run_agrees {labels : List Label} {node : Node}
    (hrun : Run false (CallsOnly fun _ call => DurableCall call ∧ call.Loggable)
      labels node) :
    ∃ l, Ledger.Runs labels l ∧ l.batches.length ≤ l.durable + 1 ∧ node.Agrees l := by
  have hdisc : Discipline .plain
      (CallsOnly fun _ call => DurableCall call ∧ call.Loggable)
      fun H n _ _ => n = H.length :=
    durable_discipline (fun _ _ h => h) fun ht => by cases ht
  obtain ⟨l, hruns, hinv⟩ := hdisc.run hrun
  exact ⟨l, hruns, (hruns.one_pending (fun _ _ h => h.1) hrun).1, hinv.agrees fun hr => by cases hr⟩

theorem durable_run_agrees_one_image : ∃ l, Ledger.Runs [.lostPower, .closed,
      .returned (.writePages [⟨7, [65, 66]⟩] true), .reopened] l ∧
    l.batches.length ≤ l.durable + 1 ∧
    (Node.down ((Call.writePages [⟨7, [65, 66]⟩] true).prog fresh).state.disk.keepSynced).Agrees
    l :=
  durable_run_agrees (.crash (.step (.fresh trivial) ⟨rfl, by decide⟩
    (.return (.writePages [⟨7, [65, 66]⟩] true) (by decide +kernel))) trivial trivial
    (Disk.crash_keepSynced _ _))

/-- An acknowledged image of page `2 ^ 51`, whose byte offset does not fit 64
bits, makes every later opening fail. -/
theorem unplaceable_image_blocks_open : ∃ labels node,
    Run false (CallsOnly fun _ call => DurableCall call) labels node ∧
      ¬ ∃ l, Ledger.Runs labels l ∧ node.Agrees l := by
  let call : Call := .writePages [⟨2 ^ 51, [65]⟩] true
  refine ⟨_, .down (call.prog fresh).state.disk.keepSynced,
    .crash (.step (.fresh trivial) rfl (.return call (by decide +kernel))) trivial trivial
      (Disk.crash_keepSynced _ _), ?_⟩
  rintro ⟨l, -, hagrees⟩
  have hopen := (hagrees HashOrder.sorted).1
  exact absurd hopen (by decide +kernel)

/-- **Torn pages are repaired.**  The same holds when a power failure leaves pages
that do not decode, if every append goes to a page that is new or has a change
in the log. -/
theorem torn_run_agrees {labels : List Label} {node : Node}
    (hrun : Run true (CallsOnly fun s call =>
      DurableCall call ∧ call.Loggable ∧ call.AppendsLogged s) labels node) :
    ∃ l, Ledger.Runs labels l ∧ l.batches.length ≤ l.durable + 1 ∧ node.Agrees l := by
  have hdisc : Discipline .tearing
      (CallsOnly fun s call => DurableCall call ∧ call.Loggable ∧ call.AppendsLogged s)
      fun H n _ _ => n = H.length :=
    durable_discipline (fun _ _ h => ⟨h.1, h.2.1⟩) fun _ _ _ h => h.2.2
  obtain ⟨l, hruns, hinv⟩ := hdisc.run hrun
  exact ⟨l, hruns, (hruns.one_pending (fun _ _ h => h.1) hrun).1, hinv.agrees fun hr => by cases hr⟩

theorem torn_run_agrees_one_append : ∃ l, Ledger.Runs [.lostPower, .closed,
      .returned (.flushSomeDirty 1), .returned (.appendPages .sorted [⟨7, 0, [65, 66], true⟩]),
      .reopened] l ∧
    l.batches.length ≤ l.durable + 1 ∧
    (Node.down ((Call.flushSomeDirty 1).prog
      ((Call.appendPages .sorted [⟨7, 0, [65, 66], true⟩]).prog
        fresh).state).state.disk.tearWrites).Agrees l :=
  torn_run_agrees (.crash (.step (.step (.fresh trivial) ⟨trivial, by decide, by
      intro append happend
      rw [List.mem_singleton] at happend
      subst happend
      exact Or.inl (by decide +kernel)⟩
    (.return (.appendPages .sorted [⟨7, 0, [65, 66], true⟩]) (by decide +kernel)))
    ⟨trivial, by decide, trivial⟩ (.return (.flushSomeDirty 1) (by decide +kernel))) trivial trivial
    (Disk.crash_tearWrites _))

/-- An append on top of a checkpointed page, whose page is then torn, comes back
over zeros: the log no longer holds what the checkpoint moved to the data file. -/
theorem torn_append_loses_checkpointed_bytes : ∃ labels node,
    Run true (CallsOnly fun _ call => DurableCall call ∧ call.Loggable) labels node ∧
      ¬ ∃ l, Ledger.Runs labels l ∧ node.Agrees l := by
  let first : Call := .appendPages .sorted [⟨7, 0, [65, 66], false⟩]
  let second : Call := .appendPages .sorted [⟨7, 2, [67, 68], true⟩]
  let s₁ := (first.prog fresh).state
  let s₂ := ((Call.checkpoint .sorted).prog s₁).state
  let s₃ := (second.prog s₂).state
  let s₄ := ((Call.flushSomeDirty 1).prog s₃).state
  refine ⟨_, .down s₄.disk.tearWrites, .crash (.step (.step (.step (.step (.fresh trivial)
    ⟨trivial, by decide⟩ (.return first (by decide +kernel)))
    ⟨trivial, by decide⟩ (.return (.checkpoint .sorted) (by decide +kernel)))
    ⟨trivial, by decide⟩ (.return second (by decide +kernel)))
    ⟨trivial, by decide⟩ (.return (.flushSomeDirty 1) (by decide +kernel))) trivial trivial
    (Disk.crash_tearWrites _), ?_⟩
  rintro ⟨l, hruns, hagrees⟩
  obtain ⟨count, hge, hle, hshows⟩ := hruns.shows_prefix [.closed, .returned (.flushSomeDirty 1),
    .returned second, .returned (.checkpoint .sorted), .returned first] rfl hagrees
  obtain rfl : count = 2 := Nat.le_antisymm hle hge
  have hread := hshows 7 (by decide)
  exact absurd hread (by decide +kernel)

/-! ## relaxed batches -/

/-- What the commit coordinator calls between two rotations. -/
def GroupCall : Call → Prop
  | .executeGroup _ _ => True
  | .paceFlush _ => True
  | _ => False

/-- The pages a flush writes are older than every record the log sync has not
reached. -/
def Call.FlushesSynced (s : DurableStore) : Call → Prop
  | .paceFlush budget => ∀ page ∈ (collectPending s.dirty s.flushed budget s.flushQueue).1,
      ∀ record ∈ s.activeFile.written, page.lsn < record.lsn
  | _ => True

/-- A dirty page older than every unsynced record is not in an unsynced batch. -/
theorem Inv.onPage_drop_eq_nil {mode : Mode} {H : History} {n : Nat} {s : DurableStore}
    (h : Inv mode H n s) {page : Page} (hd : s.dirty[page.id]? = some page)
    (hold : ∀ record ∈ s.activeFile.written, page.lsn < record.lsn) :
    onPage page.id (H.drop n).flatten = [] := by
  by_contra hne
  obtain ⟨w, hw⟩ := List.exists_mem_of_ne_nil _ hne
  obtain ⟨hwH, hid⟩ := mem_onPage.mp hw
  obtain ⟨record, hr, hle⟩ := h.log.fresh w (List.mem_append_left _ hwH)
  have hmem : w ∈ onPage page.id H.flatten := by
    refine mem_onPage.mpr ⟨?_, hid⟩
    rw [← List.take_append_drop n H, List.flatten_append]
    exact List.mem_append_right _ hwH
  have hcov : covers (imageOf (onPage page.id H.flatten)) w.lsn = true := covers_latest_of_mem hmem
  rw [(h.mem.dirty _ page hd).2, covers_some, decide_eq_true_eq] at hcov
  have := hold record hr
  simp only [Page.stamped] at hcov
  omega

theorem relaxed_discipline : Discipline .plain (CallsOnly fun s call =>
    GroupCall call ∧ call.Loggable ∧ call.FlushesSynced s) fun _ _ _ _ => True where
  opened _ _ _ := trivial
  safe := by
    rintro H n s job label call hallowed hl hinv -
    obtain ⟨hgroup, hloggable, hflush⟩ := hallowed.ok_of_call hl
    refine ⟨hloggable, ?_⟩
    cases call with
    | executeGroup order requests => rfl
    | paceFlush pages =>
      intro _ page hpage
      obtain ⟨id, hd⟩ := mem_collectPending hpage
      obtain rfl := (hinv.mem.dirty id page hd).1
      exact hinv.onPage_drop_eq_nil hd (hflush page hpage)
    | _ => exact hgroup.elim
  returned _ _ _ _ _ _ := trivial
  failed _ _ _ _ _ _ _ := trivial
  background hallowed hb := by
    rw [hallowed.not_background] at hb
    cases hb

/-- **Relaxed batches are kept or lost whole, and in order**, in every run of the
commit coordinator whose flushes stay behind the log sync. -/
theorem relaxed_run_agrees {labels : List Label} {node : Node}
    (hrun : Run false (CallsOnly fun s call =>
      GroupCall call ∧ call.Loggable ∧ call.FlushesSynced s) labels node) :
    ∃ l, Ledger.Runs labels l ∧ node.Agrees l := by
  obtain ⟨l, hruns, hinv⟩ := relaxed_discipline.run hrun
  exact ⟨l, hruns, hinv.agrees fun hr => by cases hr⟩

theorem relaxed_run_agrees_after_sync : ∃ l, Ledger.Runs [.lostPower, .closed,
      .returned (.paceFlush 1),
      .returned (.executeGroup .sorted [⟨[⟨0, [65]⟩, ⟨1, [66]⟩], [], true⟩]), .reopened] l ∧
    (Node.down ((Call.paceFlush 1).prog
      ((Call.executeGroup .sorted [⟨[⟨0, [65]⟩, ⟨1, [66]⟩], [], true⟩]).prog
        fresh).state).state.disk.keepWrites).Agrees l :=
  relaxed_run_agrees (.crash (.step (.step (.fresh trivial)
      ⟨trivial, by decide, trivial⟩
    (.return (.executeGroup .sorted [⟨[⟨0, [65]⟩, ⟨1, [66]⟩], [], true⟩]) (by decide +kernel)))
    ⟨trivial, by decide, by
      intro page _ record hr
      have hnil : ((Call.executeGroup .sorted [⟨[⟨0, [65]⟩, ⟨1, [66]⟩], [], true⟩]).prog
        fresh).state.activeFile.written = [] := by decide +kernel
      rw [hnil] at hr
      cases hr⟩
    (.return (.paceFlush 1) (by decide +kernel))) trivial trivial (Disk.crash_keepWrites _ _))

/-- A flush between a relaxed batch and its log sync can leave one of its pages on
disk without the other. -/
theorem flush_splits_relaxed_batch : ∃ labels node,
    Run false (CallsOnly fun _ call => GroupCall call ∧ call.Loggable) labels node ∧
      ¬ ∃ l, Ledger.Runs labels l ∧ node.Agrees l := by
  let group : Call := .executeGroup .sorted [⟨[⟨0, [65]⟩, ⟨1, [66]⟩], [], false⟩]
  let s₁ := (group.prog fresh).state
  let s₂ := ((Call.paceFlush 1).prog s₁).state
  refine ⟨_, .down s₂.disk.keepWrites, .crash (.step (.step (.fresh trivial)
      ⟨trivial, by decide⟩ (.return group (by decide +kernel)))
    ⟨trivial, by decide⟩ (.return (.paceFlush 1) (by decide +kernel))) trivial trivial
    (Disk.crash_keepWrites _ _), ?_⟩
  rintro ⟨l, hruns, hagrees⟩
  obtain ⟨count, -, hle, hshows⟩ := hruns.shows_prefix [.closed, .returned (.paceFlush 1),
    .returned group] rfl hagrees
  -- page 0 is there and page 1 is not, so neither prefix of the one batch fits
  have hsome := hshows 0 (by decide)
  have hnone := hshows 1 (by decide)
  rcases Nat.le_one_iff_eq_zero_or_eq_one.mp hle with rfl | rfl
  · exact absurd hsome (by decide +kernel)
  · exact absurd hnone (by decide +kernel)

end QuantaDb
