import QuantaDb.Storage.Background
import QuantaDb.Storage.Recovery

/-!
# QuantaDb.Storage.Runs

From single steps to whole runs.

`Discipline mode allowed J` collects what has to be shown about a class of runs:
its calls are safe (`Call.Safe`), and a side condition `J` on open stores
survives its calls and its background steps.  `Discipline.run` then gives, for
every run of the class, a ledger that agrees with what can be seen at its end.
-/

namespace QuantaDb

open Redo Crash DurableStore

variable {mode : Mode}

/-- The steps of the background checkpointer. -/
def Label.isBackground : Label → Bool
  | .began | .ran | .completed | .aborted => true
  | _ => false

/-- What is known at a node of a run: an open store has its history, a closed one
keeps it. -/
def NodeInv (mode : Mode) (J : History → Nat → DurableStore → Option BackgroundCheckpoint → Prop) :
    Node → Ledger → Prop
  | .up s job, l => ∃ (H : History) (n : Nat), H.given = l.batches ∧ l.durable ≤ n ∧
      Inv mode H n s ∧ J H n s job
  | .down d, l => Keeps mode l.batches l.durable d

/-- A class of runs and a side condition that its steps maintain. -/
structure Discipline (mode : Mode) (allowed : Node → Label → Prop)
    (J : History → Nat → DurableStore → Option BackgroundCheckpoint → Prop) : Prop where
  opened : ∀ {H : History} {s}, Inv mode H H.length s → s.checkpointInFlight = false →
    s.spareFile = {} → J H H.length s none
  safe : ∀ {H n s job label call}, allowed (.up s job) label →
    label = .returned call ∨ label = .failed call ∨ label = .halted call →
    Inv mode H n s → J H n s job → call.Safe mode H n s
  returned : ∀ {H n s job call s'} {bs : History}, allowed (.up s job) (.returned call) →
    Inv mode H n s → J H n s job → bs.given = call.batches →
    Inv mode (H ++ bs) (if call.durable then (H ++ bs).length else n) s' → CallFrame s bs s' →
    J (H ++ bs) (if call.durable then (H ++ bs).length else n) s' job
  failed : ∀ {H n s job call s' count} {bs : History}, allowed (.up s job) (.failed call) →
    Inv mode H n s → J H n s job → count < call.batches.length ∨ call.batches = [] →
    bs.given = call.batches.take count → Inv mode (H ++ bs) n s' → CallFrame s bs s' →
    J (H ++ bs) n s' job
  background : ∀ {H n s job label s' job'}, allowed (.up s job) label →
    label.isBackground = true → Step mode.tears (.up s job) label (.up s' job') →
    Inv mode H n s → J H n s job → Inv mode H n s' ∧ J H n s' job'

/-- An empty directory. -/
theorem keeps_empty : Keeps mode [] 0 {} := by
  intro d' hd
  have hslot : ∀ id, ({} : DataFile).slot id = {} := fun id => by simp [DataFile.slot]
  have hleaves : ∀ id image, (d'.data.slot id).Leaves mode.tears image → image = none := by
    intro id image hl
    have := hd.slots id image hl
    rw [show Disk.data {} = {} from rfl, hslot] at this
    exact Slot.leaves_settled this
  have hcount : d'.data.pageCount = 0 := by
    have := hd.pageCount
    rw [show (Disk.data {}).pageCount = 0 from rfl] at this
    omega
  have hseg : ∀ i, d'.segments i = { synced := [] } := by
    intro i
    obtain ⟨records, hl, hi⟩ := hd.segments i
    rw [hi, SegmentFile.leaves_settled hl]
  refine ⟨[], ⟨0, Nat.le_refl 0, Nat.le_refl 0, rfl⟩,
    ⟨List.Pairwise.nil, by simp, by simp⟩, by simp, ⟨fun id page hl => ?_, fun raw hr => ?_,
      fun _ id reason hl => ?_⟩, 0, [], [], [], hseg 0, hseg _,
    ⟨List.Pairwise.nil, by simp, by simp, ⟨[], reads_nil, List.nil_sublist _⟩,
      ⟨[], reads_nil, List.nil_sublist _⟩, reads_nil, List.nil_sublist _,
      fun _ id hne => absurd rfl hne, fun _ => rfl⟩, fun id image hl => ?_⟩
  · cases hleaves id _ hl
  · rw [hcount] at hr; omega
  · cases hleaves id _ hl
  · rw [hleaves id image hl]
    exact ⟨Redo.Rebuilds.of_log _, fun reason hr => by cases hr⟩

section

variable {allowed : Node → Label → Prop}
variable {J : History → Nat → DurableStore → Option BackgroundCheckpoint → Prop}

variable {l : Ledger}

/-- A disk that keeps the batches reopens. -/
theorem Keeps.reopened {d : Disk} (h : Keeps mode l.batches l.durable d) {order : HashOrder}
    (hok : («open» order d).result = .ok ()) :
    Reopened mode l.batches l.durable («open» order d).state :=
  (open_meets h order).ok rfl hok

/-- **A step** of the class moves the ledger. -/
theorem Discipline.step (hd : Discipline mode allowed J) {node node' : Node} {label : Label}
    (hallowed : allowed node label) (hstep : Step mode.tears node label node')
    (hinv : NodeInv mode J node l) : ∃ l', l.Next label l' ∧ NodeInv mode J node' l' := by
  cases hstep with
  | reopen order hok =>
    obtain ⟨H, m, hn, hm, hgiven, hi, hidle, hspare⟩ := Keeps.reopened hinv hok
    refine ⟨_, .reopened l m hn hm, H, H.length, hgiven, ?_, hi, hd.opened hi hidle hspare⟩
    have := congrArg List.length hgiven
    rw [History.length_given, List.length_take_of_le hm] at this
    exact Nat.le_of_eq this.symm
  | haltOpening order hmem =>
    exact ⟨l, .haltedOpening l, (open_meets hinv order).during rfl hmem⟩
  | losePower hcrash =>
    obtain ⟨H, ⟨m, hn, hm, hgiven⟩, hdur⟩ := hinv _ hcrash.narrows
    refine ⟨_, .lostPower l m hn hm, hdur.keeps (Nat.le_refl m) ?_ ?_⟩
    · rw [List.length_take_of_le hm]
    · rw [hgiven, List.take_take, Nat.min_self]
  | «return» call hok =>
    obtain ⟨H, n, hgiven, hn, hi, hJ⟩ := hinv
    have hmeets := call_meets hi call (hd.safe hallowed (Or.inl rfl) hi hJ)
    obtain ⟨bs, hbs, hi', hframe⟩ := hmeets.ok rfl hok
    refine ⟨_, .returned l call, H ++ bs, _, ?_, ?_, hi',
      hd.returned hallowed hi hJ hbs hi' hframe⟩
    · rw [← hgiven, ← hbs]; simp [History.given]
    · split
      · rw [← hgiven, ← hbs]; simp [History.given]
      · exact hn
  | fail call e herr =>
    obtain ⟨H, n, hgiven, hn, hi, hJ⟩ := hinv
    have hmeets := call_meets hi call (hd.safe hallowed (Or.inr (Or.inl rfl)) hi hJ)
    obtain ⟨count, hcount, bs, hbs, hi', hframe⟩ := hmeets.error rfl herr
    refine ⟨_, .failed l call count hcount, H ++ bs, n, ?_, hn, hi',
      hd.failed hallowed hi hJ hcount hbs hi' hframe⟩
    rw [← hgiven, ← hbs]; simp [History.given]
  | halt call hmem =>
    obtain ⟨H, n, hgiven, hn, hi, hJ⟩ := hinv
    have hmeets := call_meets hi call (hd.safe hallowed (Or.inr (Or.inr rfl)) hi hJ)
    refine ⟨_, .halted l call, ?_⟩
    have := hmeets.during rfl hmem
    rw [hgiven] at this
    exact this.mono (List.prefix_refl _) hn
  | close =>
    obtain ⟨H, n, hgiven, hn, hi, -⟩ := hinv
    exact ⟨l, .closed l, (hi.log.keeps (hgiven ▸ List.prefix_refl _)).mono (List.prefix_refl _) hn⟩
  | begin order job hok =>
    obtain ⟨H, n, hgiven, hn, hi, hJ⟩ := hinv
    obtain ⟨hi', hJ'⟩ := hd.background hallowed rfl (.begin order job hok) hi hJ
    exact ⟨l, .began l, H, n, hgiven, hn, hi', hJ'⟩
  | run job' hok =>
    obtain ⟨H, n, hgiven, hn, hi, hJ⟩ := hinv
    obtain ⟨hi', hJ'⟩ := hd.background hallowed rfl (.run job' hok) hi hJ
    exact ⟨l, .ran l, H, n, hgiven, hn, hi', hJ'⟩
  | complete hp hok =>
    obtain ⟨H, n, hgiven, hn, hi, hJ⟩ := hinv
    obtain ⟨hi', hJ'⟩ := hd.background hallowed rfl (.complete hp hok) hi hJ
    exact ⟨l, .completed l, H, n, hgiven, hn, hi', hJ'⟩
  | abort hp =>
    obtain ⟨H, n, hgiven, hn, hi, hJ⟩ := hinv
    obtain ⟨hi', hJ'⟩ := hd.background hallowed rfl (.abort hp) hi hJ
    exact ⟨l, .aborted l, H, n, hgiven, hn, hi', hJ'⟩

/-- **Whole runs**: every run of the class has a ledger. -/
theorem Discipline.run (hd : Discipline mode allowed J) {labels : List Label} {node : Node}
    (hrun : Run mode.tears allowed labels node) :
    ∃ l, Ledger.Runs labels l ∧ NodeInv mode J node l := by
  induction hrun with
  | start => exact ⟨{}, .start, keeps_empty⟩
  | step hrun hallowed hstep ih =>
    obtain ⟨l, hruns, hinv⟩ := ih
    obtain ⟨l', hnext, hinv'⟩ := hd.step hallowed hstep hinv
    exact ⟨l', .step hruns hnext, hinv'⟩

/-- What a disk that keeps the batches shows once it is opened. -/
theorem Keeps.reopens {d : Disk} (h : Keeps mode l.batches l.durable d)
    (hroom : mode.rotates = true → d.HasRoom) : d.Reopens l := by
  intro order
  have hmeets := open_meets h order
  cases hr : («open» order d).result with
  | error e =>
    obtain ⟨hfull, hrot⟩ := hmeets.error rfl hr
    exact absurd (hroom hrot) hfull
  | ok _ =>
    obtain ⟨H, m, hn, hm, hgiven, hi, -⟩ := hmeets.ok rfl hr
    exact ⟨rfl, m, hn, hm, hgiven ▸ shows_of_inv hi.log hi.mem⟩

theorem NodeInv.shows {s : DurableStore} {job : Option BackgroundCheckpoint}
    (h : NodeInv mode J (.up s job) l) : s.Shows l.batches := by
  obtain ⟨H, n, hgiven, -, hi, -⟩ := h
  rw [← hgiven]
  exact shows_of_inv hi.log hi.mem

/-- The ledger of a run is what can be seen at its end. -/
theorem NodeInv.agrees {node : Node} (h : NodeInv mode J node l)
    (hroom : mode.rotates = true → ∀ d, node = .down d → d.HasRoom) : node.Agrees l := by
  cases node with
  | up s job => exact h.shows
  | down d => exact Keeps.reopens h fun hr => hroom hr d rfl

end

/-! ## concrete runs -/

/-- The store opened on an empty directory. -/
def fresh : DurableStore := («open» HashOrder.sorted {}).state

variable {tears : Bool} {allowed : Node → Label → Prop}

theorem Run.fresh (h : allowed (.down {}) .reopened) :
    Run tears allowed [.reopened] (.up QuantaDb.fresh none) :=
  .step .start h (.reopen HashOrder.sorted (by decide +kernel))

variable {labels : List Label}

/-- The process ends and the power fails. -/
theorem Run.crash {s : DurableStore} {job : Option BackgroundCheckpoint}
    (h : Run tears allowed labels (.up s job)) (hc : allowed (.up s job) .closed)
    (hp : allowed (.down s.disk) .lostPower) {d : Disk} (hd : s.disk.Crash tears d) :
    Run tears allowed (.lostPower :: .closed :: labels) (.down d) :=
  .step (.step h hc .close) hp (.losePower hd)

/-- Steps that leave no choice to the ledger. -/
def Label.isPlain : Label → Bool
  | .returned _ | .closed | .began | .ran | .completed | .aborted => true
  | _ => false

/-- The ledger of a run of plain steps, newest first. -/
def Ledger.ofLabels : List Label → Ledger
  | [] => {}
  | .returned call :: labels =>
    let l := ofLabels labels
    ⟨l.batches ++ call.batches,
      if call.durable then (l.batches ++ call.batches).length else l.durable⟩
  | _ :: labels => ofLabels labels

variable {l : Ledger}

theorem Ledger.Next.eq_ofLabels {label : Label} (h : (ofLabels labels).Next label l)
    (hp : label.isPlain = true) :
    l = ofLabels (label :: labels) := by
  cases h with
  | failed => cases hp
  | halted => cases hp
  | reopened => cases hp
  | lostPower => cases hp
  | haltedOpening => cases hp
  | _ => rfl

/-- A run of plain steps has one ledger. -/
theorem Ledger.Runs.eq_of_plain (h : Ledger.Runs labels l) (hp : labels.all Label.isPlain = true) :
    l = Ledger.ofLabels labels := by
  induction h with
  | start => rfl
  | step hruns hnext ih =>
    rw [List.all_cons, Bool.and_eq_true] at hp
    obtain rfl := ih hp.2
    exact hnext.eq_ofLabels hp.1

theorem Ledger.Runs.eq_ofLabels (h : Ledger.Runs (labels ++ [.reopened]) l)
    (hp : labels.all Label.isPlain = true) :
    l = Ledger.ofLabels labels := by
  induction labels generalizing l with
  | nil =>
    cases h with
    | step hruns hnext =>
      cases hruns
      cases hnext
      rename_i count _ hc
      obtain rfl : count = 0 := Nat.le_zero.mp hc
      rfl
  | cons label labels ih =>
    rw [List.all_cons, Bool.and_eq_true] at hp
    cases h with
    | step hruns hnext =>
      obtain rfl := ih hruns hp.2
      exact hnext.eq_ofLabels hp.1

/-- After plain steps and a power failure, a store that agrees with a ledger of
the run shows a prefix of the batches given. -/
theorem Ledger.Runs.shows_prefix (labels : List Label) {d : Disk}
    (h : Ledger.Runs (.lostPower :: (labels ++ [.reopened])) l)
    (hp : labels.all Label.isPlain = true) (hagrees : (Node.down d).Agrees l) :
    ∃ count, (ofLabels labels).durable ≤ count ∧ count ≤ (ofLabels labels).batches.length ∧
      («open» HashOrder.sorted d).state.Shows ((ofLabels labels).batches.take count) := by
  cases h with
  | step hruns hnext =>
    obtain rfl := hruns.eq_ofLabels hp
    cases hnext
    rename_i c hc hc'
    obtain ⟨-, count, hge, hle, hshows⟩ := hagrees HashOrder.sorted
    simp only [List.length_take_of_le hc'] at hge hle
    obtain rfl : count = c := Nat.le_antisymm hle hge
    rw [List.take_take, Nat.min_self] at hshows
    exact ⟨count, hc, hc', hshows⟩

/-- The checkpoint a step of the checkpointer returns. -/
def jobOf : Except StorageError BackgroundCheckpoint → BackgroundCheckpoint
  | .ok job => job
  | .error _ => { manifest := [], retired := segmentA, boundaryLsn := 0 }

theorem eq_ok_jobOf {r : Except StorageError BackgroundCheckpoint} (h : r.isOk = true) :
    r = .ok (jobOf r) := by
  cases r with
  | ok job => rfl
  | error e => cases h

/-- A store and its checkpoint after some steps of the checkpointer. -/
def runSteps : Nat → DurableStore × BackgroundCheckpoint → DurableStore × BackgroundCheckpoint
  | 0, p => p
  | k + 1, p => runSteps k ((runStep p.2 p.1).state, jobOf (runStep p.2 p.1).result)

/-- None of these steps fails. -/
def runStepsOk : Nat → DurableStore × BackgroundCheckpoint → Bool
  | 0, _ => true
  | k + 1, p => (runStep p.2 p.1).result.isOk &&
      runStepsOk k ((runStep p.2 p.1).state, jobOf (runStep p.2 p.1).result)

theorem Run.ran (hallowed : ∀ s job, allowed (.up s job) .ran) (k : Nat)
    {p : DurableStore × BackgroundCheckpoint} (h : Run tears allowed labels (.up p.1 (some p.2)))
    (hok : runStepsOk k p = true) :
    ∃ labels', Run tears allowed labels' (.up (runSteps k p).1 (some (runSteps k p).2)) := by
  induction k generalizing labels p with
  | zero => exact ⟨labels, h⟩
  | succ k ih =>
    rw [runStepsOk, Bool.and_eq_true] at hok
    exact ih (.step h (hallowed _ _) (.run _ (eq_ok_jobOf hok.1))) hok.2

end QuantaDb
