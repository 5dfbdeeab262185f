import QuantaDb.Mvcc.Opening

/-!
# QuantaDb.Mvcc.Runs

Whole runs: every state that any interleaving of transactions and rebuilds
reaches from an opened database.

The invariant holds along a run because each step keeps it.  A run also never
takes anything back: the watermark only rises, finished commits stay, and what
finishes later lies behind the watermark there was (`Core.Later`).
-/

namespace QuantaDb.Mvcc

open TreeMaps

namespace Core

variable {c c' c'' : Core}

@[simp] theorem run_nil (c : Core) : c.run [] = some c := rfl

@[simp] theorem run_cons (c : Core) (action : Action) (actions : List Action) :
    c.run (action :: actions) = (c.step action).bind fun c' => c'.run actions := rfl

/-- States that some run from an opened database ends in. -/
def Reachable (c : Core) : Prop :=
  ∃ (c₀ : Core) (actions : List Action), c₀.Opened ∧ c₀.run actions = some c

/-- What a run from a reachable state ends in is reachable. -/
theorem Reachable.run (h : c.Reachable) {actions : List Action} (hr : c.run actions = some c') :
    c'.Reachable := by
  obtain ⟨c₀, before, hopened, hbefore⟩ := h
  refine ⟨c₀, before ++ actions, hopened, ?_⟩
  rw [Core.run, List.foldlM_append]
  exact Option.bind_eq_some_iff.mpr ⟨c, hbefore, hr⟩

/-- An invariant of single steps holds along a run. -/
theorem run_invariant (I : Core → Prop)
    (hstep : ∀ {c action c'}, I c → step c action = some c' → I c') {actions : List Action}
    (h : I c) (hr : c.run actions = some c') : I c' := by
  induction actions generalizing c with
  | nil =>
    cases hr
    exact h
  | cons action actions ih =>
    obtain ⟨d, hd, hr⟩ := Option.bind_eq_some_iff.mp hr
    exact ih (hstep h hd) hr

theorem Reachable.sound (h : c.Reachable) : Sound c := by
  obtain ⟨c₀, actions, ho, hr⟩ := h
  exact run_invariant Sound (fun h hs => h.step hs) ho.sound hr

/-! ## what later states keep -/

/-- `c'` comes later than `c`. -/
structure Later (c c' : Core) : Prop where
  recovered : c'.recovered = c.recovered
  visible : c.db.visibleThrough ≤ c'.db.visibleThrough
  finished : ∀ f ∈ c.finished, f ∈ c'.finished
  new : ∀ f ∈ c'.finished, f ∈ c.finished ∨ c.db.visibleThrough < f.commit.timestamp

theorem Later.refl (c : Core) : Later c c :=
  ⟨rfl, Nat.le_refl _, fun _ hf => hf, fun _ hf => Or.inl hf⟩

theorem Later.trans (h : Later c c') (h' : Later c' c'') : Later c c'' := by
  refine ⟨h'.recovered.trans h.recovered, Nat.le_trans h.visible h'.visible,
    fun f hf => h'.finished f (h.finished f hf), fun f hf => ?_⟩
  rcases h'.new f hf with hf | hlt
  · exact h.new f hf
  · exact Or.inr (Nat.lt_of_le_of_lt h.visible hlt)

/-- Steps that finish nothing. -/
theorem Later.of_eq (hrec : c'.recovered = c.recovered)
    (hvis : c'.db.visibleThrough = c.db.visibleThrough) (hfin : c'.finished = c.finished) :
    Later c c' :=
  ⟨hrec, Nat.le_of_eq hvis.symm, fun _ hf => hfin ▸ hf, fun _ hf => Or.inl (hfin ▸ hf)⟩

theorem Later.of_finish (h : Sound c) {x : Nat} {pageIds : Option (List PageId)}
    (hs : c.finish x pageIds = some c') : Later c c' := by
  obtain ⟨p, hp, -, rfl⟩ := h.finish_eq hs
  obtain ⟨versions, pageRefs, dirtyKeys, hst⟩ := c.db.settle_eq p.transactionId x p.writes pageIds
  obtain ⟨completed, visible, hdone, hle, -⟩ :=
    (c.db.settle p.transactionId x p.writes pageIds).complete_eq x
  obtain ⟨hpt, hvis, -⟩ := h.orderly.prepared x p hp
  refine ⟨rfl, ?_, fun f hf => List.mem_append_left _ hf, fun f hf => ?_⟩
  · rw [hdone]
    rw [hst] at hle
    exact hle
  · rcases List.mem_append.mp hf with hf | hf
    · exact Or.inl hf
    · rw [List.mem_singleton.mp hf]
      exact Or.inr (hpt ▸ hvis)

/-- Steps that end a commit. -/
def ends : Action → Bool
  | .finish _ _ | .abandon _ => true
  | _ => false

/-- The other steps leave what is published and what is under way. -/
theorem of_not_ends (h : Sound c) {action : Action} (hends : ends action = false)
    (hs : c.step action = some c') : c'.recovered = c.recovered ∧
      c'.db.visibleThrough = c.db.visibleThrough ∧ c'.finished = c.finished ∧
      ∀ (x : Nat) commit, c.prepared[x]? = some commit → c'.prepared[x]? = some commit := by
  cases action with
  | begin =>
    rw [begin_eq hs]
    exact ⟨rfl, rfl, rfl, fun _ _ hx => hx⟩
  | write id key value =>
    obtain ⟨t, t', scans, -, -, -, rfl⟩ := update_eq (Or.inl ⟨key, value, hs⟩)
    exact ⟨rfl, rfl, rfl, fun _ _ hx => hx⟩
  | protectScans id =>
    obtain ⟨t, t', scans, -, -, -, rfl⟩ := update_eq (Or.inr (Or.inl hs))
    exact ⟨rfl, rfl, rfl, fun _ _ hx => hx⟩
  | scanPrefix id start =>
    obtain ⟨t, t', scans, -, -, -, rfl⟩ := update_eq (Or.inr (Or.inr ⟨start, hs⟩))
    exact ⟨rfl, rfl, rfl, fun _ _ hx => hx⟩
  | prepare id =>
    obtain ⟨t, -, -, rfl⟩ := prepare_eq hs
    refine ⟨rfl, rfl, rfl, fun x commit hx => ?_⟩
    have hne := (h.orderly.prepared x commit hx).2.2
    rw [get_insert, if_neg (Nat.ne_of_gt hne), hx]
  | finish | abandon => cases hends
  | close id =>
    obtain ⟨-, rfl⟩ := close_eq hs
    exact ⟨rfl, rfl, rfl, fun _ _ hx => hx⟩
  | finishClose id =>
    obtain ⟨-, rfl⟩ := finishClose_eq hs
    exact ⟨rfl, rfl, rfl, fun _ _ hx => hx⟩
  | publish build manifestPageId openPage =>
    obtain ⟨b, -, rfl⟩ := Option.map_eq_some_iff.mp hs
    obtain ⟨versions, pageRefs, generations, dirtyKeys, hst⟩ :=
      c.db.publish_eq ⟨b.timestamp, b.entries, manifestPageId⟩ openPage
    exact ⟨rfl, by rw [hst], rfl, fun _ _ hx => hx⟩
  | capture | drop =>
    obtain ⟨b, -, rfl⟩ := Option.map_eq_some_iff.mp hs
    exact ⟨rfl, rfl, rfl, fun _ _ hx => hx⟩

theorem Later.of_step (h : Sound c) {action : Action} (hs : c.step action = some c') :
    Later c c' := by
  cases hends : ends action with
  | false =>
    obtain ⟨hrec, hvis, hfin, -⟩ := of_not_ends h hends hs
    exact .of_eq hrec hvis hfin
  | true =>
    cases action with
    | finish timestamp pageIds => exact .of_finish h hs
    | abandon timestamp => exact .of_finish h hs
    | _ => cases hends

theorem Later.of_run (h : Sound c) {actions : List Action} (hr : c.run actions = some c') :
    Later c c' :=
  (run_invariant (fun d => Sound d ∧ Later c d)
    (fun hd hs => ⟨hd.1.step hs, hd.2.trans (.of_step hd.1 hs)⟩) ⟨h, .refl c⟩ hr).2

/-- What is committed up to the watermark does not change any more. -/
theorem Later.agree (h : Later c c') : AgreeUpTo c.db.visibleThrough c.history c'.history := by
  intro key v hv
  simp only [history, List.mem_append, List.mem_flatMap, h.recovered]
  refine or_congr_right ?_
  constructor
  · rintro ⟨f, hf, hmem⟩
    exact ⟨f, h.finished f hf, hmem⟩
  · rintro ⟨f, hf, hmem⟩
    rcases h.new f hf with hold | hlt
    · exact ⟨f, hold, hmem⟩
    · rw [Finished.timestamp_of_mem hmem] at hv
      omega

/-! ## snapshots -/

/-- **Snapshot reads survive reclamation.**  Whatever rebuilds have published and
swept, an active transaction reads the committed value of its snapshot. -/
theorem read_eq_valueAt (h : c.Reachable) {id snapshot : Nat}
    (hactive : c.db.active[id]? = some snapshot) (key : Key) :
    c.db.read key snapshot = valueAt c.history key snapshot := by
  obtain ⟨floor, hr⟩ := h.sound.retains
  exact hr.read_eq (hr.active id snapshot hactive).1 key

/-- A key is written, a reader begins, and the key is written again and indexed
twice, so that the reader's value is gone from the map. -/
def overwritten : List Action :=
  [.begin, .write 1 [107] (some [1]), .prepare 1, .finish 1 [0], .finishClose 1, .capture,
    .publish 0 8 (some 0), .begin, .begin, .write 3 [107] (some [2]), .prepare 3, .finish 2 [0],
    .finishClose 3, .capture, .publish 0 9 (some 0)]

theorem read_eq_valueAt_overwritten : ∃ c : Core, c.Reachable ∧ c.db.active[2]? = some 1 ∧
    c.db.read [107] 1 = valueAt c.history [107] 1 ∧ c.db.read [107] 1 = some [1] := by
  obtain ⟨c, hc⟩ : ∃ c, Core.run { db := {} } overwritten = some c :=
    Option.isSome_iff_exists.mp (by decide +kernel)
  have hactive : ((Core.run { db := {} } overwritten).bind fun c => c.db.active[2]?) = some 1 := by
    decide +kernel
  have hread : ((Core.run { db := {} } overwritten).bind fun c => c.db.read [107] 1) = some
    [1] := by
    decide +kernel
  rw [hc] at hactive hread
  have hreach : c.Reachable := ⟨_, overwritten, opened_empty, hc⟩
  exact ⟨c, hreach, hactive, read_eq_valueAt hreach hactive [107], hread⟩

/-! ## first committer wins -/

/-- **First committer wins.**  Commits have different timestamps, newer than all
that was recovered, and between the snapshot of a transaction and its commit
nobody else has committed a write to a key that it writes. -/
theorem first_committer_wins (h : c.Reachable) :
    (c.finished.Pairwise fun f f' => f.commit.timestamp ≠ f'.commit.timestamp) ∧
      (∀ f ∈ c.finished, ∀ key w, (key, w) ∈ c.recovered → w.timestamp < f.commit.timestamp) ∧
      ∀ f ∈ c.finished, ∀ key v, (key, v) ∈ f.versions → v.timestamp = f.commit.timestamp ∧
        ∀ w, (key, w) ∈ c.history →
          ¬(f.commit.snapshot < w.timestamp ∧ w.timestamp < f.commit.timestamp) := by
  have hs := h.sound
  refine ⟨hs.orderly.distinct, fun f hf key w hw => ?_, fun f hf key v hv => ?_⟩
  · have hle := State.le_maximumTimestamp hw
    have := (hs.orderly.finished f hf).1
    unfold Core.opened at this
    omega
  · refine ⟨Finished.timestamp_of_mem hv, fun w hw hbetween => ?_⟩
    rcases hs.guarded.past f.commit (Or.inr ⟨f, hf, rfl⟩) key (Or.inl (Finished.key_of_mem hv)) w hw
      with hle | hle
    · omega
    · omega

theorem first_committer_wins_overwritten : ∃ c : Core, c.Reachable ∧
    (∃ f ∈ c.finished, ∃ v, (([107], v) : Key × Version) ∈ f.versions) ∧
    c.finished.Pairwise fun f f' => f.commit.timestamp ≠ f'.commit.timestamp := by
  obtain ⟨c, hc⟩ : ∃ c, Core.run { db := {} } overwritten = some c :=
    Option.isSome_iff_exists.mp (by decide +kernel)
  have hwritten : ((Core.run { db := {} } overwritten).any fun c =>
      c.finished.any fun f => f.versions.any fun entry => entry.1 == [107]) = true := by
    decide +kernel
  rw [hc, Option.any_some, List.any_eq_true] at hwritten
  obtain ⟨f, hf, hany⟩ := hwritten
  obtain ⟨⟨key, v⟩, hv, hkey⟩ := List.any_eq_true.mp hany
  have hreach : c.Reachable := ⟨_, overwritten, opened_empty, hc⟩
  exact ⟨c, hreach, ⟨f, hf, v, by simpa using (beq_iff_eq.mp hkey ▸ hv)⟩,
    (first_committer_wins hreach).1⟩

/-! ## the watermark -/

/-- A conflict on one of the keys refuses the commit. -/
theorem prepareCommit_refuses {st : State} {id snapshot : Nat} {keys : List Key} {key : Key}
    (hkey : key ∈ keys) (hnewer : State.hasNewer snapshot (st.on key) = true)
    (scanned : List Bytes) :
    ∃ key', st.prepareCommit id snapshot keys scanned = .error (.writeConflict key') := by
  have hfound : (st.writeConflict id snapshot keys).isSome = true := by
    rw [State.writeConflict, List.find?_isSome]
    exact ⟨key, hkey, by rw [Bool.or_eq_true]; exact .inr hnewer⟩
  obtain ⟨key', hkey'⟩ := Option.isSome_iff_exists.mp hfound
  exact ⟨key', by rw [State.prepareCommit, hkey']⟩

/-- What a snapshot sees of a commit that has returned. -/
structure Seen (c : Core) (f : Finished) (id snapshot : Nat) (key : Key) : Prop where
  /-- the commit is covered: reads find it, or what was committed on top of it -/
  covered : f.commit.timestamp ≤ snapshot → ∃ w, newestAt c.history key snapshot = some w ∧
    f.commit.timestamp ≤ w.timestamp ∧ c.db.read key snapshot = w.value
  /-- the commit is not covered: a write to the key is refused -/
  refused : snapshot < f.commit.timestamp → State.hasNewer snapshot (c.db.on key) = true ∧
    ∀ keys scanned, key ∈ keys →
      ∃ key', c.db.prepareCommit id snapshot keys scanned = .error (.writeConflict key')

/-- An active transaction sees of every commit that has returned what its snapshot says. -/
theorem Reachable.seen (h : c.Reachable) {f : Finished} (hf : f ∈ c.finished) {id snapshot : Nat}
    (hactive : c.db.active[id]? = some snapshot) {key : Key} {v : Version}
    (hv : (key, v) ∈ f.versions) : Seen c f id snapshot key := by
  obtain ⟨floor, hr⟩ := h.sound.retains
  have hfloor := (hr.active id snapshot hactive).1
  have hmem : (key, v) ∈ c.history := List.mem_append_right _ (List.mem_flatMap.mpr ⟨f, hf, hv⟩)
  have hvt := Finished.timestamp_of_mem hv
  refine ⟨fun hle => ?_, fun hlt => ?_⟩
  · have hread := hr.read_eq hfloor key
    rw [valueAt] at hread
    cases hn : newestAt c.history key snapshot with
    | none =>
      have := newestAt_eq_none.mp hn v hmem
      omega
    | some w =>
      rw [hn] at hread
      have := ((newestAt_eq_some hr.unambiguous).mp hn).max v hmem (by omega)
      exact ⟨w, rfl, by omega, hread⟩
  · have hnewer : State.hasNewer snapshot (c.db.on key) = true := by
      rw [← Bool.not_eq_false]
      intro hnew
      have hle := hr.unchanged hfloor hnew hmem
      omega
    exact ⟨hnewer, fun keys scanned hkey => prepareCommit_refuses hkey hnewer scanned⟩

end Core

end QuantaDb.Mvcc
