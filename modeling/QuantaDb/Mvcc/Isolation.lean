import QuantaDb.Mvcc.Commits
import QuantaDb.Mvcc.Prefix

/-!
# QuantaDb.Mvcc.Isolation

What `prepare_commit` has checked stays true until the commit is history.

A commit covers the keys it writes and those under the prefixes it scanned.  On
these no version lies between its snapshot and its timestamp, and no commit under
way with a smaller timestamp will put one there (`Guarded`).  The check only
looks at the version map and the intents, so this rests on the map retaining
every version that an active snapshot cannot see.

`Sound` puts all parts together; every step of the machine keeps it.
-/

namespace QuantaDb.Mvcc

open TreeMaps

/-! ## what a commit has checked -/

/-- The keys a commit writes or has scanned. -/
def Prepared.Covers (p : Prepared) (key : Key) : Prop :=
  key ∈ p.keys ∨ ∃ start ∈ p.scannedPrefixes, start <+: key

/-- A commit under way or finished. -/
def Core.Commits (c : Core) (p : Prepared) : Prop :=
  (∃ x : Nat, c.prepared[x]? = some p) ∨ ∃ f ∈ c.finished, f.commit = p

theorem Finished.key_of_mem {f : Finished} {key : Key} {w : Version} (h : (key, w) ∈ f.versions) :
    key ∈ f.commit.keys := by
  unfold Finished.versions at h
  split at h
  · cases h
  · obtain ⟨⟨write, pageId⟩, hmem, heq⟩ := List.mem_map.mp h
    cases heq
    exact List.mem_map_of_mem (List.of_mem_zip hmem).1

theorem Finished.timestamp_of_mem {f : Finished} {key : Key} {w : Version}
    (h : (key, w) ∈ f.versions) : w.timestamp = f.commit.timestamp := by
  unfold Finished.versions at h
  split at h
  · cases h
  · obtain ⟨write, -, heq⟩ := List.mem_map.mp h
    cases heq
    rfl

namespace State

/-- A key without newer versions has only older ones. -/
theorem le_of_not_hasNewer {versions : List Version} {snapshot : Nat}
    (hs : versions.Pairwise fun v w => v.timestamp < w.timestamp)
    (h : hasNewer snapshot versions = false) {v : Version} (hv : v ∈ versions) :
    v.timestamp ≤ snapshot := by
  cases hl : versions.getLast? with
  | none =>
    rw [List.getLast?_eq_none_iff.mp hl] at hv
    cases hv
  | some last =>
    simp only [hasNewer, hl, Option.any_some, decide_eq_false_iff_not, Nat.not_lt] at h
    obtain ⟨init, rfl⟩ := List.getLast?_eq_some_iff.mp hl
    rcases List.mem_append.mp hv with hv | hv
    · have := (List.pairwise_append.mp hs).2.2 v hv last (by simp)
      omega
    · rw [List.mem_singleton.mp hv]
      exact h

/-- The map decides whether a key has changed since an active snapshot. -/
theorem Retains.unchanged {H : Versions} {floor : Nat} {st : State} (h : Retains H floor st)
    {key : Key} {snapshot : Nat} (hfloor : floor ≤ snapshot)
    (hnew : hasNewer snapshot (st.on key) = false) {w : Version} (hw : (key, w) ∈ H) :
    w.timestamp ≤ snapshot := by
  by_contra hlt
  exact hlt (le_of_not_hasNewer (h.sorted key) hnew (h.mem_of_floor_lt hw (by omega)))

/-- The keys that a commit covers have not changed since its snapshot. -/
theorem Prepares.unchanged {H : Versions} {floor : Nat} {st : State} {id : Nat} {p : Prepared}
    (h : st.Prepares id p.snapshot p.keys p.scannedPrefixes) (hr : Retains H floor st)
    (hfloor : floor ≤ p.snapshot) {key : Key} (hc : p.Covers key) {w : Version}
    (hw : (key, w) ∈ H) : w.timestamp ≤ p.snapshot := by
  refine hr.unchanged hfloor ?_ hw
  rcases hc with hk | ⟨start, hs, hkey⟩
  · exact (h.keys key hk).2
  · cases hv : st.versions[key]? with
    | none =>
      rw [State.on, Std.TreeMap.getD_eq_getD_getElem?, hv]
      rfl
    | some versions =>
      have hon : st.on key = versions := by
        rw [State.on, Std.TreeMap.getD_eq_getD_getElem?, hv, Option.getD_some]
      rw [hon]
      refine (h.ranges start hs).1 (key, versions) (List.mem_filter.mpr ⟨?_, ?_⟩)
      · exact Std.TreeMap.mem_toList_iff_getElem?_eq_some.mpr hv
      · exact (inRange_prefixEnd start key).mpr hkey

end State

/-- What was checked for a commit still holds. -/
structure Guarded (c : Core) : Prop where
  order : ∀ p, c.Commits p → p.snapshot < p.timestamp
  fresh : ∀ (x : Nat) p, c.prepared[x]? = some p → ∀ key ∈ p.keys, ∀ w, (key, w) ∈ c.history →
    w.timestamp ≤ p.snapshot
  past : ∀ p, c.Commits p → ∀ key, p.Covers key → ∀ w, (key, w) ∈ c.history →
    w.timestamp ≤ p.snapshot ∨ p.timestamp ≤ w.timestamp
  flight : ∀ p, c.Commits p → ∀ key, p.Covers key → ∀ (x : Nat) q, c.prepared[x]? = some q →
    q.timestamp < p.timestamp → key ∉ q.keys

namespace Guarded

variable {c c' : Core}

theorem congr (h : Guarded c) (hrec : c'.recovered = c.recovered) (hprep : c'.prepared = c.prepared)
    (hfin : c'.finished = c.finished) : Guarded c' := by
  have hhist : c'.history = c.history := by rw [Core.history, hrec, hfin, Core.history]
  have hcom : ∀ p, c'.Commits p ↔ c.Commits p := fun p => by
    rw [Core.Commits, hprep, hfin, Core.Commits]
  refine ⟨fun p hp => h.order p ((hcom p).mp hp), ?_, fun p hp => ?_, fun p hp => ?_⟩
  · rw [hprep, hhist]; exact h.fresh
  · rw [hhist]; exact h.past p ((hcom p).mp hp)
  · rw [hprep]; exact h.flight p ((hcom p).mp hp)

/-- A commit that passes the checks. -/
theorem prepare (h : Guarded c) (ho : Orderly c) {p : Prepared}
    (hpt : p.timestamp = c.db.nextCommitTimestamp) (hsnap : p.snapshot < p.timestamp)
    (hfree : ∀ key, p.Covers key → ∀ (x : Nat) q, c.prepared[x]? = some q → key ∉ q.keys)
    (hnew : ∀ key, p.Covers key → ∀ w, (key, w) ∈ c.history → w.timestamp ≤ p.snapshot)
    (hrec : c'.recovered = c.recovered)
    (hprep : c'.prepared = c.prepared.insert c.db.nextCommitTimestamp p)
    (hfin : c'.finished = c.finished) : Guarded c' := by
  have hhist : c'.history = c.history := by rw [Core.history, hrec, hfin, Core.history]
  have hcases : ∀ (x : Nat) q, c'.prepared[x]? = some q → q = p ∨ c.prepared[x]? = some q := by
    intro x q hq
    rw [hprep, get_insert] at hq
    split at hq
    · cases hq
      exact Or.inl rfl
    · exact Or.inr hq
  have hcom : ∀ q, c'.Commits q → q = p ∨ c.Commits q := by
    rintro q (⟨x, hq⟩ | hq)
    · exact (hcases x q hq).imp_right fun hq => Or.inl ⟨x, hq⟩
    · rw [hfin] at hq
      exact Or.inr (Or.inr hq)
  have hlast : ∀ q, c.Commits q → q.timestamp < p.timestamp := by
    rintro q (⟨x, hq⟩ | ⟨f, hf, rfl⟩)
    · obtain ⟨h1, -, h3⟩ := ho.prepared x q hq
      omega
    · have hv := ho.visible
      rcases (ho.finished f hf).2 with hle | hin
      · omega
      · have := ho.completed _ hin
        omega
  refine ⟨fun q hq => ?_, fun x q hq key hk w hw => ?_, fun q hq key hk w hw => ?_,
    fun q hq key hk x r hr hlt => ?_⟩
  · rcases hcom q hq with rfl | hq
    · exact hsnap
    · exact h.order q hq
  · rw [hhist] at hw
    rcases hcases x q hq with rfl | hq
    · exact hnew key (Or.inl hk) w hw
    · exact h.fresh x q hq key hk w hw
  · rw [hhist] at hw
    rcases hcom q hq with rfl | hq
    · exact Or.inl (hnew key hk w hw)
    · exact h.past q hq key hk w hw
  · rcases hcom q hq with rfl | hq
    · rcases hcases x r hr with rfl | hr
      · exact absurd hlt (Nat.lt_irrefl _)
      · exact hfree key hk x r hr
    · rcases hcases x r hr with rfl | hr
      · exact absurd hlt (Nat.not_lt.mpr (Nat.le_of_lt (hlast q hq)))
      · exact h.flight q hq key hk x r hr hlt

/-- A commit that becomes history, or comes to nothing. -/
theorem finish (h : Guarded c) (hown : Owned c) {x : Nat} {p : Prepared}
    (hp : c.prepared[x]? = some p) {f : Finished} (hf : f.commit = p)
    (hwrites : ∀ key w, (key, w) ∈ f.versions → key ∈ p.keys ∧ w.timestamp = p.timestamp)
    (hrec : c'.recovered = c.recovered) (hprep : c'.prepared = c.prepared.erase x)
    (hfin : c'.finished = c.finished ++ [f]) : Guarded c' := by
  have hhist : ∀ key w, (key, w) ∈ c'.history → (key, w) ∈ c.history ∨ (key, w) ∈ f.versions := by
    intro key w hw
    simpa [Core.history, hrec, hfin, or_assoc] using hw
  have hcases : ∀ (y : Nat) q, c'.prepared[y]? = some q → y ≠ x ∧ c.prepared[y]? = some q := by
    intro y q hq
    rw [hprep, get_erase] at hq
    split at hq
    · cases hq
    · next hne => exact ⟨Ne.symm hne, hq⟩
  have hcom : ∀ q, c'.Commits q → c.Commits q := by
    rintro q (⟨y, hq⟩ | ⟨g, hg, rfl⟩)
    · exact Or.inl ⟨y, (hcases y q hq).2⟩
    · rw [hfin, List.mem_append, List.mem_singleton] at hg
      rcases hg with hg | rfl
      · exact Or.inr ⟨g, hg, rfl⟩
      · exact Or.inl ⟨x, hf ▸ hp⟩
  refine ⟨fun q hq => h.order q (hcom q hq), fun y q hq key hk w hw => ?_,
    fun q hq key hk w hw => ?_, fun q hq key hk y r hr hlt => ?_⟩
  · obtain ⟨hne, hq⟩ := hcases y q hq
    rcases hhist key w hw with hw | hw
    · exact h.fresh y q hq key hk w hw
    · -- two commits under way never share a key: both would hold its intent
      have h1 := (hown.prepared y q hq).2.2.2 key hk
      have h2 := (hown.prepared x p hp).2.2.2 key (hwrites key w hw).1
      rw [h1, Option.some.injEq] at h2
      exact absurd (hown.owner y x q p hq hp h2) hne
  · rcases hhist key w hw with hw | hw
    · exact h.past q (hcom q hq) key hk w hw
    · obtain ⟨hkp, hwt⟩ := hwrites key w hw
      refine Or.inr (Nat.not_lt.mp fun hlt => ?_)
      exact h.flight q (hcom q hq) key hk x p hp (by omega) hkp
  · exact h.flight q (hcom q hq) key hk y r (hcases y r hr).2 hlt

end Guarded

/-! ## all parts together -/

/-- **The invariant of the machine.** -/
structure Sound (c : Core) : Prop where
  orderly : Orderly c
  owned : Owned c
  guarded : Guarded c
  retains : ∃ floor, c.db.Retains c.history floor
  builds : ∀ b ∈ c.builds, b.timestamp ≤ c.db.visibleThrough ∧
    Indexes c.history b.timestamp b.entries

namespace Core

/-! What each step does. -/

variable {c c' : Core}

/-- What `begin` changes. -/
theorem begin_eq (h : c.begin = some c') : c' = { c with
    db := { c.db with
      nextTransactionId := c.db.nextTransactionId + 1
      active := c.db.active.insert c.db.nextTransactionId c.db.visibleThrough }
    transactions := c.transactions.insert c.db.nextTransactionId
      { id := c.db.nextTransactionId, snapshot := c.db.visibleThrough } } := by
  unfold begin State.begin at h
  split at h
  · cases h
  · next hok =>
    split at hok
    · cases hok
    · cases hok
      cases h
      rfl

variable {id : Nat}

/-- What a write changes. -/
theorem write_eq {key : Key} {value : Option Bytes} (h : c.write id key value = some c') :
    ∃ t, c.transactions[id]? = some t ∧ validateSize key value = .ok () ∧
      c' = { c with transactions :=
        c.transactions.insert id { t with writes := t.writes.insert key value } } := by
  unfold write at h
  split at h
  · cases h
  · next t ht =>
    unfold Transaction.write at h
    cases hv : validateSize key value with
    | error e =>
      rw [hv] at h
      cases h
    | ok u =>
      rw [hv] at h
      cases h
      exact ⟨t, ht, rfl, rfl⟩

/-- Steps of a client on the transaction it holds. -/
theorem update_eq (h : (∃ key value, c.write id key value = some c') ∨
      c.protectScans id = some c' ∨ ∃ start, c.scanPrefix id start = some c') :
    ∃ t t' scans, c.transactions[id]? = some t ∧ t'.id = t.id ∧ t'.snapshot = t.snapshot ∧
      c' = { c with transactions := c.transactions.insert id t', scans } := by
  rcases h with ⟨key, value, h⟩ | h | ⟨start, h⟩
  · obtain ⟨t, ht, -, rfl⟩ := write_eq h
    exact ⟨t, { t with writes := t.writes.insert key value }, _, ht, rfl, rfl, rfl⟩
  · obtain ⟨t, ht, rfl⟩ := Option.map_eq_some_iff.mp h
    exact ⟨t, t.protectScans, _, ht, rfl, rfl, rfl⟩
  · obtain ⟨t, ht, rfl⟩ := Option.map_eq_some_iff.mp h
    refine ⟨t, _, _, ht, ?_, ?_, rfl⟩
    · unfold Transaction.noteScan
      split <;> rfl
    · unfold Transaction.noteScan
      split <;> rfl

/-- A finished commit adds its versions to the history. -/
theorem history_finished (c : Core) (f : Finished) (db : State)
    (prepared : Std.TreeMap Nat Prepared)
    (closing : Std.TreeSet Nat) :
    history { c with db, prepared, closing, finished := c.finished ++ [f] } =
      c.history ++ f.versions := by
  simp [history]

/-- The commit that `prepare` starts for a transaction. -/
def commitOf (t : Transaction) (id timestamp : Nat) : Prepared :=
  ⟨id, t.snapshot, timestamp, t.writes.toList, t.scannedPrefixes⟩

theorem commitOf_keys (t : Transaction) (id timestamp : Nat) :
    (commitOf t id timestamp).keys = t.writes.keys :=
  Std.TreeMap.map_fst_toList_eq_keys

/-- What the first phase of a commit changes. -/
theorem prepare_eq (h : c.prepare id = some c') :
    ∃ t, c.transactions[id]? = some t ∧
      c.db.Prepares id t.snapshot t.writes.keys t.scannedPrefixes ∧
      c' = { c with
        db := { c.db with
          nextCommitTimestamp := c.db.nextCommitTimestamp + 1
          intents := t.writes.keys.foldl (fun intents key => intents.insert key id) c.db.intents }
        transactions := c.transactions.erase id
        prepared := c.prepared.insert c.db.nextCommitTimestamp
          (commitOf t id c.db.nextCommitTimestamp) } := by
  unfold prepare at h
  split at h
  · cases h
  · next t ht =>
    split at h
    · cases h
    · split at h
      · cases h
      · next timestamp db hok =>
        obtain ⟨hp, rfl, rfl⟩ := State.prepareCommit_eq_ok hok
        cases h
        exact ⟨t, ht, hp, rfl⟩

/-- What a rollback changes. -/
theorem close_eq (h : c.close id = some c') :
    id ∈ c.transactions ∧ c' = { c with
      db := c.db.endTransaction id
      transactions := c.transactions.erase id } := by
  unfold close at h
  split at h
  · next hin =>
    cases h
    exact ⟨hin, rfl⟩
  · cases h

theorem finishClose_eq (h : c.finishClose id = some c') :
    id ∈ c.closing ∧ c' = { c with
      db := c.db.endTransaction id
      closing := c.closing.erase id } := by
  unfold finishClose at h
  split at h
  · next hin =>
    cases h
    exact ⟨hin, rfl⟩
  · cases h

end Core

namespace Sound

variable {c c' : Core}

variable {pageIds : Option (List PageId)}

/-- A commit that finishes, published or abandoned, is settled and its timestamp
done with. -/
theorem finish_eq (h : Sound c) {x : Nat} (hs : c.finish x pageIds = some c') :
    ∃ p, c.prepared[x]? = some p ∧
      (pageIds.all fun pageIds => pageIds.length == p.writes.length) = true ∧
      c' = { c with
        db := (c.db.settle p.transactionId x p.writes pageIds).complete x
        prepared := c.prepared.erase x
        closing := c.closing.insert p.transactionId
        finished := c.finished ++ [⟨p, pageIds⟩] } := by
  unfold Core.finish at hs
  split at hs
  · cases hs
  · next p hp =>
    split at hs
    · next hlen =>
      refine ⟨p, hp, hlen, ?_⟩
      obtain ⟨floor, hr⟩ := h.retains
      obtain ⟨hactive, hnodup, -, -⟩ := h.owned.prepared x p hp
      rw [State.finishPrepared_eq hlen hnodup] at hs
      · cases hs
        rfl
      · intro write hw v hv
        have hle := h.guarded.fresh x p hp write.1 (List.mem_map_of_mem hw) v
          (hr.mem write.1 v hv)
        have hvis := (hr.active _ _ hactive).2
        have := (h.orderly.prepared x p hp).2.1
        omega
    · cases hs

/-- What snapshots need of the versions that a commit adds. -/
theorem settle_retains (h : Sound c) {floor : Nat} (hr : c.db.Retains c.history floor) {x : Nat}
    {p : Prepared} (hp : c.prepared[x]? = some p)
    (hlen : (pageIds.all fun pageIds => pageIds.length == p.writes.length) = true) :
    (c.db.settle p.transactionId x p.writes pageIds).Retains
      (c.history ++ Finished.versions ⟨p, pageIds⟩) floor := by
  obtain ⟨hpt, hvis, -⟩ := h.orderly.prepared x p hp
  obtain ⟨hactive, hnodup, -, -⟩ := h.owned.prepared x p hp
  have hdrop : (c.db.dropIntents p.transactionId (p.writes.map Prod.fst)).Retains c.history floor :=
    hr.congr rfl rfl rfl (Nat.le_refl _) fun id s hid => Or.inl hid
  cases pageIds with
  | none => simpa [Finished.versions, State.settle] using hdrop
  | some pageIds =>
    have hmap : ((p.writes.zip pageIds).map fun write => write.1.1) = p.writes.map Prod.fst :=
      State.map_fst_zip (by simpa using hlen)
    have hnew : ∀ write ∈ p.writes.zip pageIds, ∀ w, (write.1.1, w) ∈ c.history →
        w.timestamp < x := by
      intro write hw w hmem
      have hle := h.guarded.fresh x p hp write.1.1
        (List.mem_map_of_mem (List.of_mem_zip hw).1) w hmem
      have := (hr.active _ _ hactive).2
      omega
    have hall := hdrop.publishAll hvis _ (by rw [hmap]; exact hnodup) hnew
    simp only [Finished.versions, hpt, State.settle]
    exact hall

/-! Snapshots keep what they need; only a sweep raises the floor. -/

section Retains

variable {floor : Nat}

theorem begin_retains (hr : c.db.Retains c.history floor) (hs : c.begin = some c') :
    c'.db.Retains c'.history floor := by
  rw [Core.begin_eq hs]
  refine hr.congr rfl rfl rfl (Nat.le_refl _) fun id s hid => ?_
  rw [get_insert] at hid
  split at hid
  · cases hid
    exact Or.inr ⟨hr.floor_le, Nat.le_refl _⟩
  · exact Or.inl hid

variable {id : Nat}

theorem update_retains (hr : c.db.Retains c.history floor)
    (hs : (∃ key value, c.write id key value = some c') ∨ c.protectScans id = some c' ∨
      ∃ start, c.scanPrefix id start = some c') : c'.db.Retains c'.history floor := by
  obtain ⟨t, t', scans, -, -, -, rfl⟩ := Core.update_eq hs
  exact hr

theorem prepare_retains (hr : c.db.Retains c.history floor) (hs : c.prepare id = some c') :
    c'.db.Retains c'.history floor := by
  obtain ⟨t, -, -, rfl⟩ := Core.prepare_eq hs
  exact hr.congr rfl rfl rfl (Nat.le_refl _) fun id s hid => Or.inl hid

/-- A commit that ends keeps what a snapshot reads. -/
theorem finish_retains (h : Sound c) (hr : c.db.Retains c.history floor) {x : Nat}
    {pageIds : Option (List PageId)} (hs : c.finish x pageIds = some c') :
    c'.db.Retains c'.history floor := by
  obtain ⟨p, hp, hlen, rfl⟩ := h.finish_eq hs
  have hsettled := h.settle_retains hr hp hlen
  obtain ⟨completed, visible, hdone, hle, -⟩ :=
    (c.db.settle p.transactionId x p.writes pageIds).complete_eq x
  rw [← Core.history_finished] at hsettled
  show State.Retains _ _ (State.complete _ _)
  rw [hdone]
  exact hsettled.congr rfl rfl rfl hle fun id s hid => Or.inl hid

theorem close_retains (hr : c.db.Retains c.history floor) (hs : c.close id = some c') :
    c'.db.Retains c'.history floor := by
  obtain ⟨-, rfl⟩ := Core.close_eq hs
  exact hr.endTransaction id

theorem finishClose_retains (hr : c.db.Retains c.history floor) (hs : c.finishClose id = some c') :
    c'.db.Retains c'.history floor := by
  obtain ⟨-, rfl⟩ := Core.finishClose_eq hs
  exact hr.endTransaction id

theorem capture_retains (hr : c.db.Retains c.history floor) (hs : c.capture = some c') :
    c'.db.Retains c'.history floor := by
  obtain ⟨build, -, rfl⟩ := Option.map_eq_some_iff.mp hs
  exact hr

/-- A generation keeps what the oldest snapshot reads. -/
theorem publish_retains (h : Sound c) (hr : c.db.Retains c.history floor) {build : Nat}
    {manifestPageId : PageId} {openPage : Option PageId}
    (hs : c.publish build manifestPageId openPage = some c') :
    c'.db.Retains c'.history c.db.oldestActiveSnapshot := by
  obtain ⟨b, hb, rfl⟩ := Option.map_eq_some_iff.mp hs
  obtain ⟨hts, hidx⟩ := h.builds b (List.mem_of_getElem? hb)
  have hret := hr.publish (g := ⟨b.timestamp, b.entries, manifestPageId⟩) hts hidx openPage
  rw [State.oldestActiveSnapshot_publish] at hret
  exact hret

theorem drop_retains (hr : c.db.Retains c.history floor) {build : Nat}
    (hs : c.drop build = some c') : c'.db.Retains c'.history floor := by
  obtain ⟨b, -, rfl⟩ := Option.map_eq_some_iff.mp hs
  exact hr

end Retains

/-- **The steps**, from `begin` on, keep a sound state sound. -/
theorem begin (h : Sound c) (hs : c.begin = some c') : Sound c' := by
  obtain ⟨floor, hr⟩ := h.retains
  have hret := begin_retains hr hs
  obtain rfl := Core.begin_eq hs
  exact ⟨h.orderly.congr rfl rfl rfl rfl rfl rfl, h.owned.begin rfl rfl rfl rfl rfl rfl rfl rfl rfl,
    h.guarded.congr rfl rfl rfl, ⟨floor, hret⟩, h.builds⟩

variable {id : Nat}

theorem update (h : Sound c) (hs : (∃ key value, c.write id key value = some c') ∨
    c.protectScans id = some c' ∨ ∃ start, c.scanPrefix id start = some c') : Sound c' := by
  obtain ⟨t, t', scans, ht, hid, hsnap, rfl⟩ := Core.update_eq hs
  exact ⟨h.orderly.congr rfl rfl rfl rfl rfl rfl, h.owned.update ht hid hsnap rfl rfl rfl rfl rfl,
    h.guarded.congr rfl rfl rfl, h.retains, h.builds⟩

/-- The first phase of a commit. -/
theorem prepare (h : Sound c) (hs : c.prepare id = some c') : Sound c' := by
  obtain ⟨floor, hr⟩ := h.retains
  have hret := prepare_retains hr hs
  obtain ⟨t, ht, hp, rfl⟩ := Core.prepare_eq hs
  obtain ⟨-, hactive, -, hnot⟩ := h.owned.transactions id t ht
  have hsnap : t.snapshot < c.db.nextCommitTimestamp :=
    Nat.lt_of_le_of_lt (hr.active id _ hactive).2 h.orderly.visible
  have hkeys := Core.commitOf_keys t id c.db.nextCommitTimestamp
  have hfresh : ∀ p, c.prepared[c.db.nextCommitTimestamp]? ≠ some p := fun p hp =>
    absurd (h.orderly.prepared _ p hp).2.2 (Nat.lt_irrefl _)
  have hnodup : (Core.commitOf t id c.db.nextCommitTimestamp).keys.Nodup := by
    rw [hkeys]
    exact Std.TreeMap.nodup_keys
  rw [← hkeys] at hp
  refine ⟨h.orderly.prepare rfl hp.room rfl rfl rfl rfl rfl rfl,
    h.owned.prepare ht hfresh rfl rfl hnodup (fun key hk => (hp.keys key hk).1) rfl rfl
    (fun key => ?_)
      rfl rfl rfl rfl,
    h.guarded.prepare h.orderly rfl hsnap (fun key hc x q hq hk => ?_)
    (fun key hc w hw => ?_) rfl rfl
      rfl,
    ⟨floor, hret⟩, h.builds⟩
  · rw [get_foldl_insert, hkeys]
    congr
  · have hintent := (h.owned.prepared x q hq).2.2.2 key hk
    refine hnot x q hq ?_
    rcases hc with hk' | ⟨start, hstart, hkey⟩
    · have := (hp.keys key hk').1
      simpa only [State.hasForeignIntent, hintent, Option.any_some, bne_eq_false_iff_eq] using this
    · exact (hp.ranges start hstart).2 key _ hintent hkey
  · exact hp.unchanged hr (hr.active id _ hactive).1 hc hw

/-- The second phase of a commit. -/
theorem finish (h : Sound c) {x : Nat} (hs : c.finish x pageIds = some c') : Sound c' := by
  obtain ⟨floor, hr⟩ := h.retains
  have hret := h.finish_retains hr hs
  obtain ⟨p, hp, hlen, rfl⟩ := h.finish_eq hs
  obtain ⟨hpt, hvis, -⟩ := h.orderly.prepared x p hp
  obtain ⟨versions, pageRefs, dirtyKeys, hst⟩ :=
    c.db.settle_eq p.transactionId x p.writes pageIds
  obtain ⟨completed, visible, hdone, hle, -⟩ :=
    (c.db.settle p.transactionId x p.writes pageIds).complete_eq x
  refine ⟨h.orderly.finish hp (by rw [hst]; rfl) (by rw [hst]; rfl) (by rw [hst]; rfl) rfl rfl rfl
      rfl rfl,
    h.owned.finish hp (by rw [hdone, hst]; rfl) (by rw [hdone, hst]; rfl)
    (fun key => ?_) rfl rfl rfl
      rfl rfl,
    h.guarded.finish h.owned hp rfl
      (fun key w hw => ⟨Finished.key_of_mem hw, Finished.timestamp_of_mem hw⟩) rfl rfl rfl,
    ⟨floor, hret⟩, fun b hb => ?_⟩
  · rw [hdone, hst]
    exact State.get_dropIntents _ _ _ _
  · obtain ⟨hbt, hidx⟩ := h.builds b hb
    have hvis' : c.db.visibleThrough ≤ visible := by
      rw [hst] at hle
      exact hle
    refine ⟨by rw [hdone]; exact Nat.le_trans hbt hvis', ?_⟩
    refine hidx.congr ?_ hr.unambiguous hret.unambiguous hbt
    rw [Core.history_finished]
    refine agreeUpTo_append fun key v hv => ?_
    rw [Finished.timestamp_of_mem hv, hpt]
    exact hvis

theorem close (h : Sound c) (hs : c.close id = some c') : Sound c' := by
  obtain ⟨floor, hr⟩ := h.retains
  have hret := close_retains hr hs
  obtain ⟨hin, rfl⟩ := Core.close_eq hs
  obtain ⟨t, ht⟩ := (mem_iff_get _ _).mp hin
  refine ⟨h.orderly.congr rfl rfl rfl rfl rfl rfl,
    h.owned.close (h.owned.transactions id t ht).2.2.2 (fun t' ht' => ?_) rfl (fun id' t' ht' => ?_)
      rfl (fun _ h => h) rfl,
    h.guarded.congr rfl rfl rfl, ⟨floor, hret⟩, h.builds⟩
  · rw [get_erase, if_pos rfl] at ht'
    cases ht'
  · rw [get_erase] at ht'
    split at ht'
    · cases ht'
    · exact ht'

theorem finishClose (h : Sound c) (hs : c.finishClose id = some c') : Sound c' := by
  obtain ⟨floor, hr⟩ := h.retains
  have hret := finishClose_retains hr hs
  obtain ⟨hin, rfl⟩ := Core.finishClose_eq hs
  refine ⟨h.orderly.congr rfl rfl rfl rfl rfl rfl,
    h.owned.close (fun x p hp heq => ?_) (fun t ht => ?_) rfl (fun _ _ ht => ht) rfl
      (fun id' hid => ((mem_erase_set _ _ _).mp hid).2) rfl,
    h.guarded.congr rfl rfl rfl, ⟨floor, hret⟩, h.builds⟩
  · exact (h.owned.prepared x p hp).2.2.1 (heq ▸ hin)
  · exact (h.owned.transactions id t ht).2.2.1 hin

theorem capture (h : Sound c) (hs : c.capture = some c') : Sound c' := by
  obtain ⟨build, hb, rfl⟩ := Option.map_eq_some_iff.mp hs
  obtain ⟨floor, hr⟩ := h.retains
  obtain ⟨hts, hidx⟩ := hr.capture hb
  refine ⟨h.orderly.congr rfl rfl rfl rfl rfl rfl, h.owned.congr rfl rfl rfl rfl rfl rfl rfl,
    h.guarded.congr rfl rfl rfl, h.retains, fun b hb => ?_⟩
  rcases List.mem_append.mp hb with hb | hb
  · exact h.builds b hb
  · rw [List.mem_singleton.mp hb]
    exact ⟨Nat.le_of_eq hts, hidx⟩

/-- A new generation. -/
theorem publish (h : Sound c) {build : Nat} {manifestPageId : PageId} {openPage : Option PageId}
    (hs : c.publish build manifestPageId openPage = some c') : Sound c' := by
  obtain ⟨floor, hr⟩ := h.retains
  have hret := h.publish_retains hr hs
  obtain ⟨b, hb, rfl⟩ := Option.map_eq_some_iff.mp hs
  obtain ⟨versions, pageRefs, generations, dirtyKeys, hst⟩ :=
    c.db.publish_eq ⟨b.timestamp, b.entries, manifestPageId⟩ openPage
  refine ⟨h.orderly.congr rfl ?_ ?_ ?_ rfl rfl, h.owned.congr ?_ ?_ ?_ rfl rfl rfl rfl,
    h.guarded.congr rfl rfl rfl, ⟨_, hret⟩, fun b' hb' => ?_⟩
  · rw [hst]
  · rw [hst]
  · rw [hst]
  · rw [hst]
  · rw [hst]
  · rw [hst]
  · rw [hst]
    exact h.builds b' (List.mem_of_mem_eraseIdx hb')

theorem drop (h : Sound c) {build : Nat} (hs : c.drop build = some c') : Sound c' := by
  obtain ⟨b, hb, rfl⟩ := Option.map_eq_some_iff.mp hs
  exact ⟨h.orderly.congr rfl rfl rfl rfl rfl rfl, h.owned.congr rfl rfl rfl rfl rfl rfl rfl,
    h.guarded.congr rfl rfl rfl, h.retains, fun b hb => h.builds b (List.mem_of_mem_eraseIdx hb)⟩

/-- **One step** keeps the invariant. -/
theorem step (h : Sound c) {action : Action} (hs : c.step action = some c') : Sound c' := by
  cases action with
  | begin => exact h.begin hs
  | write id key value => exact h.update (Or.inl ⟨key, value, hs⟩)
  | protectScans id => exact h.update (Or.inr (Or.inl hs))
  | scanPrefix id start => exact h.update (Or.inr (Or.inr ⟨start, hs⟩))
  | prepare id => exact h.prepare hs
  | finish timestamp pageIds => exact h.finish hs
  | abandon timestamp => exact h.finish hs
  | close id => exact h.close hs
  | finishClose id => exact h.finishClose hs
  | capture => exact h.capture hs
  | publish build manifestPageId openPage => exact h.publish hs
  | drop build => exact h.drop hs

end Sound

end QuantaDb.Mvcc
