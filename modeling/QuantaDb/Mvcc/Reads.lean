import QuantaDb.Mvcc.Merge

/-!
# QuantaDb.Mvcc.Reads

Reading without a transaction.

`MvccDatabase::get` takes the watermark under the lock, and in a second step under the lock looks
for the key in the version map and in the generation that the watermark reads.  What follows is
done without the lock: an entry of the generation leads to a page, whose records come from the
record cache or are decoded.  By then other threads may have changed cache and pages in any way,
so both are arbitrary here.
-/

namespace QuantaDb.Mvcc

open Fallible TreeMaps

/-! ## pages that hold a version -/

/-- The newest record is the one that all others are older than. -/
theorem newestRecord_eq {records : List VersionRecord} {r : VersionRecord} (hmem : r ∈ records)
    (hmax : ∀ r' ∈ records, r'.timestamp < r.timestamp ∨ r' = r) :
    newestRecord records = some r := by
  -- the best so far is the record itself, or an older one while the record is still to come
  suffices hgo : ∀ newest : Option VersionRecord, (r ∈ records ∨ newest = some r) →
      (∀ n, newest = some n → n.timestamp < r.timestamp ∨ n = r) →
      records.foldl (fun newest record =>
        if newest.all fun newest => decide (newest.timestamp ≤ record.timestamp) then some record
        else newest) newest = some r from
    hgo none (.inl hmem) fun n hn => by cases hn
  clear hmem
  induction records with
  | nil =>
    rintro newest (hmem | rfl) -
    · cases hmem
    · rfl
  | cons first records ih =>
    intro newest hin hbest
    rw [List.forall_mem_cons] at hmax
    rw [List.foldl_cons]
    refine ih hmax.2 _ ?_ fun n hn => ?_
    · rcases hmax.1 with hlt | rfl
      · rcases hin with hin | rfl
        · refine (List.mem_cons.mp hin).imp (fun heq => ?_) id |>.symm
          exact absurd (heq ▸ hlt) (Nat.lt_irrefl _)
        · exact .inr (if_neg (by simpa using hlt))
      · refine .inr (if_pos ?_)
        cases hnewest : newest with
        | none => rfl
        | some n =>
          rcases hbest n hnewest with hlt | rfl
          · simpa using Nat.le_of_lt hlt
          · simp
    · split at hn
      · cases hn
        exact hmax.1
      · exact hbest n hn

namespace View

variable {view : View}

/-- The records that the view has of a page hold the version of an entry, and no newer one of the
key that the snapshot can see. -/
def Shows (view : View) (key : Key) (version : Version) : Prop :=
  ∃ records, view.indexedRecords version.pageId = .ok records ∧
    ⟨version.timestamp, key, version.value⟩ ∈ records ∧
    ∀ record ∈ records, record.key = key → record.timestamp ≤ view.snapshot →
      record.timestamp < version.timestamp ∨ record = ⟨version.timestamp, key, version.value⟩

/-- Then an entry that leads there is read as its version. -/
theorem Shows.readIndexVersion {key : Key} {version : Version} (h : view.Shows key version)
    (hle : version.timestamp ≤ view.snapshot) :
    view.readIndexVersion version.pageId key = .ok version.value := by
  obtain ⟨records, hrecords, hmem, hmax⟩ := h
  have hnewest : newestRecord (records.filter fun record =>
      record.key == key && decide (record.timestamp ≤ view.snapshot)) =
      some ⟨version.timestamp, key, version.value⟩ := by
    refine newestRecord_eq (List.mem_filter.mpr ⟨hmem, by simpa using hle⟩) fun record hrecord => ?_
    obtain ⟨hrecord, hvisible⟩ := List.mem_filter.mp hrecord
    rw [Bool.and_eq_true, beq_iff_eq, decide_eq_true_eq] at hvisible
    exact hmax record hrecord hvisible.1 hvisible.2
  rw [View.readIndexVersion, hrecords]
  simp only [bind, Except.bind, hnewest]

end View

namespace Core

variable {c c' : Core} {key : Key} {cache : Std.TreeMap PageId (List VersionRecord)}
  {pages : Std.TreeMap PageId Bytes}

/-- What `Inner::read` looks at: the state under the lock, and later the cache and the pages. -/
def view (c : Core) (snapshot : Nat) (cache : Std.TreeMap PageId (List VersionRecord))
    (pages : Std.TreeMap PageId Bytes) : View where
  finished := false
  snapshot
  writes := ∅
  versions := c.db.versions
  index := (c.db.generationAt snapshot).map fun g => g.entries.map fun _ version => version.pageId
  cache
  pages

/-- If a snapshot has to read a key from a page, the page shows the version of the entry. -/
def Serves (c : Core) (snapshot : Nat) (cache : Std.TreeMap PageId (List VersionRecord))
    (pages : Std.TreeMap PageId Bytes) (key : Key) : Prop :=
  visibleVersion (c.db.versions.getD key []) snapshot = none →
    ∀ version, ((c.db.generationAt snapshot).bind fun g => g.entries[key]?) = some version →
      (c.view snapshot cache pages).Shows key version

/-- The entry that a snapshot has to read is the newest version it can see. -/
theorem isNewest_of_entry {floor snapshot : Nat} {version : Version}
    (hr : c.db.Retains c.history floor) (hfloor : floor ≤ snapshot)
    (hnone : visibleVersion (c.db.on key) snapshot = none)
    (hentry : ((c.db.generationAt snapshot).bind fun g => g.entries[key]?) = some version) :
    IsNewest c.history key snapshot version := by
  obtain ⟨g, hg, hentry⟩ := Option.bind_eq_some_iff.mp hentry
  have hl := Timeline.latest_isLatest hr.ring hg
  have hindexed := (hr.indexes g hl.mem).2 key
  rw [hentry] at hindexed
  obtain ⟨hnewest, -⟩ := Option.filter_eq_some_iff.mp hindexed.symm
  have hat := (newestAt_eq_some hr.unambiguous).mp hnewest
  cases hsnap : newestAt c.history key snapshot with
  | none =>
    have hlt := newestAt_eq_none.mp hsnap version hat.mem
    exact absurd (Nat.le_trans hat.le hl.le) (Nat.not_le.mpr hlt)
  | some newest =>
    have hv := (newestAt_eq_some hr.unambiguous).mp hsnap
    obtain ⟨g', hg', hat'⟩ := hr.isNewest_of_lost hfloor hnone hv
    rw [hg, Option.some.injEq] at hg'
    subst hg'
    rw [← newestAt_eq_some hr.unambiguous, hnewest, Option.some.injEq] at hat'
    exact hat' ▸ hv

/-- **Pages.**  A snapshot that is still served reads the committed value, if the page it has to
read shows it. -/
theorem read_view {floor snapshot : Nat} (hr : c.db.Retains c.history floor)
    (hfloor : floor ≤ snapshot) (hserves : c.Serves snapshot cache pages key) :
    (c.view snapshot cache pages).read key = .ok (valueAt c.history key snapshot) := by
  rw [← hr.read_eq hfloor key, View.read, State.read]
  cases hvisible : visibleVersion (c.db.versions.getD key []) snapshot with
  | some version =>
    rw [show (c.view snapshot cache pages).versions = c.db.versions from rfl,
      show (c.view snapshot cache pages).snapshot = snapshot from rfl, hvisible]
  | none =>
    rw [show (c.view snapshot cache pages).versions = c.db.versions from rfl,
      show (c.view snapshot cache pages).snapshot = snapshot from rfl, hvisible]
    simp only [View.readIndexed, view]
    cases hg : c.db.generationAt snapshot with
    | none => rfl
    | some g =>
      simp only [Option.map_some, Option.bind_some, Std.TreeMap.getElem?_map]
      cases hentry : g.entries[key]? with
      | none => rfl
      | some version =>
        have hentry' : ((c.db.generationAt snapshot).bind fun g => g.entries[key]?) =
            some version := by rw [hg]; exact hentry
        exact (hserves hvisible version hentry').readIndexVersion
          (isNewest_of_entry hr hfloor hvisible hentry').le

/-! ## sweeps -/

/-- A step that sweeps does so while the oldest active snapshot is not above the
given one. -/
def sweepUpTo (snapshot : Nat) (c : Core) : Action → Bool
  | .publish _ _ _ => decide (c.db.oldestActiveSnapshot ≤ snapshot)
  | _ => true

/-- Every step of a run does. -/
def sweepsUpTo (snapshot : Nat) (c : Core) : List Action → Bool
  | [] => true
  | action :: actions =>
    c.sweepUpTo snapshot action && (c.step action).all fun c' => sweepsUpTo snapshot c' actions

/-- A step that does not sweep beyond a snapshot goes on serving it. -/
theorem retains_step (h : Sound c) {snapshot floor : Nat} (hfloor : floor ≤ snapshot)
    (hr : c.db.Retains c.history floor) {action : Action} {actions : List Action}
    (hsweep : c.sweepsUpTo snapshot (action :: actions) = true) (hs : c.step action = some c') :
    (∃ floor ≤ snapshot, c'.db.Retains c'.history floor) ∧
      c'.sweepsUpTo snapshot actions = true := by
  rw [sweepsUpTo, Bool.and_eq_true, hs, Option.all_some] at hsweep
  refine ⟨?_, hsweep.2⟩
  cases action with
  | begin => exact ⟨floor, hfloor, Sound.begin_retains hr hs⟩
  | write id key value => exact ⟨floor, hfloor, Sound.update_retains hr (Or.inl ⟨key, value, hs⟩)⟩
  | protectScans id => exact ⟨floor, hfloor, Sound.update_retains hr (Or.inr (Or.inl hs))⟩
  | scanPrefix id start =>
    exact ⟨floor, hfloor, Sound.update_retains hr (Or.inr (Or.inr ⟨start, hs⟩))⟩
  | prepare id => exact ⟨floor, hfloor, Sound.prepare_retains hr hs⟩
  | finish timestamp pageIds => exact ⟨floor, hfloor, h.finish_retains hr hs⟩
  | abandon timestamp => exact ⟨floor, hfloor, h.finish_retains hr hs⟩
  | close id => exact ⟨floor, hfloor, Sound.close_retains hr hs⟩
  | finishClose id => exact ⟨floor, hfloor, Sound.finishClose_retains hr hs⟩
  | capture => exact ⟨floor, hfloor, Sound.capture_retains hr hs⟩
  | publish build manifestPageId openPage =>
    exact ⟨_, of_decide_eq_true hsweep.1, h.publish_retains hr hs⟩
  | drop build => exact ⟨floor, hfloor, Sound.drop_retains hr hs⟩

theorem retains_run (h : Sound c) {snapshot floor : Nat} (hfloor : floor ≤ snapshot)
    (hr : c.db.Retains c.history floor) {actions : List Action}
    (hsweep : c.sweepsUpTo snapshot actions = true) (hrun : c.run actions = some c') :
    ∃ floor ≤ snapshot, c'.db.Retains c'.history floor := by
  induction actions generalizing c floor with
  | nil =>
    cases hrun
    exact ⟨floor, hfloor, hr⟩
  | cons action actions ih =>
    obtain ⟨d, hd, hrun⟩ := Option.bind_eq_some_iff.mp hrun
    obtain ⟨⟨floor', hfloor', hr'⟩, hsweep'⟩ := retains_step h hfloor hr hsweep hd
    exact ih (h.step hd) hfloor' hr' hsweep' hrun

/-! ## `get` -/

/-- `MvccDatabase::get`: the watermark of one state, read in a later one, with the cache and the
pages as they are when the read comes to them. -/
def get (called locked : Core) (cache : Std.TreeMap PageId (List VersionRecord))
    (pages : Std.TreeMap PageId Bytes) (key : Key) : Except TransactionError (Option Bytes) :=
  (locked.view called.db.visibleThrough cache pages).read key

/-- The call returns the committed value of the key at the watermark of a state between its two
steps under the lock. -/
def Linearizes (c : Core) (actions : List Action) (c' : Core)
    (cache : Std.TreeMap PageId (List VersionRecord)) (pages : Std.TreeMap PageId Bytes)
    (key : Key) : Prop :=
  ∃ n between, c.run (actions.take n) = some between ∧
    get c c' cache pages key = .ok (valueAt between.history key between.db.visibleThrough)

/-- **A call of `get`** during which no sweep passes its watermark returns the committed value
that the key had at the call, if the page that it may have to read shows this version. -/
theorem get_linearizes (h : c.Reachable) {actions : List Action} (hrun : c.run actions = some c')
    (hsweep : c.sweepsUpTo c.db.visibleThrough actions = true)
    (hserves : c'.Serves c.db.visibleThrough cache pages key) :
    c.Linearizes actions c' cache pages key := by
  obtain ⟨floor, hr⟩ := h.sound.retains
  obtain ⟨floor', hfloor', hr'⟩ := retains_run h.sound hr.floor_le hr hsweep hrun
  refine ⟨0, c, rfl, ?_⟩
  have hagree := (Later.of_run h.sound hrun).agree
  rw [get, read_view hr' hfloor' hserves, valueAt, valueAt,
    hagree.newestAt hr.unambiguous hr'.unambiguous (Nat.le_refl _)]

/-- A key has a value, and a call of `get` for it is about to start. -/
def beforeGet : List Action :=
  [.begin, .write 1 [107] (some [1]), .prepare 1, .finish 1 [0], .finishClose 1]

/-- Another key is written, and the index rebuilt. -/
def duringGet : List Action :=
  [.begin, .write 2 [106] (some [2]), .prepare 2, .finish 2 [0], .finishClose 2, .capture,
    .publish 0 9 (some 0)]

/-- The index is rebuilt, so that the key is served from its page. -/
def indexed : List Action := beforeGet ++ [.capture, .publish 0 9 (some 0)]

/-- The page of the key. -/
def keyPage : Std.TreeMap PageId Bytes :=
  (∅ : Std.TreeMap PageId Bytes).insert 0 (VersionRecord.bytes ⟨1, [107], some [1]⟩)

theorem get_linearizes_indexed : ∃ c c' : Core, c.Reachable ∧ c.run (duringGet.take 5) = some c' ∧
    c.db.versions.isEmpty = true ∧ c.Linearizes (duringGet.take 5) c' ∅ keyPage [107] := by
  obtain ⟨c, hc⟩ : ∃ c, Core.run { db := {} } indexed = some c :=
    Option.isSome_iff_exists.mp (by decide +kernel)
  have hreach : c.Reachable := ⟨_, indexed, opened_empty, hc⟩
  have hbefore : ((Core.run { db := {} } indexed).any fun c =>
      c.db.versions.isEmpty && c.sweepsUpTo c.db.visibleThrough (duringGet.take 5) &&
        c.db.visibleThrough == 1) = true := by decide +kernel
  have hafter : ((Core.run { db := {} } indexed).any fun c =>
      (c.run (duringGet.take 5)).any fun c' =>
        ((c'.db.generationAt 1).bind fun g => g.entries[([107] : Key)]?) ==
          some ⟨1, some [1], 0⟩) = true := by decide +kernel
  rw [hc, Option.any_some] at hbefore hafter
  obtain ⟨c', hrun, hentry⟩ := (Option.any_eq_true _ _).mp hafter
  simp only [Bool.and_eq_true, beq_iff_eq] at hbefore hentry
  refine ⟨c, c', hreach, hrun, hbefore.1.1, get_linearizes hreach hrun hbefore.1.2 ?_⟩
  rw [hbefore.2]
  intro _ version hversion
  rw [hentry, Option.some.injEq] at hversion
  subst hversion
  have hrecords : (c'.view 1 ∅ keyPage).indexedRecords 0 = .ok [⟨1, [107], some [1]⟩] := by
    have hdecode : VersionRecord.decodePage 0 (VersionRecord.bytes ⟨1, [107], some [1]⟩) =
        .ok [⟨1, [107], some [1]⟩] := by decide +kernel
    have hpage : keyPage[(0 : PageId)]? = some (VersionRecord.bytes ⟨1, [107], some [1]⟩) :=
      get_insert_self _ _ _
    simp [View.indexedRecords, view, hpage, hdecode, bind, Except.bind]
  exact ⟨_, hrecords, List.mem_singleton_self _, fun record hrecord _ _ =>
    .inr (List.mem_singleton.mp hrecord)⟩

/-- The key holds the same value all along, but the sweep has moved it to a generation that the
watermark of `get` is too old for: it reads as absent, whatever the cache and the pages hold. -/
theorem get_misses_value : ∃ c c' : Core, c.Reachable ∧ c.run duringGet = some c' ∧
    (∀ n between, c.run (duringGet.take n) = some between →
      valueAt between.history [107] between.db.visibleThrough = some [1]) ∧
    ∀ cache pages, get c c' cache pages [107] = .ok none ∧
      ¬c.Linearizes duringGet c' cache pages [107] := by
  obtain ⟨c, hc⟩ : ∃ c, Core.run { db := {} } beforeGet = some c :=
    Option.isSome_iff_exists.mp (by decide +kernel)
  have hreach : c.Reachable := ⟨_, beforeGet, opened_empty, hc⟩
  have hrun : ((Core.run { db := {} } beforeGet).any fun c => c.db.visibleThrough == 1 &&
      (c.run duringGet).any fun c' => (c'.db.generationAt 1).isNone &&
        (visibleVersion (c'.db.versions.getD [107] []) 1).isNone) = true := by decide +kernel
  have hvalue : ∀ n ≤ duringGet.length, ((Core.run { db := {} } beforeGet).all fun c =>
      (c.run (duringGet.take n)).all fun between =>
        valueAt between.history [107] between.db.visibleThrough == some [1]) = true := by
    decide +kernel
  rw [hc, Option.any_some, Bool.and_eq_true, beq_iff_eq] at hrun
  obtain ⟨hvisible, hrun⟩ := hrun
  obtain ⟨c', hc', hnone⟩ := (Option.any_eq_true _ _).mp hrun
  rw [Bool.and_eq_true, Option.isNone_iff_eq_none, Option.isNone_iff_eq_none] at hnone
  have hsame : ∀ n between, c.run (duringGet.take n) = some between →
      valueAt between.history [107] between.db.visibleThrough = some [1] := by
    intro n between hb
    have htake : duringGet.take n = duringGet.take (min n duringGet.length) := by
      rw [List.take_eq_take_min]
    have hone := hvalue (min n duringGet.length) (Nat.min_le_right _ _)
    rw [hc, Option.all_some, ← htake, hb, Option.all_some] at hone
    exact beq_iff_eq.mp hone
  have hget : ∀ cache pages, get c c' cache pages [107] = .ok none := by
    intro cache pages
    simp only [get, View.read, View.readIndexed, view, hvisible, hnone.1, hnone.2]
    rfl
  refine ⟨c, c', hreach, hc', hsame, fun cache pages => ⟨hget cache pages, ?_⟩⟩
  rintro ⟨n, between, hb, heq⟩
  rw [hsame n between hb, hget] at heq
  cases heq

end Core

end QuantaDb.Mvcc
