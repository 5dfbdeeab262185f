import QuantaDb.Mvcc.Runs

/-!
# QuantaDb.Mvcc.Scans

Prefix scans under range protection.

A scan lists the committed values of its snapshot with the transaction's own
writes on top (`scanPrefix_get`).  As long as the transaction is around, one of
the prefixes it has noted covers each of its scans (`Protected`), also where
`scan_prefix` has dropped a longer prefix for a shorter one.  What
`prepare_commit` guards therefore includes everything that was scanned, and a
commit could as well have run alone between its neighbours in timestamp order.
-/

namespace QuantaDb.Mvcc

open Timeline TreeMaps

/-! ## what a scan finds -/

/-- A transaction's own writes on top of what is committed. -/
def overlay (own : Std.TreeMap Key (Option Bytes)) (base : Key → Option Bytes) (key : Key) :
    Option Bytes := own[key]?.getD (base key)

namespace Transaction

/-- Entries of one partial map enter the results. -/
theorem get_foldl_addResult (f : Key → Option Version) (entries : List (Key × Version))
    (hf : ∀ entry ∈ entries, f entry.1 = some entry.2) (results : Std.TreeMap Key Bytes)
    (key : Key) :
    (entries.foldl (fun results entry => addResult results entry.1 entry.2.value) results)[key]? =
      if key ∈ entries.map Prod.fst then ((f key).bind Version.value).or results[key]?
      else results[key]? := by
  induction entries generalizing results with
  | nil => simp
  | cons entry entries ih =>
    obtain ⟨k, v⟩ := entry
    have hone : (addResult results k v.value)[key]? =
        if k = key then v.value.or results[key]? else results[key]? := by
      cases hv : v.value with
      | none => simp [addResult]
      | some value => simp [addResult, get_insert]
    rw [List.foldl_cons, ih fun entry he => hf entry (List.mem_cons_of_mem _ he), hone]
    by_cases heq : k = key
    · subst heq
      have hfk : f k = some v := hf (k, v) List.mem_cons_self
      rw [List.map_cons]
      by_cases hin : k ∈ entries.map Prod.fst
      · simp [hin, hfk, ← Option.or_assoc]
      · simp [hin, hfk]
    · rw [List.map_cons]
      simp only [heq, if_false, List.mem_cons, Ne.symm heq, false_or]

/-- The transaction's own writes go on top of the results. -/
theorem get_foldl_own (own : Std.TreeMap Key (Option Bytes)) (writes : List (Key × Option Bytes))
    (hown : ∀ write ∈ writes, own[write.1]? = some write.2) (results : Std.TreeMap Key Bytes)
    (key : Key) :
    (writes.foldl putOwn results)[key]? =
      if key ∈ writes.map Prod.fst then own[key]?.getD none else results[key]? := by
  induction writes generalizing results with
  | nil => simp
  | cons write writes ih =>
    obtain ⟨k, w⟩ := write
    have hone : (putOwn results (k, w))[key]? = if k = key then w else results[key]? := by
      cases w with
      | none => simp only [putOwn, get_erase]
      | some value => simp only [putOwn, get_insert]
    rw [List.foldl_cons, ih fun write hw => hown write (List.mem_cons_of_mem _ hw), hone]
    by_cases heq : k = key
    · subst heq
      have hk : own[k]? = some w := hown (k, w) List.mem_cons_self
      simp [hk]
    · rw [List.map_cons]
      simp only [heq, if_false, List.mem_cons, Ne.symm heq, false_or]

variable {t : Transaction} {st : State} {start : Bytes}

theorem mem_scanMap {key : Key} {v : Version} : (key, v) ∈ t.scanMap st start ↔
    start <+: key ∧ visibleVersion (st.on key) t.snapshot = some v := by
  rw [scanMap, List.mem_filterMap]
  constructor
  · rintro ⟨⟨k, versions⟩, hmem, heq⟩
    obtain ⟨w, hw, hpair⟩ := Option.map_eq_some_iff.mp heq
    cases hpair
    obtain ⟨hin, hrange⟩ := List.mem_filter.mp hmem
    rw [Std.TreeMap.mem_toList_iff_getElem?_eq_some] at hin
    refine ⟨(inRange_prefixEnd start k).mp hrange, ?_⟩
    rw [State.on, Std.TreeMap.getD_eq_getD_getElem?, hin]
    exact hw
  · rintro ⟨hkey, hv⟩
    cases hin : st.versions[key]? with
    | none =>
      rw [State.on, Std.TreeMap.getD_eq_getD_getElem?, hin] at hv
      cases hv
    | some versions =>
      rw [State.on, Std.TreeMap.getD_eq_getD_getElem?, hin, Option.getD_some] at hv
      refine ⟨(key, versions), List.mem_filter.mpr ⟨?_, ?_⟩, by rw [hv]; rfl⟩
      · exact Std.TreeMap.mem_toList_iff_getElem?_eq_some.mpr hin
      · exact (inRange_prefixEnd start key).mpr hkey

theorem mem_scanIndex {key : Key} {v : Version} : (key, v) ∈ t.scanIndex st start ↔
    start <+: key ∧ ((st.generationAt t.snapshot).bind fun g => g.entries[key]?) = some v := by
  unfold scanIndex
  cases st.generationAt t.snapshot with
  | none => simp
  | some g =>
    simp only [List.mem_filter, Option.bind_some, inRange_prefixEnd,
      Std.TreeMap.mem_toList_iff_getElem?_eq_some]
    exact and_comm

theorem mem_keys {entries : List (Key × Version)} {key : Key} :
    key ∈ entries.map Prod.fst ↔ ∃ v, (key, v) ∈ entries := by
  simp

/-- The results before the transaction's own writes: what single reads find. -/
theorem get_committed (t : Transaction) (st : State) (start : Bytes) (key : Key) :
    ((t.scanIndex st start).foldl (fun results entry =>
        if (Std.TreeSet.ofList ((t.scanMap st start).map Prod.fst)).contains entry.1 then results
        else addResult results entry.1 entry.2.value)
      ((t.scanMap st start).foldl
        (fun results entry => addResult results entry.1 entry.2.value) ∅))[key]? =
      if start <+: key then st.read key t.snapshot else none := by
  let unmasked := fun entry : Key × Version =>
    !(Std.TreeSet.ofList ((t.scanMap st start).map Prod.fst)).contains entry.1
  have hmask : ∀ entry : Key × Version, unmasked entry = true ↔
      ∀ v, (entry.1, v) ∉ t.scanMap st start := by
    intro entry
    show (!_) = true ↔ _
    rw [Bool.not_eq_true', ← Bool.not_eq_true, Std.TreeSet.contains_iff_mem, mem_ofList_set,
      mem_keys,
      not_exists]
  have hskip : ∀ results : Std.TreeMap Key Bytes, (t.scanIndex st start).foldl (fun results entry =>
      if (Std.TreeSet.ofList ((t.scanMap st start).map Prod.fst)).contains entry.1 then results
      else addResult results entry.1 entry.2.value) results =
      ((t.scanIndex st start).filter unmasked).foldl
        (fun results entry => addResult results entry.1 entry.2.value) results := by
    intro results
    rw [List.foldl_filter]
    refine List.foldl_ext _ _ _ fun results entry _ => ?_
    simp only [unmasked, Bool.not_eq_true']
    split <;> simp_all
  rw [hskip, get_foldl_addResult
    (fun key => (st.generationAt t.snapshot).bind fun g => g.entries[key]?)
    _ (fun entry he => (mem_scanIndex.mp (List.mem_of_mem_filter he)).2),
    get_foldl_addResult (fun key => visibleVersion (st.on key) t.snapshot)
    (t.scanMap st start) (fun entry he => (mem_scanMap.mp he).2)]
  have hin : key ∈ (t.scanMap st start).map Prod.fst ↔
      start <+: key ∧ ∃ v, visibleVersion (st.on key) t.snapshot = some v := by
    simp only [mem_keys, mem_scanMap, exists_and_left]
  have hin' : key ∈ ((t.scanIndex st start).filter unmasked).map Prod.fst ↔
      (start <+: key ∧ ∃ v, ((st.generationAt t.snapshot).bind fun g => g.entries[key]?) = some v) ∧
        ∀ v, (key, v) ∉ t.scanMap st start := by
    simp only [mem_keys, List.mem_filter, hmask, mem_scanIndex, exists_and_left, exists_and_right]
  unfold State.read
  by_cases hkey : start <+: key
  · rw [if_pos hkey]
    cases hv : visibleVersion (st.on key) t.snapshot with
    | some v =>
      rw [if_neg fun h => (hin'.mp h).2 v (mem_scanMap.mpr ⟨hkey, hv⟩),
        if_pos (hin.mpr ⟨hkey, v, hv⟩)]
      simp
    | none =>
      have hout : key ∉ (t.scanMap st start).map Prod.fst := fun h => by
        obtain ⟨-, v, hv'⟩ := hin.mp h
        rw [hv] at hv'
        cases hv'
      rw [if_neg hout]
      cases hg : (st.generationAt t.snapshot).bind fun g => g.entries[key]? with
      | none =>
        rw [if_neg fun h => by
          obtain ⟨⟨-, v, hv'⟩, -⟩ := hin'.mp h
          rw [hg] at hv'
          cases hv']
        simp
      | some v =>
        rw [if_pos (hin'.mpr ⟨⟨hkey, v, hg⟩, fun w hw => hout (mem_keys.mpr ⟨w, hw⟩)⟩)]
        simp
  · rw [if_neg hkey, if_neg fun h => hkey (hin'.mp h).1.1, if_neg fun h => hkey (hin.mp h).1]
    simp

/-- **A scan** finds what single reads find, under the transaction's own writes. -/
theorem scanPrefix_get (t : Transaction) (st : State) (start : Bytes) (key : Key) :
    (t.scanPrefix st start)[key]? =
      if start <+: key then overlay t.writes (fun key => st.read key t.snapshot) key else none := by
  unfold scanPrefix
  simp only
  rw [get_foldl_own t.writes, get_committed]
  · have hin : key ∈ (t.writes.toList.filter fun write => start.isPrefixOf write.1).map Prod.fst ↔
        start <+: key ∧ ∃ w, t.writes[key]? = some w := by
      simp [Std.TreeMap.mem_toList_iff_getElem?_eq_some, and_comm]
    unfold overlay
    by_cases hkey : start <+: key
    · rw [if_pos hkey, if_pos hkey]
      cases hw : t.writes[key]? with
      | none =>
        rw [if_neg fun h => by
          obtain ⟨-, w, hw'⟩ := hin.mp h
          rw [hw] at hw'
          cases hw']
        rfl
      | some w =>
        rw [if_pos (hin.mpr ⟨hkey, w, hw⟩)]
        rfl
    · rw [if_neg hkey, if_neg fun h => hkey (hin.mp h).1, if_neg hkey]
  · intro write hw
    exact Std.TreeMap.mem_toList_iff_getElem?_eq_some.mp (List.mem_of_mem_filter hw)

end Transaction

/-! ## scans of transactions that are still around -/

/-- A transaction with this snapshot and these noted prefixes is held by a client,
under way or finished. -/
def Core.Holds (c : Core) (id snapshot : Nat) (scanned : List Bytes) : Prop :=
  (∃ t, c.transactions[id]? = some t ∧ t.snapshot = snapshot ∧ t.scannedPrefixes = scanned) ∨
    ∃ p, c.Commits p ∧ p.transactionId = id ∧ p.snapshot = snapshot ∧ p.scannedPrefixes = scanned

/-- A scan is covered by a noted prefix and has returned the values of the
snapshot. -/
def Scan.Answers (sc : Scan) (H : Versions) (snapshot : Nat) (scanned : List Bytes) : Prop :=
  (∃ start ∈ scanned, start <+: sc.start) ∧
    ∀ key : Key, sc.results[key]? =
      if sc.start <+: key then overlay sc.own (fun key => valueAt H key snapshot) key else none

structure Protected (c : Core) : Prop where
  ids : ∀ sc ∈ c.scans, sc.transactionId < c.db.nextTransactionId
  seen : ∀ id snapshot scanned, c.Holds id snapshot scanned → snapshot ≤ c.db.visibleThrough
  scans : ∀ sc ∈ c.scans, ∀ snapshot scanned, c.Holds sc.transactionId snapshot scanned →
    sc.Answers c.history snapshot scanned

theorem valueAt_congr {H H' : Versions} {t s : Nat} (h : AgreeUpTo t H H') (hu : Unambiguous H)
    (hu' : Unambiguous H') (hs : s ≤ t) (key : Key) : valueAt H key s = valueAt H' key s := by
  rw [valueAt, h.newestAt hu hu' hs, valueAt]

theorem Scan.Answers.later {sc : Scan} {c c' : Core} {snapshot : Nat} {scanned : List Bytes}
    (h : sc.Answers c.history snapshot scanned) (hl : c.Later c') (hs : Sound c) (hs' : Sound c')
    (hseen : snapshot ≤ c.db.visibleThrough) : sc.Answers c'.history snapshot scanned := by
  obtain ⟨floor, hr⟩ := hs.retains
  obtain ⟨floor', hr'⟩ := hs'.retains
  refine ⟨h.1, fun key => ?_⟩
  rw [h.2 key]
  simp only [overlay, valueAt_congr hl.agree hr.unambiguous hr'.unambiguous hseen]

namespace Protected

variable {c c' : Core}

/-- Steps without a scan, where whoever is around was around before or has just
begun. -/
theorem of_holds (h : Protected c) (hs : Sound c) (hs' : Sound c') (hl : c.Later c')
    (hids : c.db.nextTransactionId ≤ c'.db.nextTransactionId) (hscans : c'.scans = c.scans)
    (hholds : ∀ id snapshot scanned, c'.Holds id snapshot scanned →
      c.Holds id snapshot scanned ∨
        c.db.nextTransactionId ≤ id ∧ snapshot ≤ c'.db.visibleThrough) : Protected c' := by
  refine ⟨fun sc hsc => ?_, fun id snapshot scanned hh => ?_, fun sc hsc snapshot scanned hh => ?_⟩
  · rw [hscans] at hsc
    exact Nat.lt_of_lt_of_le (h.ids sc hsc) hids
  · rcases hholds id snapshot scanned hh with hold | hnew
    · exact Nat.le_trans (h.seen id snapshot scanned hold) hl.visible
    · exact hnew.2
  · rw [hscans] at hsc
    rcases hholds _ snapshot scanned hh with hold | hnew
    · exact (h.scans sc hsc snapshot scanned hold).later hl hs hs' (h.seen _ _ _ hold)
    · have := h.ids sc hsc
      omega

variable {id snapshot : Nat} {scanned : List Bytes}

/-- A client changes what it holds of its transaction, but neither its snapshot nor
its noted prefixes. -/
theorem holds_update {t : Transaction} (t' : Transaction) (ht : c.transactions[id]? = some t)
    (hsnap : t'.snapshot = t.snapshot) (hnoted : t'.scannedPrefixes = t.scannedPrefixes)
    (scans : List Scan) {id' : Nat}
    (h : Core.Holds { c with transactions := c.transactions.insert id t', scans } id' snapshot
      scanned) :
    c.Holds id' snapshot scanned := by
  rcases h with ⟨u, hu, hus, hun⟩ | h
  · rw [get_insert] at hu
    split at hu
    · next heq =>
      cases hu
      subst heq
      exact Or.inl ⟨t, ht, hsnap ▸ hus, hnoted ▸ hun⟩
    · exact Or.inl ⟨u, hu, hus, hun⟩
  · exact Or.inr h

theorem holds_begin (hb : c.begin = some c') (h : c'.Holds id snapshot scanned) :
    c.Holds id snapshot scanned ∨ c.db.nextTransactionId ≤ id ∧
    snapshot ≤ c'.db.visibleThrough := by
  rw [Core.begin_eq hb] at h ⊢
  rcases h with ⟨u, hu, hus, hun⟩ | hcom
  · rw [get_insert] at hu
    split at hu
    · next heq =>
      cases hu
      exact Or.inr ⟨Nat.le_of_eq heq, Nat.le_of_eq hus.symm⟩
    · exact Or.inl (Or.inl ⟨u, hu, hus, hun⟩)
  · exact Or.inl (Or.inr hcom)

theorem holds_prepare (hp : c.prepare id = some c') {id' : Nat}
    (h : c'.Holds id' snapshot scanned) : c.Holds id' snapshot scanned := by
  obtain ⟨t, ht, -, rfl⟩ := Core.prepare_eq hp
  rcases h with ⟨u, hu, hus, hun⟩ | ⟨p, ⟨x, hx⟩ | hfin, hid, hps, hpn⟩
  · rw [get_erase] at hu
    split at hu
    · cases hu
    · exact Or.inl ⟨u, hu, hus, hun⟩
  · rw [get_insert] at hx
    split at hx
    · cases hx
      cases hid
      exact Or.inl ⟨t, ht, hps, hpn⟩
    · exact Or.inr ⟨p, Or.inl ⟨x, hx⟩, hid, hps, hpn⟩
  · exact Or.inr ⟨p, Or.inr hfin, hid, hps, hpn⟩

theorem holds_finish (hs : Sound c) {x : Nat} {pageIds : Option (List PageId)}
    (hf : c.finish x pageIds = some c') (h : c'.Holds id snapshot scanned) :
    c.Holds id snapshot scanned := by
  obtain ⟨p, hp, -, rfl⟩ := hs.finish_eq hf
  rcases h with h | ⟨q, ⟨y, hy⟩ | ⟨f, hfin, rfl⟩, hq⟩
  · exact Or.inl h
  · rw [get_erase] at hy
    split at hy
    · cases hy
    · exact Or.inr ⟨q, Or.inl ⟨y, hy⟩, hq⟩
  · rcases List.mem_append.mp hfin with hfin | hfin
    · exact Or.inr ⟨f.commit, Or.inr ⟨f, hfin, rfl⟩, hq⟩
    · rw [List.mem_singleton.mp hfin] at hq
      exact Or.inr ⟨p, Or.inl ⟨x, hp⟩, hq⟩

theorem holds_close (hc : c.close id = some c') {id' : Nat} (h : c'.Holds id' snapshot scanned) :
    c.Holds id' snapshot scanned := by
  obtain ⟨-, rfl⟩ := Core.close_eq hc
  rcases h with ⟨u, hu, hus, hun⟩ | hcom
  · rw [get_erase] at hu
    split at hu
    · cases hu
    · exact Or.inl ⟨u, hu, hus, hun⟩
  · exact Or.inr hcom

end Protected

/-- What is noted still covers what was noted before, and the new prefix. -/
theorem Transaction.noteScan_covers (t : Transaction) (start : Bytes)
    (hp : t.rangeProtected = true) :
    (∃ noted ∈ (t.noteScan start).scannedPrefixes, noted <+: start) ∧
      ∀ under, (∃ noted ∈ t.scannedPrefixes, noted <+: under) →
        ∃ noted ∈ (t.noteScan start).scannedPrefixes, noted <+: under := by
  unfold noteScan
  rw [hp, Bool.true_and]
  split
  · next hnew =>
    refine ⟨⟨start, by simp, List.prefix_rfl⟩, ?_⟩
    rintro under ⟨noted, hmem, hunder⟩
    by_cases hlong : start <+: noted
    · exact ⟨start, by simp, hlong.trans hunder⟩
    · refine ⟨noted, List.mem_append_left _ (List.mem_filter.mpr ⟨hmem, ?_⟩), hunder⟩
      rw [Bool.not_eq_true', ← Bool.not_eq_true, List.isPrefixOf_iff_prefix]
      exact hlong
  · next hold =>
    rw [Bool.not_eq_true', Bool.not_eq_false, List.any_eq_true] at hold
    obtain ⟨noted, hmem, hcov⟩ := hold
    exact ⟨⟨noted, hmem, List.isPrefixOf_iff_prefix.mp hcov⟩, fun under h => h⟩

theorem Transaction.noteScan_eq (t : Transaction) (start : Bytes) :
    (t.noteScan start).snapshot = t.snapshot ∧
      (t.rangeProtected = false → t.noteScan start = t) := by
  unfold noteScan
  refine ⟨by split <;> rfl, fun h => ?_⟩
  rw [h, Bool.false_and]
  rfl

namespace Protected

variable {c c' : Core}

/-- Who is around behind a scan: the transaction that has scanned, and the others as
before. -/
theorem holds_scan (hs : Sound c) {id : Nat} {t t' : Transaction}
    (ht : c.transactions[id]? = some t)
    (scans : List Scan) {id' snapshot : Nat} {scanned : List Bytes}
    (h : Core.Holds { c with transactions := c.transactions.insert id t', scans } id' snapshot
      scanned) :
    (id' = id ∧ t'.snapshot = snapshot ∧ t'.scannedPrefixes = scanned) ∨
      (id' ≠ id ∧ c.Holds id' snapshot scanned) := by
  rcases h with ⟨u, hu, hus, hun⟩ | ⟨p, hcom, hid, hps⟩
  · rw [get_insert] at hu
    split at hu
    · next heq =>
      cases hu
      exact Or.inl ⟨heq.symm, hus, hun⟩
    · next hne => exact Or.inr ⟨Ne.symm hne, Or.inl ⟨u, hu, hus, hun⟩⟩
  · refine Or.inr ⟨fun heq => ?_, Or.inr ⟨p, hcom, hid, hps⟩⟩
    rw [heq] at hid
    rcases hcom with ⟨x, hx⟩ | ⟨f, hf, rfl⟩
    · exact (hs.owned.transactions id t ht).2.2.2 x p hx hid
    · have hgone := (hs.owned.past f hf).2.1
      rw [hid, ht] at hgone
      cases hgone

theorem scanPrefix (h : Protected c) (hs : Sound c) {id : Nat} {start : Bytes}
    (hp : c.scanPrefix id start = some c') : Protected c' := by
  obtain ⟨t, ht, rfl⟩ := Option.map_eq_some_iff.mp hp
  obtain ⟨hsnap, hsame⟩ := t.noteScan_eq start
  have hold : c.Holds id t.snapshot t.scannedPrefixes := Or.inl ⟨t, ht, rfl, rfl⟩
  have hseen := h.seen _ _ _ hold
  cases hprot : t.rangeProtected with
  | false =>
    refine ⟨h.ids, fun id' snapshot scanned hh => ?_, fun sc hsc snapshot scanned hh => ?_⟩
    · exact h.seen _ _ _ (holds_update _ ht hsnap (by rw [hsame hprot]) _ hh)
    · exact h.scans sc hsc _ _ (holds_update _ ht hsnap (by rw [hsame hprot]) _ hh)
  | true =>
    obtain ⟨hnew, hkeep⟩ := t.noteScan_covers start hprot
    obtain ⟨-, hactive, -⟩ := hs.owned.transactions id t ht
    refine ⟨fun sc hsc => ?_, fun id' snapshot scanned hh => ?_,
      fun sc hsc snapshot scanned hh => ?_⟩
    · rcases List.mem_cons.mp hsc with rfl | hsc
      · exact hs.owned.ids id _ hactive
      · exact h.ids sc hsc
    · rcases holds_scan hs ht _ hh with ⟨-, hts, -⟩ | ⟨-, hh⟩
      · rw [← hts, hsnap]
        exact hseen
      · exact h.seen _ _ _ hh
    · rcases holds_scan hs ht _ hh with ⟨hid, rfl, rfl⟩ | ⟨hne, hh⟩
      · rcases List.mem_cons.mp hsc with rfl | hsc
        · -- the scan itself: it has read the snapshot of an active transaction
          refine ⟨hnew, fun key => ?_⟩
          obtain ⟨floor, hr⟩ := hs.retains
          have hread : (fun key => c.db.read key t.snapshot) =
              fun key => valueAt c.history key t.snapshot :=
            funext fun key => hr.read_eq (hr.active id _ hactive).1 key
          rw [hsnap]
          show (t.scanPrefix c.db start)[key]? = _
          rw [Transaction.scanPrefix_get, hread]
          rfl
        · obtain ⟨hnoted, hres⟩ := h.scans sc hsc t.snapshot t.scannedPrefixes (hid ▸ hold)
          exact ⟨hkeep sc.start hnoted, fun key => by rw [hsnap]; exact hres key⟩
      · rcases List.mem_cons.mp hsc with rfl | hsc
        · exact absurd rfl hne
        · exact h.scans sc hsc snapshot scanned hh

theorem finish (h : Protected c) (hs : Sound c) {x : Nat} {pageIds : Option (List PageId)}
    (hf : c.finish x pageIds = some c') : Protected c' := by
  have hs' := hs.finish hf
  have hl := Core.Later.of_finish hs hf
  obtain ⟨p, -, -, heq⟩ := hs.finish_eq hf
  obtain ⟨versions, pageRefs, dirtyKeys, hst⟩ := c.db.settle_eq p.transactionId x p.writes pageIds
  obtain ⟨completed, visible, hdone, -⟩ :=
    (c.db.settle p.transactionId x p.writes pageIds).complete_eq x
  refine h.of_holds hs hs' hl ?_ (by rw [heq]) fun _ _ _ hh => Or.inl (holds_finish hs hf hh)
  rw [heq, hdone, hst]
  rfl

/-- **One step** keeps scans protected. -/
theorem step (h : Protected c) (hs : Sound c) {action : Action} (hstep : c.step action = some c') :
    Protected c' := by
  have hl := Core.Later.of_step hs hstep
  have hs' := hs.step hstep
  cases action with
  | begin =>
    refine h.of_holds hs hs' hl ?_ ?_ fun _ _ _ hh => holds_begin hstep hh
    · rw [Core.begin_eq hstep]
      exact Nat.le_succ _
    · rw [Core.begin_eq hstep]
  | write id key value =>
    obtain ⟨t, ht, -, rfl⟩ := Core.write_eq hstep
    exact h.of_holds hs hs' hl (Nat.le_refl _) rfl fun _ _ _ hh =>
      Or.inl (holds_update { t with writes := t.writes.insert key value } ht rfl rfl _ hh)
  | protectScans id =>
    obtain ⟨t, ht, rfl⟩ := Option.map_eq_some_iff.mp hstep
    exact h.of_holds hs hs' hl (Nat.le_refl _) rfl fun _ _ _ hh =>
      Or.inl (holds_update t.protectScans ht rfl rfl _ hh)
  | scanPrefix id start => exact h.scanPrefix hs hstep
  | prepare id =>
    obtain ⟨t, -, -, heq⟩ := Core.prepare_eq hstep
    exact h.of_holds hs hs' hl (by rw [heq]) (by rw [heq]) fun _ _ _ hh =>
      Or.inl (holds_prepare hstep hh)
  | finish timestamp pageIds => exact h.finish hs hstep
  | abandon timestamp => exact h.finish hs hstep
  | close id =>
    obtain ⟨-, heq⟩ := Core.close_eq hstep
    exact h.of_holds hs hs' hl (by rw [heq]; rfl) (by rw [heq]) fun _ _ _ hh =>
      Or.inl (holds_close hstep hh)
  | finishClose id =>
    obtain ⟨-, rfl⟩ := Core.finishClose_eq hstep
    exact h.of_holds hs hs' hl (Nat.le_refl _) rfl fun _ _ _ hh => Or.inl hh
  | capture =>
    obtain ⟨b, -, rfl⟩ := Option.map_eq_some_iff.mp hstep
    exact h.of_holds hs hs' hl (Nat.le_refl _) rfl fun _ _ _ hh => Or.inl hh
  | publish build manifestPageId openPage =>
    obtain ⟨b, -, rfl⟩ := Option.map_eq_some_iff.mp hstep
    obtain ⟨versions, pageRefs, generations, dirtyKeys, hst⟩ :=
      c.db.publish_eq ⟨b.timestamp, b.entries, manifestPageId⟩ openPage
    exact h.of_holds hs hs' hl (by rw [hst]) rfl fun _ _ _ hh => Or.inl hh
  | drop build =>
    obtain ⟨b, -, rfl⟩ := Option.map_eq_some_iff.mp hstep
    exact h.of_holds hs hs' hl (Nat.le_refl _) rfl fun _ _ _ hh => Or.inl hh

end Protected

end QuantaDb.Mvcc
