import QuantaDb.Mvcc.Packing

/-!
# QuantaDb.Mvcc.Writers

Commits that share open pages, up to a crash.

Commits reserve their places one after another (`persist` runs under the lock of
the open page), and their batches of appends reach the log in any order.  What a
crash leaves is the pages with the batches of the log that the next `open` reads
(`Writers.reopened`).  The durable batches lose nothing exactly if on every page they
come before all others, `decode_page` stopping at the first place that is not
written, and if none of them has a record at which the reader of the log stops
(`lossless_iff`).
-/

namespace QuantaDb.Mvcc

open TreeMaps

/-! ## the writers -/

/-- What `persist_commit` has gathered, and the pages it has opened. -/
structure Persisting where
  appends : List PageAppend := []
  pageIds : List PageId := []

def Persisting.add (persisting : Persisting) (placed : Placed) : Persisting :=
  ⟨persisting.appends ++ placed.appends, persisting.pageIds ++ [placed.pageId]⟩

/-- The loop of `persist_commit`, under the lock of the open page. -/
def Packer.persist (timestamp : Nat) : List (Key × Option Bytes) → Packer →
    List QuantaDb.Batch → Persisting →
    Except TransactionError (Packer × List QuantaDb.Batch × Persisting)
  | [], packer, log, persisting => .ok (packer, log, persisting)
  | write :: writes, packer, log, persisting =>
    match packer.place ⟨timestamp, write.1, write.2⟩ with
    | .error error => .error error
    | .ok placed =>
      persist timestamp writes placed.packer (log ++ placed.blanks) (persisting.add placed)

/-- A commit that has its places. -/
structure Batch where
  timestamp : Nat
  writes : List (Key × Option Bytes)
  persisted : Persisting

/-- The records of a commit and the pages they go to. -/
def Batch.places (b : Batch) : List (PageId × VersionRecord) :=
  b.persisted.pageIds.zip (b.writes.map fun write => ⟨b.timestamp, write.1, write.2⟩)

/-- The store under commits that persist themselves: the pages it started with, the
batches of the log since then, the commits in the order of their places, and those
that are durable. -/
structure Writers where
  packer : Packer := {}
  start : Pages := fun _ => none
  log : List QuantaDb.Batch := []
  batches : List Batch := []
  durable : List Nat := []

inductive WriterAction where
  /-- `persist_commit` reserves, with a timestamp of its own. -/
  | reserve (timestamp : Nat) (writes : List (Key × Option Bytes))
  /-- The batch reaches the log. -/
  | append (batch : Nat)
deriving DecidableEq, Repr

namespace Writers

/-- Timestamps and keys as `prepare_commit` hands them on. -/
def Admits (w : Writers) (timestamp : Nat) (writes : List (Key × Option Bytes)) : Prop :=
  0 < timestamp ∧ timestamp < 2 ^ 64 ∧ timestamp ∉ w.batches.map Batch.timestamp ∧
    (writes.map Prod.fst).Nodup

instance (w : Writers) (timestamp : Nat) (writes : List (Key × Option Bytes)) :
    Decidable (w.Admits timestamp writes) :=
  inferInstanceAs (Decidable (_ ∧ _ ∧ _ ∧ _))

def reserve (w : Writers) (timestamp : Nat) (writes : List (Key × Option Bytes)) :
    Option Writers :=
  if w.Admits timestamp writes then
    match Packer.persist timestamp writes w.packer w.log {} with
    | .error _ => none
    | .ok (packer, log, persisted) => some { w with
        packer, log, batches := w.batches ++ [⟨timestamp, writes, persisted⟩] }
  else none

def append (w : Writers) (batch : Nat) : Option Writers :=
  if batch ∈ w.durable then none
  else w.batches[batch]?.map fun b => { w with
    log := w.log ++ [b.persisted.appends.map PageAppend.change]
    durable := w.durable ++ [batch] }

def step (w : Writers) : WriterAction → Option Writers
  | .reserve timestamp writes => w.reserve timestamp writes
  | .append batch => w.append batch

def run (w : Writers) (actions : List WriterAction) : Option Writers := actions.foldlM step w

/-- What is read of the log when the store is opened again: the scan stops at the first
record that it does not take, and a batch whose commit record it has not seen is dropped. -/
def kept (log : List QuantaDb.Batch) : List QuantaDb.Batch :=
  log.takeWhile fun batch => decide (∀ c ∈ batch, Readable c.kind)

/-- The pages after a crash; the store does not open if one has no place in the file. -/
def reopened (w : Writers) : Option Pages :=
  if ∀ batch ∈ kept w.log, ∀ c ∈ batch, Placeable c.pageId then
    some (patch w.start (kept w.log).flatten)
  else none

/-- After a crash, every record of a durable batch is decoded from its page. -/
def Lossless (w : Writers) : Prop :=
  ∃ pages, w.reopened = some pages ∧
    ∀ (i : Nat) (b : Batch), i ∈ w.durable → w.batches[i]? = some b → ∀ place ∈ b.places,
      ∃ records, decodedRecords pages place.1 = .ok records ∧ place.2 ∈ records

/-- On every page, the durable batches come first. -/
def Contiguous (w : Writers) : Prop :=
  ∀ (i j : Nat) (b b' : Batch), i < j → w.batches[i]? = some b → w.batches[j]? = some b' →
    ∀ pageId ∈ b.persisted.pageIds, pageId ∈ b'.persisted.pageIds → j ∈ w.durable → i ∈ w.durable

/-- The pages have a place in the data file, and the records of the durable batches are
short enough for the reader of the log. -/
def Legible (w : Writers) : Prop :=
  (∀ b ∈ w.batches, ∀ pageId ∈ b.persisted.pageIds, Placeable pageId) ∧
    ∀ (i : Nat) (b : Batch), i ∈ w.durable → w.batches[i]? = some b → ∀ place ∈ b.places,
      4 + place.2.size ≤ maxPagePayload

/-- The pages as readers see them. -/
def pages (w : Writers) : Pages := patch w.start w.log.flatten

end Writers

/-! ## places -/

/-- The records of a commit on one page, in order. -/
def Batch.on (b : Batch) (pageId : PageId) : List VersionRecord :=
  (b.places.filter fun place => place.1 == pageId).map Prod.snd

variable {b : Batch}

theorem Batch.mem_on {pageId : PageId} {r : VersionRecord} :
    r ∈ b.on pageId ↔ (pageId, r) ∈ b.places := by
  simp only [on, List.mem_map, List.mem_filter, beq_iff_eq]
  constructor
  · rintro ⟨place, ⟨hmem, rfl⟩, rfl⟩
    exact hmem
  · exact fun hmem => ⟨_, ⟨hmem, rfl⟩, rfl⟩

theorem Batch.of_mem_places {place : PageId × VersionRecord} (h : place ∈ b.places) :
    place.2.timestamp = b.timestamp ∧ (place.2.key, place.2.value) ∈ b.writes ∧
      place.1 ∈ b.persisted.pageIds := by
  obtain ⟨hpage, hrecord⟩ := List.of_mem_zip h
  obtain ⟨write, hwrite, heq⟩ := List.mem_map.mp hrecord
  rw [← heq]
  exact ⟨rfl, hwrite, hpage⟩

theorem Batch.exists_place (h : b.persisted.pageIds.length = b.writes.length) {pageId : PageId}
    (hp : pageId ∈ b.persisted.pageIds) : ∃ r, (pageId, r) ∈ b.places := by
  have hfst : b.places.map Prod.fst = b.persisted.pageIds :=
    List.map_fst_zip (by rw [List.length_map, h])
  rw [← hfst] at hp
  obtain ⟨place, hplace, rfl⟩ := List.mem_map.mp hp
  exact ⟨place.2, hplace⟩

theorem Batch.nodup_places (hlength : b.persisted.pageIds.length = b.writes.length)
    (h : (b.writes.map Prod.fst).Nodup) : b.places.Nodup := by
  have hrecords :
      (b.writes.map fun write => (⟨b.timestamp, write.1, write.2⟩ : VersionRecord)).Nodup := by
    refine List.Nodup.of_map VersionRecord.key ?_
    rw [List.map_map]
    exact h
  refine List.Nodup.of_map Prod.snd ?_
  rwa [places, List.map_snd_zip (by rw [List.length_map, hlength])]

/-- The batch with one more record. -/
def Batch.add (b : Batch) (write : Key × Option Bytes) (placed : Placed) : Batch :=
  ⟨b.timestamp, b.writes ++ [write], b.persisted.add placed⟩

theorem Batch.places_add (h : b.persisted.pageIds.length = b.writes.length)
    (write : Key × Option Bytes) (placed : Placed) :
    (b.add write placed).places =
      b.places ++ [(placed.pageId, ⟨b.timestamp, write.1, write.2⟩)] := by
  simp only [places, add, Persisting.add, List.map_append, List.map_singleton]
  rw [List.zip_append (by simp [h])]
  rfl

namespace Writers

/-- The places that the batches were given. -/
def slots (w : Writers) : Slots := fun pageId =>
  w.batches.zipIdx.flatMap fun entry =>
    (entry.1.on pageId).map fun r => (r, decide (entry.2 ∈ w.durable))

variable {w : Writers}

theorem mem_slots {pageId : PageId} {slot : VersionRecord × Bool} :
    slot ∈ w.slots pageId ↔ ∃ (i : Nat) (b : Batch), w.batches[i]? = some b ∧
      (pageId, slot.1) ∈ b.places ∧ slot.2 = decide (i ∈ w.durable) := by
  simp only [slots, List.mem_flatMap, List.mem_zipIdx_iff_getElem?, List.mem_map, Batch.mem_on]
  constructor
  · rintro ⟨⟨b, i⟩, hb, r, hr, rfl⟩
    exact ⟨i, b, hb, hr, rfl⟩
  · rintro ⟨i, b, hb, hr, hflag⟩
    exact ⟨(b, i), hb, slot.1, hr, Prod.ext rfl hflag.symm⟩

theorem slots_ne_nil {b : Batch} (hb : b ∈ w.batches) {place : PageId × VersionRecord}
    (hplace : place ∈ b.places) : w.slots place.1 ≠ [] := by
  obtain ⟨i, hi⟩ := List.mem_iff_getElem?.mp hb
  have hslot : (place.2, decide (i ∈ w.durable)) ∈ w.slots place.1 :=
    mem_slots.mpr ⟨i, b, hi, hplace, rfl⟩
  exact List.ne_nil_of_mem hslot

/-- What holds of the writers all along. -/
structure Inv (w : Writers) : Prop where
  packed : Packed w.packer w.pages w.slots
  used : ∀ pageId, w.slots pageId ≠ [] → w.packer.allocator.InUse pageId
  lengths : ∀ b ∈ w.batches, b.persisted.pageIds.length = b.writes.length
  keys : ∀ b ∈ w.batches, (b.writes.map Prod.fst).Nodup
  timestamps : (w.batches.map Batch.timestamp).Nodup
  valid : ∀ b ∈ w.batches, ∀ place ∈ b.places, place.2.Valid
  pending : ∀ (i : Nat) b, w.batches[i]? = some b → i ∉ w.durable →
    Carries w.slots b.places b.persisted.appends
  durable : ∀ i ∈ w.durable, i < w.batches.length

/-- The commit is durable, and has this place. -/
def Stored (w : Writers) (place : PageId × VersionRecord) : Prop :=
  ∃ (i : Nat) (b : Batch), i ∈ w.durable ∧ w.batches[i]? = some b ∧ place ∈ b.places

/-- What holds of the log all along. -/
structure Logged (w : Writers) : Prop where
  sources : ∀ batch ∈ w.log, ∀ c ∈ batch, w.slots c.pageId ≠ [] ∧
    (c.payload = [] ∨ ∃ place, w.Stored place ∧ c.payload = place.2.bytes)
  opened : ∀ pageId, w.slots pageId ≠ [] →
    pageId.toNat ≠ noPageId ∧ ∃ batch ∈ w.log, ∃ c ∈ batch, c.pageId = pageId
  carried : ∀ place, w.Stored place →
    ∃ batch ∈ w.log, ∃ c ∈ batch, c.appendAt ≠ none ∧ c.payload = place.2.bytes
  /-- behind a record that is not read, a durable commit is lost -/
  lost : (∃ batch ∈ w.log, ∃ c ∈ batch, ¬Readable c.kind) → ∃ place, w.Stored place ∧
    ∀ records, decodedRecords (patch w.start (kept w.log).flatten) place.1 = .ok records →
      place.2 ∉ records

variable {log : List QuantaDb.Batch}

/-- Where every record is read, the whole log is. -/
theorem kept_eq_self (h : ∀ batch ∈ log, ∀ c ∈ batch, Readable c.kind) : kept log = log := by
  rw [kept, List.takeWhile_eq_self_iff]
  simpa using h

/-- Where a record is not read, what follows makes no difference. -/
theorem kept_append (h : ∃ batch ∈ log, ∃ c ∈ batch, ¬Readable c.kind)
    (more : List QuantaDb.Batch) :
    kept (log ++ more) = kept log := by
  unfold kept
  rw [List.takeWhile_append, if_neg]
  intro hlen
  have hself := (List.takeWhile_prefix (l := log)
    fun batch => decide (∀ c ∈ batch, Readable c.kind)).eq_of_length hlen
  obtain ⟨batch, hbatch, c, hc, hread⟩ := h
  rw [List.takeWhile_eq_self_iff] at hself
  exact hread (of_decide_eq_true (hself batch hbatch) c hc)

/-- A batch with a record that is not read is dropped. -/
theorem kept_concat {batch : QuantaDb.Batch} (hlog : ∀ batch ∈ log, ∀ c ∈ batch, Readable c.kind)
    (h : ∃ c ∈ batch, ¬Readable c.kind) :
    kept (log ++ [batch]) = log := by
  have hneg : ¬∀ c ∈ batch, Readable c.kind := fun hall => by
    obtain ⟨c, hc, hread⟩ := h
    exact hread (hall c hc)
  rw [kept, List.takeWhile_append_of_pos (by simpa using hlog), List.takeWhile_cons_of_neg
    (by simpa using hneg), List.append_nil]

namespace Inv

variable {w : Writers}

/-- The batch of a record is told by its timestamp. -/
theorem batch_eq (h : Inv w) {i j : Nat} {b b' : Batch} (hb : w.batches[i]? = some b)
    (hb' : w.batches[j]? = some b') (heq : b.timestamp = b'.timestamp) : i = j := by
  have hi : (w.batches.map Batch.timestamp)[i]? = some b.timestamp := by
    rw [List.getElem?_map, hb]
    rfl
  have hj : (w.batches.map Batch.timestamp)[j]? = some b.timestamp := by
    rw [List.getElem?_map, hb', heq]
    rfl
  obtain ⟨hlt, hi⟩ := List.getElem?_eq_some_iff.mp hi
  obtain ⟨hlt', hj⟩ := List.getElem?_eq_some_iff.mp hj
  exact (List.Nodup.getElem_inj_iff h.timestamps).mp (hi.trans hj.symm)

theorem slots_valid (h : Inv w) (pageId : PageId) : ∀ slot ∈ w.slots pageId, slot.1.Valid := by
  intro slot hslot
  obtain ⟨i, b, hb, hplace, -⟩ := mem_slots.mp hslot
  exact h.valid b (List.mem_of_getElem? hb) _ hplace

/-- A page decodes to the records before its first gap. -/
theorem decodedRecords_eq (h : Inv w) {pageId : PageId} (hne : w.slots pageId ≠ []) :
    decodedRecords w.pages pageId = .ok (upToGap (w.slots pageId)) := by
  obtain ⟨bytes, hbytes, hrenders⟩ := h.packed.packs pageId hne
  rw [decodedRecords, hbytes]
  exact hrenders.decodePage_eq (h.slots_valid pageId) pageId

end Inv

/-! ## steps -/

/-- The writers while the last batch is being placed. -/
abbrev placing (w : Writers) (packer : Packer) (log : List QuantaDb.Batch) (b : Batch) : Writers :=
  { w with packer, log, batches := w.batches ++ [b] }

theorem slots_placing (w : Writers) (packer : Packer) (log : List QuantaDb.Batch) (b : Batch)
    (hdurable : w.batches.length ∉ w.durable) (pageId : PageId) :
    (w.placing packer log b).slots pageId =
      w.slots pageId ++ (b.on pageId).map fun r => (r, false) := by
  simp [slots, List.zipIdx_append, hdurable]

namespace Inv

variable {w : Writers} {packer : Packer} {log : List QuantaDb.Batch} {b : Batch}

/-- A commit takes the lock. -/
theorem start (h : Inv w) {timestamp : Nat} {writes : List (Key × Option Bytes)}
    (hadmits : w.Admits timestamp writes) :
    Inv (w.placing w.packer w.log ⟨timestamp, [], {}⟩) := by
  have hlast : w.batches.length ∉ w.durable := fun hmem => Nat.lt_irrefl _ (h.durable _ hmem)
  have hslots : (w.placing w.packer w.log ⟨timestamp, [], {}⟩).slots = w.slots := by
    funext pageId
    rw [slots_placing _ _ _ _ hlast]
    simp [Batch.on, Batch.places]
  have hmem : ∀ {P : Batch → Prop}, (∀ b ∈ w.batches, P b) → P ⟨timestamp, [], {}⟩ →
      ∀ b ∈ w.batches ++ [⟨timestamp, [], {}⟩], P b := by
    intro P hold hnew b hb
    rcases List.mem_append.mp hb with hb | hb
    · exact hold b hb
    · rw [List.mem_singleton.mp hb]
      exact hnew
  refine ⟨by rw [hslots]; exact h.packed, by rw [hslots]; exact h.used, hmem h.lengths rfl,
    hmem h.keys List.nodup_nil, ?_, hmem h.valid (by simp [Batch.places]), ?_, ?_⟩
  · rw [List.map_append]
    refine List.nodup_append.mpr ⟨h.timestamps, List.nodup_singleton _, ?_⟩
    rintro t ht _ ht' rfl
    have heq : t = timestamp := List.mem_singleton.mp ht'
    exact hadmits.2.2.1 (heq ▸ ht)
  · intro i b hb hi
    rw [hslots]
    rw [List.getElem?_append] at hb
    split at hb
    · exact h.pending i b hb hi
    · rw [List.getElem?_singleton] at hb
      split at hb
      · cases hb
        exact .nil
      · cases hb
  · intro i hi
    rw [List.length_append]
    exact Nat.lt_add_right _ (h.durable i hi)

theorem getElem?_last (w : Writers) (packer : Packer) (log : List QuantaDb.Batch) (b : Batch) :
    (w.placing packer log b).batches[w.batches.length]? = some b := by
  simp

variable {write : Key × Option Bytes}

/-- A record that the batch does not have yet is nowhere. -/
theorem not_mem_slots (h : Inv (w.placing packer log b))
    (hkeys : ((b.writes ++ [write]).map Prod.fst).Nodup) (pageId : PageId) :
    ⟨b.timestamp, write.1, write.2⟩ ∉ ((w.placing packer log b).slots pageId).map Prod.fst := by
  rintro hmem
  obtain ⟨slot, hslot, heq⟩ := List.mem_map.mp hmem
  obtain ⟨i, b', hb', hplace, -⟩ := mem_slots.mp hslot
  rw [heq] at hplace
  obtain ⟨hts, hwrite, -⟩ := Batch.of_mem_places hplace
  have hlast := getElem?_last w packer log b
  have hi : i = w.batches.length := h.batch_eq hb' hlast hts.symm
  rw [hi, hlast] at hb'
  cases hb'
  rw [List.map_append] at hkeys
  exact (List.nodup_append.mp hkeys).2.2 write.1 (List.mem_map_of_mem hwrite) write.1 (by simp) rfl

/-- A batch gets one more place. -/
theorem slots_place (h : Inv (w.placing packer log b)) (hlast : w.batches.length ∉ w.durable)
    {placed : Placed} (hplace : packer.place ⟨b.timestamp, write.1, write.2⟩ = .ok placed) :
    (w.placing placed.packer (log ++ placed.blanks) (b.add write placed)).slots =
      (w.placing packer log b).slots.place placed ⟨b.timestamp, write.1, write.2⟩ := by
  have hlength := h.lengths b (by simp)
  funext pageId
  rw [slots_placing _ _ _ _ hlast, Batch.on, Batch.places_add hlength, List.filter_append,
    List.map_append, List.map_append, ← List.append_assoc, ← Batch.on,
    ← slots_placing _ packer log b hlast]
  by_cases heq : pageId = placed.pageId
  · subst heq
    rw [Packed.place_self]
    congr 1
    · -- a page that was not in use had no places
      obtain ⟨hfresh, -⟩ | ⟨hfresh, hnot, -⟩ := h.packed.place_cases hplace
      · simp [hfresh]
      · rw [if_pos hfresh]
        by_contra hne
        exact hnot (h.used _ hne)
    · simp
  · rw [Packed.place_other _ _ heq]
    simp [Ne.symm heq]

/-- One turn of the loop. -/
theorem place (h : Inv (w.placing packer log b)) (hlast : w.batches.length ∉ w.durable)
    {placed : Placed} (hplace : packer.place ⟨b.timestamp, write.1, write.2⟩ = .ok placed)
    (hkeys : ((b.writes ++ [write]).map Prod.fst).Nodup)
    (hts : 0 < b.timestamp ∧ b.timestamp < 2 ^ 64) :
    Inv (w.placing placed.packer (log ++ placed.blanks) (b.add write placed)) := by
  have hslots := h.slots_place hlast hplace
  have hnew := h.not_mem_slots hkeys
  have hlength := h.lengths b (by simp)
  have hmem : ∀ {P : Batch → Prop}, (∀ b' ∈ w.batches ++ [b], P b') → P (b.add write placed) →
      ∀ b' ∈ w.batches ++ [b.add write placed], P b' := by
    intro P hold hlast b' hb'
    rcases List.mem_append.mp hb' with hb' | hb'
    · exact hold b' (List.mem_append_left _ hb')
    · rw [List.mem_singleton.mp hb']
      exact hlast
  have hcarries : ∀ {places appends}, Carries (w.placing packer log b).slots places appends →
      Carries ((w.placing packer log b).slots.place placed ⟨b.timestamp, write.1, write.2⟩)
        places appends := fun hc =>
    h.packed.carries_mono hplace hc fun place hp => h.used _ (List.ne_nil_of_mem (hc.mem hp))
  refine ⟨?_, ?_, hmem h.lengths ?_, hmem h.keys hkeys, ?_, hmem h.valid ?_, ?_, ?_⟩
  · have hpages : (w.placing placed.packer (log ++ placed.blanks) (b.add write placed)).pages =
        patch (w.placing packer log b).pages placed.blanks.flatten := by
      rw [pages, List.flatten_append, patch_append]
      rfl
    rw [hslots, hpages]
    exact h.packed.place hplace fun _ => hnew _
  · intro pageId hne
    rw [hslots] at hne
    refine (h.packed.inUse_place hplace pageId).mpr ?_
    by_cases heq : pageId = placed.pageId
    · exact .inr heq
    · rw [Packed.place_other _ _ heq] at hne
      exact .inl (h.used pageId hne)
  · simp [Batch.add, Persisting.add, hlength]
  · have := h.timestamps
    rwa [List.map_append] at this ⊢
  · intro place hp
    rw [Batch.places_add hlength] at hp
    rcases List.mem_append.mp hp with hp | hp
    · exact h.valid b (by simp) place hp
    · rw [List.mem_singleton.mp hp]
      exact ⟨hts.1, hts.2, (Packer.place_eq hplace).1⟩
  · intro i b' hb' hi
    rw [hslots]
    rcases Nat.lt_or_ge i w.batches.length with hlt | hge
    · rw [List.getElem?_append_left hlt] at hb'
      exact hcarries (h.pending i b' (by rw [List.getElem?_append_left hlt, hb']) hi)
    · have hieq : i = w.batches.length := by
        have := (List.getElem?_eq_some_iff.mp hb').1
        rw [List.length_append, List.length_singleton] at this
        omega
      subst hieq
      rw [List.getElem?_concat_length] at hb'
      cases hb'
      rw [Batch.places_add hlength]
      refine (hcarries (h.pending _ b (getElem?_last w packer log b) hi)).append ?_
      exact h.packed.carries_place hplace fun _ => hnew _
  · intro i hi
    have := h.durable i hi
    rwa [List.length_append] at this ⊢

/-- A batch of places is written. -/
theorem slots_append (h : Inv w) {i : Nat} (hb : w.batches[i]? = some b)
    (log : List QuantaDb.Batch) :
    { w with log, durable := w.durable ++ [i] }.slots = w.slots.write b.places := by
  funext pageId
  simp only [slots, Slots.write, List.map_flatMap, List.map_map]
  refine List.flatMap_congr fun entry hentry => List.map_congr_left fun r hr => ?_
  obtain ⟨b', j⟩ := entry
  rw [List.mem_zipIdx_iff_getElem?] at hentry
  rw [Batch.mem_on] at hr
  have hiff : (pageId, r) ∈ b.places ↔ j = i := by
    constructor
    · intro hplace
      have hts := (Batch.of_mem_places hr).1
      rw [(Batch.of_mem_places hplace).1] at hts
      exact h.batch_eq hentry hb hts.symm
    · rintro rfl
      rw [hentry] at hb
      cases hb
      exact hr
  simp [hiff]

/-- The writers once a batch has reached the log. -/
abbrev written (w : Writers) (i : Nat) (b : Batch) : Writers :=
  { w with
    log := w.log ++ [b.persisted.appends.map PageAppend.change]
    durable := w.durable ++ [i] }

theorem append (h : Inv w) {i : Nat} (hb : w.batches[i]? = some b) (hi : i ∉ w.durable) :
    Inv (written w i b) := by
  have hslots := h.slots_append hb (w.log ++ [b.persisted.appends.map PageAppend.change])
  have hmem := List.mem_of_getElem? hb
  have hnodup := Batch.nodup_places (h.lengths b hmem) (h.keys b hmem)
  refine ⟨?_, ?_, h.lengths, h.keys, h.timestamps, h.valid, ?_, ?_⟩
  · have hpages : (written w i b).pages =
        patch w.pages (b.persisted.appends.map PageAppend.change) := by
      rw [pages, List.flatten_append, List.flatten_singleton, patch_append]
      rfl
    rw [hslots, hpages]
    exact h.packed.write (h.pending i b hb hi) hnodup
  · intro pageId hne
    rw [hslots, Ne, Slots.write_eq_nil] at hne
    exact h.used pageId hne
  · intro j b' hb' hj
    rw [List.mem_append, List.mem_singleton, not_or] at hj
    rw [hslots]
    refine (h.pending j b' hb' hj.1).congr (fun _ hne => by simpa using hne)
      fun a r hplace ha => ha.write fun hother => ?_
    have hts := (Batch.of_mem_places hplace).1
    rw [(Batch.of_mem_places hother).1] at hts
    exact hj.2 (h.batch_eq hb hb' hts).symm
  · intro j hj
    rcases List.mem_append.mp hj with hj | hj
    · exact h.durable j hj
    · rw [List.mem_singleton.mp hj]
      exact (List.getElem?_eq_some_iff.mp hb).1

/-- Before the first commit after an open no page is open. -/
theorem init {allocator : PageAllocator} (hpooled : allocator.Pooled) (start : Pages) :
    Inv { packer := ⟨none, allocator⟩, start } where
  packed := ⟨hpooled, by simp, by simp [Slots.Distinct, slots], by simp [slots]⟩
  used := by simp [slots]
  lengths := by simp
  keys := by simp
  timestamps := List.nodup_nil
  valid := by simp
  pending := by simp
  durable := by simp

/-- A record that has not reached its place is not decoded. -/
theorem not_decoded (h : Inv w) {i : Nat} (hb : w.batches[i]? = some b) (hi : i ∉ w.durable)
    {place : PageId × VersionRecord} (hplace : place ∈ b.places) {records : List VersionRecord}
    (hdecoded : decodedRecords w.pages place.1 = .ok records) : place.2 ∉ records := by
  rw [h.decodedRecords_eq (slots_ne_nil (List.mem_of_getElem? hb) hplace)] at hdecoded
  cases hdecoded
  have hslot : (place.2, false) ∈ w.slots place.1 :=
    mem_slots.mpr ⟨i, b, hb, hplace, (decide_eq_false hi).symm⟩
  obtain ⟨before, after, hsplit⟩ := List.append_of_mem hslot
  have hnodup := h.packed.distinct place.1
  rw [hsplit, List.map_append, List.map_cons] at hnodup
  rw [hsplit]
  intro hmem
  exact (List.nodup_append.mp hnodup).2.2 _ (mem_of_mem_upToGap hmem) _ List.mem_cons_self rfl

end Inv

/-! ## the log -/

namespace Logged

variable {w : Writers} {packer : Packer} {log : List QuantaDb.Batch} {b : Batch}

/-- Pages are blanked, and nothing becomes durable. -/
theorem grow {w' : Writers} (h : Logged w) (more : List QuantaDb.Batch)
    (hlog : w'.log = w.log ++ more) (hstart : w'.start = w.start)
    (hstored : ∀ place, w'.Stored place ↔ w.Stored place)
    (hslots : ∀ pageId, w.slots pageId ≠ [] → w'.slots pageId ≠ [])
    (hblank : ∀ batch ∈ more, ∀ c ∈ batch,
      w'.slots c.pageId ≠ [] ∧ c.payload = [] ∧ Readable c.kind)
    (hopened : ∀ pageId, w'.slots pageId ≠ [] → w.slots pageId ≠ [] ∨
      pageId.toNat ≠ noPageId ∧ ∃ batch ∈ more, ∃ c ∈ batch, c.pageId = pageId) : Logged w' := by
  refine ⟨?_, fun pageId hne => ?_, fun place hplace => ?_, fun hunread => ?_⟩
  · rw [hlog]
    refine List.forall_mem_append.mpr ⟨fun batch hbatch c hc => ?_, fun batch hbatch c hc => ?_⟩
    · obtain ⟨hpage, hempty | ⟨place, hplace, hpayload⟩⟩ := h.sources batch hbatch c hc
      · exact ⟨hslots _ hpage, .inl hempty⟩
      · exact ⟨hslots _ hpage, .inr ⟨place, (hstored place).mpr hplace, hpayload⟩⟩
    · obtain ⟨hpage, hempty, -⟩ := hblank batch hbatch c hc
      exact ⟨hpage, .inl hempty⟩
  · rw [hlog]
    rcases hopened pageId hne with hold | ⟨hid, batch, hbatch, hc⟩
    · obtain ⟨hid, batch, hbatch, hc⟩ := h.opened pageId hold
      exact ⟨hid, batch, List.mem_append_left _ hbatch, hc⟩
    · exact ⟨hid, batch, List.mem_append_right _ hbatch, hc⟩
  · rw [hlog]
    obtain ⟨batch, hbatch, hc⟩ := h.carried place ((hstored place).mp hplace)
    exact ⟨batch, List.mem_append_left _ hbatch, hc⟩
  · rw [hlog] at hunread ⊢
    obtain ⟨batch, hbatch, c, hc, hread⟩ := hunread
    rcases List.mem_append.mp hbatch with hbatch | hbatch
    · have hold : ∃ batch ∈ w.log, ∃ c ∈ batch, ¬Readable c.kind := ⟨batch, hbatch, c, hc, hread⟩
      obtain ⟨place, hplace, hlost⟩ := h.lost hold
      refine ⟨place, (hstored place).mpr hplace, ?_⟩
      rwa [kept_append hold, hstart]
    · exact absurd (hblank batch hbatch c hc).2.2 hread

/-- A batch that is being placed is not durable. -/
theorem stored_placing (hdurable : ∀ i ∈ w.durable, i < w.batches.length) (packer : Packer)
    (log : List QuantaDb.Batch) (b : Batch) (place : PageId × VersionRecord) :
    (w.placing packer log b).Stored place ↔ w.Stored place := by
  have hget : ∀ i ∈ w.durable, (w.batches ++ [b])[i]? = w.batches[i]? := fun i hi =>
    List.getElem?_append_left (hdurable i hi)
  constructor
  · rintro ⟨i, b', hi, hb', hplace⟩
    exact ⟨i, b', hi, (hget i hi).symm.trans hb', hplace⟩
  · rintro ⟨i, b', hi, hb', hplace⟩
    exact ⟨i, b', hi, (hget i hi).trans hb', hplace⟩

/-- A commit takes the lock. -/
theorem start (h : Logged w) (hdurable : ∀ i ∈ w.durable, i < w.batches.length)
    (timestamp : Nat) : Logged (w.placing w.packer w.log ⟨timestamp, [], {}⟩) := by
  have hslots : (w.placing w.packer w.log ⟨timestamp, [], {}⟩).slots = w.slots := by
    funext pageId
    rw [slots_placing _ _ _ _ fun hmem => Nat.lt_irrefl _ (hdurable _ hmem)]
    simp [Batch.on, Batch.places]
  refine h.grow [] (List.append_nil _).symm rfl (stored_placing hdurable _ _ _) ?_ (by simp) ?_
  · rw [hslots]
    exact fun _ hne => hne
  · rw [hslots]
    exact fun _ hne => .inl hne

/-- One turn of the loop. -/
theorem place (h : Logged (w.placing packer log b)) (hinv : Inv (w.placing packer log b))
    (hdurable : ∀ i ∈ w.durable, i < w.batches.length) {write : Key × Option Bytes}
    {placed : Placed} (hplace : packer.place ⟨b.timestamp, write.1, write.2⟩ = .ok placed) :
    Logged (w.placing placed.packer (log ++ placed.blanks) (b.add write placed)) := by
  have hslots := hinv.slots_place (fun hmem => Nat.lt_irrefl _ (hdurable _ hmem)) hplace
  have hself : ((w.placing packer log b).slots.place placed
      ⟨b.timestamp, write.1, write.2⟩) placed.pageId ≠ [] := by
    rw [Packed.place_self]
    simp
  refine h.grow placed.blanks rfl rfl (fun place => ?_) ?_ ?_ ?_
  · rw [stored_placing hdurable, stored_placing hdurable]
  · rw [hslots]
    exact fun pageId => Packed.place_ne_nil _ _ _
  · rw [hslots]
    intro batch hbatch c hc
    obtain ⟨hfresh, -⟩ | ⟨hfresh, -, hlt, -⟩ := hinv.packed.place_cases hplace
    · simp [Placed.blanks, hfresh] at hbatch
    · rw [Placed.blanks, if_pos hfresh, List.mem_singleton] at hbatch
      rw [hbatch, List.mem_singleton] at hc
      rw [hc]
      refine ⟨hself, rfl, (Change.readable_iff ?_).mpr fun hne => absurd rfl hne⟩
      show placed.pageId.toNat ≠ noPageId
      unfold noPageId
      omega
  · rw [hslots]
    intro pageId hne
    by_cases heq : pageId = placed.pageId
    · rw [heq]
      obtain ⟨-, -, hold, -⟩ | ⟨hfresh, -, hlt, -⟩ := hinv.packed.place_cases hplace
      · exact .inl hold
      · refine .inr ⟨by unfold noPageId; omega, [PageWrite.change ⟨placed.pageId, []⟩], ?_, _,
          List.mem_singleton_self _, rfl⟩
        rw [Placed.blanks, if_pos hfresh]
        exact List.mem_singleton_self _
    · rw [Packed.place_other _ _ heq] at hne
      exact .inl hne

/-- A batch becomes durable.  If the reader of the log stops at one of its records, none of
them is read back. -/
theorem append (h : Logged w) (hinv : Inv w) {i : Nat} (hb : w.batches[i]? = some b)
    (hi : i ∉ w.durable) : Logged (Inv.written w i b) := by
  have hslots := hinv.slots_append hb (w.log ++ [b.persisted.appends.map PageAppend.change])
  have hcarries := hinv.pending i b hb hi
  have hold : ∀ {place}, w.Stored place → (Inv.written w i b).Stored place := by
    rintro place ⟨j, b', hj, hb', hplace⟩
    exact ⟨j, b', List.mem_append_left _ hj, hb', hplace⟩
  have hnew : ∀ {place}, place ∈ b.places → (Inv.written w i b).Stored place := fun hplace =>
    ⟨i, b, by simp, hb, hplace⟩
  have hpage : ∀ pageId, (Inv.written w i b).slots pageId ≠ [] ↔ w.slots pageId ≠ [] := by
    intro pageId
    rw [hslots, Ne, Slots.write_eq_nil]
  refine ⟨?_, fun pageId hne => ?_, ?_, fun hunread => ?_⟩
  · refine List.forall_mem_append.mpr ⟨fun batch hbatch c hc => ?_, fun batch hbatch c hc => ?_⟩
    · obtain ⟨hne, hempty | ⟨place, hplace, hpayload⟩⟩ := h.sources batch hbatch c hc
      · exact ⟨(hpage _).mpr hne, .inl hempty⟩
      · exact ⟨(hpage _).mpr hne, .inr ⟨place, hold hplace, hpayload⟩⟩
    · rw [List.mem_singleton.mp hbatch] at hc
      obtain ⟨a, ha, rfl⟩ := List.mem_map.mp hc
      obtain ⟨hne, hempty | ⟨place, hplace, hpayload⟩⟩ := hcarries.mem_append ha
      · exact ⟨(hpage _).mpr hne, .inl hempty⟩
      · exact ⟨(hpage _).mpr hne, .inr ⟨place, hnew hplace, hpayload⟩⟩
  · obtain ⟨hid, batch, hbatch, hc⟩ := h.opened pageId ((hpage pageId).mp hne)
    exact ⟨hid, batch, List.mem_append_left _ hbatch, hc⟩
  · rintro place ⟨j, b', hj, hb', hplace⟩
    rcases List.mem_append.mp hj with hj | hj
    · obtain ⟨batch, hbatch, hc⟩ := h.carried place ⟨j, b', hj, hb', hplace⟩
      exact ⟨batch, List.mem_append_left _ hbatch, hc⟩
    · rw [List.mem_singleton.mp hj, hb] at hb'
      obtain rfl := Option.some.inj hb'
      obtain ⟨a, ha, -, hpayload⟩ := hcarries.exists_append hplace
      exact ⟨_, List.mem_append_right _ (List.mem_singleton_self _), a.change,
        List.mem_map_of_mem ha, by simp [PageAppend.change], hpayload⟩
  · by_cases hread : ∃ batch ∈ w.log, ∃ c ∈ batch, ¬Readable c.kind
    · obtain ⟨place, hplace, hlost⟩ := h.lost hread
      exact ⟨place, hold hplace, by rwa [kept_append hread]⟩
    · -- the batch is the first that is not read, and its places are still empty
      push Not at hread
      obtain ⟨batch, hbatch, c, hc, hunread⟩ := hunread
      rcases List.mem_append.mp hbatch with hbatch | hbatch
      · exact absurd (hread batch hbatch c hc) hunread
      rw [List.mem_singleton.mp hbatch] at hc
      rw [kept_concat hread ⟨c, hc, hunread⟩]
      obtain ⟨a, ha, rfl⟩ := List.mem_map.mp hc
      obtain ⟨hne, hempty | ⟨place, hplace, -⟩⟩ := hcarries.mem_append ha
      · refine absurd ((Change.readable_iff (h.opened _ hne).1).mpr fun _ => ?_) hunread
        rw [show a.change.payload = [] from hempty]
        decide
      · exact ⟨place, hnew hplace, fun records hdecoded =>
          hinv.not_decoded hb hi hplace hdecoded⟩

theorem init (allocator : PageAllocator) (start : Pages) :
    Logged { packer := ⟨none, allocator⟩, start } :=
  ⟨by simp, by simp [slots], by simp [Stored], by simp⟩

end Logged

/-! ## runs -/

/-- What holds of the places and of the log. -/
structure Sound (w : Writers) : Prop where
  inv : Inv w
  logged : Logged w

namespace Sound

variable {w : Writers}

/-- **The loop** of `persist_commit`. -/
theorem persist {timestamp : Nat} (hts : 0 < timestamp ∧ timestamp < 2 ^ 64)
    (hdurable : ∀ i ∈ w.durable, i < w.batches.length) {writes : List (Key × Option Bytes)} :
    ∀ {packer : Packer} {log : List QuantaDb.Batch} {persisting : Persisting}
      {done : List (Key × Option Bytes)} {packer' : Packer} {log' : List QuantaDb.Batch}
      {persisted : Persisting},
      Sound (w.placing packer log ⟨timestamp, done, persisting⟩) →
      ((done ++ writes).map Prod.fst).Nodup →
      Packer.persist timestamp writes packer log persisting = .ok (packer', log', persisted) →
      Sound (w.placing packer' log' ⟨timestamp, done ++ writes, persisted⟩) := by
  have hlast : w.batches.length ∉ w.durable := fun hmem => Nat.lt_irrefl _ (hdurable _ hmem)
  induction writes with
  | nil =>
    intro packer log persisting done packer' log' persisted h _ hpersist
    cases hpersist
    rwa [List.append_nil]
  | cons write writes ih =>
    intro packer log persisting done packer' log' persisted h hkeys hpersist
    rw [Packer.persist] at hpersist
    split at hpersist
    · cases hpersist
    · next placed hplace =>
      rw [List.append_cons] at hkeys ⊢
      have hdone : ((done ++ [write]).map Prod.fst).Nodup := by
        rw [List.map_append] at hkeys
        exact (List.nodup_append.mp hkeys).1
      exact ih ⟨h.inv.place hlast hplace hdone hts, h.logged.place h.inv hdurable hplace⟩
        hkeys hpersist

variable {w' : Writers}

theorem reserve (h : Sound w) {timestamp : Nat} {writes : List (Key × Option Bytes)}
    (hreserve : w.reserve timestamp writes = some w') : Sound w' := by
  unfold Writers.reserve at hreserve
  split at hreserve
  · next hadmits =>
    split at hreserve
    · cases hreserve
    · next packer log persisted hpersist =>
      cases hreserve
      exact persist ⟨hadmits.1, hadmits.2.1⟩ h.inv.durable
        ⟨h.inv.start hadmits, h.logged.start h.inv.durable timestamp⟩ hadmits.2.2.2 hpersist
  · cases hreserve

theorem append (h : Sound w) {i : Nat} (happend : w.append i = some w') :
    Sound w' := by
  unfold Writers.append at happend
  split at happend
  · cases happend
  · next hi =>
    obtain ⟨b, hb, rfl⟩ := Option.map_eq_some_iff.mp happend
    exact ⟨h.inv.append hb hi, h.logged.append h.inv hb hi⟩

theorem step (h : Sound w) {action : WriterAction} (hstep : w.step action = some w') :
    Sound w' := by
  cases action with
  | reserve timestamp writes => exact h.reserve hstep
  | append i => exact h.append hstep

/-- **Every run** of the writers keeps both. -/
theorem run {actions : List WriterAction} (h : Sound w) (hrun : w.run actions = some w') :
    Sound w' := by
  induction actions generalizing w with
  | nil =>
    cases hrun
    exact h
  | cons action actions ih =>
    rw [Writers.run, List.foldlM_cons] at hrun
    obtain ⟨w₁, hstep, hrun⟩ := Option.bind_eq_some_iff.mp hrun
    exact ih (h.step hstep) hrun

/-- The log is read back as a whole exactly if the records are short enough. -/
theorem readable_iff (h : Sound w) : (∀ batch ∈ w.log, ∀ c ∈ batch, Readable c.kind) ↔
    ∀ place, w.Stored place → 4 + place.2.size ≤ maxPagePayload := by
  constructor
  · intro hread place hplace
    obtain ⟨batch, hbatch, c, hc, hat, hpayload⟩ := h.logged.carried place hplace
    have hid := (h.logged.opened _ (h.logged.sources batch hbatch c hc).1).1
    have hlen := (Change.readable_iff hid).mp (hread batch hbatch c hc) hat
    rwa [hpayload, VersionRecord.length_bytes] at hlen
  · intro hshort batch hbatch c hc
    obtain ⟨hne, hpayload⟩ := h.logged.sources batch hbatch c hc
    refine (Change.readable_iff (h.logged.opened _ hne).1).mpr fun _ => ?_
    obtain hempty | ⟨place, hplace, hbytes⟩ := hpayload
    · rw [hempty]
      decide
    · rw [hbytes, VersionRecord.length_bytes]
      exact hshort place hplace

/-- The pages that the log goes to are those of the commits. -/
theorem placeable_iff (h : Sound w) :
    (∀ batch ∈ w.log, ∀ c ∈ batch, Placeable c.pageId) ↔
      ∀ b ∈ w.batches, ∀ pageId ∈ b.persisted.pageIds, Placeable pageId := by
  constructor
  · intro hlog b hb pageId hpage
    obtain ⟨r, hr⟩ := b.exists_place (h.inv.lengths b hb) hpage
    obtain ⟨-, batch, hbatch, c, hc, rfl⟩ := h.logged.opened pageId (slots_ne_nil hb hr)
    exact hlog batch hbatch c hc
  · intro hbatches batch hbatch c hc
    obtain ⟨slot, hslot⟩ := List.exists_mem_of_ne_nil _ (h.logged.sources batch hbatch c hc).1
    obtain ⟨i, b, hb, hplace, -⟩ := mem_slots.mp hslot
    exact hbatches b (List.mem_of_getElem? hb) _ (Batch.of_mem_places hplace).2.2

/-- **Opening** after a crash that loses no durable record brings back all pages. -/
theorem reopened_eq (h : Sound w) (hlegible : w.Legible) : w.reopened = some w.pages := by
  have hread := h.readable_iff.mpr fun place ⟨i, b, hi, hb, hplace⟩ =>
    hlegible.2 i b hi hb place hplace
  have hplace := h.placeable_iff.mpr hlegible.1
  rw [reopened, kept_eq_self hread, if_pos hplace]
  rfl

theorem legible_of_lossless (h : Sound w) (hlossless : w.Lossless) : w.Legible := by
  obtain ⟨pages, hreopened, hdecoded⟩ := hlossless
  unfold reopened at hreopened
  split at hreopened
  swap
  · cases hreopened
  next hplaceable =>
  have hread : ∀ batch ∈ w.log, ∀ c ∈ batch, Readable c.kind := by
    by_contra hunread
    push Not at hunread
    obtain ⟨place, ⟨i, b, hi, hb, hplace⟩, hlost⟩ := h.logged.lost hunread
    obtain ⟨records, hrecords, hmem⟩ := hdecoded i b hi hb place hplace
    rw [← Option.some.inj hreopened] at hrecords
    exact hlost records hrecords hmem
  rw [kept_eq_self hread] at hplaceable
  exact ⟨h.placeable_iff.mp hplaceable, fun i b hi hb place hplace =>
    h.readable_iff.mp hread place ⟨i, b, hi, hb, hplace⟩⟩

end Sound

/-! ## what a crash leaves -/

/-- The places on a page from one batch on. -/
theorem slots_split {i : Nat} {b : Batch} (hb : w.batches[i]? = some b) (pageId : PageId) :
    ∃ before after,
      w.slots pageId =
        before ++ ((b.on pageId).map (fun r => (r, decide (i ∈ w.durable))) ++ after) ∧
      ∀ slot ∈ before, ∃ j b', j < i ∧ w.batches[j]? = some b' ∧ (pageId, slot.1) ∈ b'.places ∧
        slot.2 = decide (j ∈ w.durable) := by
  obtain ⟨hlt, hget⟩ := List.getElem?_eq_some_iff.mp hb
  have hsplit : w.batches = w.batches.take i ++ b :: w.batches.drop (i + 1) := by
    rw [← hget, List.cons_getElem_drop_succ, List.take_append_drop]
  have hlength : (w.batches.take i).length = i := List.length_take_of_le (Nat.le_of_lt hlt)
  let places : Batch × Nat → List (VersionRecord × Bool) := fun entry =>
    (entry.1.on pageId).map fun r => (r, decide (entry.2 ∈ w.durable))
  refine ⟨(w.batches.take i).zipIdx.flatMap places,
    ((w.batches.drop (i + 1)).zipIdx (i + 1)).flatMap places, ?_, ?_⟩
  · have hzip : w.batches.zipIdx = (w.batches.take i).zipIdx ++
        (b, i) :: (w.batches.drop (i + 1)).zipIdx (i + 1) := by
      conv_lhs => rw [hsplit, List.zipIdx_append, List.zipIdx_cons, hlength, Nat.zero_add]
    rw [slots, hzip, List.flatMap_append, List.flatMap_cons]
  · intro slot hslot
    obtain ⟨⟨b', j⟩, hentry, hslot⟩ := List.mem_flatMap.mp hslot
    obtain ⟨r, hr, rfl⟩ := List.mem_map.mp hslot
    rw [List.mem_zipIdx_iff_getElem?, List.getElem?_take] at hentry
    split at hentry
    · next hj => exact ⟨j, b', hj, hentry, Batch.mem_on.mp hr, rfl⟩
    · cases hentry

/-- Where all pages are read, the durable batches are decoded exactly if they come first. -/
theorem Inv.decoded_iff (h : Inv w) :
    (∀ (i : Nat) (b : Batch), i ∈ w.durable → w.batches[i]? = some b → ∀ place ∈ b.places,
      ∃ records, decodedRecords w.pages place.1 = .ok records ∧ place.2 ∈ records) ↔
    w.Contiguous := by
  constructor
  · intro hdecoded i j b b' hij hb hb' pageId hp hp' hj
    by_contra hi
    obtain ⟨r, hr⟩ := b'.exists_place (h.lengths b' (List.mem_of_getElem? hb')) hp'
    obtain ⟨r₀, hr₀⟩ := b.exists_place (h.lengths b (List.mem_of_getElem? hb)) hp
    obtain ⟨records, hrecords, hmem⟩ := hdecoded j b' hj hb' _ hr
    rw [h.decodedRecords_eq (slots_ne_nil (List.mem_of_getElem? hb') hr)] at hrecords
    cases hrecords
    -- the earlier batch leaves a gap, and the record is behind it
    obtain ⟨before, after, hslots, hbefore⟩ := slots_split hb pageId
    obtain ⟨first, rest, hon⟩ :=
      List.exists_cons_of_ne_nil (List.ne_nil_of_mem (Batch.mem_on.mpr hr₀))
    rw [hslots, hon, List.map_cons, List.cons_append, decide_eq_false hi] at hmem
    obtain ⟨slot, hslot, heq⟩ := List.mem_map.mp (mem_of_mem_upToGap hmem)
    obtain ⟨k, b'', hk, hb'', hplace, -⟩ := hbefore slot hslot
    rw [heq] at hplace
    have hts := (Batch.of_mem_places hplace).1
    rw [(Batch.of_mem_places hr).1] at hts
    have := h.batch_eq hb' hb'' hts
    omega
  · intro hcontiguous j b' hj hb' place hplace
    refine ⟨_, h.decodedRecords_eq (slots_ne_nil (List.mem_of_getElem? hb') hplace), ?_⟩
    obtain ⟨before, after, hslots, hbefore⟩ := slots_split hb' place.1
    rw [hslots, ← List.append_assoc]
    refine mem_upToGap_append ?_ ?_
    · intro slot hslot
      rcases List.mem_append.mp hslot with hslot | hslot
      · obtain ⟨i, b, hi, hb, hp, hflag⟩ := hbefore slot hslot
        rw [hflag, decide_eq_true_eq]
        exact hcontiguous i j b b' hi hb hb' place.1 (Batch.of_mem_places hp).2.2
          (Batch.of_mem_places hplace).2.2 hj
      · obtain ⟨r, -, rfl⟩ := List.mem_map.mp hslot
        exact decide_eq_true hj
    · rw [List.map_append, List.mem_append]
      refine .inr (List.mem_map.mpr ⟨(place.2, _), List.mem_map.mpr ⟨place.2, ?_, rfl⟩, rfl⟩)
      exact Batch.mem_on.mpr hplace

/-- **What a crash loses**: the durable batches keep all their records exactly if on every
page they come before all others, the pages have a place in the data file, and the reader
of the log stops at none of the records. -/
theorem lossless_iff {allocator : PageAllocator} (hpooled : allocator.Pooled)
    (start : Pages) (actions : List WriterAction) (w : Writers)
    (hrun : Writers.run { packer := ⟨none, allocator⟩, start } actions = some w) :
    w.Lossless ↔ w.Contiguous ∧ w.Legible := by
  have h : Sound w :=
    Sound.run ⟨Inv.init hpooled start, Logged.init allocator start⟩ hrun
  constructor
  · intro hlossless
    have hlegible := h.legible_of_lossless hlossless
    obtain ⟨pages, hreopened, hdecoded⟩ := hlossless
    rw [h.reopened_eq hlegible] at hreopened
    obtain rfl := Option.some.inj hreopened
    exact ⟨h.inv.decoded_iff.mp hdecoded, hlegible⟩
  · rintro ⟨hcontiguous, hlegible⟩
    exact ⟨w.pages, h.reopened_eq hlegible, h.inv.decoded_iff.mpr hcontiguous⟩

/-- Two commits share a page, and the second is durable first. -/
def overtaken : List WriterAction :=
  [.reserve 1 [([97], some [1])], .reserve 2 [([98], some [2])], .append 1]

theorem overtaken_lost : ∃ w : Writers, Writers.run {} overtaken = some w ∧ ¬w.Lossless := by
  obtain ⟨w, hw⟩ : ∃ w, Writers.run {} overtaken = some w :=
    Option.isSome_iff_exists.mp (by decide +kernel)
  have hdurable : ((Writers.run {} overtaken).map Writers.durable) = some [1] := by decide +kernel
  have hplaces : ((Writers.run {} overtaken).bind fun w => w.batches[1]?.map Batch.places) =
      some [(0, ⟨2, [98], some [2]⟩)] := by decide +kernel
  have hdecoded : ((Writers.run {} overtaken).bind fun w => w.reopened.map fun pages =>
      (decodedRecords pages 0).toOption) = some (some []) := by decide +kernel
  rw [hw] at hdurable hplaces hdecoded
  refine ⟨w, hw, ?_⟩
  rintro ⟨pages, hreopened, hlossless⟩
  obtain ⟨b, hb, hplaces⟩ := Option.map_eq_some_iff.mp hplaces
  obtain ⟨records, hrecords, hmem⟩ := hlossless 1 b (by simp [Option.some.inj hdurable]) hb
    (0, ⟨2, [98], some [2]⟩) (by simp [hplaces])
  rw [Option.bind_some, hreopened, Option.map_some, hrecords] at hdecoded
  cases hdecoded
  cases hmem

theorem lossless_iff_inOrder : ∃ w : Writers,
    Writers.run {} [.reserve 1 [([97], some [1])], .reserve 2 [([98], some [2])], .append 0] =
      some w ∧ (w.Lossless ↔ w.Contiguous ∧ w.Legible) := by
  obtain ⟨w, hw⟩ : ∃ w, Writers.run {}
      [.reserve 1 [([97], some [1])], .reserve 2 [([98], some [2])], .append 0] = some w :=
    Option.isSome_iff_exists.mp (by decide +kernel)
  have hpooled : PageAllocator.Pooled {} := fun id hid => absurd hid Std.TreeSet.not_mem_emptyc
  exact ⟨w, hw, lossless_iff hpooled (fun _ => none) _ w hw⟩

end Writers

end QuantaDb.Mvcc
