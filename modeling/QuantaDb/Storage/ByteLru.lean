import QuantaDb.Lib.Recency
import QuantaDb.Lib.TreeMaps
import QuantaDb.Storage.Page

/-!
# QuantaDb.Storage.ByteLru

The cache that is bounded by bytes (`byte_lru.rs`).

Two maps and a counter are kept in step: the entries by page, the pages by the tick
of their last use, and the sum of the sizes.  `Holds` says what they have in common:
they describe one queue of entries in the order of their last use.  Every call does
with this queue what `Recency.use` does, as long as the counter does not run over
(`accounting_exact`).

Ticks and sizes are the fixed-width numbers of the source; they wrap.
-/

namespace QuantaDb.ByteLru

open Recency TreeMaps

variable {V : Type}

/-- `LruEntry`. -/
structure LruEntry (V : Type) where
  value : V
  bytes : UInt64
  tick : UInt64
deriving DecidableEq

/-- `LruInner`. -/
structure LruInner (V : Type) where
  map : Std.TreeMap PageId (LruEntry V) := ∅
  recency : Std.TreeMap UInt64 PageId := ∅
  nextTick : UInt64 := 0
  bytes : UInt64 := 0
  capacity : UInt64
  hits : UInt64 := 0
  misses : UInt64 := 0

namespace LruInner

/-- `take_tick`. -/
def takeTick (s : LruInner V) : UInt64 × LruInner V :=
  (s.nextTick, { s with nextTick := s.nextTick + 1 })

/-- `get`. -/
def get (s : LruInner V) (page : PageId) : Option V × LruInner V :=
  let (tick, s) := s.takeTick
  match s.map[page]? with
  | some entry => (some entry.value, { s with
      map := s.map.insert page { entry with tick }
      recency := (s.recency.erase entry.tick).insert tick page
      hits := s.hits + 1 })
  | none => (none, { s with misses := s.misses + 1 })

/-- `remove`. -/
def remove (s : LruInner V) (page : PageId) : LruInner V :=
  match s.map[page]? with
  | some entry => { s with
      map := s.map.erase page
      recency := s.recency.erase entry.tick
      bytes := s.bytes - entry.bytes }
  | none => s

/-- `insert` up to its loop. -/
def place (s : LruInner V) (page : PageId) (value : V) (bytes : UInt64) : LruInner V :=
  let (tick, s) := s.takeTick
  let previous := s.map[page]?
  let s := { s with map := s.map.insert page ⟨value, bytes, tick⟩ }
  let s := match previous with
    | some previous => { s with
        recency := s.recency.erase previous.tick
        bytes := s.bytes - previous.bytes }
    | none => s
  { s with recency := s.recency.insert tick page, bytes := s.bytes + bytes }

/-- A page that `pop_first` gave leaves the cache. -/
def pop (s : LruInner V) (tick : UInt64) (oldest : PageId) : LruInner V :=
  let s := { s with recency := s.recency.erase tick }
  match s.map[oldest]? with
  | some evicted => { s with map := s.map.erase oldest, bytes := s.bytes - evicted.bytes }
  | none => s

/-- The loop of `insert`.  `pop_first` gives what the recency map holds at the start, in
its order. -/
def evict : List (UInt64 × PageId) → LruInner V → LruInner V
  | [], s => s
  | (tick, oldest) :: later, s =>
    if s.capacity < s.bytes then evict later (s.pop tick oldest) else s

/-- `insert`. -/
def insert (s : LruInner V) (page : PageId) (value : V) (bytes : UInt64) : LruInner V :=
  if s.capacity < bytes then s
  else
    let s := s.place page value bytes
    evict s.recency.toList s

end LruInner

/-- The calls of a `SharedByteLru`. -/
inductive Call (V : Type) where
  | get (page : PageId)
  | insert (page : PageId) (value : V) (bytes : UInt64)
  | remove (page : PageId)

/-- What a call is to the order of use. -/
def Call.use : Call V → Use PageId
  | get page => .touch page
  | insert page _ bytes => .enqueue page bytes.toNat
  | remove page => .forget page

namespace LruInner

def call (s : LruInner V) : Call V → LruInner V
  | .get page => (s.get page).2
  | .insert page value bytes => s.insert page value bytes
  | .remove page => s.remove page

/-- `SharedByteLru::new` and some calls. -/
def run (capacity : UInt64) (calls : List (Call V)) : LruInner V := calls.foldl call { capacity }

/-! ## the queue of the entries -/

/-- What an entry counts for. -/
def size (e : PageId × LruEntry V) : Nat := e.2.bytes.toNat

/-- The maps and the counter describe this queue, least recently used first. -/
structure Holds (s : LruInner V) (queue : List (PageId × LruEntry V)) : Prop where
  resident : ∀ page entry, s.map[page]? = some entry ↔ (page, entry) ∈ queue
  order : s.recency.toList = queue.map fun e => (e.2.tick, e.1)
  nodup : (queue.map Prod.fst).Nodup
  bytes : s.bytes.toNat = total size queue
  ticks : ∀ e ∈ queue, e.2.tick.toNat < s.nextTick.toNat

variable {s : LruInner V} {queue : List (PageId × LruEntry V)}

theorem Holds.recency (h : s.Holds queue) (tick : UInt64) (page : PageId) :
    s.recency[tick]? = some page ↔ ∃ entry, s.map[page]? = some entry ∧ entry.tick = tick := by
  rw [← Std.TreeMap.mem_toList_iff_getElem?_eq_some, h.order, List.mem_map]
  constructor
  · rintro ⟨⟨page', entry⟩, hmem, heq⟩
    cases heq
    exact ⟨entry, (h.resident _ _).mpr hmem, rfl⟩
  · rintro ⟨entry, hentry, rfl⟩
    exact ⟨(page, entry), (h.resident _ _).mp hentry, rfl⟩

variable {page : PageId}

theorem Holds.not_mem (h : s.Holds queue) (hnone : s.map[page]? = none) :
    page ∉ queue.map Prod.fst := by
  intro hmem
  obtain ⟨⟨page', entry⟩, hentry, rfl⟩ := List.mem_map.mp hmem
  rw [(h.resident _ _).mpr hentry] at hnone
  cases hnone

theorem Holds.sorted (h : s.Holds queue) :
    (queue.map fun e => (e.2.tick, e.1)).Pairwise fun a b => compare a.1 b.1 = .lt := by
  rw [← h.order]
  exact s.recency.ordered_keys_toList

/-- **Removing** an entry takes it out of the queue. -/
theorem Holds.remove (h : s.Holds queue) (page : PageId) :
    (s.remove page).Holds (forget page queue) := by
  unfold LruInner.remove
  cases hentry : s.map[page]? with
  | none =>
    rw [forget_of_not_mem (h.not_mem hentry)]
    exact h
  | some entry =>
    have hmem := (h.resident page entry).mp hentry
    have htotal := @total_forget _ _ _ size queue h.nodup (page, entry) hmem
    have hle : entry.bytes ≤ s.bytes := by
      rw [UInt64.le_iff_toNat_le, h.bytes, htotal]
      exact Nat.le_add_right _ _
    refine ⟨fun p e => ?_, ?_, ?_, ?_, ?_⟩
    · rw [get_erase, mem_forget, ← h.resident]
      by_cases heq : page = p <;> simp [heq, Ne.symm]
    · refine toList_eq ?_ fun tick p => ?_
      · exact h.sorted.sublist (List.filter_sublist.map _)
      · -- ticks tell entries apart, so the tick of the page is in no other entry
        have htick : s.recency[entry.tick]? = some page := (h.recency _ _).mpr ⟨entry, hentry, rfl⟩
        rw [get_erase, List.mem_map]
        constructor
        · rintro ⟨⟨p', e⟩, he, heq⟩
          cases heq
          obtain ⟨hin, hne⟩ := mem_forget.mp he
          have hin' := (h.recency e.tick p').mpr ⟨e, (h.resident _ _).mpr hin, rfl⟩
          rw [if_neg, hin']
          intro hsame
          rw [hsame, hin'] at htick
          exact hne (Option.some.inj htick)
        · intro hget
          split at hget
          · cases hget
          · next hne =>
            obtain ⟨e, he, rfl⟩ := (h.recency _ _).mp hget
            refine ⟨(p, e), mem_forget.mpr ⟨(h.resident _ _).mp he, ?_⟩, rfl⟩
            rintro rfl
            rw [hentry] at he
            exact hne (congrArg LruEntry.tick (Option.some.inj he))
    · exact h.nodup.sublist (List.filter_sublist.map _)
    · rw [UInt64.toNat_sub_of_le _ _ hle, h.bytes, htotal]
      exact Nat.add_sub_cancel_left _ _
    · exact fun e he => h.ticks e (mem_forget.mp he).1

theorem remove_of_some {entry : LruEntry V} (h : s.map[page]? = some entry) :
    s.remove page = { s with
      map := s.map.erase page
      recency := s.recency.erase entry.tick
      bytes := s.bytes - entry.bytes } := by
  rw [remove, h]

theorem remove_of_none (h : s.map[page]? = none) : s.remove page = s := by
  rw [remove, h]

theorem map_remove (s : LruInner V) (page p : PageId) :
    (s.remove page).map[p]? = if page = p then none else s.map[p]? := by
  cases hentry : s.map[page]? with
  | some entry =>
    rw [remove_of_some hentry]
    exact get_erase _ _ _
  | none =>
    rw [remove_of_none hentry]
    split
    · next heq => rw [← heq, hentry]
    · rfl

@[simp] theorem nextTick_remove (s : LruInner V) (page : PageId) :
    (s.remove page).nextTick = s.nextTick := by
  unfold remove
  split <;> rfl

@[simp] theorem capacity_remove (s : LruInner V) (page : PageId) :
    (s.remove page).capacity = s.capacity := by
  unfold remove
  split <;> rfl

/-- The map with one more entry. -/
theorem resident_push {s' : LruInner V} {entry : LruEntry V}
    (hresident : ∀ p e, s.map[p]? = some e ↔ (p, e) ∈ queue) (hnew : page ∉ queue.map Prod.fst)
    (hmap : ∀ p, s'.map[p]? = if page = p then some entry else s.map[p]?) (p : PageId)
    (e : LruEntry V) : s'.map[p]? = some e ↔ (p, e) ∈ queue ++ [(page, entry)] := by
  rw [hmap, List.mem_append, ← hresident, List.mem_singleton, Prod.mk.injEq]
  by_cases heq : page = p
  · subst heq
    have hnone : ∀ e, s.map[page]? ≠ some e := fun e he =>
      hnew (List.mem_map_of_mem ((hresident page e).mp he))
    simp [hnone, eq_comm]
  · simp [heq, Ne.symm heq]

theorem nodup_push {entry : LruEntry V} (hnodup : (queue.map Prod.fst).Nodup)
    (hnew : page ∉ queue.map Prod.fst) : ((queue ++ [(page, entry)]).map Prod.fst).Nodup := by
  rw [List.map_append, List.nodup_append_comm]
  exact List.nodup_cons.mpr ⟨hnew, hnodup⟩

/-- **Adding** an entry that is not there, with the next tick, puts it at the end. -/
theorem Holds.push (h : s.Holds queue) {s' : LruInner V} {entry : LruEntry V}
    (hnew : page ∉ queue.map Prod.fst) (htick : entry.tick = s.nextTick)
    (hnext : s.nextTick.toNat + 1 < 2 ^ 64) (hroom : s.bytes.toNat + entry.bytes.toNat < 2 ^ 64)
    (hmap : ∀ p, s'.map[p]? = if page = p then some entry else s.map[p]?)
    (hrecency : s'.recency = s.recency.insert s.nextTick page)
    (hbytes : s'.bytes = s.bytes + entry.bytes) (hnextTick : s'.nextTick = s.nextTick + 1) :
    s'.Holds (queue ++ [(page, entry)]) := by
  have hlater : s'.nextTick.toNat = s.nextTick.toNat + 1 := by
    rw [hnextTick, UInt64.toNat_add, Nat.mod_eq_of_lt (by simpa using hnext)]
    rfl
  refine ⟨resident_push h.resident hnew hmap, ?_, nodup_push h.nodup hnew, ?_, ?_⟩
  · rw [hrecency]
    refine toList_eq ?_ fun tick p => ?_
    · rw [List.map_append]
      refine List.pairwise_append.mpr ⟨h.sorted, List.pairwise_singleton _ _, ?_⟩
      intro a ha b hb
      obtain ⟨e, he, rfl⟩ := List.mem_map.mp ha
      rw [List.map_singleton, List.mem_singleton] at hb
      rw [hb, Std.compare_eq_lt, UInt64.lt_iff_toNat_lt, htick]
      exact h.ticks e he
    · rw [get_insert, List.map_append, List.mem_append, ← h.order,
        Std.TreeMap.mem_toList_iff_getElem?_eq_some, List.map_singleton, List.mem_singleton, htick,
        Prod.mk.injEq]
      by_cases heq : s.nextTick = tick
      · -- no entry has the next tick yet
        subst heq
        have hnone : ∀ p, s.recency[s.nextTick]? ≠ some p := by
          intro p hp
          obtain ⟨e, he, heq⟩ := (h.recency _ _).mp hp
          have := h.ticks (p, e) ((h.resident _ _).mp he)
          rw [heq] at this
          exact Nat.lt_irrefl _ this
        simp [hnone, eq_comm]
      · simp [heq, Ne.symm heq]
  · rw [hbytes, UInt64.toNat_add, Nat.mod_eq_of_lt hroom, total_append, h.bytes]
    simp [size]
  · intro e he
    rcases List.mem_append.mp he with he | he
    · have := h.ticks e he
      omega
    · rw [List.mem_singleton.mp he, htick]
      omega

theorem not_mem_forget (page : PageId) (queue : List (PageId × LruEntry V)) :
    page ∉ (forget page queue).map Prod.fst := by
  intro hmem
  obtain ⟨e, he, heq⟩ := List.mem_map.mp hmem
  exact (mem_forget.mp he).2 heq

theorem get_of_some {entry : LruEntry V} (h : s.map[page]? = some entry) :
    (s.get page).2 = { s with
      map := s.map.insert page { entry with tick := s.nextTick }
      recency := (s.recency.erase entry.tick).insert s.nextTick page
      nextTick := s.nextTick + 1
      hits := s.hits + 1 } := by
  simp only [get, takeTick, h]

/-- **A hit** moves the entry to the end. -/
theorem Holds.get_some (h : s.Holds queue) {entry : LruEntry V}
    (hentry : s.map[page]? = some entry) (hnext : s.nextTick.toNat + 1 < 2 ^ 64) :
    (s.get page).2.Holds (forget page queue ++ [(page, { entry with tick := s.nextTick })]) := by
  have hremove := h.remove page
  have hroom : (s.remove page).bytes.toNat + entry.bytes.toNat < 2 ^ 64 := by
    have hlt := s.bytes.toNat_lt
    rw [h.bytes, @total_forget _ _ _ size queue h.nodup (page, entry)
      ((h.resident _ _).mp hentry)] at hlt
    rw [hremove.bytes]
    simp only [size] at hlt ⊢
    omega
  refine hremove.push (not_mem_forget page queue) (by simp) (by simpa using hnext) hroom ?_ ?_ ?_ ?_
  · intro p
    rw [get_of_some hentry, get_insert, map_remove]
    split
    · rfl
    · rfl
  · rw [get_of_some hentry, remove_of_some hentry]
  · rw [get_of_some hentry, remove_of_some hentry]
    exact (UInt64.sub_add_cancel _ _).symm
  · rw [get_of_some hentry, nextTick_remove]

/-- What `insert` places, seen from the cache without the page. -/
theorem place_eq (s : LruInner V) (page : PageId) (value : V) (bytes : UInt64) :
    s.place page value bytes = { s.remove page with
      map := s.map.insert page ⟨value, bytes, s.nextTick⟩
      recency := (s.remove page).recency.insert s.nextTick page
      nextTick := s.nextTick + 1
      bytes := (s.remove page).bytes + bytes } := by
  cases hentry : s.map[page]? with
  | some entry => simp only [place, takeTick, remove_of_some hentry, hentry]
  | none => simp only [place, takeTick, remove_of_none hentry, hentry]

theorem map_place (s : LruInner V) (page p : PageId) (value : V) (bytes : UInt64) :
    (s.place page value bytes).map[p]? =
      if page = p then some ⟨value, bytes, s.nextTick⟩ else (s.remove page).map[p]? := by
  rw [place_eq, get_insert, map_remove]
  split <;> rfl

/-- **Placing** an entry puts it at the end, instead of what the page had. -/
theorem Holds.place (h : s.Holds queue) (page : PageId) (value : V) (bytes : UInt64)
    (hnext : s.nextTick.toNat + 1 < 2 ^ 64)
    (hroom : (s.remove page).bytes.toNat + bytes.toNat < 2 ^ 64) :
    (s.place page value bytes).Holds
    (forget page queue ++ [(page, ⟨value, bytes, s.nextTick⟩)]) := by
  refine (h.remove page).push (not_mem_forget page queue) (by simp) (by simpa using hnext) hroom
    (fun p => map_place s page p value bytes) ?_ ?_ ?_
  · rw [place_eq, nextTick_remove]
  · rw [place_eq]
  · rw [place_eq, nextTick_remove]

/-- Popping the first entry of the recency map removes its page. -/
theorem pop_eq {entry : LruEntry V} (h : s.map[page]? = some entry) :
    s.pop entry.tick page = s.remove page := by
  rw [remove_of_some h]
  simp only [pop, h]

/-- **Evicting** drops the first entries of the queue. -/
theorem Holds.evict (h : s.Holds queue) :
    (evict s.recency.toList s).Holds (trim size s.capacity.toNat queue) := by
  induction queue generalizing s with
  | nil =>
    rw [h.order]
    exact h
  | cons e queue ih =>
    obtain ⟨page, entry⟩ := e
    have hentry := (h.resident page entry).mpr List.mem_cons_self
    have hrest : forget page ((page, entry) :: queue) = queue := by
      have hnodup := h.nodup
      rw [List.map_cons, List.nodup_cons] at hnodup
      exact @forget_cons_self _ _ _ (page, entry) queue hnodup.1
    have hremove := h.remove page
    rw [hrest] at hremove
    rw [h.order, List.map_cons, LruInner.evict, trim, ← h.bytes, pop_eq hentry]
    simp only [UInt64.lt_iff_toNat_lt]
    split
    · have hgo := ih hremove
      rwa [hremove.order, capacity_remove] at hgo
    · exact h

theorem evict_of_le {list : List (UInt64 × PageId)} (h : s.bytes ≤ s.capacity) :
    evict list s = s := by
  cases list with
  | nil => rfl
  | cons e list => rw [LruInner.evict, if_neg (UInt64.not_lt.mpr h)]

variable {bytes : UInt64}

/-- **Inserting** what fits. -/
theorem Holds.insert (h : s.Holds queue) {value : V} (hfits : bytes ≤ s.capacity)
    (hnext : s.nextTick.toNat + 1 < 2 ^ 64)
    (hroom : (s.remove page).bytes.toNat + bytes.toNat < 2 ^ 64) :
    (s.insert page value bytes).Holds (trim size s.capacity.toNat
      (forget page queue ++ [(page, ⟨value, bytes, s.nextTick⟩)])) := by
  have hplace := (h.place page value bytes hnext hroom).evict
  rw [LruInner.insert, if_neg (UInt64.not_lt.mpr hfits)]
  rwa [show (s.place page value bytes).capacity = s.capacity by rw [place_eq, capacity_remove]]
    at hplace

/-- The sum of the sizes in the map. -/
def residentBytes (s : LruInner V) : Nat := (s.map.toList.map fun e => e.2.bytes.toNat).sum

/-- A map with the entries of a queue has its weight. -/
theorem residentBytes_eq
    (hresident : ∀ page entry, s.map[page]? = some entry ↔ (page, entry) ∈ queue)
    (hnodup : (queue.map Prod.fst).Nodup) : s.residentBytes = total size queue := by
  have hperm : s.map.toList.Perm queue := by
    rw [List.perm_ext_iff_of_nodup (nodup_toList _) hnodup.of_map]
    intro e
    rw [← hresident, Std.TreeMap.mem_toList_iff_getElem?_eq_some]
  exact (hperm.map _).sum_eq

/-! ## runs -/

/-- Pages and sizes. -/
def sizes (queue : List (PageId × LruEntry V)) : List (PageId × Nat) :=
  queue.map fun e => (e.1, e.2.bytes.toNat)

theorem keys_sizes (queue : List (PageId × LruEntry V)) :
    (sizes queue).map Prod.fst = queue.map Prod.fst := by
  rw [sizes, List.map_map]
  rfl

theorem total_sizes (queue : List (PageId × LruEntry V)) :
    total Prod.snd (sizes queue) = total size queue := total_map _ _

/-- After `n` calls at most, the cache holds the queue that the order of use gives. -/
structure Exact (s : LruInner V) (n : Nat) (order : List (PageId × Nat)) : Prop where
  holds : ∃ queue, s.Holds queue ∧ sizes queue = order
  bound : total Prod.snd order ≤ s.capacity.toNat
  ticks : s.nextTick.toNat ≤ n

/-- The counter has room for what a call inserts: an entry within the capacity, beside those
of other pages. -/
def Fits (s : LruInner V) : Call V → Prop
  | .insert page _ bytes =>
    bytes ≤ s.capacity → (s.remove page).bytes.toNat + bytes.toNat < 2 ^ 64
  | _ => True

/-- Evicting changes neither the capacity nor the ticks. -/
theorem evict_keeps (list : List (UInt64 × PageId)) (s : LruInner V) :
    (evict list s).capacity = s.capacity ∧ (evict list s).nextTick = s.nextTick := by
  have hpop : ∀ (s : LruInner V) tick page,
      (s.pop tick page).capacity = s.capacity ∧ (s.pop tick page).nextTick = s.nextTick := by
    intro s tick page
    simp only [pop]
    split <;> exact ⟨rfl, rfl⟩
  induction list generalizing s with
  | nil => exact ⟨rfl, rfl⟩
  | cons e list ih =>
    rw [evict]
    split
    · rw [(ih _).1, (ih _).2]
      exact hpop s e.1 e.2
    · exact ⟨rfl, rfl⟩

@[simp] theorem capacity_call (s : LruInner V) (c : Call V) : (s.call c).capacity = s.capacity := by
  cases c with
  | get page =>
    simp only [call, get, takeTick]
    split <;> rfl
  | insert page value bytes =>
    simp only [call, insert]
    split
    · rfl
    · rw [(evict_keeps _ _).1, place_eq, capacity_remove]
  | remove page => exact capacity_remove s page

theorem sizes_forget (page : PageId) (queue : List (PageId × LruEntry V)) :
    sizes (forget page queue) = forget page (sizes queue) :=
  (forget_map (fun entry : LruEntry V => entry.bytes.toNat) page queue).symm

theorem total_forget_le (page : PageId) (order : List (PageId × Nat)) :
    total Prod.snd (forget page order) ≤ total Prod.snd order :=
  (List.filter_sublist.map _).sum_le_sum fun _ _ => Nat.zero_le _

variable {n : Nat} {order : List (PageId × Nat)}

/-- **A call of `get`.** -/
theorem Exact.get (h : s.Exact n order) (hn : n + 1 < 2 ^ 64) (page : PageId) :
    (s.get page).2.Exact (n + 1) (use s.capacity.toNat order (.touch page)) := by
  obtain ⟨queue, hholds, rfl⟩ := h.holds
  have hticks := h.ticks
  have hnext : s.nextTick.toNat + 1 < 2 ^ 64 := by omega
  have hlater : (s.nextTick + 1).toNat = s.nextTick.toNat + 1 := by
    rw [UInt64.toNat_add, Nat.mod_eq_of_lt (by simpa using hnext)]
    rfl
  cases hentry : s.map[page]? with
  | none =>
    have hout : page ∉ (sizes queue).map Prod.fst := by
      rw [keys_sizes]
      exact hholds.not_mem hentry
    rw [use, find_of_not_mem hout]
    have hmiss : (s.get page).2 =
        { s with nextTick := s.nextTick + 1, misses := s.misses + 1 } := by
      simp only [LruInner.get, takeTick, hentry]
    rw [hmiss]
    refine ⟨⟨queue, ?_, rfl⟩, h.bound, by simp only [hlater]; omega⟩
    refine ⟨hholds.resident, hholds.order, hholds.nodup, hholds.bytes, fun e he => ?_⟩
    simp only [hlater]
    exact Nat.lt_succ_of_lt (hholds.ticks e he)
  | some entry =>
    have hmem := (hholds.resident page entry).mp hentry
    have hmem' : (page, entry.bytes.toNat) ∈ sizes queue := List.mem_map_of_mem hmem
    have hnodup : ((sizes queue).map Prod.fst).Nodup := by
      rw [keys_sizes]
      exact hholds.nodup
    rw [use, @find_of_mem _ _ _ _ hnodup (page, entry.bytes.toNat) hmem']
    refine ⟨⟨_, hholds.get_some hentry hnext, ?_⟩, ?_, ?_⟩
    · rw [sizes, List.map_append, ← sizes, sizes_forget]
      rfl
    · have htotal := @total_forget _ _ _ Prod.snd (sizes queue) hnodup _ hmem'
      have hbound := h.bound
      rw [get_of_some hentry, total_append]
      simp only [total_cons, total_nil] at htotal ⊢
      omega
    · rw [get_of_some hentry]
      simp only [hlater]
      omega

/-- **A call of `remove`.** -/
theorem Exact.remove (h : s.Exact n order) (page : PageId) :
    (s.remove page).Exact (n + 1) (forget page order) := by
  obtain ⟨queue, hholds, rfl⟩ := h.holds
  refine ⟨⟨_, hholds.remove page, sizes_forget page queue⟩, ?_, ?_⟩
  · rw [capacity_remove]
    exact Nat.le_trans (total_forget_le page _) h.bound
  · rw [nextTick_remove]
    exact Nat.le_succ_of_le h.ticks

/-- **A call of `insert`.** -/
theorem Exact.insert (h : s.Exact n order) (hn : n + 1 < 2 ^ 64) {value : V}
    (hfits : s.Fits (.insert page value bytes)) :
    (s.insert page value bytes).Exact (n + 1)
      (use s.capacity.toNat order (.enqueue page bytes.toNat)) := by
  have hticks := h.ticks
  rw [use]
  by_cases hlarge : s.capacity < bytes
  · rw [if_pos (UInt64.lt_iff_toNat_lt.mp hlarge), LruInner.insert, if_pos hlarge]
    exact ⟨h.holds, h.bound, Nat.le_succ_of_le hticks⟩
  · have hle : bytes ≤ s.capacity := UInt64.not_lt.mp hlarge
    have hnext : s.nextTick.toNat + 1 < 2 ^ 64 := by omega
    obtain ⟨queue, hholds, rfl⟩ := h.holds
    have hcapacity : (s.insert page value bytes).capacity = s.capacity :=
      capacity_call s (.insert page value bytes)
    rw [if_neg (Nat.not_lt.mpr (UInt64.le_iff_toNat_le.mp hle))]
    have hsizes : sizes (trim size s.capacity.toNat
        (forget page queue ++ [(page, ⟨value, bytes, s.nextTick⟩)])) =
        trim Prod.snd s.capacity.toNat (forget page (sizes queue) ++ [(page, bytes.toNat)]) := by
      rw [← sizes_forget]
      have hmap := @trim_map _ Prod.snd s.capacity.toNat _
        (fun e : PageId × LruEntry V => (e.1, e.2.bytes.toNat))
        (forget page queue ++ [(page, ⟨value, bytes, s.nextTick⟩)])
      rw [List.map_append] at hmap
      exact hmap.symm
    refine ⟨⟨_, hholds.insert hle hnext (hfits hle), hsizes⟩, ?_, ?_⟩
    · obtain ⟨k, htrim, hbound, -⟩ := @trim_append_singleton _ Prod.snd s.capacity.toNat
        (forget page (sizes queue)) (page, bytes.toNat) (UInt64.le_iff_toNat_le.mp hle)
      rw [hcapacity, htrim, total_append]
      simpa using hbound
    · rw [LruInner.insert, if_neg hlarge, (evict_keeps _ _).2, place_eq]
      simp only
      rw [UInt64.toNat_add, Nat.mod_eq_of_lt (by simpa using hnext)]
      exact Nat.succ_le_succ hticks

theorem Exact.call (h : s.Exact n order) (hn : n + 1 < 2 ^ 64) {c : Call V} (hfits : s.Fits c) :
    (s.call c).Exact (n + 1) (use s.capacity.toNat order c.use) := by
  cases c with
  | get page => exact h.get hn page
  | remove page => exact h.remove page
  | insert page value bytes => exact h.insert hn hfits

/-- Every call of a run finds room in the counter. -/
def Fitting (capacity : UInt64) (calls : List (Call V)) : Prop :=
  ∀ before c after, calls = before ++ c :: after → (run capacity before).Fits c

theorem run_append (capacity : UInt64) (calls : List (Call V)) (c : Call V) :
    run capacity (calls ++ [c]) = (run capacity calls).call c := by
  rw [run, List.foldl_append]
  rfl

variable {capacity : UInt64}

theorem Fitting.before {before after : List (Call V)} (h : Fitting capacity (before ++ after)) :
    Fitting capacity before := by
  intro before' c after' heq
  refine h before' c (after' ++ after) ?_
  rw [heq, List.append_assoc, List.cons_append]

theorem capacity_run (capacity : UInt64) (calls : List (Call V)) :
    (run capacity calls).capacity = capacity := by
  induction calls using List.reverseRecOn with
  | nil => rfl
  | append_singleton calls c ih => rw [run_append, capacity_call, ih]

/-- The order of use after some calls, with the sizes. -/
def lastUsed (capacity : UInt64) (calls : List (Call V)) : List (PageId × Nat) :=
  uses capacity.toNat (calls.map Call.use)

/-- **Runs.** -/
theorem run_exact {calls : List (Call V)} (hcalls : calls.length < 2 ^ 64)
    (hfitting : Fitting capacity calls) :
    (run capacity calls).Exact calls.length (lastUsed capacity calls) := by
  induction calls using List.reverseRecOn with
  | nil =>
    refine ⟨⟨[], ⟨?_, rfl, List.nodup_nil, rfl, by simp⟩, rfl⟩, Nat.zero_le _, Nat.le_refl _⟩
    intro page entry
    simp [run]
  | append_singleton calls c ih =>
    rw [List.length_append, List.length_singleton] at hcalls ⊢
    have hstep := (ih (by omega) hfitting.before).call hcalls (hfitting calls c [] rfl)
    rw [capacity_run, ← run_append] at hstep
    rw [lastUsed, uses, List.map_append, List.foldl_append]
    exact hstep

theorem Exact.fits (h : s.Exact n order) (hcapacity : 2 * s.capacity.toNat < 2 ^ 64) (c : Call V) :
    s.Fits c := by
  cases c with
  | get page => trivial
  | remove page => trivial
  | insert page value bytes =>
    intro hle
    obtain ⟨queue, hholds, hsizes⟩ := (h.remove page).holds
    have hbound := (h.remove page).bound
    rw [← hsizes, total_sizes, ← hholds.bytes, capacity_remove] at hbound
    rw [UInt64.le_iff_toNat_le] at hle
    omega

/-- The counter of a cache with less than half the range of a `usize` always has room. -/
theorem fitting_of_capacity (hcapacity : 2 * capacity.toNat < 2 ^ 64) {calls : List (Call V)}
    (hcalls : calls.length < 2 ^ 64) : Fitting capacity calls := by
  induction calls using List.reverseRecOn with
  | nil =>
    intro before c after heq
    simp at heq
  | append_singleton calls c ih =>
    rw [List.length_append, List.length_singleton] at hcalls
    have hfitting := ih (by omega)
    have hexact := run_exact (by omega) hfitting
    intro before c' after heq
    rcases List.eq_nil_or_concat' after with rfl | ⟨after, last, rfl⟩
    · obtain ⟨rfl, hlast⟩ := List.append_inj' heq rfl
      cases hlast
      exact hexact.fits (by rwa [capacity_run]) c
    · rw [← List.cons_append, ← List.append_assoc] at heq
      exact hfitting before c' after (List.append_inj' heq rfl).1

/-! ## what the bookkeeping says -/

/-- The counter is the sum of the sizes and within the capacity, so that taking an entry out
of it does not underflow; the recency map holds the tick of each entry and no other; and it
lists the pages in the order of their last use. -/
structure Accounted (s : LruInner V) (order : List (PageId × Nat)) : Prop where
  sum : s.bytes.toNat = s.residentBytes
  bound : s.bytes ≤ s.capacity
  ticks : ∀ (tick : UInt64) (page : PageId), s.recency[tick]? = some page ↔
    ∃ entry : LruEntry V, s.map[page]? = some entry ∧ entry.tick = tick
  covered : ∀ (page : PageId) (entry : LruEntry V), s.map[page]? = some entry →
    entry.bytes ≤ s.bytes
  listed : s.recency.toList.map Prod.snd = order.map Prod.fst
  sized : ∀ (page : PageId) (size : Nat), (page, size) ∈ order ↔
    ∃ entry : LruEntry V, s.map[page]? = some entry ∧ entry.bytes.toNat = size

theorem Exact.accounted (h : s.Exact n order) : s.Accounted order := by
  obtain ⟨queue, hholds, rfl⟩ := h.holds
  have hbound := h.bound
  rw [total_sizes, ← hholds.bytes] at hbound
  refine ⟨?_, UInt64.le_iff_toNat_le.mpr hbound, hholds.recency,
    fun page entry hentry => ?_, ?_, ?_⟩
  · rw [hholds.bytes, residentBytes_eq hholds.resident hholds.nodup]
  · rw [UInt64.le_iff_toNat_le, hholds.bytes,
      total_forget hholds.nodup ((hholds.resident page entry).mp hentry)]
    exact Nat.le_add_right _ _
  · rw [hholds.order, List.map_map, keys_sizes]
    rfl
  · intro page size
    rw [LruInner.sizes, List.mem_map]
    constructor
    · rintro ⟨⟨page', entry⟩, hmem, heq⟩
      cases heq
      exact ⟨entry, (hholds.resident _ _).mpr hmem, rfl⟩
    · rintro ⟨entry, hentry, rfl⟩
      exact ⟨(page, entry), (hholds.resident _ _).mp hentry, rfl⟩

/-- What an insert leaves: its own entry, and of the others all but the shortest run, from the
least recently used on, without which the sizes are within the capacity. -/
def Evicts (s s' : LruInner V) (order : List (PageId × Nat)) (page : PageId) (value : V)
    (bytes : UInt64) : Prop :=
  (∃ entry, s'.map[page]? = some entry ∧ entry.value = value ∧ entry.bytes = bytes) ∧
    ∃ k, (∀ q, q ≠ page → s'.map[q]? =
        if q ∈ ((forget page order).take k).map Prod.fst then none else s.map[q]?) ∧
      s'.bytes.toNat = total Prod.snd ((forget page order).drop k) + bytes.toNat ∧
      total Prod.snd ((forget page order).drop k) + bytes.toNat ≤ s.capacity.toNat ∧
      ∀ m < k, s.capacity.toNat < total Prod.snd ((forget page order).drop m) + bytes.toNat

theorem Exact.evicts (h : s.Exact n order) (hn : n + 1 < 2 ^ 64) {value : V}
    (hle : bytes ≤ s.capacity) (hfits : s.Fits (.insert page value bytes)) :
    Evicts s (s.insert page value bytes) order page value bytes := by
  have hticks := h.ticks
  obtain ⟨queue, hholds, rfl⟩ := h.holds
  have hinsert := @Holds.insert _ _ _ page bytes hholds value hle (by omega) (hfits hle)
  obtain ⟨k, htrim, hbound, hshort⟩ := @trim_append_singleton _ size s.capacity.toNat
    (forget page queue) (page, ⟨value, bytes, s.nextTick⟩) (UInt64.le_iff_toNat_le.mp hle)
  rw [htrim] at hinsert
  have hdrop : ∀ m, total Prod.snd ((forget page (sizes queue)).drop m) =
      total size ((forget page queue).drop m) := by
    intro m
    rw [← sizes_forget, ← total_sizes, sizes, sizes, List.map_drop]
  have hkeys : ((forget page (sizes queue)).take k).map Prod.fst =
      ((forget page queue).take k).map Prod.fst := by
    have htake : (sizes (forget page queue)).take k = sizes ((forget page queue).take k) :=
      List.map_take.symm
    rw [← sizes_forget, htake, keys_sizes]
  refine ⟨⟨_, (hinsert.resident _ _).mpr (List.mem_append_right _ (List.mem_singleton_self _)), rfl,
    rfl⟩, k, fun q hq => ?_, ?_, ?_, fun m hm => ?_⟩
  · rw [hkeys]
    -- an entry is in the first part of the queue or in the one that stays
    have hnodup : (((forget page queue).take k ++ (forget page queue).drop k).map
      Prod.fst).Nodup := by
      rw [List.take_append_drop]
      exact hholds.nodup.sublist (List.filter_sublist.map _)
    rw [List.map_append, List.nodup_append] at hnodup
    refine Option.ext fun e => ?_
    rw [hinsert.resident, List.mem_append, List.mem_singleton, Prod.mk.injEq, or_iff_left (hq ·.1)]
    constructor
    · intro hmem
      have hkey : q ∈ ((forget page queue).drop k).map Prod.fst :=
        List.mem_map_of_mem (f := Prod.fst) hmem
      rw [if_neg fun htake => hnodup.2.2 q htake q hkey rfl, hholds.resident]
      exact (mem_forget.mp (List.mem_of_mem_drop hmem)).1
    · intro hget
      split at hget
      · cases hget
      · next htake =>
        have hmem : (q, e) ∈ forget page queue :=
          mem_forget.mpr ⟨(hholds.resident _ _).mp hget, hq⟩
        rw [← List.take_append_drop k (forget page queue), List.mem_append] at hmem
        exact hmem.resolve_left fun h => htake (List.mem_map_of_mem (f := Prod.fst) h)
  · rw [hinsert.bytes, total_append, hdrop]
    rfl
  · rw [hdrop]
    exact hbound
  · rw [hdrop]
    exact hshort m hm

/-- An insert that finds no room in the counter: it wraps, and nothing is evicted. -/
theorem Exact.wraps (h : s.Exact n order) (page : PageId) (value : V) (bytes : UInt64)
    (hle : bytes ≤ s.capacity) (hfits : ¬s.Fits (.insert page value bytes)) :
    (s.insert page value bytes).bytes.toNat + 2 ^ 64 =
    (s.insert page value bytes).residentBytes := by
  obtain ⟨queue, hholds, rfl⟩ := h.holds
  have hremove := hholds.remove page
  have hlarge : 2 ^ 64 ≤ (s.remove page).bytes.toNat + bytes.toNat := by
    by_contra hlt
    exact hfits fun _ => Nat.not_le.mp hlt
  have hbytes : (s.place page value bytes).bytes.toNat + 2 ^ 64 =
      (s.remove page).bytes.toNat + bytes.toNat := by
    have hone := (s.remove page).bytes.toNat_lt
    have htwo := bytes.toNat_lt
    rw [place_eq, UInt64.toNat_add]
    omega
  have hinsert : s.insert page value bytes = s.place page value bytes := by
    rw [LruInner.insert, if_neg (UInt64.not_lt.mpr hle)]
    refine evict_of_le ?_
    have hcapacity : (s.place page value bytes).capacity = s.capacity := by
      rw [place_eq, capacity_remove]
    have hlt := (s.remove page).bytes.toNat_lt
    rw [UInt64.le_iff_toNat_le] at hle
    rw [hcapacity, UInt64.le_iff_toNat_le]
    omega
  have hnew := not_mem_forget page queue
  rw [hinsert, hbytes, hremove.bytes, residentBytes_eq
    (resident_push hremove.resident hnew fun p => map_place s page p value bytes)
    (nodup_push hremove.nodup hnew), total_append]
  rfl

/-- **Bookkeeping.**  In a run of fewer than `2 ^ 64` calls whose inserts all find room in the
counter, the maps and the counter agree and follow the order of use, and an insert evicts the
shortest run of the others.  The first insert without room leaves a counter that is not the
sum of the sizes. -/
theorem accounting_exact (capacity : UInt64) (calls : List (Call V))
    (hcalls : calls.length < 2 ^ 64)
    (hfitting : Fitting capacity calls) :
    (run capacity calls).Accounted (lastUsed capacity calls) ∧
    (∀ before page value bytes after, calls = before ++ .insert page value bytes :: after →
      bytes ≤ capacity →
      Evicts (run capacity before) (run capacity (before ++ [.insert page value bytes]))
        (lastUsed capacity before) page value bytes) ∧
    ∀ page value bytes, bytes ≤ capacity →
      ¬(run capacity calls).Fits (.insert page value bytes) →
      (run capacity (calls ++ [.insert page value bytes])).bytes.toNat ≠
        (run capacity (calls ++ [.insert page value bytes])).residentBytes := by
  refine ⟨(run_exact hcalls hfitting).accounted, ?_, ?_⟩
  · rintro before page value bytes after rfl hle
    have hfits := hfitting before _ after rfl
    rw [List.length_append, List.length_cons] at hcalls
    rw [run_append]
    exact (run_exact (by omega) hfitting.before).evicts (by omega)
      (by rwa [capacity_run]) hfits
  · intro page value bytes hle hfits
    have hwraps := (run_exact hcalls hfitting).wraps page value bytes (by rwa [capacity_run]) hfits
    rw [run_append]
    show ((run capacity calls).insert page value bytes).bytes.toNat ≠
      ((run capacity calls).insert page value bytes).residentBytes
    omega

/-- Two entries that fill more than a `usize`: the counter is at zero. -/
def overfull : List (Call Unit) := [.insert 1 () 0xffffffffffffffff, .insert 2 () 1]

/-- The counter runs over. -/
theorem counter_wraps :
    overfull.length < 2 ^ 64 ∧ (run 0xffffffffffffffff overfull).bytes = 0 ∧
      (run 0xffffffffffffffff overfull).residentBytes = 2 ^ 64 := by
  decide +kernel

/-- Capacity for two entries; the first is used again before the third comes. -/
def rotating : List (Call Unit) := [.insert 1 () 64, .insert 2 () 64, .get 1, .insert 3 () 64]

theorem accounting_exact_rotating :
    rotating.length < 2 ^ 64 ∧ Fitting 128 rotating ∧ lastUsed 128 rotating = [(1, 64), (3, 64)] ∧
      (run 128 rotating).Accounted [(1, 64), (3, 64)] := by
  have hfitting : Fitting 128 rotating := fitting_of_capacity (by decide) (by decide)
  have horder : lastUsed 128 rotating = [(1, 64), (3, 64)] := by decide +kernel
  refine ⟨by decide, hfitting, horder, ?_⟩
  rw [← horder]
  exact (accounting_exact 128 rotating (by decide) hfitting).1

end LruInner

end QuantaDb.ByteLru
