import QuantaDb.Lib.TreeMaps
import QuantaDb.Storage.Store

/-!
# QuantaDb.Storage.Allocator

Handing page IDs out and taking them back.

A page is in use from the moment it is reserved to the moment it is released.
`reserve` only hands out pages that are not in use, and no page twice
(`reserve_ok`); `release` ends the use of the pages it is given
(`inUse_release`).  Over any run of calls no page has two holders (`held_once`).
-/

namespace QuantaDb.PageAllocator

open TreeMaps

/-- Handed out, and not in the pool. -/
def InUse (alloc : PageAllocator) (id : PageId) : Prop :=
  id.toNat < alloc.nextPageId ∧ id ∉ alloc.freePages

/-- The pool has only pages that were handed out before. -/
def Pooled (alloc : PageAllocator) : Prop := ∀ id ∈ alloc.freePages, id.toNat < alloc.nextPageId

/-- The pages taken from the pool are the ones it loses. -/
theorem popFree_spec (free : Std.TreeSet PageId) (count : Nat) :
    (popFree free count).1.Nodup ∧ (popFree free count).1.length ≤ count ∧
      (∀ id ∈ (popFree free count).1, id ∉ (popFree free count).2) ∧
      ∀ id, id ∈ free ↔ id ∈ (popFree free count).1 ∨ id ∈ (popFree free count).2 := by
  induction count generalizing free with
  | zero => simp [popFree]
  | succ count ih =>
    unfold popFree
    cases hmin : free.toList.head? with
    | none => simp
    | some first =>
      obtain ⟨hnodup, hlen, hdisj, hmem⟩ := ih (free.erase first)
      have hfirst : first ∈ free := Std.TreeSet.mem_toList.mp (List.mem_of_head? hmin)
      simp only [mem_erase_set] at hmem
      refine ⟨List.nodup_cons.mpr ⟨fun h => ?_, hnodup⟩, Nat.succ_le_succ hlen, ?_, fun id => ?_⟩
      · exact ((hmem first).mpr (.inl h)).1 rfl
      · intro id hid
        rcases List.mem_cons.mp hid with rfl | hid
        · exact fun h => ((hmem id).mpr (.inr h)).1 rfl
        · exact hdisj id hid
      · rw [List.mem_cons, or_assoc, ← hmem id]
        constructor
        · intro h
          by_cases heq : first = id
          · exact .inl heq.symm
          · exact .inr ⟨heq, h⟩
        · rintro (rfl | h)
          · exact hfirst
          · exact h.2

variable {count : Nat}

/-- The fresh pages of a reservation. -/
theorem mem_fresh {first : Nat} (h : first + count < 2 ^ 64) (id : PageId) :
    id ∈ (List.range' first count).map UInt64.ofNat ↔ first ≤ id.toNat ∧
    id.toNat < first + count := by
  rw [List.mem_map]
  constructor
  · rintro ⟨n, hn, rfl⟩
    rw [List.mem_range'_1] at hn
    have hsize : n < UInt64.size := by simp only [UInt64.size]; omega
    rw [UInt64.toNat_ofNat_of_lt' hsize]
    exact hn
  · intro hid
    exact ⟨id.toNat, List.mem_range'_1.mpr hid, UInt64.ofNat_toNat⟩

theorem nodup_fresh {first : Nat} (h : first + count < 2 ^ 64) :
    ((List.range' first count).map UInt64.ofNat).Nodup := by
  refine (List.nodup_map_iff_inj_on List.nodup_range').mpr fun m hm n hn heq => ?_
  rw [List.mem_range'_1] at hm hn
  have hsize : m < UInt64.size ∧ n < UInt64.size := by simp only [UInt64.size]; omega
  have := congrArg UInt64.toNat heq
  rwa [UInt64.toNat_ofNat_of_lt' hsize.1, UInt64.toNat_ofNat_of_lt' hsize.2] at this

variable {alloc after : PageAllocator} {ids : List PageId}

/-- The last page id is never handed out. -/
theorem reserve_lt (hpool : alloc.Pooled) (h : alloc.reserve count = (.ok ids, after)) :
    ∀ id ∈ ids, id.toNat + 1 < 2 ^ 64 := by
  obtain ⟨-, -, -, hmem⟩ := popFree_spec alloc.freePages count
  unfold reserve at h
  revert h
  generalize popFree alloc.freePages count = popped at hmem
  obtain ⟨reused, free⟩ := popped
  simp only at hmem ⊢
  intro h
  split at h
  · cases h
  · next hbound =>
    obtain ⟨hids, -⟩ := Prod.mk.inj h
    cases hids
    intro id hid
    rcases List.mem_append.mp hid with hid | hid
    · have := hpool id ((hmem id).mpr (.inl hid))
      omega
    · obtain ⟨-, hlt⟩ := (mem_fresh (by omega) id).mp hid
      omega

/-- **A reservation** hands out distinct pages that were not in use. -/
theorem reserve_ok (hpool : alloc.Pooled) (h : alloc.reserve count = (.ok ids, after)) :
    ids.length = count ∧ ids.Nodup ∧ after.Pooled ∧ (∀ id ∈ ids, ¬alloc.InUse id) ∧
      ∀ id, after.InUse id ↔ alloc.InUse id ∨ id ∈ ids := by
  obtain ⟨hnodup, hlen, hdisj, hmem⟩ := popFree_spec alloc.freePages count
  unfold reserve at h
  revert h
  generalize popFree alloc.freePages count = popped at hnodup hlen hdisj hmem
  obtain ⟨reused, free⟩ := popped
  simp only at hnodup hlen hdisj hmem ⊢
  intro h
  split at h
  · cases h
  · next hbound =>
    obtain ⟨hids, rfl⟩ := Prod.mk.inj h
    cases hids
    have hbound' : alloc.nextPageId + (count - reused.length) < 2 ^ 64 := by omega
    have hfresh := mem_fresh hbound'
    refine ⟨?_, ?_, ?_, ?_, ?_⟩
    · rw [List.length_append, List.length_map, List.length_range']
      omega
    · refine List.nodup_append.mpr ⟨hnodup, nodup_fresh hbound', ?_⟩
      rintro id hid _ hid' rfl
      have := hpool id ((hmem id).mpr (.inl hid))
      have := ((hfresh id).mp hid').1
      omega
    · intro id hid
      have := hpool id ((hmem id).mpr (.inr hid))
      simp only
      omega
    · intro id hid huse
      rcases List.mem_append.mp hid with hid | hid
      · exact huse.2 ((hmem id).mpr (.inl hid))
      · have := huse.1
        have := ((hfresh id).mp hid).1
        omega
    · intro id
      rw [List.mem_append, hfresh, InUse, InUse]
      have hm := hmem id
      have hd := hdisj id
      have hp := hpool id
      by_cases hr : id ∈ reused
      · have := hp (hm.mpr (.inl hr))
        simp only [hr, hd hr, not_false_eq_true, and_true, true_or, or_true, iff_true]
        omega
      · by_cases hf : id ∈ free
        · have hp := hp (hm.mpr (.inr hf))
          simp only [hf, hr, hm, not_true_eq_false, and_false, or_true, false_or, false_iff]
          omega
        · simp only [hf, hr, hm, not_false_eq_true, and_true, or_self, false_or]
          omega

/-- While there are page IDs left, a reservation succeeds. -/
theorem reserve_isOk (alloc : PageAllocator) (h : alloc.nextPageId + count < 2 ^ 64) :
    ∃ ids after, alloc.reserve count = (.ok ids, after) ∧
      after.nextPageId ≤ alloc.nextPageId + count := by
  unfold reserve
  have hnot : ¬2 ^ 64 ≤ alloc.nextPageId + (count - (popFree alloc.freePages count).1.length) := by
    omega
  simp only [if_neg hnot]
  exact ⟨_, _, rfl, by simp only; omega⟩

theorem nextPageId_reserve (h : alloc.reserve count = (.ok ids, after)) :
    after.nextPageId < 2 ^ 64 := by
  unfold reserve at h
  simp only at h
  split at h
  · cases h
  · obtain ⟨-, rfl⟩ := Prod.mk.inj h
    simp only
    omega

theorem release_cons (alloc : PageAllocator) (id : PageId) (ids : List PageId) :
    alloc.release (id :: ids) = (alloc.release [id]).release ids := rfl

theorem nextPageId_release (alloc : PageAllocator) (ids : List PageId) :
    (alloc.release ids).nextPageId = alloc.nextPageId := by
  induction ids generalizing alloc with
  | nil => rfl
  | cons id ids ih =>
    rw [release_cons, ih, release, List.foldl_cons, List.foldl_nil]
    split <;> rfl

theorem mem_freePages_release (alloc : PageAllocator) (ids : List PageId) (id : PageId) :
    id ∈ (alloc.release ids).freePages ↔
      id ∈ alloc.freePages ∨ (id ∈ ids ∧ id.toNat < alloc.nextPageId) := by
  induction ids generalizing alloc with
  | nil => simp [release]
  | cons first ids ih =>
    rw [release_cons, ih, nextPageId_release, List.mem_cons, release, List.foldl_cons,
      List.foldl_nil]
    split
    · rw [mem_insert_set]
      grind
    · grind

theorem Pooled.release (h : alloc.Pooled) (ids : List PageId) :
    (alloc.release ids).Pooled := by
  intro id hid
  rw [nextPageId_release]
  rcases (mem_freePages_release alloc ids id).mp hid with hid | hid
  · exact h id hid
  · exact hid.2

/-- **A release** ends the use of the pages it is given. -/
theorem inUse_release (alloc : PageAllocator) (ids : List PageId) (id : PageId) :
    (alloc.release ids).InUse id ↔ alloc.InUse id ∧ id ∉ ids := by
  rw [InUse, nextPageId_release, mem_freePages_release, InUse]
  tauto

/-! ## runs -/

/-- A call, from any thread. -/
inductive Call where
  | reserve (count : Nat)
  | release (pages : List PageId)
  | noteWritten (id : PageId)

/-- The allocator, and the pages that were handed out and not released since. -/
structure Holding where
  alloc : PageAllocator
  held : List PageId := []

namespace Holding

def step (s : Holding) : Call → Holding
  | .reserve count =>
    let (result, alloc) := s.alloc.reserve count
    ⟨alloc, s.held ++ result.toOption.getD []⟩
  | .release pages => ⟨s.alloc.release pages, s.held.filter (· ∉ pages)⟩
  | .noteWritten id => ⟨s.alloc.noteWritten id, s.held⟩

/-- Pages that are held are in use, each by one holder. -/
structure Sound (s : Holding) : Prop where
  pooled : s.alloc.Pooled
  inUse : ∀ id ∈ s.held, s.alloc.InUse id
  nodup : s.held.Nodup

theorem Sound.step {s : Holding} (h : s.Sound) (call : Call) : (s.step call).Sound := by
  obtain ⟨hpooled, hinUse, hnodup⟩ := h
  cases call with
  | reserve count =>
    cases hreserve : s.alloc.reserve count with
    | mk result after =>
      simp only [Holding.step, hreserve]
      cases result with
      | ok ids =>
        obtain ⟨-, hids, hpooled', hfresh, huse⟩ := reserve_ok hpooled hreserve
        refine ⟨hpooled', ?_, ?_⟩ <;> grind [Except.toOption, List.nodup_append]
      | error e =>
        -- what it has taken from the pool is lost, and nobody holds it
        have hmem := (popFree_spec s.alloc.freePages count).2.2.2
        simp only [PageAllocator.reserve] at hreserve
        constructor <;> grind [Pooled, InUse, Except.toOption]
  | release pages =>
    refine ⟨hpooled.release pages, fun id hid => ?_, hnodup.filter _⟩
    rw [Holding.step, inUse_release]
    grind [Holding.step]
  | noteWritten id => constructor <;> grind [Holding.step, Pooled, InUse, noteWritten]

end Holding

/-- **No page has two holders.**  Whatever calls the allocator gets, failed reservations among
them, no page is handed out that is held already, and held pages stay out of the pool. -/
theorem held_once {alloc : PageAllocator} (hpooled : alloc.Pooled) (calls : List Call) :
    let s := calls.foldl Holding.step ⟨alloc, []⟩
    s.held.Nodup ∧ ∀ id ∈ s.held, s.alloc.InUse id := by
  have hrun : ∀ (calls : List Call) {s : Holding},
    s.Sound → (calls.foldl Holding.step s).Sound := by
    intro calls
    induction calls with
    | nil => exact fun h => h
    | cons call calls ih => exact fun h => ih (h.step call)
  have hsound := hrun calls (s := ⟨alloc, []⟩) ⟨hpooled, by simp, .nil⟩
  exact ⟨hsound.nodup, hsound.inUse⟩

/-- The second reservation takes the released page first. -/
theorem held_once_reused :
    ∃ s, s = [.reserve 3, .release [1], .reserve 2].foldl Holding.step ⟨{}, []⟩ ∧
      s.held = [0, 2, 1, 3] ∧ s.held.Nodup :=
  ⟨_, rfl, by decide +kernel, (held_once (by simp [Pooled]) _).1⟩

end QuantaDb.PageAllocator
