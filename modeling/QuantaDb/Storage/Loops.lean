import QuantaDb.Lib.Fallible
import QuantaDb.Storage.Memory

/-!
# QuantaDb.Storage.Loops

The two loops of a batch on any store: one grows the images of the pages that a batch
appends to (`grow_grew`), the other logs one record for each change (`logLoop_meets`).

What a batch does to readers, to the log and to what a crash leaves is proved elsewhere,
each from these two.
-/

namespace QuantaDb

open Crash DurableStore

/-! ## contents -/

/-- What is read of a page: its payload if it has one, or an error. -/
def DurableStore.content (s : DurableStore) (id : PageId) : Except StorageError (Option Bytes) :=
  (s.readPage id).map (Option.map Page.payload)

/-- What a change leaves of what is read of its page: an image needs nothing, an append
needs to read the page. -/
def Change.onto (c : Change) (found : Except StorageError (Option Bytes)) :
    Except StorageError (Option Bytes) :=
  match c.appendAt with
  | none => .ok (some c.payload)
  | some offset => found.map fun base => some (splice (base.getD []) offset.toNat c.payload)

/-- What is read of a page after the changes, in order. -/
def contentAfter (found : Except StorageError (Option Bytes)) (changes : List Change)
    (id : PageId) : Except StorageError (Option Bytes) :=
  changes.foldl (fun found c => if c.pageId = id then c.onto found else found) found

theorem contentAfter_append (found : Except StorageError (Option Bytes)) (xs ys : List Change)
    (id : PageId) :
    contentAfter found (xs ++ ys) id = contentAfter (contentAfter found xs id) ys id :=
  List.foldl_append

theorem contentAfter_concat (found : Except StorageError (Option Bytes)) (xs : List Change)
    (c : Change) (id : PageId) : contentAfter found (xs ++ [c]) id =
      if c.pageId = id then c.onto (contentAfter found xs id) else contentAfter found xs id := by
  rw [contentAfter_append]
  rfl

variable {id : PageId}

theorem contentAfter_of_forall_ne {changes : List Change}
    (found : Except StorageError (Option Bytes)) (h : ∀ c ∈ changes, c.pageId ≠ id) :
    contentAfter found changes id = found := by
  induction changes generalizing found with
  | nil => rfl
  | cons c changes ih =>
    rw [List.forall_mem_cons] at h
    rw [contentAfter, List.foldl_cons, if_neg h.1]
    exact ih found h.2

/-- A page that was read stays readable. -/
theorem contentAfter_ok (payload : Option Bytes) (changes : List Change) (id : PageId) :
    contentAfter (.ok payload) changes id = .ok (payloadAfter payload changes id) := by
  induction changes generalizing payload with
  | nil => rfl
  | cons c changes ih =>
    rw [contentAfter, payloadAfter, List.foldl_cons, List.foldl_cons]
    by_cases hid : c.pageId = id
    · have honto : c.onto (.ok payload) = .ok (some (c.apply payload)) := by
        cases hat : c.appendAt <;> simp [Change.onto, Change.apply, hat, Except.map]
      rw [if_pos hid, if_pos hid, honto]
      exact ih _
    · rw [if_neg hid, if_neg hid]
      exact ih _

/-- An append does not make a page readable. -/
theorem contentAfter_error (e : StorageError) (appends : List PageAppend) (id : PageId) :
    contentAfter (.error e) (appends.map PageAppend.change) id = .error e := by
  induction appends with
  | nil => rfl
  | cons append appends ih =>
    rw [List.map_cons, contentAfter, List.foldl_cons]
    split
    · exact ih
    · exact ih

theorem payloadAfter_of_forall_ne {changes : List Change} {payload : Option Bytes}
    (h : ∀ c ∈ changes, c.pageId ≠ id) : payloadAfter payload changes id = payload := by
  induction changes generalizing payload with
  | nil => rfl
  | cons c changes ih =>
    rw [payloadAfter, List.foldl_cons, if_neg (h c List.mem_cons_self)]
    exact ih fun c' hc' => h c' (List.mem_cons_of_mem c hc')

theorem payloadAfter_concat (payload : Option Bytes) (changes : List Change) (c : Change)
    (id : PageId) :
    payloadAfter payload (changes ++ [c]) id =
      if c.pageId = id then some (c.apply (payloadAfter payload changes id))
      else payloadAfter payload changes id := by
  simp [payloadAfter, List.foldl_append]

/-! ## growing -/

/-- The images grown by the appends `done`: each page they touch as they leave it. -/
structure Grew (s : DurableStore) (done : List PageAppend) (grown : Std.TreeMap PageId Bytes) :
    Prop where
  touched : ∀ id payload, grown[id]? = some payload → (∃ append ∈ done, append.pageId = id) ∧
    contentAfter (s.content id) (done.map PageAppend.change) id = .ok (some payload)
  untouched : ∀ id, grown[id]? = none → ∀ append ∈ done, append.pageId ≠ id
  fits : ∀ (id : PageId) payload, grown[id]? = some payload → payload.length ≤ maxPagePayload
  short : ∀ append ∈ done, append.offset.toNat + append.payload.length ≤ maxPagePayload

variable {s : DurableStore} {done : List PageAppend} {grown : Std.TreeMap PageId Bytes}

/-- The appends so far leave a page that they did not touch. -/
theorem Grew.forall_ne (h : Grew s done grown) (hg : grown[id]? = none) :
    ∀ c ∈ done.map PageAppend.change, c.pageId ≠ id := by
  intro c hc
  obtain ⟨append, happend, rfl⟩ := List.mem_map.mp hc
  exact h.untouched id hg append happend

/-- The base of an append is what is read of the page with the earlier appends on it. -/
theorem basePayload_grew (hgrew : Grew s done grown) {base : Bytes}
    (h : s.basePayload grown id = .ok base) :
    base.length ≤ maxPagePayload ∧ ∃ payload,
      contentAfter (s.content id) (done.map PageAppend.change) id = .ok payload ∧
        payload.getD [] = base := by
  unfold basePayload at h
  cases hg : grown[id]? with
  | some payload =>
    rw [hg] at h
    cases h
    exact ⟨hgrew.fits id base hg, some base, (hgrew.touched id base hg).2, rfl⟩
  | none =>
    rw [hg] at h
    rw [contentAfter_of_forall_ne _ (hgrew.forall_ne hg)]
    unfold DurableStore.content readPage
    cases hd : s.dirty[id]? with
    | some page =>
      rw [hd] at h
      cases h
      exact ⟨page.fits, some page.payload, rfl, rfl⟩
    | none =>
      rw [hd] at h
      simp only at h ⊢
      obtain ⟨page, hread, rfl⟩ := Fallible.map_eq_ok.mp h
      refine ⟨?_, page.map Page.payload, by rw [hread]; rfl, rfl⟩
      cases page with
      | none => exact Nat.zero_le _
      | some page => exact page.fits

/-- One more append of the batch. -/
theorem growOne_grew {grown' : Std.TreeMap PageId Bytes} {append : PageAppend}
    (hgrew : Grew s done grown) (h : s.growOne grown append = .ok grown') :
    Grew s (done ++ [append]) grown' := by
  unfold growOne at h
  cases hb : s.basePayload grown append.pageId with
  | error e => rw [hb] at h; cases h
  | ok base =>
    rw [hb] at h
    simp only [Fallible.ite_error_eq_ok] at h
    obtain ⟨hend, h⟩ := h
    obtain rfl := Except.ok.inj h
    obtain ⟨hlen, payload, hread, rfl⟩ := basePayload_grew hgrew hb
    constructor
    · intro id payload' hg
      rw [List.map_append, List.map_singleton, contentAfter_concat,
        show append.change.pageId = append.pageId from rfl]
      rw [getElem?_insert_page] at hg
      by_cases hid : append.pageId = id
      · subst hid
        rw [if_pos rfl] at hg
        rw [if_pos rfl, hread, ← Option.some.inj hg]
        exact ⟨⟨append, by simp, rfl⟩, rfl⟩
      · rw [if_neg hid] at hg
        rw [if_neg hid]
        obtain ⟨⟨a, ha, haid⟩, hcontent⟩ := hgrew.touched id payload' hg
        exact ⟨⟨a, by simp [ha], haid⟩, hcontent⟩
    · intro id hg
      rw [getElem?_insert_page] at hg
      split at hg
      · cases hg
      · next hid =>
        exact List.forall_mem_append.mpr ⟨hgrew.untouched id hg, by simpa using hid⟩
    · intro id payload' hg
      rw [getElem?_insert_page] at hg
      split at hg
      · cases hg
        rw [length_splice]
        exact Nat.max_le.mpr ⟨hlen, Nat.not_lt.mp hend⟩
      · exact hgrew.fits id payload' hg
    · exact List.forall_mem_append.mpr ⟨hgrew.short, by simpa using Nat.not_lt.mp hend⟩

/-- **The grow loop** that returned: the images are those that the batch leaves, and every
one fits its block. -/
theorem grow_grew {appends : List PageAppend} (h : grow appends s = .ok grown) :
    Grew s appends grown :=
  Fallible.foldlM_invariant h ⟨by simp, by simp, by simp, by simp⟩
    fun _ _ _ _ hgrew hone => growOne_grew hgrew hone

/-! ## logging -/

namespace DurableStore

/-- The log takes one more record of this kind. -/
def HasRoom (s : DurableStore) (kind : WalKind) : Prop :=
  s.wal.nextLsn + 1 < 2 ^ 64 ∧ kind.recordLength < 2 ^ 32 ∧
    (s.wal.segments s.wal.active).endOffset + kind.recordLength < 2 ^ 64

/-- The store after an append that failed past its LSN. -/
def skipLsn (s : DurableStore) : DurableStore :=
  onWal (fun w => { w with nextLsn := w.nextLsn + 1 }) s

variable {E : StorageError → DurableStore → Prop} {C : Disk → Prop}

/-- `Wal::append` adds a record, or fails for want of room. -/
theorem append_meets {P : DurableStore → Prop} {Q : Nat → DurableStore → Prop} (kind : WalKind)
    (hok : ∀ s, P s → s.wal.nextLsn + 1 < 2 ^ 64 →
      C (s.push kind).disk ∧ Q s.wal.nextLsn (s.push kind))
    (hfail : ∀ s e, P s → ¬ s.HasRoom kind →
      E e s ∧ (s.wal.nextLsn + 1 < 2 ^ 64 → E e s.skipLsn)) :
    Meets P (append kind) Q E C := by
  unfold append
  refine Meets.bind (Q := fun wal s => P s ∧ wal = s.wal) (Meets.read fun s hs => ⟨hs, rfl⟩)
    fun wal => ?_
  refine Meets.ite (fun hlsn => Meets.fail ?_) fun hlsn => ?_
  · rintro s ⟨hs, rfl⟩
    exact (hfail s _ hs fun hroom => by have := hroom.1; omega).1
  refine Meets.bind (Q := fun _ s' => ∃ s, P s ∧ wal = s.wal ∧ s' = s.skipLsn)
    (Meets.update fun s hs => ⟨s, hs.1, hs.2, rfl⟩) fun _ => ?_
  refine Meets.ite (fun hlen => Meets.fail ?_) fun hlen => Meets.ite (fun hoff => Meets.fail ?_)
    fun hoff => ?_
  · rintro _ ⟨s, hs, rfl, rfl⟩
    exact (hfail s _ hs fun hroom => by have := hroom.2.1; omega).2 (by omega)
  · rintro _ ⟨s, hs, rfl, rfl⟩
    exact (hfail s _ hs fun hroom => by have := hroom.2.2; omega).2 (by omega)
  · refine Meets.bind (Q := fun _ s' => ∃ s, P s ∧ wal = s.wal ∧ s' =
      onWal (fun w => w.onSegment w.active fun seg =>
        ⟨seg.file.append ⟨wal.nextLsn, kind⟩, seg.endOffset + kind.recordLength⟩) s.skipLsn)
      (Meets.issue ?_) fun _ => ?_
    · rintro _ ⟨s, hs, rfl, rfl⟩
      exact ⟨(hok s hs (by omega)).1, s, hs, rfl, rfl⟩
    · refine Meets.bind (Q := fun _ s' => ∃ s, P s ∧ wal = s.wal ∧ s' = s.push kind)
        (Meets.update ?_) fun _ => Meets.pure ?_
      · rintro _ ⟨s, hs, rfl, rfl⟩
        exact ⟨s, hs, rfl, rfl⟩
      · rintro _ ⟨s, hs, rfl, rfl⟩
        exact (hok s hs (by omega)).2

/-- `Wal::sync`. -/
theorem syncWal_meets {P : DurableStore → Prop} {Q : Unit → DurableStore → Prop}
    (h : ∀ s, P s → C s.synced.disk ∧ Q () s.synced) : Meets P syncWal Q E C :=
  Meets.issue h

/-- **The log loop**: one record for each item.  What a record keeps, the loop keeps; an
item that is too large and a log without room end it. -/
theorem logLoop_meets {α : Type} {items : List α} {log : α → StoreM Nat} {size : α → Nat}
    {kind : α → WalKind} {I : List α → List Nat → DurableStore → Prop}
    (hlog : ∀ a, log a = if maxPagePayload < size a
      then Prog.fail (.pageTooLarge (size a) maxPagePayload) else append (kind a))
    (hpush : ∀ done a lsns s, a ∈ items → I done lsns s → size a ≤ maxPagePayload →
      s.wal.nextLsn + 1 < 2 ^ 64 →
      C (s.push (kind a)).disk ∧ I (done ++ [a]) (lsns ++ [s.wal.nextLsn]) (s.push (kind a)))
    (hfail : ∀ done lsns s e, I done lsns s →
      E e s ∧ (s.wal.nextLsn + 1 < 2 ^ 64 → E e s.skipLsn)) :
    Meets (I [] []) (Prog.forEach items log) (I items) E C := by
  refine Meets.forEach fun done a rest lsns hsplit => ?_
  have hmem : a ∈ items := by rw [hsplit]; simp
  rw [hlog a]
  refine Meets.ite (fun _ => Meets.fail fun s h => (hfail done lsns s _ h).1) fun hsize => ?_
  exact append_meets _ (fun s h hlsn => hpush done a lsns s hmem h (Nat.not_lt.mp hsize) hlsn)
    fun s e h _ => hfail done lsns s e h

end DurableStore

end QuantaDb
