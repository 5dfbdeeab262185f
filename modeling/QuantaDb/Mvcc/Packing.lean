import QuantaDb.Mvcc.Record
import QuantaDb.Storage.Allocator
import QuantaDb.Storage.Machine

/-!
# QuantaDb.Mvcc.Packing

Packing the records of commits into shared pages (`persist_commit`).

A commit is given its places under the lock of the open page, and only then
hands its appends to the log; the appends of several commits may get there in
any order.  `Packed` is what holds of the open page, the page pool and the pages
all along, with the places that were given away and which of them are written
(`Slots`).  `Carries` is what an append that is still on its way is for.
-/

namespace QuantaDb.Mvcc

open TreeMaps

/-! ## pages -/

/-- The payload of each page that has one. -/
abbrev Pages := PageId → Option Bytes

/-- The pages after some changes. -/
def patch (pages : Pages) (changes : List Change) : Pages := fun id =>
  payloadAfter (pages id) changes id

@[simp] theorem patch_nil (pages : Pages) : patch pages [] = pages := rfl

theorem patch_append (pages : Pages) (changes changes' : List Change) :
    patch pages (changes ++ changes') = patch (patch pages changes) changes' := by
  funext id
  exact List.foldl_append

theorem patch_of_ne (pages : Pages) {c : Change} {id : PageId} (h : c.pageId ≠ id) :
    patch pages [c] id = pages id := if_neg h

/-- An append splices into its page. -/
theorem patch_change (pages : Pages) (a : PageAppend) :
    patch pages [a.change] a.pageId =
      some (splice ((pages a.pageId).getD []) a.offset.toNat a.payload) := if_pos rfl

/-- The records of a page, as `decode_page` finds them. -/
def decodedRecords (pages : Pages) (pageId : PageId) :
    Except TransactionError (List VersionRecord) :=
  match pages pageId with
  | some bytes => VersionRecord.decodePage pageId bytes
  | none => .ok []

/-! ## reserving places -/

/-- `OpenPage`. -/
structure OpenPage where
  pageId : PageId
  offset : Nat
deriving DecidableEq, Repr

/-- The open page, and the pool that the next one comes from. -/
structure Packer where
  openPage : Option OpenPage := none
  allocator : PageAllocator := {}

/-- What one turn of the loop of `persist_commit` does. -/
structure Placed where
  packer : Packer
  appends : List PageAppend
  pageId : PageId
  /-- The page was opened for this record, and blanked. -/
  fresh : Bool

/-- The append that marks a page as finished. -/
def OpenPage.sealing (page : OpenPage) : PageAppend :=
  ⟨page.pageId, UInt32.ofNat page.offset, [], true⟩

/-- One turn of the loop of `persist_commit`: a place for a record, on a new page
if it does not fit on the open one. -/
def Packer.place (packer : Packer) (record : VersionRecord) : Except TransactionError Placed :=
  match record.encode with
  | .error error => .error error
  | .ok payload =>
    match packer.openPage.filter fun page =>
        decide (page.offset + payload.length ≤ maxPagePayload) with
    | some page => .ok {
        packer := { packer with openPage := some ⟨page.pageId, page.offset + payload.length⟩ }
        appends := [⟨page.pageId, UInt32.ofNat page.offset, payload, false⟩]
        pageId := page.pageId
        fresh := false }
    | none =>
      match packer.allocator.reserve 1 with
      | (.error error, _) => .error (.storage error)
      | (.ok [], _) => .error .timestampExhausted
      | (.ok (pageId :: _), allocator) => .ok {
          packer := ⟨some ⟨pageId, payload.length⟩, allocator⟩
          appends := packer.openPage.toList.map OpenPage.sealing ++ [⟨pageId, 0, payload, false⟩]
          pageId
          fresh := true }

/-- The batch that blanks a page when it is opened. -/
def Placed.blanks (placed : Placed) : List QuantaDb.Batch :=
  if placed.fresh then [[PageWrite.change ⟨placed.pageId, []⟩]] else []

variable {r : VersionRecord}

/-- What a place can be. -/
theorem Packer.place_eq {packer : Packer} {placed : Placed} (h : packer.place r = .ok placed) :
    r.size ≤ maxPagePayload ∧
    ((∃ page, packer.openPage = some page ∧ page.offset + r.size ≤ maxPagePayload ∧
      placed = ⟨{ packer with openPage := some ⟨page.pageId, page.offset + r.size⟩ },
        [⟨page.pageId, UInt32.ofNat page.offset, r.bytes, false⟩], page.pageId, false⟩) ∨
    ∃ pageId rest allocator, packer.allocator.reserve 1 = (.ok (pageId :: rest), allocator) ∧
      placed = ⟨⟨some ⟨pageId, r.size⟩, allocator⟩,
        packer.openPage.toList.map OpenPage.sealing ++ [⟨pageId, 0, r.bytes, false⟩], pageId,
        true⟩) := by
  unfold place VersionRecord.encode at h
  cases hv : validateSize r.key r.value with
  | error error =>
    rw [hv] at h
    cases h
  | ok _ =>
    rw [hv] at h
    refine ⟨VersionRecord.validateSize_ok.mp hv, ?_⟩
    simp only [Except.map, VersionRecord.length_bytes] at h
    split at h
    · next page hpage =>
      rw [Option.filter_eq_some_iff, decide_eq_true_eq] at hpage
      cases h
      exact .inl ⟨page, hpage.1, hpage.2, rfl⟩
    · split at h
      · cases h
      · cases h
      · next pageId rest allocator hreserve =>
        cases h
        exact .inr ⟨pageId, rest, allocator, hreserve, rfl⟩

/-! ## places and appends -/

/-- The places given away on each page, and whether the record is there. -/
abbrev Slots := PageId → List (VersionRecord × Bool)

/-- The page holds what was written to its places. -/
def Packs (pages : Pages) (slots : Slots) (pageId : PageId) : Prop :=
  ∃ bytes, pages pageId = some bytes ∧ Renders (slots pageId) bytes

/-- Where the place of a record starts. -/
def offsetOf (slots : List (VersionRecord × Bool)) (r : VersionRecord) : Nat :=
  Renders.extent (slots.takeWhile fun slot => slot.1 != r)

/-- The append that writes a record to its place. -/
structure Awaits (slots : Slots) (a : PageAppend) (r : VersionRecord) : Prop where
  place : (r, false) ∈ slots a.pageId
  payload : a.payload = r.bytes
  offset : a.offset.toNat = offsetOf (slots a.pageId) r

/-- The appends that write these records; those that finish a page write nothing. -/
inductive Carries (slots : Slots) : List (PageId × VersionRecord) → List PageAppend → Prop where
  | nil : Carries slots [] []
  | sealing {places : List (PageId × VersionRecord)} {appends : List PageAppend} {a : PageAppend} :
      a.payload = [] → slots a.pageId ≠ [] → Carries slots places appends →
      Carries slots places (a :: appends)
  | record {places : List (PageId × VersionRecord)} {appends : List PageAppend} {a : PageAppend}
      {r : VersionRecord} : Awaits slots a r → Carries slots places appends →
      Carries slots ((a.pageId, r) :: places) (a :: appends)

/-- Some places are written. -/
def Slots.write (slots : Slots) (places : List (PageId × VersionRecord)) : Slots := fun pageId =>
  (slots pageId).map fun slot => (slot.1, slot.2 || decide ((pageId, slot.1) ∈ places))

/-- A place is given away. -/
def Slots.place (slots : Slots) (placed : Placed) (r : VersionRecord) : Slots :=
  Function.update slots placed.pageId
    ((if placed.fresh then [] else slots placed.pageId) ++ [(r, false)])

namespace Carries

variable {slots slots' : Slots} {places places' : List (PageId × VersionRecord)}
  {appends appends' : List PageAppend}

theorem append (h : Carries slots places appends) (h' : Carries slots places' appends') :
    Carries slots (places ++ places') (appends ++ appends') := by
  induction h with
  | nil => exact h'
  | sealing hempty hpage _ ih => exact .sealing hempty hpage ih
  | record ha _ ih => exact .record ha ih

theorem congr (h : Carries slots places appends)
    (hpages : ∀ pageId, slots pageId ≠ [] → slots' pageId ≠ [])
    (hsame : ∀ a r, (a.pageId, r) ∈ places → Awaits slots a r → Awaits slots' a r) :
    Carries slots' places appends := by
  induction h with
  | nil => exact .nil
  | sealing hempty hpage _ ih => exact .sealing hempty (hpages _ hpage) (ih hsame)
  | record ha _ ih =>
    refine .record (hsame _ _ List.mem_cons_self ha) (ih fun a r hmem => ?_)
    exact hsame a r (List.mem_cons_of_mem _ hmem)

theorem mem (h : Carries slots places appends) {place : PageId × VersionRecord}
    (hmem : place ∈ places) : (place.2, false) ∈ slots place.1 := by
  induction h with
  | nil => cases hmem
  | sealing _ _ _ ih => exact ih hmem
  | record ha _ ih =>
    rcases List.mem_cons.mp hmem with rfl | hmem
    · exact ha.place
    · exact ih hmem

/-- Every append goes to a page with places, and carries one of the records or nothing. -/
theorem mem_append (h : Carries slots places appends) {a : PageAppend} (hmem : a ∈ appends) :
    slots a.pageId ≠ [] ∧ (a.payload = [] ∨ ∃ place ∈ places, a.payload = place.2.bytes) := by
  induction h with
  | nil => cases hmem
  | sealing hempty hpage _ ih =>
    rcases List.mem_cons.mp hmem with rfl | hmem
    · exact ⟨hpage, .inl hempty⟩
    · exact ih hmem
  | record ha _ ih =>
    rcases List.mem_cons.mp hmem with rfl | hmem
    · exact ⟨List.ne_nil_of_mem ha.place, .inr ⟨_, List.mem_cons_self, ha.payload⟩⟩
    · obtain ⟨hpage, hempty | ⟨place, hplace, hpayload⟩⟩ := ih hmem
      · exact ⟨hpage, .inl hempty⟩
      · exact ⟨hpage, .inr ⟨place, List.mem_cons_of_mem _ hplace, hpayload⟩⟩

/-- Every record has its append. -/
theorem exists_append (h : Carries slots places appends) {place : PageId × VersionRecord}
    (hmem : place ∈ places) :
    ∃ a ∈ appends, a.pageId = place.1 ∧ a.payload = place.2.bytes := by
  induction h with
  | nil => cases hmem
  | sealing _ _ _ ih =>
    obtain ⟨a, ha, hplace⟩ := ih hmem
    exact ⟨a, List.mem_cons_of_mem _ ha, hplace⟩
  | @record _ _ a _ hawaits _ ih =>
    rcases List.mem_cons.mp hmem with rfl | hmem
    · exact ⟨a, List.mem_cons_self, rfl, hawaits.payload⟩
    · obtain ⟨a, ha, hplace⟩ := ih hmem
      exact ⟨a, List.mem_cons_of_mem _ ha, hplace⟩

end Carries

/-- Records on their way to places of one page are told apart by the record. -/
def Slots.Distinct (slots : Slots) : Prop := ∀ pageId, ((slots pageId).map Prod.fst).Nodup

theorem Slots.map_fst_write (slots : Slots) (places : List (PageId × VersionRecord))
    (pageId : PageId) :
    (slots.write places pageId).map Prod.fst = (slots pageId).map Prod.fst := by
  simp [write, Function.comp_def]

variable {slots : Slots}

theorem Slots.Distinct.write (h : slots.Distinct) (places : List (PageId × VersionRecord)) :
    (slots.write places).Distinct := by
  intro pageId
  rw [Slots.map_fst_write]
  exact h pageId

variable {places : List (PageId × VersionRecord)} {pageId : PageId}

@[simp] theorem Slots.write_eq_nil : slots.write places pageId = [] ↔ slots pageId = [] := by
  simp [write]

theorem Slots.extent_write (slots : Slots) (places : List (PageId × VersionRecord))
    (pageId : PageId) :
    Renders.extent (slots.write places pageId) = Renders.extent (slots pageId) := by
  simp [write, Renders.extent, Function.comp_def]

/-- Which places are written makes no difference to where they are. -/
theorem Slots.offsetOf_write (slots : Slots) (places : List (PageId × VersionRecord))
    (pageId : PageId) (r : VersionRecord) :
    offsetOf (slots.write places pageId) r = offsetOf (slots pageId) r := by
  have hcomp : ((fun slot : VersionRecord × Bool => slot.1 != r) ∘
      fun slot : VersionRecord × Bool => (slot.1, slot.2 || decide ((pageId, slot.1) ∈ places))) =
      fun slot => slot.1 != r := rfl
  simp only [offsetOf, Slots.write, List.takeWhile_map, hcomp, Renders.extent, List.map_map,
    Function.comp_def]

theorem Awaits.write {a : PageAppend} (h : Awaits slots a r) (hother : (a.pageId, r) ∉ places) :
    Awaits (slots.write places) a r := by
  refine ⟨?_, h.payload, by rw [Slots.offsetOf_write]; exact h.offset⟩
  refine List.mem_map.mpr ⟨(r, false), h.place, ?_⟩
  simp [hother]

/-- A record arrives at its place. -/
theorem Renders.write_slot {bytes : Bytes} (h : Renders (slots pageId) bytes)
    (hdistinct : slots.Distinct) (hmem : (r, false) ∈ slots pageId) :
    Renders (slots.write [(pageId, r)] pageId)
      (splice bytes (offsetOf (slots pageId) r) r.bytes) := by
  obtain ⟨before, after, hsplit⟩ := List.append_of_mem hmem
  have hnodup := hdistinct pageId
  rw [hsplit, List.map_append, List.map_cons, List.nodup_append] at hnodup
  obtain ⟨-, hafter, hdisj⟩ := hnodup
  rw [List.nodup_cons] at hafter
  have hbefore : ∀ slot ∈ before, slot.1 ≠ r := fun slot hslot =>
    hdisj slot.1 (List.mem_map_of_mem hslot) r List.mem_cons_self
  have hafter' : ∀ slot ∈ after, slot.1 ≠ r := by
    intro slot hslot heq
    exact hafter.1 (List.mem_map.mpr ⟨slot, hslot, heq⟩)
  have hsame : ∀ l : List (VersionRecord × Bool), (∀ slot ∈ l, slot.1 ≠ r) →
      l.map (fun slot => (slot.1, slot.2 || decide ((pageId, slot.1) ∈ [(pageId, r)]))) = l := by
    intro l hl
    refine (List.map_congr_left fun slot hslot => ?_).trans (List.map_id l)
    simp [hl slot hslot]
  have hoffset : offsetOf (slots pageId) r = extent before := by
    rw [offsetOf, hsplit, List.takeWhile_append_of_pos]
    · simp
    · intro slot hslot
      simpa using hbefore slot hslot
  rw [hoffset, Slots.write, hsplit, List.map_append, List.map_cons, hsame before hbefore,
    hsame after hafter']
  rw [hsplit] at h
  simpa using h.write

variable {pages : Pages}

/-- What is not changed on a page stays. -/
theorem Packs.congr {pages' : Pages} (h : Packs pages slots pageId)
    (hsame : pages' pageId = pages pageId) :
    Packs pages' slots pageId := by
  obtain ⟨bytes, hbytes, hrenders⟩ := h
  exact ⟨bytes, hsame.trans hbytes, hrenders⟩

/-- An append that finishes a page leaves the records. -/
theorem Packs.sealing {a : PageAppend} (h : Packs pages slots pageId) (hempty : a.payload = []) :
    Packs (patch pages [a.change]) slots pageId := by
  by_cases heq : a.pageId = pageId
  · subst heq
    obtain ⟨bytes, hbytes, hrenders⟩ := h
    refine ⟨_, patch_change pages a, ?_⟩
    rw [hbytes, hempty, Renders.splice_empty]
    exact hrenders.pad _
  · exact h.congr (patch_of_ne pages heq)

/-- An append that carries a record writes its place. -/
theorem Packs.write {a : PageAppend} (h : Packs pages slots pageId) (hdistinct : slots.Distinct)
    (ha : Awaits slots a r) :
    Packs (patch pages [a.change]) (slots.write [(a.pageId, r)]) pageId := by
  by_cases heq : a.pageId = pageId
  · subst heq
    obtain ⟨bytes, hbytes, hrenders⟩ := h
    refine ⟨_, patch_change pages a, ?_⟩
    rw [hbytes, ha.payload, ha.offset]
    exact hrenders.write_slot hdistinct ha.place
  · have hsame : slots.write [(a.pageId, r)] pageId = slots pageId := by
      refine (List.map_congr_left fun slot _ => ?_).trans (List.map_id _)
      simp [Ne.symm heq]
    obtain ⟨bytes, hbytes, hrenders⟩ := h.congr (patch_of_ne pages (c := a.change) heq)
    exact ⟨bytes, hbytes, by rwa [hsame]⟩

theorem Slots.write_nil (slots : Slots) : slots.write [] = slots := by
  funext pageId
  simp [write]

theorem Slots.write_cons (slots : Slots) (place : PageId × VersionRecord)
    (places : List (PageId × VersionRecord)) :
    slots.write (place :: places) = (slots.write [place]).write places := by
  funext pageId
  simp [write, Function.comp_def, Bool.or_assoc]

/-- **The appends of a commit** write the places they were made for, whatever else
is on the pages. -/
theorem Carries.packs {appends : List PageAppend} (h : Carries slots places appends)
    (hdistinct : slots.Distinct) (hnodup : places.Nodup) (hpacks : Packs pages slots pageId) :
    Packs (patch pages (appends.map PageAppend.change)) (slots.write places) pageId := by
  induction appends generalizing slots places pages with
  | nil =>
    cases h
    rw [Slots.write_nil]
    exact hpacks
  | cons a appends ih =>
    rw [List.map_cons, ← List.singleton_append, patch_append]
    cases h with
    | sealing hempty _ h => exact ih h hdistinct hnodup (hpacks.sealing hempty)
    | @record places _ _ r ha h =>
      rw [List.nodup_cons] at hnodup
      rw [Slots.write_cons]
      refine ih (h.congr (fun _ hne => by simpa using hne) fun b r' hmem hb => hb.write ?_)
        (hdistinct.write _) hnodup.2 (hpacks.write hdistinct ha)
      rw [List.mem_singleton]
      rintro heq
      exact hnodup.1 (heq ▸ hmem)

/-! ## what the packer keeps -/

/-- The open page, the pool, the pages and the places that were given away. -/
structure Packed (packer : Packer) (pages : Pages) (slots : Slots) : Prop where
  pooled : packer.allocator.Pooled
  opened : ∀ page, packer.openPage = some page → packer.allocator.InUse page.pageId ∧
    slots page.pageId ≠ [] ∧ page.offset = Renders.extent (slots page.pageId) ∧
    page.offset ≤ maxPagePayload
  distinct : slots.Distinct
  packs : ∀ pageId, slots pageId ≠ [] → Packs pages slots pageId

namespace Packed

variable {packer : Packer} {pages : Pages} {slots : Slots} {r : VersionRecord} {placed : Placed}

/-- Where a record is placed: behind the others on the open page, or on a page that
was not in use. -/
theorem place_cases (h : Packed packer pages slots) (hplace : packer.place r = .ok placed) :
    (placed.fresh = false ∧ packer.allocator.InUse placed.pageId ∧ slots placed.pageId ≠ [] ∧
      Renders.extent (slots placed.pageId) + r.size ≤ maxPagePayload ∧
      placed.packer = ⟨some ⟨placed.pageId, Renders.extent (slots placed.pageId) + r.size⟩,
        packer.allocator⟩ ∧
      placed.appends =
        [⟨placed.pageId, UInt32.ofNat (Renders.extent (slots placed.pageId)), r.bytes, false⟩]) ∨
    (placed.fresh = true ∧ ¬packer.allocator.InUse placed.pageId ∧
      placed.pageId.toNat + 1 < 2 ^ 64 ∧ r.size ≤ maxPagePayload ∧
      placed.packer.openPage = some ⟨placed.pageId, r.size⟩ ∧ placed.packer.allocator.Pooled ∧
      (∀ id, placed.packer.allocator.InUse id ↔ packer.allocator.InUse id ∨ id = placed.pageId) ∧
      placed.appends = packer.openPage.toList.map OpenPage.sealing ++
        [⟨placed.pageId, 0, r.bytes, false⟩]) := by
  obtain ⟨hsize, ⟨page, hpage, hfits, rfl⟩ | ⟨pageId, rest, allocator, hreserve, rfl⟩⟩ :=
    Packer.place_eq hplace
  · obtain ⟨huse, hne, hoffset, -⟩ := h.opened page hpage
    rw [hoffset] at hfits
    exact .inl ⟨rfl, huse, hne, hfits, by rw [hoffset], by rw [hoffset]⟩
  · have hlt := PageAllocator.reserve_lt h.pooled hreserve pageId List.mem_cons_self
    obtain ⟨hlen, -, hpooled, hnew, huse⟩ := PageAllocator.reserve_ok h.pooled hreserve
    have hrest : rest = [] := List.length_eq_zero_iff.mp (Nat.succ.inj hlen)
    subst hrest
    simp only [List.mem_singleton] at hnew huse
    exact .inr ⟨rfl, hnew pageId rfl, hlt, hsize, rfl, hpooled, huse, rfl⟩

/-- The pages in use after a record is placed. -/
theorem inUse_place (h : Packed packer pages slots) (hplace : packer.place r = .ok placed)
    (id : PageId) :
    placed.packer.allocator.InUse id ↔ packer.allocator.InUse id ∨ id = placed.pageId := by
  obtain ⟨-, huse, -, -, hpacker, -⟩ | ⟨-, -, -, -, -, -, huse, -⟩ := h.place_cases hplace
  · rw [hpacker]
    constructor
    · exact .inl
    · rintro (hid | rfl)
      · exact hid
      · exact huse
  · exact huse id

theorem place_self (slots : Slots) (placed : Placed) (r : VersionRecord) :
    slots.place placed r placed.pageId =
      (if placed.fresh then [] else slots placed.pageId) ++ [(r, false)] := by
  simp [Slots.place]

theorem place_other (slots : Slots) (r : VersionRecord) {pageId : PageId}
    (hne : pageId ≠ placed.pageId) : slots.place placed r pageId = slots pageId := by
  simp [Slots.place, hne]

/-- The page of a place, before the record is there. -/
theorem packs_place (h : Packed packer pages slots) (hplace : packer.place r = .ok placed) :
    Packs (patch pages placed.blanks.flatten) (slots.place placed r) placed.pageId := by
  unfold Packs
  rw [place_self]
  obtain ⟨hfresh, -, hne, -⟩ | ⟨hfresh, -⟩ := h.place_cases hplace
  · obtain ⟨bytes, hbytes, hrenders⟩ := h.packs placed.pageId hne
    exact ⟨bytes, by simpa [Placed.blanks, hfresh] using hbytes,
      by simpa [hfresh] using hrenders.reserve r⟩
  · refine ⟨[], ?_, ?_⟩
    · rw [Placed.blanks, if_pos hfresh]
      exact if_pos rfl
    rw [if_pos hfresh]
    exact .blank 0 (by simp)

/-- A place is given away, and the pages keep holding what they hold. -/
theorem place (h : Packed packer pages slots) (hplace : packer.place r = .ok placed)
    (hnew : packer.allocator.InUse placed.pageId → r ∉ (slots placed.pageId).map Prod.fst) :
    Packed placed.packer (patch pages placed.blanks.flatten) (slots.place placed r) := by
  have hcases := h.place_cases hplace
  refine ⟨?_, ?_, ?_, ?_⟩
  · obtain ⟨-, -, -, -, hpacker, -⟩ | ⟨-, -, -, -, -, hpooled, -⟩ := hcases
    · rw [hpacker]
      exact h.pooled
    · exact hpooled
  · intro page hpage
    have huse := (h.inUse_place hplace placed.pageId).mpr (.inr rfl)
    obtain ⟨hfresh, -, -, hfits, hpacker, -⟩ | ⟨hfresh, -, -, hsize, hopen, -⟩ := hcases
    · rw [hpacker] at hpage
      cases hpage
      refine ⟨huse, ?_, ?_, hfits⟩
      all_goals simp [place_self, hfresh, Renders.extent]
    · rw [hopen] at hpage
      cases hpage
      refine ⟨huse, ?_, ?_, hsize⟩
      all_goals simp [place_self, hfresh, Renders.extent]
  · intro pageId
    by_cases heq : pageId = placed.pageId
    · subst heq
      rw [place_self]
      obtain ⟨hfresh, huse, -⟩ | ⟨hfresh, -⟩ := hcases
      · rw [if_neg (by simp [hfresh]), List.map_append]
        refine List.nodup_append.mpr ⟨h.distinct _, List.nodup_singleton _, ?_⟩
        rintro record hrecord _ hr rfl
        have heq : record = r := List.mem_singleton.mp hr
        exact hnew huse (heq ▸ hrecord)
      · rw [if_pos hfresh]
        exact List.nodup_singleton _
    · rw [place_other slots r heq]
      exact h.distinct pageId
  · intro pageId hne
    by_cases heq : pageId = placed.pageId
    · subst heq
      exact h.packs_place hplace
    · rw [place_other slots r heq] at hne
      have hsame : patch pages placed.blanks.flatten pageId = pages pageId := by
        unfold Placed.blanks
        split
        · exact patch_of_ne pages (Ne.symm heq)
        · rfl
      obtain ⟨bytes, hbytes, hrenders⟩ := (h.packs pageId hne).congr hsame
      exact ⟨bytes, hbytes, by rwa [place_other slots r heq]⟩

/-- A page with places has them after another place is given away. -/
theorem place_ne_nil (slots : Slots) (placed : Placed) (r : VersionRecord) {pageId : PageId}
    (hne : slots pageId ≠ []) : slots.place placed r pageId ≠ [] := by
  by_cases heq : pageId = placed.pageId
  · rw [heq, place_self]
    simp
  · rwa [place_other slots r heq]

/-- The appends of a turn carry the record. -/
theorem carries_place (h : Packed packer pages slots) (hplace : packer.place r = .ok placed)
    (hnew : packer.allocator.InUse placed.pageId → r ∉ (slots placed.pageId).map Prod.fst) :
    Carries (slots.place placed r) [(placed.pageId, r)] placed.appends := by
  -- the record is behind all others, so its place starts where they end
  have hawaits : ∀ offset : UInt32,
      offset.toNat = Renders.extent (if placed.fresh then [] else slots placed.pageId) →
      r ∉ (if placed.fresh then [] else slots placed.pageId).map Prod.fst →
      Awaits (slots.place placed r) ⟨placed.pageId, offset, r.bytes, false⟩ r := by
    intro offset hoffset hr
    refine ⟨?_, rfl, ?_⟩
    · simp [place_self]
    · rw [hoffset, place_self, offsetOf, List.takeWhile_append_of_pos]
      · simp
      · intro slot hslot
        have hne : slot.1 ≠ r := fun heq => hr (List.mem_map.mpr ⟨slot, hslot, heq⟩)
        simpa using hne
  obtain ⟨hfresh, huse, -, hfits, -, happends⟩ | ⟨hfresh, -, -, -, -, -, -, happends⟩ :=
    h.place_cases hplace
  · rw [happends]
    refine .record (hawaits _ ?_ ?_) .nil
    · have hmax : maxPagePayload = 8128 := rfl
      rw [if_neg (by simp [hfresh]), UInt32.toNat_ofNat_of_lt' (by simp only [UInt32.size]; omega)]
    · rw [if_neg (by simp [hfresh])]
      exact hnew huse
  · rw [happends]
    have hsealing : Carries (slots.place placed r) []
        (packer.openPage.toList.map OpenPage.sealing) := by
      cases hopen : packer.openPage with
      | none => exact .nil
      | some page =>
        exact .sealing rfl (place_ne_nil slots placed r (h.opened page hopen).2.1) .nil
    refine hsealing.append (.record (hawaits 0 ?_ ?_) .nil)
    · rw [if_pos hfresh]
      rfl
    · rw [if_pos hfresh]
      exact List.not_mem_nil

/-- Records that are on their way to pages in use still are. -/
theorem carries_mono (h : Packed packer pages slots) (hplace : packer.place r = .ok placed)
    {places : List (PageId × VersionRecord)} {appends : List PageAppend}
    (hcarries : Carries slots places appends)
    (huse : ∀ place ∈ places, packer.allocator.InUse place.1) :
    Carries (slots.place placed r) places appends := by
  refine hcarries.congr (fun _ => place_ne_nil slots placed r) fun a r' hmem ha => ?_
  by_cases heq : a.pageId = placed.pageId
  · obtain ⟨hfresh, hinUse, -⟩ | ⟨-, hnot, -⟩ := h.place_cases hplace
    · have hself : slots.place placed r a.pageId = slots a.pageId ++ [(r, false)] := by
        rw [heq, place_self, if_neg (by simp [hfresh])]
      refine ⟨?_, ha.payload, ?_⟩
      · rw [hself]
        exact List.mem_append_left _ ha.place
      · -- the new place is behind this one
        obtain ⟨before, after, hsplit⟩ := List.append_of_mem ha.place
        rw [ha.offset, hself, offsetOf, offsetOf, hsplit, List.append_assoc, List.cons_append]
        simp only [List.takeWhile_append, List.takeWhile_cons, bne_self_eq_false]
        split <;> rfl
    · exact absurd (heq ▸ huse _ hmem) hnot
  · refine ⟨?_, ha.payload, ?_⟩
    · rw [place_other slots r heq]
      exact ha.place
    · rw [place_other slots r heq]
      exact ha.offset

/-- A batch of appends takes effect. -/
theorem write (h : Packed packer pages slots) {places : List (PageId × VersionRecord)}
    {appends : List PageAppend} (hcarries : Carries slots places appends)
    (hnodup : places.Nodup) :
    Packed packer (patch pages (appends.map PageAppend.change)) (slots.write places) := by
  refine ⟨h.pooled, fun page hpage => ?_, h.distinct.write places, fun pageId hne => ?_⟩
  · rw [Ne, Slots.write_eq_nil, Slots.extent_write]
    exact h.opened page hpage
  · rw [Ne, Slots.write_eq_nil] at hne
    exact hcarries.packs h.distinct hnodup (h.packs pageId hne)

end Packed

end QuantaDb.Mvcc
