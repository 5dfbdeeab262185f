import QuantaDb.Lib.Fallible
import QuantaDb.Lib.TreeMaps
import QuantaDb.Storage.Loops

/-!
# QuantaDb.Storage.Groups

A group of commit requests against the same requests one by one.

`execute_group` logs the page writes of all requests and then the appends of all
requests, so a write that was queued behind an append to the same page is applied
before it.  `executeGroup_ran` says what any group leaves on any store, as changes of
the pages in the order of the group; comparing that order with the order of the queue
gives exactly the groups that make no difference (`executeGroup_separately_iff`).
-/

namespace QuantaDb

open Crash Prog DurableStore

/-! ## contents -/

/-- A page that enters the dirty table is what readers find. -/
theorem content_insert {s s' : DurableStore} {page : Page} (hdata : s'.data = s.data)
    (hdirty : s'.dirty = s.dirty.insert page.id page) (id : PageId) :
    s'.content id = if page.id = id then .ok (some page.payload) else s.content id := by
  unfold DurableStore.content DurableStore.readPage
  rw [hdata, hdirty, getElem?_insert_page]
  by_cases hid : page.id = id
  · rw [if_pos hid, if_pos hid]
    rfl
  · rw [if_neg hid, if_neg hid]

/-! ## logging -/

/-- The log got these records, and the pages are as they were. -/
structure Logs (s : DurableStore) (records : List WalRecord) (s' : DurableStore) : Prop where
  records : s'.wal.records = s.wal.records ++ records
  content : ∀ id, s'.content id = s.content id

/-- The records of these items are in the log, under these numbers. -/
def Numbered {α : Type} (s : DurableStore) (kind : α → WalKind) (items : List α)
    (lsns : List Nat) (s' : DurableStore) : Prop :=
  lsns.length = items.length ∧ Logs s (items.zipWith (fun a lsn => ⟨lsn, kind a⟩) lsns) s'

variable {s s' : DurableStore}

theorem append_ran {kind : WalKind} {lsn : Nat} (h : Ran (append kind) s lsn s') :
    lsn = s.wal.nextLsn ∧ s' = s.push kind := by
  have hmeets : Meets (fun s₁ => s₁ = s) (append kind)
      (fun lsn s₁ => lsn = s.wal.nextLsn ∧ s₁ = s.push kind) (fun _ _ => True) fun _ => True :=
    append_meets kind (by rintro _ rfl _; exact ⟨trivial, rfl, rfl⟩) (by simp)
  rw [← h.2]
  exact hmeets.ok rfl h.1

variable {α : Type} {lsns : List Nat}

/-- One record of each item, numbered in order. -/
theorem logLoop_ran {log : α → StoreM Nat} (size : α → Nat) (kind : α → WalKind)
    (hlog : ∀ a, log a = if maxPagePayload < size a
      then fail (.pageTooLarge (size a) maxPagePayload) else append (kind a)) {items : List α}
    (h : Ran (forEach items log) s lsns s') :
    Numbered s kind items lsns s' := by
  have hmeets : Meets (Numbered s kind [] []) (forEach items log) (Numbered s kind items)
      (fun _ _ => True) (fun _ => True) := by
    refine logLoop_meets hlog ?_ (by simp)
    rintro done a lsns s₁ - ⟨hlen, hlogs⟩ - -
    refine ⟨trivial, by simp [hlen], ?_, hlogs.content⟩
    rw [List.zipWith_append hlen.symm, push, Wal.push, hlogs.records, List.append_assoc]
    rfl
  rw [← h.2]
  exact hmeets.ok ⟨rfl, by simp, fun _ => rfl⟩ h.1

theorem appendBatchCommit_ran {count : Nat} {lsn : Nat}
    (h : Ran (appendBatchCommit count) s lsn s') :
    Logs s [⟨lsn, .batchCommit (UInt32.ofNat count)⟩] s' := by
  simp only [appendBatchCommit, ran_bind, ran_read, ran_ite, ran_fail, and_false, false_or] at h
  obtain ⟨_, _, ⟨-, rfl⟩, -, -, h⟩ := h
  obtain ⟨rfl, rfl⟩ := append_ran h
  exact ⟨rfl, fun _ => rfl⟩

variable {durable : Bool}

theorem syncIfDurable_ran {u : Unit} (h : Ran (Prog.when durable syncWal) s u s') :
    Logs s [] s' := by
  rcases ran_when.mp h with ⟨-, h⟩ | ⟨-, rfl⟩
  · obtain rfl := ran_issue.mp h
    exact ⟨by simp [onWal], fun _ => rfl⟩
  · exact ⟨by simp, fun _ => rfl⟩

variable {xs : List WalRecord}

theorem Logs.trans {s₀ s₁ s₂ : DurableStore} {ys : List WalRecord} (h₁ : Logs s₀ xs s₁)
    (h₂ : Logs s₁ ys s₂) : Logs s₀ (xs ++ ys) s₂ :=
  ⟨by rw [h₂.records, h₁.records, List.append_assoc],
    fun id => (h₂.content id).trans (h₁.content id)⟩

/-! ## batches -/

/-- From one store to the other, the log got these records and the pages these changes. -/
structure Applies (s : DurableStore) (records : List WalRecord) (changes : List Change)
    (s' : DurableStore) : Prop where
  records : s'.wal.records = s.wal.records ++ records
  content : ∀ id, s'.content id = contentAfter (s.content id) changes id

theorem Applies.refl (s : DurableStore) : Applies s [] [] s := ⟨by simp, fun _ => rfl⟩

theorem Applies.trans {s₀ s₁ s₂ : DurableStore} {ys : List WalRecord} {cs ds : List Change}
    (h₁ : Applies s₀ xs cs s₁) (h₂ : Applies s₁ ys ds s₂) : Applies s₀ (xs ++ ys) (cs ++ ds) s₂ :=
  ⟨by rw [h₂.records, h₁.records, List.append_assoc],
    fun id => by rw [h₂.content, h₁.content, contentAfter_append]⟩

theorem Logs.applies (h : Logs s xs s') :
    Applies s xs [] s' := ⟨h.records, h.content⟩

/-- The record of a page write. -/
def PageWrite.record (write : PageWrite) (lsn : Nat) : WalRecord :=
  ⟨lsn, .pageImage write.pageId write.payload⟩

/-- The record of an append. -/
def PageAppend.record (append : PageAppend) (lsn : Nat) : WalRecord :=
  ⟨lsn, .pageAppend append.pageId append.offset append.payload⟩

theorem publishWrite_ran {write : PageWrite} {lsn : Nat} {u : Unit}
    (h : Ran (publishWrite write lsn) s u s') : Applies s [] [write.change] s' := by
  simp only [publishWrite, ran_bind, ran_attempt, ran_update] at h
  obtain ⟨page, s₁, ⟨hpage, rfl⟩, rfl⟩ := h
  obtain ⟨hid, -, hpayload⟩ := Page.withLsn_eq_ok hpage
  refine ⟨by simp, fun id => ?_⟩
  refine (@content_insert s₁ _ page ?_ ?_ id).trans ?_
  · rfl
  · rw [hid]
  · rw [hid, hpayload]
    rfl

variable {writes : List PageWrite}

theorem publishWrites_ran (hlen : lsns.length = writes.length) {us : List Unit}
    (h : Ran (forEach (writes.zip lsns) fun (write, lsn) => publishWrite write lsn) s us s') :
    Applies s [] (writes.map PageWrite.change) s' := by
  induction writes generalizing lsns s us with
  | nil =>
    obtain ⟨-, rfl⟩ := ran_forEach_nil.mp h
    exact .refl _
  | cons write writes ih =>
    cases lsns with
    | nil => cases hlen
    | cons lsn lsns =>
      obtain ⟨_, s₁, us', hone, hrest, -⟩ := ran_forEach_cons.mp h
      exact (publishWrite_ran hone).trans (ih (Nat.succ.inj hlen) hrest)

/-- **`write_pages_inner`** on any store. -/
theorem writePagesInner_ran (h : Ran (writePagesInner writes durable) s lsns s') :
    lsns.length = writes.length ∧ ∃ commit, Applies s
      (writes.zipWith PageWrite.record lsns ++
        [⟨commit, .batchCommit (UInt32.ofNat writes.length)⟩])
      (writes.map PageWrite.change) s' := by
  simp only [writePagesInner, ran_bind, ran_pure] at h
  obtain ⟨lsns', s₁, hlog, commit, s₂, hcommit, _, s₃, hsync, _, s₄, hpublish, rfl, rfl⟩ := h
  obtain ⟨hlen, hlogs⟩ := logLoop_ran (fun write : PageWrite => write.payload.length)
    (fun write => .pageImage write.pageId write.payload) (fun _ => rfl) hlog
  refine ⟨hlen, commit, ?_⟩
  have hdone := ((hlogs.trans (appendBatchCommit_ran hcommit)).trans
    (syncIfDurable_ran hsync)).applies.trans (publishWrites_ran hlen hpublish)
  rw [List.append_nil, List.append_nil, List.nil_append] at hdone
  exact hdone

variable {appends : List PageAppend}

theorem publishAppend_ran {grown : Std.TreeMap PageId Bytes} {newest : Std.TreeMap PageId Nat}
    {id : PageId} {u : Unit} (h : Ran (publishAppend appends grown newest id) s u s') :
    s'.wal.records = s.wal.records ∧ ∀ id', s'.content id' =
      if id = id' then .ok (some (grown.getD id [])) else s.content id' := by
  simp only [publishAppend, ran_bind, ran_attempt, ran_update] at h
  obtain ⟨page, s₁, ⟨hpage, rfl⟩, _, s₂, rfl, _, s₃, rfl, rfl⟩ := h
  obtain ⟨hid, -, hpayload⟩ := Page.withLsn_eq_ok hpage
  have hqueue : ∀ t : DurableStore, (queueIfSealed appends id t).data = t.data ∧
      (queueIfSealed appends id t).dirty = t.dirty ∧ (queueIfSealed appends id t).wal = t.wal := by
    intro t
    unfold queueIfSealed
    split <;> exact ⟨rfl, rfl, rfl⟩
  obtain ⟨hdata, hdirty, hwal⟩ := hqueue { s₁ with dirty := s₁.dirty.insert id page }
  refine ⟨by simp only [hwal], fun id' => ?_⟩
  refine (@content_insert s₁ _ page hdata (by rw [hid]; exact hdirty) id').trans ?_
  rw [hid, hpayload]

theorem publishAppends_ran {grown : Std.TreeMap PageId Bytes} {newest : Std.TreeMap PageId Nat}
    {ids : List PageId} {us : List Unit}
    (h : Ran (forEach ids (publishAppend appends grown newest)) s us s') :
    s'.wal.records = s.wal.records ∧ ∀ id, s'.content id =
      if id ∈ ids then .ok (some (grown.getD id [])) else s.content id := by
  induction ids generalizing s us with
  | nil =>
    obtain ⟨-, rfl⟩ := ran_forEach_nil.mp h
    exact ⟨rfl, by simp⟩
  | cons id ids ih =>
    obtain ⟨_, s₁, us', hone, hrest, -⟩ := ran_forEach_cons.mp h
    obtain ⟨hrecords, hcontent⟩ := publishAppend_ran hone
    obtain ⟨hrecords', hcontent'⟩ := ih hrest
    refine ⟨hrecords'.trans hrecords, fun id' => ?_⟩
    rw [hcontent', hcontent]
    by_cases hin : id' ∈ ids
    · rw [if_pos hin, if_pos (List.mem_cons_of_mem _ hin)]
    · rw [if_neg hin]
      by_cases hid : id = id'
      · subst hid
        rw [if_pos rfl, if_pos List.mem_cons_self]
      · rw [if_neg hid, if_neg (by simp [hin, Ne.symm hid])]

variable {order : HashOrder}

/-- **`append_pages_inner`** on any store. -/
theorem appendPagesInner_ran (h : Ran (appendPagesInner order appends durable) s lsns s') :
    lsns.length = appends.length ∧ ∃ commit, Applies s
      (appends.zipWith PageAppend.record lsns ++
        [⟨commit, .batchCommit (UInt32.ofNat appends.length)⟩])
      (appends.map PageAppend.change) s' := by
  simp only [appendPagesInner, ran_bind, ran_attempt, ran_pure] at h
  obtain ⟨grown, s₀, ⟨hgrow, rfl⟩, lsns', s₁, hlog, commit, s₂, hcommit, _, s₃, hsync, _, s₄,
    hpublish, rfl, rfl⟩ := h
  obtain ⟨hlen, hlogs⟩ := logLoop_ran (fun append : PageAppend => append.payload.length)
    (fun append => .pageAppend append.pageId append.offset append.payload) (fun _ => rfl) hlog
  have hgrew := grow_grew hgrow
  have hlogged := (hlogs.trans (appendBatchCommit_ran hcommit)).trans (syncIfDurable_ran hsync)
  obtain ⟨hrecords, hcontent⟩ := publishAppends_ran hpublish
  refine ⟨hlen, commit, ?_, fun id => ?_⟩
  · rw [hrecords, hlogged.records, List.append_nil]
    rfl
  · rw [hcontent, hlogged.content]
    simp only [(order.perm grown.keys).mem_iff, Std.TreeMap.mem_keys]
    by_cases hin : id ∈ grown
    · obtain ⟨payload, hpayload⟩ := (TreeMaps.mem_iff_get grown id).mp hin
      rw [if_pos hin, (hgrew.touched id payload hpayload).2,
        Std.TreeMap.getD_eq_getD_getElem?, hpayload]
      rfl
    · rw [if_neg hin, contentAfter_of_forall_ne _
        (hgrew.forall_ne (Std.TreeMap.getElem?_eq_none hin))]

/-! ## groups -/

/-- The changes of a group in the order in which they are applied. -/
def grouped (requests : List CommitRequest) : List Change :=
  (requests.flatMap (·.writes)).map PageWrite.change ++
    (requests.flatMap (·.appends)).map PageAppend.change

/-- The changes of a group in the order in which they were queued. -/
def queued (requests : List CommitRequest) : List Change :=
  requests.flatMap fun request =>
    request.writes.map PageWrite.change ++ request.appends.map PageAppend.change

/-- A batch in the log: its page records and their commit record. -/
def Closes (pages records : List WalRecord) : Prop :=
  (pages = [] ∧ records = []) ∨
    ∃ lsn, records = pages ++ [⟨lsn, .batchCommit (UInt32.ofNat pages.length)⟩]

theorem poisonOnError_ran {m : StoreM α} {a : α} (h : Ran (poisonOnError m) s a s') :
    Ran m s a s' := by
  obtain ⟨hresult, hstate⟩ := h
  unfold poisonOnError at hresult hstate
  cases hr : (m s).result with
  | ok b =>
    simp only [hr] at hresult hstate
    exact ⟨by rw [hr, ← hresult], hstate⟩
  | error e =>
    simp only [hr] at hresult
    cases hresult

/-- A stage of `apply_batch`, which is left out if there is nothing for it. -/
theorem stage_ran {items : List α} {record : α → Nat → WalRecord} {change : α → Change}
    {inner : StoreM (List Nat)}
    (hinner : Ran inner s lsns s' → lsns.length = items.length ∧ ∃ commit, Applies s
      (items.zipWith record lsns ++ [⟨commit, .batchCommit (UInt32.ofNat items.length)⟩])
      (items.map change) s') (h : Ran (if items = [] then pure [] else inner) s lsns s') :
    lsns.length = items.length ∧ ∃ records, Closes (items.zipWith record lsns) records ∧
      Applies s records (items.map change) s' := by
  rcases ran_ite.mp h with ⟨rfl, h⟩ | ⟨-, h⟩
  · obtain ⟨rfl, rfl⟩ := ran_pure.mp h
    exact ⟨rfl, [], .inl ⟨rfl, rfl⟩, .refl _⟩
  · obtain ⟨hlen, commit, happlies⟩ := hinner h
    refine ⟨hlen, _, .inr ⟨commit, ?_⟩, happlies⟩
    rw [List.length_zipWith, hlen, Nat.min_self]

/-- **`apply_batch`** on any store: the writes as one batch, then the appends. -/
theorem applyBatch_ran {lsns : List Nat × List Nat}
    (h : Ran (applyBatch order writes appends durable) s lsns s') :
    lsns.1.length = writes.length ∧ lsns.2.length = appends.length ∧
      ∃ images tails, Closes (writes.zipWith PageWrite.record lsns.1) images ∧
        Closes (appends.zipWith PageAppend.record lsns.2) tails ∧
        Applies s (images ++ tails)
          (writes.map PageWrite.change ++ appends.map PageAppend.change) s' := by
  simp only [applyBatch, refuseIfPoisoned, ran_bind, ran_read, ran_when, ran_fail, and_false,
    false_or] at h
  obtain ⟨_, s₀, ⟨_, _, ⟨-, rfl⟩, -, rfl⟩, h⟩ := h
  have hinner := poisonOnError_ran h
  simp only [applyBatchInner, ran_bind, ran_pure] at hinner
  obtain ⟨writeLsns, s₁, hwrites, appendLsns, s₂, happends, _, s₃, hsync, rfl, rfl⟩ := hinner
  obtain ⟨hwriteLen, images, himages, hfirst⟩ := stage_ran writePagesInner_ran hwrites
  obtain ⟨happendLen, tails, htails, hsecond⟩ := stage_ran appendPagesInner_ran happends
  refine ⟨hwriteLen, happendLen, images, tails, himages, htails, ?_⟩
  have hdone := (hfirst.trans hsecond).trans (syncIfDurable_ran hsync).applies
  rwa [List.append_nil, List.append_nil] at hdone

variable {requests : List CommitRequest}

/-- A group on any store: the changes in its order, and the answers cut from the LSNs of
its two batches. -/
theorem executeGroup_ran {given : List (List Nat)}
    (h : Ran (executeGroup order requests) s given s') :
    ∃ writeLsns appendLsns images tails,
      writeLsns.length = (requests.flatMap (·.writes)).length ∧
      appendLsns.length = (requests.flatMap (·.appends)).length ∧
      given = answers writeLsns appendLsns requests ∧
      Closes ((requests.flatMap (·.writes)).zipWith PageWrite.record writeLsns) images ∧
      Closes ((requests.flatMap (·.appends)).zipWith PageAppend.record appendLsns) tails ∧
      Applies s (images ++ tails) (grouped requests) s' := by
  simp only [executeGroup, ran_bind, ran_pure] at h
  obtain ⟨lsns, s₁, hbatch, rfl, rfl⟩ := h
  obtain ⟨hwrites, happends, images, tails, himages, htails, happlies⟩ := applyBatch_ran hbatch
  exact ⟨lsns.1, lsns.2, images, tails, hwrites, happends, rfl, himages, htails, happlies⟩

theorem queued_append (xs ys : List CommitRequest) : queued (xs ++ ys) = queued xs ++ queued ys :=
  List.flatMap_append

theorem queued_singleton (request : CommitRequest) : grouped [request] = queued [request] := by
  simp [grouped, queued]

/-- The requests one by one leave their changes in the order of the queue. -/
theorem separately_ran {given : List (List (List Nat))}
    (h : Ran (forEach requests fun request => executeGroup order [request]) s given s') :
    ∃ records, Applies s records (queued requests) s' := by
  induction requests generalizing s given with
  | nil =>
    obtain ⟨-, rfl⟩ := ran_forEach_nil.mp h
    exact ⟨[], .refl _⟩
  | cons request requests ih =>
    obtain ⟨_, s₁, _, hone, hrest, -⟩ := ran_forEach_cons.mp h
    obtain ⟨_, _, images, tails, -, -, -, -, -, happlies⟩ := executeGroup_ran hone
    obtain ⟨records, hrecords⟩ := ih hrest
    rw [queued_singleton] at happlies
    refine ⟨images ++ tails ++ records, ?_⟩
    have hdone := happlies.trans hrecords
    rwa [← queued_append, List.singleton_append] at hdone

/-! ## the two orders -/

def Change.isImage (c : Change) : Bool := c.appendAt.isNone

def Change.isAppend (c : Change) : Bool := c.appendAt.isSome

/-- A group moves the images to the front and keeps each kind in order. -/
theorem grouped_eq (requests : List CommitRequest) :
    grouped requests =
      (queued requests).filter Change.isImage ++ (queued requests).filter Change.isAppend := by
  have himages : (queued requests).filter Change.isImage =
      (requests.flatMap (·.writes)).map PageWrite.change := by
    rw [queued, List.filter_flatMap, List.map_flatMap]
    congr 1
    funext request
    simp [List.filter_map, Function.comp_def, Change.isImage, PageWrite.change, PageAppend.change]
  have happends : (queued requests).filter Change.isAppend =
      (requests.flatMap (·.appends)).map PageAppend.change := by
    rw [queued, List.filter_flatMap, List.map_flatMap]
    congr 1
    funext request
    simp [List.filter_map, Function.comp_def, Change.isAppend, PageWrite.change, PageAppend.change]
  rw [himages, happends, grouped]

/-- The changes of one page, in order. -/
def onOnePage (id : PageId) (changes : List Change) : List Change :=
  changes.filter fun c => decide (c.pageId = id)

theorem contentAfter_onOnePage (found : Except StorageError (Option Bytes)) (changes : List Change)
    (id : PageId) : contentAfter found
    (onOnePage id changes) id = contentAfter found changes id := by
  induction changes generalizing found with
  | nil => rfl
  | cons c changes ih =>
    unfold onOnePage at ih ⊢
    by_cases hid : c.pageId = id
    · rw [List.filter_cons_of_pos (by simpa using hid)]
      exact ih _
    · rw [List.filter_cons_of_neg (by simpa using hid), ih]
      rw [contentAfter, contentAfter, List.foldl_cons, if_neg hid]

theorem onOnePage_grouped (requests : List CommitRequest) (id : PageId) :
    onOnePage id (grouped requests) =
      (onOnePage id (queued requests)).filter Change.isImage ++
        (onOnePage id (queued requests)).filter Change.isAppend := by
  rw [grouped_eq, onOnePage, onOnePage, List.filter_append, List.filter_comm,
    @List.filter_comm _ _ Change.isAppend]

/-- Nothing before the last image of a page matters. -/
theorem contentAfter_image {before after : List Change} {image : Change} {id : PageId}
    (found : Except StorageError (Option Bytes)) (hid : image.pageId = id)
    (himage : image.appendAt = none) : contentAfter found (before ++ image :: after) id =
      .ok (payloadAfter (some image.payload) after id) := by
  rw [contentAfter_append, contentAfter, List.foldl_cons, if_pos hid]
  have honto : ∀ found, image.onto found = .ok (some image.payload) := by
    intro found
    simp [Change.onto, himage]
  rw [honto]
  exact contentAfter_ok _ _ _

/-- A page without images, or the last of them. -/
theorem lastImage (changes : List Change) :
    (∀ c ∈ changes, c.isAppend = true) ∨ ∃ before image after, changes = before ++ image :: after ∧
      image.appendAt = none ∧ ∀ c ∈ after, c.isAppend = true := by
  induction changes with
  | nil => exact .inl (by simp)
  | cons c changes ih =>
    rcases ih with hall | ⟨before, image, after, rfl, himage, hafter⟩
    · cases hat : c.appendAt with
      | none => exact .inr ⟨[], c, changes, rfl, hat, hall⟩
      | some offset =>
        exact .inl (List.forall_mem_cons.mpr ⟨by simp [Change.isAppend, hat], hall⟩)
    · exact .inr ⟨c :: before, image, after, rfl, himage, hafter⟩

/-- No append is lost or revived by moving images to the front: placed on the last image
of their page, the appends queued before that image are not seen under the later ones. -/
def Undisturbed (requests : List CommitRequest) : Prop :=
  ∀ id before image after, onOnePage id (queued requests) = before ++ image :: after →
    image.appendAt = none → (∀ c ∈ after, c.isAppend = true) →
    payloadAfter (some image.payload) (before.filter Change.isAppend ++ after) id =
      payloadAfter (some image.payload) after id

/-- In particular if no request replaces a page that an earlier one appended to. -/
theorem undisturbed_of_images_first
    (h : (queued requests).Pairwise fun c d => c.pageId = d.pageId → c.isAppend = true →
      d.isAppend = true) : Undisturbed requests := by
  intro id before image after hsplit himage hafter
  have hpair := h.filter fun c : Change => decide (c.pageId = id)
  rw [← onOnePage, hsplit] at hpair
  have hpage : ∀ c ∈ before ++ image :: after, c.pageId = id := by
    intro c hc
    rw [← hsplit, onOnePage, List.mem_filter] at hc
    simpa using hc.2
  have hnone : before.filter Change.isAppend = [] := by
    refine List.filter_eq_nil_iff.mpr fun c hc happend => ?_
    have hc' := (List.pairwise_append.mp hpair).2.2 c hc image List.mem_cons_self
    have hsame : c.pageId = image.pageId :=
      (hpage c (List.mem_append_left _ hc)).trans (hpage image (by simp)).symm
    have himage' := hc' hsame happend
    rw [Change.isAppend, himage] at himage'
    cases himage'
  rw [hnone, List.nil_append]

/-- Both orders leave the same contents exactly for undisturbed groups. -/
theorem contentAfter_grouped_iff (requests : List CommitRequest)
    (found : PageId → Except StorageError (Option Bytes)) :
    (∀ id, contentAfter (found id) (grouped requests) id =
      contentAfter (found id) (queued requests) id) ↔ Undisturbed requests := by
  -- one page, split at its last image
  have hpage : ∀ id before image after, onOnePage id (queued requests) = before ++ image :: after →
      image.appendAt = none → (∀ c ∈ after, c.isAppend = true) →
      contentAfter (found id) (grouped requests) id =
          .ok (payloadAfter (some image.payload) (before.filter Change.isAppend ++ after) id) ∧
        contentAfter (found id) (queued requests) id =
          .ok (payloadAfter (some image.payload) after id) := by
    intro id before image after hsplit himage hafter
    have hid : image.pageId = id := by
      have hmem : image ∈ onOnePage id (queued requests) := by simp [hsplit]
      simpa using (List.mem_filter.mp hmem).2
    constructor
    · have hno : after.filter Change.isImage = [] := by
        refine List.filter_eq_nil_iff.mpr fun c hc himage' => ?_
        have happend := hafter c hc
        simp [Change.isAppend, Change.isImage] at happend himage'
        simp [himage'] at happend
      have hall : after.filter Change.isAppend = after := List.filter_eq_self.mpr hafter
      rw [← contentAfter_onOnePage, onOnePage_grouped, hsplit, List.filter_append,
        List.filter_append, List.filter_cons_of_pos (by simp [Change.isImage, himage]),
        List.filter_cons_of_neg (by simp [Change.isAppend, himage]), hno, hall, List.append_assoc,
        List.cons_append, List.nil_append]
      exact contentAfter_image _ hid himage
    · rw [← contentAfter_onOnePage, hsplit]
      exact contentAfter_image _ hid himage
  constructor
  · intro heq id before image after hsplit himage hafter
    obtain ⟨hgrouped, hqueued⟩ := hpage id before image after hsplit himage hafter
    have hsame := heq id
    rw [hgrouped, hqueued] at hsame
    exact Except.ok.inj hsame
  · intro hundisturbed id
    rcases lastImage (onOnePage id (queued requests)) with hall |
      ⟨before, image, after, hsplit, himage, hafter⟩
    · have hno : (onOnePage id (queued requests)).filter Change.isImage = [] := by
        refine List.filter_eq_nil_iff.mpr fun c hc himage => ?_
        have happend := hall c hc
        simp [Change.isAppend, Change.isImage] at happend himage
        simp [himage] at happend
      rw [← contentAfter_onOnePage, onOnePage_grouped, hno, List.nil_append,
        List.filter_eq_self.mpr hall, contentAfter_onOnePage]
    · obtain ⟨hgrouped, hqueued⟩ := hpage id before image after hsplit himage hafter
      rw [hgrouped, hqueued, hundisturbed id before image after hsplit himage hafter]

/-! ## answers -/

/-- The record of a page change, not the end of a batch or a checkpoint. -/
def WalRecord.isPage (record : WalRecord) : Bool :=
  match record.kind with
  | .pageImage _ _ | .pageAppend _ _ _ => true
  | .batchCommit _ | .checkpoint => false

theorem filter_isPage_of_closes {pages records : List WalRecord} (h : Closes pages records)
    (hpages : ∀ record ∈ pages, record.isPage = true) :
    records.filter WalRecord.isPage = pages := by
  rcases h with ⟨rfl, rfl⟩ | ⟨lsn, rfl⟩
  · rfl
  · rw [List.filter_append, List.filter_eq_self.mpr hpages]
    simp [WalRecord.isPage]

theorem isPage_zipWith {items : List α} {record : α → Nat → WalRecord}
    (h : ∀ a lsn, (record a lsn).isPage = true) :
    ∀ r ∈ items.zipWith record lsns, r.isPage = true := by
  intro r hr
  rw [← List.map_uncurry_zip_eq_zipWith, List.mem_map] at hr
  obtain ⟨pair, -, rfl⟩ := hr
  exact h pair.1 pair.2

/-- Each request was answered with one LSN for each of its changes, and the page records
that were logged are the changes of the requests with the LSNs of their answers: those of
the writes in the order of the queue, then those of the appends. -/
structure Answered (requests : List CommitRequest) (given : List (List Nat))
    (logged : List WalRecord) : Prop where
  each : given.length = requests.length
  sizes : ∀ pair ∈ requests.zip given,
    pair.2.length = pair.1.writes.length + pair.1.appends.length
  records : logged.filter WalRecord.isPage =
    ((requests.zip given).flatMap fun pair => pair.1.writes.zipWith PageWrite.record pair.2) ++
      (requests.zip given).flatMap fun pair => pair.1.appends.zipWith PageAppend.record pair.2

theorem length_answers (writeLsns appendLsns : List Nat) (requests : List CommitRequest) :
    (answers writeLsns appendLsns requests).length = requests.length := by
  induction requests generalizing writeLsns appendLsns with
  | nil => rfl
  | cons request requests ih => rw [answers, List.length_cons, List.length_cons, ih]

/-- Cutting the LSNs of a list at the end of its first part cuts the records there. -/
theorem zipWith_append_cut {β : Type} (f : α → Nat → β) (xs ys : List α) (lsns : List Nat)
    (h : xs.length ≤ lsns.length) :
    (xs ++ ys).zipWith f lsns =
      xs.zipWith f (lsns.take xs.length) ++ ys.zipWith f (lsns.drop xs.length) := by
  have hlen : xs.length = (lsns.take xs.length).length := (List.length_take_of_le h).symm
  rw [← List.zipWith_append hlen, List.take_append_drop]

/-- The answers of requests that carry writes or appends. -/
theorem answers_spec (hkind : ∀ request ∈ requests, request.writes = [] ∨ request.appends = [])
    {writeLsns appendLsns : List Nat}
    (hwrites : writeLsns.length = (requests.flatMap (·.writes)).length)
    (happends : appendLsns.length = (requests.flatMap (·.appends)).length) :
    (∀ pair ∈ requests.zip (answers writeLsns appendLsns requests),
      pair.2.length = pair.1.writes.length + pair.1.appends.length) ∧
    (requests.flatMap (·.writes)).zipWith PageWrite.record writeLsns =
      ((requests.zip (answers writeLsns appendLsns requests)).flatMap fun pair =>
        pair.1.writes.zipWith PageWrite.record pair.2) ∧
    (requests.flatMap (·.appends)).zipWith PageAppend.record appendLsns =
      ((requests.zip (answers writeLsns appendLsns requests)).flatMap fun pair =>
        pair.1.appends.zipWith PageAppend.record pair.2) := by
  induction requests generalizing writeLsns appendLsns with
  | nil => exact ⟨by simp, rfl, rfl⟩
  | cons request requests ih =>
    rw [List.forall_mem_cons] at hkind
    rw [List.flatMap_cons, List.length_append] at hwrites happends
    have hwriteRest : (writeLsns.drop request.writes.length).length =
        (requests.flatMap (·.writes)).length := by
      rw [List.length_drop]
      omega
    have happendRest : (appendLsns.drop request.appends.length).length =
        (requests.flatMap (·.appends)).length := by
      rw [List.length_drop]
      omega
    obtain ⟨hsizes, hwriteRecords, happendRecords⟩ := ih hkind.2 hwriteRest happendRest
    rw [answers, List.zip_cons_cons, List.flatMap_cons, List.flatMap_cons, List.flatMap_cons,
      List.flatMap_cons, zipWith_append_cut _ _ _ _ (by omega),
      zipWith_append_cut _ _ _ _ (by omega), hwriteRecords, happendRecords,
      List.forall_mem_cons]
    by_cases hnone : request.appends = []
    · rw [if_pos hnone]
      refine ⟨⟨?_, hsizes⟩, rfl, ?_⟩
      · rw [hnone, List.length_take_of_le (by omega)]
        rfl
      · rw [hnone]
        rfl
    · have hno : request.writes = [] := hkind.1.resolve_right hnone
      rw [if_neg hnone]
      refine ⟨⟨?_, hsizes⟩, ?_, rfl⟩
      · rw [hno, List.length_take_of_le (by omega), List.length_nil, Nat.zero_add]
      · rw [hno]
        rfl

/-- **A group against its requests one by one.**  Where both return, each request is
answered with the LSNs of its own records, and the pages are the same, exactly if the
group moves no image before an append that shows. -/
theorem executeGroup_separately_iff {order order' : HashOrder} {requests : List CommitRequest}
    (hkind : ∀ request ∈ requests, request.writes = [] ∨ request.appends = [])
    {s s₁ s₂ : DurableStore} {given : List (List Nat)} {given' : List (List (List Nat))}
    (hgroup : Ran (executeGroup order requests) s given s₁)
    (hseparate : Ran (forEach requests fun request => executeGroup order' [request]) s given' s₂) :
    ((∀ id, s₁.content id = s₂.content id) ∧
      ∃ logged, s₁.wal.records = s.wal.records ++ logged ∧ Answered requests given logged) ↔
        Undisturbed requests := by
  obtain ⟨writeLsns, appendLsns, images, tails, hwrites, happends, rfl, himages, htails,
    hgrouped⟩ := executeGroup_ran hgroup
  obtain ⟨_, hqueued⟩ := separately_ran hseparate
  obtain ⟨hsizes, hwriteRecords, happendRecords⟩ := answers_spec hkind hwrites happends
  have hanswered : Answered requests (answers writeLsns appendLsns requests) (images ++ tails) := by
    refine ⟨length_answers _ _ _, hsizes, ?_⟩
    rw [List.filter_append, filter_isPage_of_closes himages (isPage_zipWith fun _ _ => rfl),
      filter_isPage_of_closes htails (isPage_zipWith fun _ _ => rfl), hwriteRecords, happendRecords]
  have hcontents : (∀ id, s₁.content id = s₂.content id) ↔ Undisturbed requests := by
    rw [← contentAfter_grouped_iff requests s.content]
    exact forall_congr' fun id => by rw [hgrouped.content, hqueued.content]
  rw [hcontents]
  exact and_iff_left ⟨images ++ tails, hgrouped.records, hanswered⟩

/-- One byte appended to page 1, then page 1 replaced. -/
def overtaking : List CommitRequest := [⟨[], [⟨1, 0, [1], false⟩], true⟩, ⟨[⟨1, [2]⟩], [], true⟩]

/-- On a store that was just created, the group leaves what was appended first. -/
theorem group_overtakes :
    (executeGroup .sorted overtaking (attach {})).result.isOk = true ∧
    (executeGroup .sorted overtaking (attach {})).state.content 1 = .ok (some [1]) ∧
    (forEach overtaking (fun request => executeGroup .sorted [request]) (attach {})).state.content
    1 =
      .ok (some [2]) := by
  decide +kernel

/-- Page 1 replaced, then one byte appended to it and to page 2. -/
def inOrder : List CommitRequest :=
  [⟨[⟨1, [2]⟩], [], false⟩, ⟨[], [⟨1, 1, [1], true⟩, ⟨2, 0, [3], false⟩], true⟩]

/-- A group that makes no difference. -/
theorem executeGroup_separately_iff_inOrder :
    ∃ given s₁ given' s₂, Ran (executeGroup .sorted inOrder) (attach {}) given s₁ ∧
      Ran (forEach inOrder fun request => executeGroup .sorted [request]) (attach {}) given' s₂ ∧
      ((∀ id, s₁.content id = s₂.content id) ∧
        ∃ logged, s₁.wal.records = (attach {}).wal.records ++ logged ∧
          Answered inOrder given logged) := by
  obtain ⟨given, hgiven⟩ := Fallible.exists_of_isOk
    (x := (executeGroup .sorted inOrder (attach {})).result) (by decide +kernel)
  obtain ⟨given', hgiven'⟩ := Fallible.exists_of_isOk
    (x := (forEach inOrder (fun request => executeGroup .sorted [request]) (attach {})).result)
    (by decide +kernel)
  have hundisturbed : Undisturbed inOrder := undisturbed_of_images_first (by decide)
  exact ⟨given, _, given', _, ⟨hgiven, rfl⟩, ⟨hgiven', rfl⟩,
    (executeGroup_separately_iff (by decide) ⟨hgiven, rfl⟩ ⟨hgiven', rfl⟩).mpr hundisturbed⟩

end QuantaDb
