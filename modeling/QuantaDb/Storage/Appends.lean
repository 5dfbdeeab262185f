import QuantaDb.Storage.Batches

/-!
# QuantaDb.Storage.Appends

`append_pages`: the images a batch of appends would leave are computed before
the log is touched, from what a reader would see (`Grew.contents`), and published
page by page once the batch is logged.
-/

namespace QuantaDb

open Redo Crash DurableStore

variable {mode : Mode} {H : History} {n : Nat} {b G : List CommittedWrite}

/-! ## growing -/

variable {appends : List PageAppend} {grown : Std.TreeMap PageId Bytes} {id : PageId}

/-- The grown images are those of the history with the batch. -/
theorem Grew.contents {s : DurableStore} (hinv : Inv mode H n s) (h : Grew s appends grown)
    (hloggable : ∀ c ∈ appends.map PageAppend.change, c.Loggable) {payload : Bytes}
    (hg : grown[id]? = some payload) :
    contents (H.given ++ [appends.map PageAppend.change]) id = some payload := by
  obtain ⟨⟨append, happend, rfl⟩, hcontent⟩ := h.touched id payload hg
  have hplace : Placeable append.pageId := (hloggable _ (List.mem_map_of_mem happend)).1
  have hshows := shows_of_inv hinv.log hinv.mem append.pageId hplace.addressable
  rw [DurableStore.content, hshows, contentAfter_ok] at hcontent
  rw [contents_concat]
  exact Except.ok.inj hcontent

/-! ## publishing -/

/-- The image of a page fits its block. -/
theorem length_le_of_image {F : List CommittedWrite} (h : Proper F) {st : Stamped Bytes}
    (himg : imageOf (onPage id F) = some st) :
    st.value.length ≤ maxPagePayload := by
  have hfits : ∀ w ∈ onPage id F, w.Fits := fun w hw => h.fits w (mem_onPage.mp hw).1
  have hord := h.onPage id
  generalize onPage id F = cs at himg hfits hord
  induction cs using List.reverseRecOn generalizing st with
  | nil => simp at himg
  | append_singleton cs w ih =>
    rw [imageOf, latest_concat hord] at himg
    cases himg
    refine CommittedWrite.length_apply_le (hfits w (by simp)) fun bytes hbytes => ?_
    cases hl : latest CommittedWrite.lsn CommittedWrite.apply cs with
    | none => rw [hl] at hbytes; simp at hbytes
    | some old =>
      rw [hl] at hbytes
      simp only [Option.map_some, Option.mem_some_iff] at hbytes
      rw [← hbytes]
      exact ih hl (fun v hv => hfits v (by simp [hv]))
        (hord.sublist (List.sublist_append_left cs [w]))

/-- The LSN of the last change of a batch to each page. -/
def newestOf (b : List CommittedWrite) : Std.TreeMap PageId Nat :=
  b.foldl (fun m w => m.insert w.pageId w.lsn) ∅

theorem newest_eq {lsns : List Nat}
    (hc : b.map CommittedWrite.change = appends.map PageAppend.change)
    (hl : b.map CommittedWrite.lsn = lsns) : newest appends lsns = newestOf b := by
  have hids : appends.map PageAppend.pageId = b.map CommittedWrite.pageId := by
    have := congrArg (List.map Change.pageId) hc
    simpa [Function.comp_def, CommittedWrite.change, PageAppend.change] using this.symm
  have hzip : (appends.zip lsns).map (fun p => (p.1.pageId, p.2)) =
      b.map fun w => (w.pageId, w.lsn) := by
    rw [← hl]
    have : (appends.zip (b.map CommittedWrite.lsn)).map (fun p => (p.1.pageId, p.2)) =
        (appends.map PageAppend.pageId).zip (b.map CommittedWrite.lsn) := by
      rw [List.zip_map_left]; rfl
    rw [this, hids, List.zip_map']
  have h₁ : newest appends lsns = ((appends.zip lsns).map fun p => (p.1.pageId, p.2)).foldl
      (fun m p => m.insert p.1 p.2) ∅ := by
    rw [List.foldl_map]; rfl
  have h₂ : newestOf b = (b.map fun w => (w.pageId, w.lsn)).foldl
      (fun m p => m.insert p.1 p.2) ∅ := by
    rw [List.foldl_map]; rfl
  rw [h₁, h₂, hzip]

/-- The image of a page the batch touches is stamped by the batch's last change
of it. -/
theorem newestOf_image {F : List CommittedWrite} (hord : Ordered CommittedWrite.lsn (F ++ b))
    (hid : ∃ w ∈ b, w.pageId = id) :
    ∃ st, imageOf (onPage id (F ++ b)) = some st ∧ (newestOf b)[id]? = some st.lsn ∧
      ∃ w ∈ b, w.pageId = id ∧ w.lsn = st.lsn := by
  induction b using List.reverseRecOn with
  | nil => obtain ⟨w, hw, -⟩ := hid; cases hw
  | append_singleton b w ih =>
    have hget : (newestOf (b ++ [w]))[id]? =
        if w.pageId = id then some w.lsn else (newestOf b)[id]? := by
      rw [newestOf, List.foldl_append, List.foldl_cons, List.foldl_nil, getElem?_insert_page]
      rfl
    by_cases heq : w.pageId = id
    · subst heq
      rw [hget, if_pos rfl]
      have himg := (@imageOf_concat F b [] w (by simpa using hord)).1
      exact ⟨_, himg, rfl, w, by simp, rfl, rfl⟩
    · rw [hget, if_neg heq, ← List.append_assoc, onPage_append, onPage_singleton_of_ne heq,
        List.append_nil]
      have hid' : ∃ v ∈ b, v.pageId = id := by
        obtain ⟨v, hv, hvid⟩ := hid
        rcases List.mem_append.mp hv with hv | hv
        · exact ⟨v, hv, hvid⟩
        · rw [List.mem_singleton] at hv
          exact absurd (hv ▸ hvid) heq
      obtain ⟨st, himg, hnew, v, hv, hvid, hvl⟩ := ih (hord.sublist (by simp)) hid'
      exact ⟨st, himg, hnew, v, by simp [hv], hvid, hvl⟩

/-- The changes of a batch to the pages `ids`. -/
def toPages (ids : List PageId) (b : List CommittedWrite) : List CommittedWrite :=
  b.filter fun w => decide (w.pageId ∈ ids)

theorem onPage_toPages (ids : List PageId) (b : List CommittedWrite) (id : PageId) :
    onPage id (toPages ids b) = if id ∈ ids then onPage id b else [] := by
  unfold onPage toPages
  rw [List.filter_filter]
  split
  · next hin =>
    refine List.filter_congr fun w _ => ?_
    by_cases hw : w.pageId = id
    · simp [hw, hin]
    · simp [hw]
  · next hin =>
    rw [List.filter_eq_nil_iff]
    intro w _
    by_cases hw : w.pageId = id
    · simp [hw, hin]
    · simp [hw]

/-- Queueing a page touches the queue and the set of open pages only, and drops
no page from them. -/
theorem queueIfSealed_keeps (appends : List PageAppend) (id : PageId) (s : DurableStore) :
    (queueIfSealed appends id s).data = s.data ∧ (queueIfSealed appends id s).wal = s.wal ∧
      (queueIfSealed appends id s).dirty = s.dirty ∧
      (queueIfSealed appends id s).flushed = s.flushed ∧
      (queueIfSealed appends id s).checkpointInFlight = s.checkpointInFlight ∧
      (∀ x ∈ s.flushQueue, x ∈ (queueIfSealed appends id s).flushQueue) ∧
      (∀ x, id ≠ x → x ∈ s.openPages → x ∈ (queueIfSealed appends id s).openPages) ∧
      (id ∈ (queueIfSealed appends id s).flushQueue ∨
        id ∈ (queueIfSealed appends id s).openPages) := by
  unfold queueIfSealed
  split
  · refine ⟨rfl, rfl, rfl, rfl, rfl, fun x hx => by simp [hx], fun x hne hx => ?_,
      Or.inl (by simp)⟩
    simpa [Std.TreeSet.mem_erase] using ⟨hne, hx⟩
  · exact ⟨rfl, rfl, rfl, rfl, rfl, fun x hx => hx,
      fun x hne hx => by simp [Std.TreeSet.mem_insert, hx], Or.inr (by simp)⟩

/-- `publishAppend` on a page of a logged batch. -/
theorem publishAppend_meets {s₀ : DurableStore} (hgrown : Grew s₀ appends grown)
    (hcontents : ∀ (id : PageId) payload, grown[id]? = some payload →
      contents (H.given ++ [appends.map PageAppend.change]) id = some payload)
    (hchg : b.map CommittedWrite.change = appends.map PageAppend.change) {done : List PageId}
    (hid : ∃ w ∈ b, w.pageId = id) (hnew : id ∉ done) {C : Disk → Prop} :
    Meets (Publishing mode H n s₀ b (toPages done b)) (publishAppend appends grown (newestOf b) id)
      (fun _ => Publishing mode H n s₀ b (toPages (done ++ [id]) b)) (fun _ _ => False) C := by
  unfold publishAppend
  refine Meets.assuming (p := Proper (H.flatten ++ b))
    (fun s h => by simpa using h.log.proper) fun hproper => ?_
  obtain ⟨st, himg, hlsn, v, hv, hvid, hvl⟩ := newestOf_image hproper.ordered hid
  have hpay : grown[id]? = some st.value := by
    cases hg : grown[id]? with
    | none =>
      obtain ⟨w, hw, rfl⟩ := hid
      have hmem : w.change ∈ appends.map PageAppend.change := hchg ▸ List.mem_map_of_mem hw
      obtain ⟨append, happend, heq⟩ := List.mem_map.mp hmem
      exact absurd (congrArg Change.pageId heq) (hgrown.untouched _ hg append happend)
    | some payload =>
      have hcont := hcontents id payload hg
      have hgiven : H.given ++ [appends.map PageAppend.change] = (H ++ [b]).given := by
        simp [History.given, hchg]
      rw [hgiven, contents_given (by simpa using hproper)] at hcont
      simp only [List.flatten_append, List.flatten_singleton] at hcont
      rw [himg] at hcont
      exact congrArg some (Option.some.inj hcont).symm
  have hfit := length_le_of_image hproper himg
  have hmake : Page.withLsn id ((newestOf b).getD id 0) (grown.getD id []) =
      .ok ⟨id, st.lsn, st.value, hfit⟩ := by
    rw [Std.TreeMap.getD_eq_getD_getElem?, Std.TreeMap.getD_eq_getD_getElem?, hlsn, hpay]
    exact Page.withLsn_of_fits hfit
  rw [hmake]
  refine Meets.bind (Q := fun page s => Publishing mode H n s₀ b (toPages done b) s ∧
    page = ⟨id, st.lsn, st.value, hfit⟩)
    (Meets.attempt (fun s hs page hp => ⟨hs, by cases hp; rfl⟩) (fun s hs e he => by cases he))
    fun page => ?_
  refine Meets.bind (Q := fun _ s' => ∃ s, Publishing mode H n s₀ b (toPages done b) s ∧
    page = ⟨id, st.lsn, st.value, hfit⟩ ∧ s' = { s with dirty := s.dirty.insert id page })
    (Meets.update fun s hs => ⟨s, hs.1, hs.2, rfl⟩) fun _ => ?_
  refine Meets.bind (Q := fun _ s' => ∃ s, Publishing mode H n s₀ b (toPages done b) s ∧
    page = ⟨id, st.lsn, st.value, hfit⟩ ∧
    s' = queueIfSealed appends id { s with dirty := s.dirty.insert id page })
    (Meets.update ?_) fun _ => Meets.update ?_
  · rintro _ ⟨s, hs, hpage, rfl⟩
    exact ⟨s, hs, hpage, rfl⟩
  · rintro _ ⟨s, hs, rfl, rfl⟩
    obtain ⟨hdata, hwal, hdirty, hflushed, hflight, hqueue, hopen, hin⟩ := queueIfSealed_keeps
      appends id { s with dirty := s.dirty.insert id ⟨id, st.lsn, st.value, hfit⟩ }
    have hbelow : ∀ w ∈ onPage id H.flatten, w.lsn < st.lsn := by
      intro w hw
      rw [← hvl]
      exact (List.pairwise_append.mp hproper.ordered).2.2 w (mem_onPage.mp hw).1 v hv
    refine hs.publish ⟨id, st.lsn, st.value, hfit⟩ hv hvid (fun id' hne => ?_) ?_ ?_
      hdata hwal hdirty hflushed hflight hqueue hopen hin
    · rw [onPage_toPages, onPage_toPages]
      simp only [List.mem_append, List.mem_singleton, Ne.symm hne, or_false]
    · rw [onPage_append, onPage_toPages, if_pos (by simp), ← onPage_append, himg]
      rfl
    · rw [onPage_append, onPage_toPages, if_neg hnew, List.append_nil]
      exact not_covers_latest hbelow

/-- The walk over the grown pages meets each page of the batch once. -/
theorem walk_grown {s : DurableStore} (hgrown : Grew s appends grown)
    (hchg : b.map CommittedWrite.change = appends.map PageAppend.change) (order : HashOrder) :
    (order.walk grown.keys).Nodup ∧
      (∀ id, id ∈ order.walk grown.keys ↔ ∃ w ∈ b, w.pageId = id) := by
  have hids : appends.map PageAppend.pageId = b.map CommittedWrite.pageId := by
    have := congrArg (List.map Change.pageId) hchg
    simpa [Function.comp_def, CommittedWrite.change, PageAppend.change] using this.symm
  have hiff : ∀ id, (∃ append ∈ appends, append.pageId = id) ↔ ∃ w ∈ b, w.pageId = id := by
    intro id
    have := congrArg (fun l => id ∈ l) hids
    simpa [List.mem_map] using this
  constructor
  · rw [(order.perm grown.keys).nodup_iff]
    refine (Std.TreeMap.distinct_keys (t := grown)).imp fun {a c} hne heq => hne ?_
    rw [heq]
    exact Std.ReflCmp.compare_self
  · intro id
    rw [(order.perm grown.keys).mem_iff, Std.TreeMap.mem_keys, ← hiff]
    constructor
    · intro hmem
      obtain ⟨payload, hp⟩ : ∃ payload, grown[id]? = some payload :=
        ⟨grown[id], Std.TreeMap.getElem?_eq_some_getElem hmem⟩
      exact (hgrown.touched id payload hp).1
    · rintro ⟨append, happend, rfl⟩
      apply Classical.byContradiction
      intro hn
      exact hgrown.untouched _ (Std.TreeMap.getElem?_eq_none hn) append happend rfl

/-- **`append_pages_inner`** adds its batch to the history. -/
theorem appendPagesInner_meets {s₀ : DurableStore} (hinv : Inv mode H n s₀) (order : HashOrder)
    (appends : List PageAppend) (durable : Bool)
    (hloggable : ∀ c ∈ appends.map PageAppend.change, c.Loggable)
    (htear : mode.tears = true → ∀ append ∈ appends,
      onPage append.pageId H.flatten = [] ∨ s₀.Logged append.pageId) :
    Meets (fun s => s = s₀) (appendPagesInner order appends durable)
      (fun _ s => ∃ b, b.map CommittedWrite.change = appends.map PageAppend.change ∧
        Inv mode (H ++ [b]) (durableAfter durable H n) s ∧ Frame s₀ [b] s)
      (fun _ s => Inv mode H n s ∧ Frame s₀ [] s)
      (Keeps mode (H.given ++ [appends.map PageAppend.change]) n) := by
  unfold appendPagesInner
  refine Meets.bind (Q := fun grown s => s = s₀ ∧ grow appends s₀ = .ok grown)
    (Meets.attempt ?_ ?_) fun grown => ?_
  · rintro s rfl grown hg
    exact ⟨rfl, hg⟩
  · rintro s rfl e _
    exact ⟨hinv, Frame.refl s⟩
  refine Meets.assuming (p := grow appends s₀ = .ok grown) (fun s h => h.2) fun hgrow => ?_
  have hgrown := grow_grew hgrow
  refine Meets.bind ((logChanges_meets hinv appends PageAppend.change _ (fun append => rfl)
    (by simpa using hloggable) (List.prefix_append _ _)).pre fun s h => h.1) fun lsns =>
    Meets.exists_pre fun b => ?_
  refine Meets.assuming (p := b.map CommittedWrite.change = appends.map PageAppend.change ∧
      b.map CommittedWrite.lsn = lsns) (fun s h => ⟨h.changes, h.lsns⟩) fun ⟨hchg, hlsns⟩ => ?_
  have hgiven : (H ++ [b]).given = H.given ++ [appends.map PageAppend.change] := by
    simp [History.given, hchg]
  have hfrom : ∀ w ∈ b, ∃ append ∈ appends, append.pageId = w.pageId ∧
      w.appendAt = some append.offset ∧ append.payload = w.payload := by
    intro w hw
    have hmem : w.change ∈ appends.map PageAppend.change := hchg ▸ List.mem_map_of_mem hw
    obtain ⟨append, happend, heq⟩ := List.mem_map.mp hmem
    simp only [PageAppend.change, CommittedWrite.change, Change.mk.injEq] at heq
    exact ⟨append, happend, heq.1, heq.2.2.symm, heq.2.1⟩
  rw [show appends.length = (appends.map PageAppend.change).length by simp]
  refine Meets.bind (commit_meets hloggable ?_ ?_) fun _ => ?_
  · intro w hw
    obtain ⟨append, happend, -, hat, hpay⟩ := hfrom w hw
    simp only [CommittedWrite.Fits, hat]
    rw [← hpay]
    exact hgrown.short append happend
  · intro w hw ht
    obtain ⟨append, happend, hid, -⟩ := hfrom w hw
    rw [← hid]
    exact Or.inr (htear ht append happend)
  refine Meets.bind (syncIfDurable_meets durable (Nat.le_refl n) (hgiven ▸ List.prefix_refl _))
    fun _ => ?_
  rw [newest_eq hchg hlsns]
  obtain ⟨hnodup, hwalk⟩ := walk_grown hgrown hchg order
  have hall : toPages (order.walk grown.keys) b = b := by
    refine List.filter_eq_self.mpr fun w hw => ?_
    simpa using (hwalk w.pageId).mpr ⟨w, hw, rfl⟩
  refine Meets.bind (Q := fun _ => Publishing mode H (durableAfter durable H n) s₀ b b)
    ?_ fun _ => Meets.pure fun s h => ⟨b, hchg, h.inv⟩
  have hloop := Meets.forEach (l := order.walk grown.keys)
    (f := publishAppend appends grown (newestOf b)) (E := fun _ _ => False)
    (C := Keeps mode (H.given ++ [appends.map PageAppend.change]) n)
    (I := fun done _ => Publishing mode H (durableAfter durable H n) s₀ b (toPages done b))
    fun done id rest _ hsplit => publishAppend_meets hgrown
      (fun _ _ hg => hgrown.contents hinv hloggable hg) hchg
      ((hwalk id).mp (by rw [hsplit]; simp)) (by
        rw [hsplit] at hnodup
        exact fun hin => (List.nodup_append.mp hnodup).2.2 id hin id (by simp) rfl)
  rw [hall] at hloop
  refine hloop.conseq (fun s h => ?_) (fun _ _ h => h) (fun _ _ h => h.elim) (fun _ h => h)
  simpa [toPages] using h.publishing

end QuantaDb
