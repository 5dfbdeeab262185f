import QuantaDb.Index.Capacity
import QuantaDb.Index.Editor

/-!
# QuantaDb.Index.Edits

What one edit does to the tree.

`Editor.Inv` says that the overlay is on pages that were not in use before the edit,
`Forest` that the editor reads some subtrees of one level.  An edit below a node puts
a forest in its place whose entries are those of the node with the mutation applied
(`edit_spec`); all other subtrees are read as before (`Extends`).
-/

namespace QuantaDb.Index

open Fallible Ordered Std

variable {pages : PageTable} {before : PageAllocator}

/-! ## leaves -/

/-- The entry that a mutation leaves at its key. -/
def entryFor (key : Bytes) (value : Option PageId) : Option IndexEntry :=
  value.map fun value => ⟨key, value⟩

theorem key_entryFor {key : Bytes} {value : Option PageId} :
    ∀ entry ∈ entryFor key value, entry.key = key := by
  intro entry hentry
  obtain ⟨v, -, rfl⟩ := Option.map_eq_some_iff.mp hentry
  rfl

variable {key : Bytes} {value : Option PageId} {entries : List IndexEntry}

/-- The keys after a mutation fit if those before it and its own do. -/
theorem fits_put (hkeys : ∀ e ∈ entries, Fits e.key) (hkey : ∀ v, value = some v → Fits key) :
    ∀ e ∈ put IndexEntry.key key (entryFor key value) entries, Fits e.key := by
  intro e he
  rcases mem_put.mp he with ⟨he, -⟩ | he
  · exact hkeys e he
  · obtain ⟨v, rfl, -⟩ := Option.map_eq_some_iff.mp he
    exact key_entryFor e he ▸ hkey v rfl

/-- How the count changes. -/
def DeltaFor (key : Bytes) (value : Option PageId) (entries : List IndexEntry) : Delta → Prop
  | .removed => value = none ∧ (find IndexEntry.key key entries).isSome = true
  | .same => value.isSome = true ∧ (find IndexEntry.key key entries).isSome = true
  | .added => value.isSome = true ∧ find IndexEntry.key key entries = none

/-- A leaf without the key of a mutation. -/
theorem find_eq_none_of_above (hinc : Increasing IndexEntry.key entries) {entry : IndexEntry}
    {after : List IndexEntry} (habove : above IndexEntry.key key entries = entry :: after)
    (hne : entry.key ≠ key) :
    find IndexEntry.key key entries = none := by
  have hsub : Increasing IndexEntry.key (below IndexEntry.key key entries ++
      above IndexEntry.key key entries) := by rwa [below_append_above]
  have hinc' := (Increasing.append_iff.mp hsub).2.1
  have hlt : key < entry.key :=
    Std.lt_of_le_of_ne (le_of_mem_above hinc (habove ▸ List.mem_cons_self)) (Ne.symm hne)
  rw [← find_above, habove]
  rw [habove] at hinc'
  refine find_none_of_gt fun e he => ?_
  rcases List.mem_cons.mp he with rfl | he
  · exact hlt
  · exact Std.lt_trans hlt ((List.pairwise_cons.mp hinc').1 e he)

theorem find_isSome_of_above {entry : IndexEntry} {after : List IndexEntry}
    (habove : above IndexEntry.key key entries = entry :: after) (heq : entry.key = key) :
    (find IndexEntry.key key entries).isSome = true := by
  rw [← find_above, habove, ← heq, find_cons_self]
  rfl

/-- **A leaf** after a mutation. -/
theorem editLeaf_some {entries' : List IndexEntry} {delta : Delta}
    (hinc : Increasing IndexEntry.key entries)
    (h : editLeaf key value entries = some (entries', delta)) :
    entries' = put IndexEntry.key key (entryFor key value) entries ∧
      DeltaFor key value entries delta := by
  unfold editLeaf at h
  split at h
  · next entry after v habove =>
    split at h
    · next heq =>
      obtain ⟨rfl, rfl⟩ := Prod.mk.inj (Option.some.inj h)
      refine ⟨?_, rfl, find_isSome_of_above habove heq⟩
      rw [put, filter_above_eq hinc habove heq, heq]
      rfl
    · next hne =>
      obtain ⟨rfl, rfl⟩ := Prod.mk.inj (Option.some.inj h)
      have hnone := find_eq_none_of_above hinc habove hne
      refine ⟨?_, rfl, hnone⟩
      rw [put, filter_above_self hnone, habove]
      rfl
  · next v habove =>
    obtain ⟨rfl, rfl⟩ := Prod.mk.inj (Option.some.inj h)
    refine ⟨?_, rfl, ?_⟩
    · rw [put, habove]
      rfl
    · rw [← find_above, habove]
      rfl
  · next entry after habove =>
    split at h
    · next heq =>
      obtain ⟨rfl, rfl⟩ := Prod.mk.inj (Option.some.inj h)
      refine ⟨?_, rfl, find_isSome_of_above habove heq⟩
      rw [put, filter_above_eq hinc habove heq]
      rfl
    · cases h
  · cases h

/-- A deletion that finds nothing. -/
theorem editLeaf_none (hinc : Increasing IndexEntry.key entries)
    (h : editLeaf key value entries = none) :
    value = none ∧ find IndexEntry.key key entries = none := by
  unfold editLeaf at h
  split at h
  · split at h <;> cases h
  · cases h
  · next entry after habove =>
    split at h
    · cases h
    · next hne => exact ⟨rfl, find_eq_none_of_above hinc habove hne⟩
  · next habove =>
    refine ⟨rfl, ?_⟩
    rw [← find_above, habove]
    rfl

/-! ## the editor -/

namespace Editor

/-- The node that an editor reads. -/
def node (pages : PageTable) (editor : Editor) (page : PageId) : Option Node :=
  (editor.read pages page).toOption

variable {editor : Editor}

theorem node_eq_some {page : PageId} {n : Node} :
    editor.node pages page = some n ↔ editor.read pages page = .ok n := by
  unfold node
  cases editor.read pages page <;> simp [Except.toOption]

theorem node_of_overlay {editor : Editor} {page : PageId} {n : Node}
    (h : editor.overlay[page]? = some n) : editor.node pages page = some n := by
  rw [node_eq_some, read, h]

/-- The overlay is on pages of its own. -/
structure Inv (before : PageAllocator) (editor : Editor) : Prop where
  pooled : editor.allocator.Pooled
  bounded : editor.allocator.nextPageId < 2 ^ 64
  kept : ∀ id, before.InUse id → editor.allocator.InUse id
  fresh : ∀ (id : PageId) (n : Node), editor.overlay[id]? = some n →
    ¬before.InUse id ∧ editor.allocator.InUse id
  sound : ∀ (id : PageId) (n : Node), editor.overlay[id]? = some n → n.Sound

/-- Pages in use stay, and are read as before. -/
structure Extends (editor editor' : Editor) : Prop where
  root : editor'.root = editor.root
  inUse : ∀ id, editor.allocator.InUse id → editor'.allocator.InUse id
  same : ∀ id, editor.allocator.InUse id → editor'.overlay[id]? = editor.overlay[id]?

theorem Extends.refl (editor : Editor) : editor.Extends editor :=
  ⟨rfl, fun _ h => h, fun _ _ => rfl⟩

theorem Extends.trans {a b c : Editor} (h : a.Extends b) (h' : b.Extends c) : a.Extends c :=
  ⟨h'.root.trans h.root, fun id hid => h'.inUse id (h.inUse id hid),
    fun id hid => (h'.same id (h.inUse id hid)).trans (h.same id hid)⟩

variable {editor' : Editor}

theorem Extends.node_eq (h : editor.Extends editor') {id : PageId}
    (hid : editor.allocator.InUse id) : editor'.node pages id = editor.node pages id := by
  rw [node, node, read, read, h.same id hid]

/-- The pages taken in between hold nodes that fit. -/
def NewFits (editor editor' : Editor) : Prop :=
  ∀ id, editor'.allocator.InUse id → editor.allocator.InUse id ∨
    ∃ n, editor'.overlay[id]? = some n ∧ n.encodedLength ≤ maxPagePayload

theorem NewFits.refl (editor : Editor) : editor.NewFits editor := fun _ h => .inl h

theorem NewFits.trans {a b c : Editor} (h : a.NewFits b) (h' : b.NewFits c) (hext : b.Extends c) :
    a.NewFits c := by
  intro id hid
  rcases h' id hid with hid | hnew
  · rcases h id hid with hold | ⟨n, hn, hfits⟩
    · exact .inl hold
    · exact .inr ⟨n, (hext.same id hid).trans hn, hfits⟩
  · exact .inr hnew

theorem ne_noPage (h : editor.allocator.nextPageId < 2 ^ 64) {id : PageId}
    (hid : editor.allocator.InUse id) : id ≠ noPage := by
  rintro rfl
  have hlt := hid.1
  have hno : noPage.toNat = 2 ^ 64 - 1 := rfl
  omega

theorem allocate_spec {n : Node} {page : PageId} (hinv : editor.Inv before) (hsound : n.Sound)
    (h : editor.allocate n = .ok (page, editor')) :
    editor'.Inv before ∧ editor.Extends editor' ∧
      Reserved editor.allocator editor'.allocator [page] ∧ editor'.overlay[page]? = some n ∧
      ∀ id, id ≠ page → editor'.overlay[id]? = editor.overlay[id]? := by
  obtain ⟨⟨ids, allocator⟩, hreserve, h⟩ := bind_eq_ok.mp h
  obtain ⟨hlen, hreserved⟩ := reservePageIds_ok hinv.pooled hreserve
  obtain ⟨id, rfl⟩ := List.length_eq_one_iff.mp hlen
  obtain ⟨rfl, rfl⟩ := Prod.mk.inj (Except.ok.inj h)
  have hget : ∀ other, (editor.overlay.insert id n)[other]? =
      if id = other then some n else editor.overlay[other]? :=
    fun other => TreeMaps.get_insert _ _ _ _
  have huse := hreserved.inUse
  have hfresh : ¬editor.allocator.InUse id := hreserved.fresh id (List.mem_singleton_self id)
  refine ⟨⟨hreserved.pooled, hreserved.bounded, fun other hother => ?_, fun other m hm => ?_,
    fun other m hm => ?_⟩, ⟨rfl, fun other hother => (huse other).mpr (.inl hother), ?_⟩, hreserved,
    ?_, ?_⟩
  · exact (huse other).mpr (.inl (hinv.kept other hother))
  · simp only [hget] at hm
    split at hm
    · next heq =>
      subst heq
      exact ⟨fun hb => hfresh (hinv.kept id hb),
        (huse id).mpr (.inr (List.mem_singleton_self id))⟩
    · exact ⟨(hinv.fresh other m hm).1, (huse other).mpr (.inl (hinv.fresh other m hm).2)⟩
  · simp only [hget] at hm
    split at hm
    · cases hm
      exact hsound
    · exact hinv.sound other m hm
  · intro other hother
    simp only [hget]
    rw [if_neg]
    rintro rfl
    exact hfresh hother
  · simp only [hget, if_pos]
  · intro other hne
    simp only [hget, if_neg (Ne.symm hne)]

/-- **Allocating nodes** one after another. -/
theorem allocateAll_spec {nodes : List (Bytes × Node)} {children : List Child}
    (hinv : editor.Inv before) (hsound : ∀ n ∈ nodes, n.2.Sound)
    (h : editor.allocateAll nodes = .ok (children, editor')) :
    ∃ ids, ids.length = nodes.length ∧ editor'.Inv before ∧ editor.Extends editor' ∧
      Reserved editor.allocator editor'.allocator ids ∧
      children = List.zipWith (fun n id => (n.1, id)) nodes ids ∧
      ∀ n id, (n, id) ∈ nodes.zip ids → editor'.overlay[id]? = some n.2 := by
  induction nodes generalizing editor children with
  | nil =>
    obtain ⟨rfl, rfl⟩ := Prod.mk.inj (Except.ok.inj h)
    exact ⟨[], rfl, hinv, Extends.refl _,
      ⟨List.nodup_nil, by simp, by simp, hinv.pooled, hinv.bounded⟩, rfl, by simp⟩
  | cons n nodes ih =>
    rw [List.forall_mem_cons] at hsound
    obtain ⟨⟨page, middle⟩, hfirst, h⟩ := bind_eq_ok.mp h
    obtain ⟨⟨rest, last⟩, hrest, h⟩ := bind_eq_ok.mp h
    obtain ⟨rfl, rfl⟩ := Prod.mk.inj (Except.ok.inj h)
    obtain ⟨hinv₁, hext₁, hres₁, hpage, -⟩ := allocate_spec hinv hsound.1 hfirst
    obtain ⟨ids, hlen, hinv₂, hext₂, hres₂, rfl, hnodes⟩ := ih hinv₁ hsound.2 hrest
    refine ⟨page :: ids, by simp [hlen], hinv₂, hext₁.trans hext₂, hres₁.append hres₂, rfl, ?_⟩
    intro m id hmem
    rcases List.mem_cons.mp hmem with heq | hmem
    · cases heq
      rw [hext₂.same page ((hres₁.inUse page).mpr (.inr (List.mem_singleton_self page))), hpage]
    · exact hnodes m id hmem

theorem newFits_of_allocateAll {nodes : List (Bytes × Node)} {ids : List PageId}
    (hlen : ids.length = nodes.length) (hres : Reserved editor.allocator editor'.allocator ids)
    (hnodes : ∀ n id, (n, id) ∈ nodes.zip ids → editor'.overlay[id]? = some n.2)
    (hfits : ∀ n ∈ nodes, n.2.encodedLength ≤ maxPagePayload) : editor.NewFits editor' := by
  intro id hid
  rcases (hres.inUse id).mp hid with hold | hid
  · exact .inl hold
  · have hid' : id ∈ (nodes.zip ids).map Prod.snd := by
      rwa [List.map_snd_zip (Nat.le_of_eq hlen)]
    obtain ⟨⟨n, page⟩, hmem, rfl⟩ := List.mem_map.mp hid'
    exact .inr ⟨n.2, hnodes n page hmem, hfits n (List.of_mem_zip hmem).1⟩

end Editor

/-! ## forests -/

/-- The first key of a node is that of its first child. -/
theorem FitsBound.first {firstKey bound : Bytes} {t first : Subtree} {rest : List (Bytes × Subtree)}
    (h : FitsBound (firstKey, t)) (hentries : t.entries = entriesOf ((bound, first) :: rest))
    (hsep : Separated ((bound, first) :: rest)) (hfirst : ∀ e ∈ first.entries, firstKey ≤ e.key)
    (hne : first.entries ≠ []) : FitsBound (firstKey, first) := by
  obtain ⟨e, he, hkey⟩ := h.attained
  refine ⟨h.fits, e, ?_, hkey⟩
  rw [hentries, entriesOf_cons] at he
  rcases List.mem_append.mp he with he | he
  · exact he
  · -- an entry of another child is above those of the first
    obtain ⟨d, hd, he⟩ := mem_entriesOf.mp he
    obtain ⟨low, hlow⟩ := List.exists_mem_of_ne_nil _ hne
    have hlt := (List.pairwise_cons.mp hsep.apart).1 d hd low hlow
    have hle := hsep.bounded d (List.mem_cons_of_mem _ hd) e he
    rw [hkey] at hle
    exact absurd (Std.lt_of_lt_of_le hlt hle) (Std.not_lt.mpr (hfirst low hlow))

/-- A child with a bound of its own, whose pages are new at the top or all old. -/
def Mixed (before : PageAllocator) (editor : Editor) (c : Bytes × Subtree) : Prop :=
  FitsBound c ∧ ((editor.overlay[c.2.page]?).isSome = true ∨ ∀ id ∈ c.2.pages, before.InUse id)

/-- The editor reads some subtrees of one level. -/
structure Forest (pages : PageTable) (before : PageAllocator) (editor : Editor) (level : Nat)
    (subs : List (Bytes × Subtree)) : Prop where
  holds : ∀ c ∈ subs, Mixed before editor c ∧
    Holds (Mixed before editor) (editor.node pages) level c.2
  separated : Separated subs
  nodup : (pagesOf subs).Nodup
  inUse : ∀ id ∈ pagesOf subs, editor.allocator.InUse id

namespace Forest

variable {editor editor' : Editor} {level : Nat} {subs : List (Bytes × Subtree)}

theorem ne_nil (h : Forest pages before editor level subs) : ∀ c ∈ subs, c.2.entries ≠ [] :=
  fun c hc => (h.holds c hc).2.ne_nil

theorem mixed_extends (hext : editor.Extends editor') (hinv : editor.Inv before)
    {c : Bytes × Subtree} (h : Mixed before editor c) : Mixed before editor' c := by
  refine ⟨h.1, h.2.imp_left fun hsome => ?_⟩
  obtain ⟨n, hn⟩ := Option.isSome_iff_exists.mp hsome
  rw [hext.same _ (hinv.fresh _ n hn).2]
  exact hsome

theorem grow (hext : editor.Extends editor') (hinv : editor.Inv before)
    (h : Forest pages before editor level subs) : Forest pages before editor' level subs := by
  refine ⟨fun c hc => ⟨mixed_extends hext hinv (h.holds c hc).1, ?_⟩, h.separated, h.nodup,
    fun id hid => hext.inUse id (h.inUse id hid)⟩
  refine ((h.holds c hc).2.mono fun d => mixed_extends hext hinv).congr fun id hid => ?_
  exact hext.node_eq (h.inUse id (List.mem_flatMap.mpr ⟨c, hc, hid⟩))

/-- Other subtrees in the place of one. -/
theorem splice {pre post : List (Bytes × Subtree)} {c : Bytes × Subtree}
    (hext : editor.Extends editor') (hinv : editor.Inv before)
    (h : Forest pages before editor level (pre ++ c :: post))
    (hsubs : Forest pages before editor' level subs)
    (howned : ∀ id ∈ pagesOf subs, id ∈ c.2.pages ∨ ¬editor.allocator.InUse id)
    (hpre : ∀ a ∈ pre, ∀ d ∈ subs, ∀ e ∈ a.2.entries, e.key < d.1)
    (hpost : ∀ a ∈ subs, ∀ d ∈ post, ∀ e ∈ a.2.entries, e.key < d.1) :
    Forest pages before editor' level (pre ++ (subs ++ post)) := by
  have h' := h.grow hext hinv
  obtain ⟨hseppre, hsepc, hprec⟩ := Separated.append_iff.mp h.separated
  have hseppost : Separated post :=
    ⟨fun d hd => hsepc.bounded d (List.mem_cons_of_mem _ hd), (List.pairwise_cons.mp hsepc.apart).2⟩
  have hnodup := h.nodup
  have hinUse := h.inUse
  rw [pagesOf_append, pagesOf_cons] at hnodup hinUse
  obtain ⟨hnpre, hncpost, hdpre⟩ := List.nodup_append.mp hnodup
  obtain ⟨-, hnpost, hdpost⟩ := List.nodup_append.mp hncpost
  refine ⟨fun d hd => ?_, ?_, ?_, fun id hid => ?_⟩
  · rcases List.mem_append.mp hd with hd | hd
    · exact h'.holds d (List.mem_append_left _ hd)
    · rcases List.mem_append.mp hd with hd | hd
      · exact hsubs.holds d hd
      · exact h'.holds d (List.mem_append_right _ (List.mem_cons_of_mem _ hd))
  · refine Separated.append_iff.mpr ⟨hseppre,
      Separated.append_iff.mpr ⟨hsubs.separated, hseppost, hpost⟩, fun a ha d hd => ?_⟩
    rcases List.mem_append.mp hd with hd | hd
    · exact hpre a ha d hd
    · exact hprec a ha d (List.mem_cons_of_mem _ hd)
  · rw [pagesOf_append, pagesOf_append, List.nodup_append, List.nodup_append]
    refine ⟨hnpre, ⟨hsubs.nodup, hnpost, ?_⟩, ?_⟩
    · rintro id hid _ hid' rfl
      rcases howned id hid with hc | hfresh
      · exact hdpost id hc id hid' rfl
      · exact hfresh (hinUse id (by simp [hid']))
    · rintro id hid _ hid' rfl
      rcases List.mem_append.mp hid' with hid' | hid'
      · rcases howned id hid' with hc | hfresh
        · exact hdpre id hid id (List.mem_append_left _ hc) rfl
        · exact hfresh (hinUse id (by simp [hid]))
      · exact hdpre id hid id (List.mem_append_right _ hid') rfl
  · rw [pagesOf_append, pagesOf_append, List.mem_append, List.mem_append] at hid
    rcases hid with hid | hid | hid
    · exact hext.inUse id (hinUse id (by simp [hid]))
    · exact hsubs.inUse id hid
    · exact hext.inUse id (hinUse id (by simp [hid]))

end Forest

namespace Editor

variable {editor editor' : Editor}

theorem zipWith_children {α : Type} (node : α → Bytes × Node) (groups : List α) (ids : List PageId)
    (tree : α → PageId → Bytes × Subtree) (h : ∀ g id, toChild (tree g id) = ((node g).1, id)) :
    List.zipWith (fun n id => (n.1, id)) (groups.map node) ids =
      (List.zipWith tree groups ids).map toChild := by
  rw [List.zipWith_map_left, List.map_zipWith]
  simp only [h]

variable {children : List Child}

/-- **New leaves.** -/
theorem makeLeaves_spec {entries : List IndexEntry} (hinv : editor.Inv before)
    (hinc : Increasing IndexEntry.key entries) (hkeys : ∀ e ∈ entries, Fits e.key)
    (h : editor.makeLeaves entries = .ok (children, editor')) :
    ∃ subs, children = subs.map toChild ∧ editor'.Inv before ∧ editor.Extends editor' ∧
      Forest pages before editor' 0 subs ∧ entriesOf subs = entries ∧
      (∀ id ∈ pagesOf subs, ¬editor.allocator.InUse id) ∧
      (∀ c ∈ subs, ∃ e ∈ entries, c.1 = e.key) ∧ editor.NewFits editor' ∧
      ∀ cut : List (Group IndexEntry), (∀ g ∈ cut, g.LeafFits) →
        cut.flatMap Group.toList = entries → subs.length ≤ cut.length := by
  obtain ⟨groups, hpart, h⟩ := bind_eq_ok.mp h
  obtain ⟨_, hpart', hflat, hgfits⟩ := partitionLeaves_ok hkeys
  obtain rfl := Except.ok.inj (hpart.symm.trans hpart')
  have hginc : ∀ g ∈ groups, Increasing IndexEntry.key g.toList := by
    intro g hg
    refine List.Pairwise.sublist ?_ hinc
    rw [← hflat, List.flatMap_def]
    exact List.sublist_flatten_of_mem (List.mem_map_of_mem hg)
  have hfirst : ∀ g ∈ groups, g.first ∈ entries := fun g hg =>
    hflat ▸ List.mem_flatMap.mpr ⟨g, hg, List.mem_cons_self⟩
  have hsound : ∀ n ∈ groups.map fun g => (g.first.key, Node.leaf g.toList none), n.2.Sound := by
    intro n hn
    obtain ⟨g, hg, rfl⟩ := List.mem_map.mp hn
    exact ⟨hginc g hg, by simp⟩
  obtain ⟨ids, hlen, hinv', hext, hres, rfl, hnodes⟩ := allocateAll_spec hinv hsound h
  rw [List.length_map] at hlen
  have hpages := pagesOf_leafTrees hlen
  refine ⟨leafTrees groups ids, ?_, hinv', hext,
    ⟨fun c hc => ?_, separated_leafTrees (hflat ▸ hinc),
    by rw [hpages]; exact hres.nodup, ?_⟩, by rw [entriesOf_leafTrees hlen, hflat], ?_,
    fun c hc => ?_, newFits_of_allocateAll (by rw [List.length_map, hlen]) hres hnodes ?_,
    fun cut hcut hflat' => ?_⟩
  · exact zipWith_children _ groups ids leafTree fun g id => rfl
  · obtain ⟨g, id, hmem, rfl⟩ := mem_zipWith hc
    have hg := (List.of_mem_zip hmem).1
    have hover : editor'.overlay[id]? = some (.leaf g.toList none) := by
      refine hnodes (g.first.key, .leaf g.toList none) id ?_
      rw [List.zip_map_left]
      exact List.mem_map.mpr ⟨(g, id), hmem, rfl⟩
    refine ⟨⟨.leaf (hkeys _ (hfirst g hg)) id, .inl ?_⟩,
      holds_leafTree (hginc g hg) (node_of_overlay hover)⟩
    rw [leafTree, hover]
    rfl
  · rw [hpages]
    exact fun id hid => (hres.inUse id).mpr (.inr hid)
  · rw [hpages]
    exact hres.fresh
  · obtain ⟨g, id, hmem, rfl⟩ := mem_zipWith hc
    exact ⟨g.first, hfirst g (List.of_mem_zip hmem).1, rfl⟩
  · intro n hn
    obtain ⟨g, hg, rfl⟩ := List.mem_map.mp hn
    rw [encodedLength_leaf]
    exact hgfits g hg
  · subst hflat'
    simpa [leafTrees, hlen] using partitionLeaves_le hcut hpart

variable {level : Nat}

/-- **A new level** over a forest. -/
theorem makeInternalLevel_spec {below : List (Bytes × Subtree)} (hinv : editor.Inv before)
    (hforest : Forest pages before editor level below) (hlevel : level + 1 < 2 ^ 16)
    (h : editor.makeInternalLevel (level + 1) (below.map toChild) = .ok (children, editor')) :
    ∃ subs, children = subs.map toChild ∧ editor'.Inv before ∧ editor.Extends editor' ∧
      Forest pages before editor' (level + 1) subs ∧ entriesOf subs = entriesOf below ∧
      (∀ id ∈ pagesOf subs, id ∈ pagesOf below ∨ ¬editor.allocator.InUse id) ∧
      (∀ c ∈ subs, ∃ d ∈ below, c.1 = d.1) ∧ editor.NewFits editor' ∧
      2 * subs.length ≤ below.length + 1 ∧
      ∀ cut : List (Group Child), (∀ g ∈ cut, g.InternalFits) →
        cut.flatMap Group.toList = below.map toChild → subs.length ≤ cut.length := by
  obtain ⟨groups', hpart, h⟩ := bind_eq_ok.mp h
  have hkeys : ∀ child ∈ below.map toChild, Fits child.1 := by
    intro child hchild
    obtain ⟨c, hc, rfl⟩ := List.mem_map.mp hchild
    exact (hforest.holds c hc).1.1.fits
  obtain ⟨_, hpart', hflat, hgfits, hhalf⟩ := partitionInternal_ok hkeys
  obtain rfl := Except.ok.inj (hpart.symm.trans hpart')
  obtain ⟨groups, rfl, rfl⟩ := groups_of_map hflat
  rw [List.length_map, List.length_map] at hhalf
  have hsub : ∀ g ∈ groups, ∀ c ∈ g.toList, c ∈ groups.flatMap Group.toList :=
    fun g hg c hc => List.mem_flatMap.mpr ⟨g, hg, hc⟩
  have hgsep : ∀ g ∈ groups, Separated g.toList := by
    intro g hg
    refine ⟨fun c hc => hforest.separated.bounded c (hsub g hg c hc), ?_⟩
    refine hforest.separated.apart.sublist ?_
    rw [List.flatMap_def]
    exact List.sublist_flatten_of_mem (List.mem_map_of_mem hg)
  have hkids : ∀ g ∈ groups, ∀ c ∈ g.toList, (toChild c).2 ≠ noPage := by
    intro g hg c hc
    refine ne_noPage hinv.bounded (hforest.inUse _ (List.mem_flatMap.mpr ⟨c, hsub g hg c hc, ?_⟩))
    exact (hforest.holds c (hsub g hg c hc)).2.mem_pages
  have hsound : ∀ n ∈ (groups.map (Group.map toChild)).map
      fun g => (g.first.1, internalNode (level + 1) g), n.2.Sound := by
    intro n hn
    obtain ⟨g', hg', rfl⟩ := List.mem_map.mp hn
    obtain ⟨g, hg, rfl⟩ := List.mem_map.mp hg'
    have hinc := (hgsep g hg).increasing_bounds fun c hc => hforest.ne_nil c (hsub g hg c hc)
    refine ⟨Nat.succ_pos _, hlevel, hkids g hg g.first List.mem_cons_self, ?_, ?_⟩
    · intro separator hsep
      obtain ⟨c, hc, rfl⟩ := List.mem_map.mp hsep
      exact hkids g hg c (List.mem_cons_of_mem _ hc)
    · exact List.pairwise_map.mpr (List.pairwise_cons.mp hinc).2
  obtain ⟨ids, hlen, hinv', hext, hres, rfl, hnodes⟩ := allocateAll_spec hinv hsound h
  rw [List.length_map, List.length_map] at hlen
  have hperm := pagesOf_parentTrees hlen
  have hforest' := hforest.grow hext hinv
  refine ⟨parentTrees groups ids, ?_, hinv', hext, ⟨fun c hc => ?_,
    separated_parentTrees hforest.separated hforest.ne_nil, ?_, fun id hid => ?_⟩,
    entriesOf_parentTrees hlen, fun id hid => ?_, fun c hc => ?_,
    newFits_of_allocateAll (by rw [List.length_map, List.length_map, hlen]) hres hnodes ?_,
    by rwa [length_parentTrees hlen], fun cut hcut hflat' => ?_⟩
  · rw [List.map_map]
    exact zipWith_children _ groups ids parentTree fun g id => rfl
  · obtain ⟨g, id, hmem, rfl⟩ := mem_zipWith hc
    have hg := (List.of_mem_zip hmem).1
    have hover : editor'.overlay[id]? = some (internalNode (level + 1) (g.map toChild)) := by
      refine hnodes ((g.map toChild).first.1, internalNode (level + 1) (g.map toChild)) id ?_
      rw [List.map_map, List.zip_map_left]
      exact List.mem_map.mpr ⟨(g, id), hmem, rfl⟩
    refine ⟨⟨(hforest.holds g.first (hsub g hg _ List.mem_cons_self)).1.1.parent id, .inl ?_⟩,
      holds_parentTree (hgsep g hg) (fun c hc => hforest'.holds c (hsub g hg c hc))
        (node_of_overlay hover)⟩
    rw [parentTree, hover]
    rfl
  · rw [hperm.nodup_iff, List.nodup_append]
    refine ⟨hres.nodup, hforest.nodup, ?_⟩
    rintro id hid _ hid' rfl
    exact hres.fresh id hid (hforest.inUse id hid')
  · rcases List.mem_append.mp (hperm.mem_iff.mp hid) with hid | hid
    · exact (hres.inUse id).mpr (.inr hid)
    · exact hforest'.inUse id hid
  · rcases List.mem_append.mp (hperm.mem_iff.mp hid) with hid | hid
    · exact .inr (hres.fresh id hid)
    · exact .inl hid
  · obtain ⟨g, id, hmem, rfl⟩ := mem_zipWith hc
    exact ⟨g.first, hsub g (List.of_mem_zip hmem).1 _ List.mem_cons_self, rfl⟩
  · intro n hn
    obtain ⟨g, hg, rfl⟩ := List.mem_map.mp hn
    rw [encodedLength_internal]
    exact hgfits g hg
  · rw [← hflat'] at hpart
    rw [length_parentTrees hlen]
    simpa using partitionInternal_le hcut hpart

variable {isRoot : Bool}

/-- **The way back** over one node. -/
theorem rebuild_spec {all : List (Bytes × Subtree)} {delta : Delta} {result : Option Edited}
    (hinv : editor.Inv before) (hforest : Forest pages before editor level all)
    (hlevel : level + 1 < 2 ^ 16)
    (h : editor.rebuild isRoot (level + 1) (all.map toChild) delta = .ok (result, editor')) :
    editor'.Inv before ∧ editor.Extends editor' ∧ ∃ edited subs, result = some edited ∧
      edited.delta = delta ∧ (isRoot = false → edited.collapsed = false) ∧
      edited.replacement = subs.map toChild ∧
      Forest pages before editor' (if edited.collapsed then level else level + 1) subs ∧
      entriesOf subs = entriesOf all ∧
      (∀ id ∈ pagesOf subs, id ∈ pagesOf all ∨ ¬editor.allocator.InUse id) ∧
      (∀ c ∈ subs, ∃ d ∈ all, c.1 = d.1) ∧ editor.NewFits editor' ∧
      2 * subs.length ≤ all.length + 1 ∧
      ∀ cut : List (Group Child), (∀ g ∈ cut, g.InternalFits) →
        cut.flatMap Group.toList = all.map toChild → subs.length ≤ cut.length := by
  unfold rebuild at h
  split at h
  · next hnil =>
    obtain ⟨rfl, rfl⟩ := Prod.mk.inj (Except.ok.inj h)
    have hall : all = [] := List.map_eq_nil_iff.mp hnil
    subst hall
    refine ⟨hinv, Extends.refl _, _, [], rfl, rfl, fun _ => rfl, rfl, ?_, rfl, by simp [pagesOf],
      by simp, NewFits.refl _, by simp, by simp⟩
    exact ⟨by simp, ⟨by simp, List.Pairwise.nil⟩, by simp [pagesOf], by simp [pagesOf]⟩
  · split at h
    · next hone =>
      obtain ⟨rfl, rfl⟩ := Prod.mk.inj (Except.ok.inj h)
      rw [List.length_map, Bool.and_eq_true, beq_iff_eq] at hone
      refine ⟨hinv, Extends.refl _, _, all, rfl, rfl, fun hroot => ?_, rfl, hforest, rfl,
        fun id hid => .inl hid, fun c hc => ⟨c, hc, rfl⟩, NewFits.refl _, by omega,
        fun cut _ hflat => ?_⟩
      · rw [hroot] at hone
        cases hone.1
      · have hne : cut ≠ [] := by
          rintro rfl
          have hnil : all = [] := by simpa using hflat.symm
          rw [hnil] at hone
          cases hone.2
        rw [hone.2]
        exact List.length_pos_of_ne_nil hne
    · obtain ⟨⟨children, last⟩, hmake, h⟩ := bind_eq_ok.mp h
      obtain ⟨rfl, rfl⟩ := Prod.mk.inj (Except.ok.inj h)
      obtain ⟨subs, rfl, hinv', hext, hrest⟩ := makeInternalLevel_spec hinv hforest hlevel hmake
      exact ⟨hinv', hext, _, subs, rfl, rfl, fun _ => rfl, rfl, hrest⟩

/-- What `edit` makes of the edit of a child. -/
def ascend (isRoot : Bool) (level : Nat) (pre post : List Child) :
    Except IndexError (Option Edited × Editor) → Except IndexError (Option Edited × Editor)
  | .error error => .error error
  | .ok (none, editor) => .ok (none, editor)
  | .ok (some edited, editor) =>
    editor.rebuild isRoot level (pre ++ edited.replacement ++ post) edited.delta

/-- What an edit puts in the place of a subtree. -/
structure Replaces (pages : PageTable) (before : PageAllocator) (editor editor' : Editor)
    (t : Subtree) (key : Bytes) (value : Option PageId) (firstKey : Bytes) (level : Nat)
    (edited : Edited) (subs : List (Bytes × Subtree)) : Prop where
  children : edited.replacement = subs.map toChild
  forest : Forest pages before editor' (if edited.collapsed then level - 1 else level) subs
  entries : entriesOf subs = put IndexEntry.key key (entryFor key value) t.entries
  delta : DeltaFor key value t.entries edited.delta
  owned : ∀ id ∈ pagesOf subs, (id ∈ t.pages ∧ id ≠ t.page) ∨ ¬editor.allocator.InUse id
  bound : ∀ x, x < firstKey → x < key → ∀ c ∈ subs, x < c.1
  deep : edited.collapsed = true → 0 < level
  few : subs.length ≤ 3

/-- Where the descent goes on below an internal node: the child of the key, the subtrees
before it and those after it. -/
structure Descent (pages : PageTable) (before : PageAllocator) (editor : Editor) (level : Nat)
    (t : Subtree) (key firstKey : Bytes) (pre : List (Bytes × Subtree)) (c : Bytes × Subtree)
    (post : List (Bytes × Subtree)) : Prop where
  forest : Forest pages before editor level (pre ++ c :: post)
  pages_eq : t.pages = t.page :: pagesOf (pre ++ c :: post)
  entries_eq : t.entries = entriesOf (pre ++ c :: post)
  pre_lt : ∀ e ∈ entriesOf pre, e.key < key
  post_lt : ∀ d ∈ post, key < d.1
  first_le : ∀ b ∈ pre ++ c :: post, firstKey ≤ b.1
  read : ∃ first rest, pre ++ c :: post = (firstKey, first) :: rest ∧
    editor.node pages t.page = some (.internal (level + 1) first.page (rest.map toChild))
  run : ∀ value isRoot, editor.edit pages key value isRoot (level + 1) t.page firstKey =
    ascend isRoot (level + 1) (pre.map toChild) (post.map toChild)
      (editor.edit pages key value false level c.2.page c.1)

variable {t : Subtree} {firstKey : Bytes}

theorem exists_descent (key : Bytes)
    (hholds : Holds (Mixed before editor) (editor.node pages) (level + 1) t)
    (huse : ∀ id ∈ t.pages, editor.allocator.InUse id) (hnodup : t.pages.Nodup)
    (hfirst : ∀ e ∈ t.entries, firstKey ≤ e.key) (hfit : FitsBound (firstKey, t)) :
    ∃ pre c post, Descent pages before editor level t key firstKey pre c post := by
  obtain ⟨bound, first, rest, hread, hpages, hentries, hsep, hall⟩ := hholds
  have hfirst' : ∀ e ∈ first.entries, firstKey ≤ e.key := fun e he =>
    hfirst e (by rw [hentries, entriesOf_cons]; exact List.mem_append_left _ he)
  have hsep' := hsep.rebound hfirst'
  have hbound := hfit.first hentries hsep hfirst' (hall _ List.mem_cons_self).2.ne_nil
  have hall' : ∀ c ∈ (firstKey, first) :: rest, Mixed before editor c ∧
      Holds (Mixed before editor) (editor.node pages) level c.2 := by
    intro c hc
    rcases List.mem_cons.mp hc with rfl | hc
    · exact ⟨⟨hbound, (hall _ List.mem_cons_self).1.2⟩, (hall _ List.mem_cons_self).2⟩
    · exact hall c (List.mem_cons_of_mem _ hc)
  have hbounds := hsep'.increasing_bounds fun c hc => (hall' c hc).2.ne_nil
  obtain ⟨pre, c, post, hroute, hsplit, -, hc, hpost⟩ := route_spec (k := key) hbounds (.inl rfl)
  rw [List.nil_append] at hsplit
  have hmap := route_map Subtree.page key [] (firstKey, first) rest
  rw [hroute] at hmap
  have hchosen : route key [] (firstKey, first.page) (rest.map toChild) =
      (pre.map toChild, toChild c, post.map toChild) := hmap
  have hpages' : t.pages = t.page :: pagesOf ((firstKey, first) :: rest) := hpages
  have hfirst_le : ∀ b ∈ (firstKey, first) :: rest, firstKey ≤ b.1 := by
    intro b hb
    rcases List.mem_cons.mp hb with rfl | hb
    · exact Std.le_refl _
    · exact Std.le_of_lt ((List.pairwise_cons.mp hbounds).1 b hb)
  rw [hpages'] at hnodup huse
  refine ⟨pre, c, post, ⟨hsplit ▸ hall', hsplit ▸ hsep', ?_, ?_⟩, hsplit ▸ hpages',
    hsplit ▸ hentries,
    fun e he => ?_, hpost, hsplit ▸ hfirst_le, ⟨first, rest, hsplit.symm, hread⟩,
    fun value isRoot => ?_⟩
  · exact hsplit ▸ (List.nodup_cons.mp hnodup).2
  · exact hsplit ▸ fun id hid => huse id (List.mem_cons_of_mem _ hid)
  · rw [hsplit] at hsep'
    obtain ⟨d, hd, he⟩ := mem_entriesOf.mp he
    rcases hc with rfl | hc
    · cases hd
    · exact Std.lt_of_lt_of_le
        ((Separated.append_iff.mp hsep').2.2 d hd c List.mem_cons_self e he) hc
  · rw [edit, node_eq_some.mp hread]
    simp only [Node.level, ne_eq, not_true_eq_false, if_false, hchosen]
    rfl

namespace Descent

variable {level : Nat} {t : Subtree} {key firstKey : Bytes} {pre post : List (Bytes × Subtree)}
  {c : Bytes × Subtree}

theorem mem (_ : Descent pages before editor level t key firstKey pre c post) :
    c ∈ pre ++ c :: post := List.mem_append_right _ List.mem_cons_self

theorem holds (h : Descent pages before editor level t key firstKey pre c post) :
    Holds (Mixed before editor) (editor.node pages) level c.2 := (h.forest.holds c h.mem).2

theorem fits (h : Descent pages before editor level t key firstKey pre c post) : FitsBound c :=
  (h.forest.holds c h.mem).1.1

theorem mem_pages (h : Descent pages before editor level t key firstKey pre c post) {id : PageId}
    (hid : id ∈ c.2.pages) : id ∈ pagesOf (pre ++ c :: post) :=
  (sublist_pagesOf h.mem).subset hid

theorem mem_entries (h : Descent pages before editor level t key firstKey pre c post)
    {e : IndexEntry} (he : e ∈ c.2.entries) : e ∈ t.entries := by
  rw [h.entries_eq]
  exact mem_entriesOf.mpr ⟨c, h.mem, he⟩

theorem nodup (h : Descent pages before editor level t key firstKey pre c post) :
    c.2.pages.Nodup := h.forest.nodup.sublist (sublist_pagesOf h.mem)

theorem post_entries (h : Descent pages before editor level t key firstKey pre c post) :
    ∀ e ∈ entriesOf post, key < e.key := by
  intro e he
  obtain ⟨d, hd, he⟩ := mem_entriesOf.mp he
  exact Std.lt_of_lt_of_le (h.post_lt d hd) (h.forest.separated.bounded d
    (List.mem_append_right _ (List.mem_cons_of_mem _ hd)) e he)

/-- The key is where it would be in the child. -/
theorem find_eq (h : Descent pages before editor level t key firstKey pre c post) :
    find IndexEntry.key key t.entries = find IndexEntry.key key c.2.entries := by
  rw [h.entries_eq, entriesOf_append, entriesOf_cons, find_append, find_none_of_lt h.pre_lt,
    Option.none_or, find_append, find_none_of_gt h.post_entries, Option.or_none]

/-- The subtrees after an edit of the child. -/
theorem splice (h : Descent pages before editor level t key firstKey pre c post)
    (hinv : editor.Inv before) (hext : editor.Extends editor') {value : Option PageId}
    {edited : Edited} {subs : List (Bytes × Subtree)} (hcollapsed : edited.collapsed = false)
    (hrep : Replaces pages before editor editor' c.2 key value c.1 level edited subs) :
    Forest pages before editor' level (pre ++ (subs ++ post)) := by
  have hforest := hrep.forest
  rw [hcollapsed] at hforest
  obtain ⟨-, hsepc, hprec⟩ := Separated.append_iff.mp h.forest.separated
  obtain ⟨hcpost, -⟩ := List.pairwise_cons.mp hsepc.apart
  refine Forest.splice hext hinv h.forest hforest
    (fun id hid => (hrep.owned id hid).imp_left And.left)
    (fun a ha d hd e he => ?_) fun a ha d hd e he => ?_
  · exact hrep.bound e.key (hprec a ha c List.mem_cons_self e he)
      (h.pre_lt e (mem_entriesOf.mpr ⟨a, ha, he⟩)) d hd
  · -- an entry of the replacement was in the child or has the key of the mutation
    have he' := mem_entriesOf.mpr ⟨a, ha, he⟩
    rw [hrep.entries] at he'
    rcases mem_put.mp he' with ⟨he', -⟩ | he'
    · exact hcpost d hd e he'
    · exact key_entryFor e he' ▸ h.post_lt d hd

end Descent

/-! ## how many pieces -/

/-- A node with three children. -/
def Ternary (n : Node) : Prop :=
  ∃ level first second third, n = .internal level first [second, third]

/-- The nodes of a subtree fit their pages; a new root may have three children that do not. -/
def Slim (pages : PageTable) (editor : Editor) (isRoot : Bool) (t : Subtree) : Prop :=
  ∀ id ∈ t.pages, ∀ n, editor.node pages id = some n →
    n.encodedLength ≤ maxPagePayload ∨
      (isRoot = true ∧ id = t.page ∧ editor.overlay[id]? = some n ∧ Ternary n)

/-- A list as at most one group. -/
def groupOf {α : Type} : List α → List (Group α)
  | [] => []
  | a :: as => [⟨a, as⟩]

theorem flatMap_groupOf {α : Type} (l : List α) : (groupOf l).flatMap Group.toList = l := by
  cases l <;> simp [groupOf, Group.toList]

theorem length_groupOf {α : Type} (l : List α) : (groupOf l).length ≤ 1 := by
  cases l <;> simp [groupOf]

theorem sizeOf_sublist {l m : List Bytes} (h : l.Sublist m) : sizeOf l ≤ sizeOf m :=
  (h.map entrySize).sum_le_sum fun _ _ => Nat.zero_le _

theorem leafFits_groupOf {l m : List IndexEntry} (h : l.Sublist m)
    (hfits : headerSize + sizeOf (m.map IndexEntry.key) ≤ maxPagePayload) :
    ∀ g ∈ groupOf l, g.LeafFits := by
  cases l with
  | nil => nofun
  | cons a as =>
    intro g hg
    obtain rfl := List.mem_singleton.mp hg
    exact Nat.le_trans (Nat.add_le_add_left (sizeOf_sublist (h.map IndexEntry.key)) _) hfits

/-- **Leaf pieces**: before the key, the key, after the key. -/
theorem put_cut {entries : List IndexEntry} {key : Bytes} {value : Option PageId}
    (hfits : headerSize + sizeOf (entries.map IndexEntry.key) ≤ maxPagePayload)
    (hkey : ∀ v, value = some v → Fits key) :
    ∃ cut : List (Group IndexEntry), (∀ g ∈ cut, g.LeafFits) ∧ cut.length ≤ 3 ∧
      cut.flatMap Group.toList = put IndexEntry.key key (entryFor key value) entries := by
  refine ⟨groupOf (below IndexEntry.key key entries) ++ (groupOf (entryFor key value).toList ++
    groupOf ((above IndexEntry.key key entries).filter fun b => decide (b.key ≠ key))), ?_, ?_, ?_⟩
  · intro g hg
    rcases List.mem_append.mp hg with hg | hg
    · exact leafFits_groupOf (List.takeWhile_sublist _) hfits g hg
    · rcases List.mem_append.mp hg with hg | hg
      · cases value with
        | none => cases hg
        | some v =>
          obtain rfl := List.mem_singleton.mp hg
          exact leafFits_singleton (hkey v rfl)
      · exact leafFits_groupOf (List.filter_sublist.trans (List.dropWhile_sublist _)) hfits g hg
  · have h₁ := length_groupOf (below IndexEntry.key key entries)
    have h₂ := length_groupOf (entryFor key value).toList
    have h₃ := length_groupOf
      ((above IndexEntry.key key entries).filter fun b => decide (b.key ≠ key))
    simp only [List.length_append]
    omega
  · simp only [List.flatMap_append, flatMap_groupOf]
    rfl

theorem internalFits_groupOf {child : Child} {l m : List Child} (h : l.Sublist (child :: m))
    (hfits : headerSize + sizeOf (m.map Prod.fst) ≤ maxPagePayload) :
    ∀ g ∈ groupOf l, g.InternalFits := by
  cases l with
  | nil => nofun
  | cons a as =>
    intro g hg
    obtain rfl := List.mem_singleton.mp hg
    exact Nat.le_trans (Nat.add_le_add_left (sizeOf_sublist (h.tail.map Prod.fst)) _) hfits

/-- **Node pieces**: what stands before the replacement, its first two, and the rest. -/
theorem splice_cut {pre subs post rest : List Child} {c first : Child}
    (hsplit : pre ++ c :: post = first :: rest)
    (hfits : headerSize + sizeOf (rest.map Prod.fst) ≤ maxPagePayload)
    (hkeys : ∀ child ∈ subs, Fits child.1) (hfew : subs.length ≤ 3) :
    ∃ cut : List (Group Child), (∀ g ∈ cut, g.InternalFits) ∧ cut.length ≤ 3 ∧
      cut.flatMap Group.toList = pre ++ (subs ++ post) := by
  have hpost : post.Sublist rest := by
    have hsub : (c :: post).Sublist (first :: rest) := hsplit ▸ List.sublist_append_right _ _
    exact hsub.tail
  refine ⟨groupOf pre ++ (groupOf (subs.take 2) ++ groupOf (subs.drop 2 ++ post)), ?_, ?_, ?_⟩
  · intro g hg
    rcases List.mem_append.mp hg with hg | hg
    · exact internalFits_groupOf (hsplit ▸ List.sublist_append_left _ _) hfits g hg
    · rcases List.mem_append.mp hg with hg | hg
      · -- beside the first of two there is room for the second
        rcases subs with _ | ⟨a, _ | ⟨b, rest⟩⟩
        · cases hg
        · exact List.mem_singleton.mp hg ▸ internalFits_singleton a
        · obtain rfl := List.mem_singleton.mp hg
          have hb : Fits b.1 := hkeys b (by simp)
          simpa [Group.InternalFits, sizeOf, Fits] using hb
      · -- the third takes no space before the children that stay
        have hlen : (subs.drop 2).length ≤ 1 := by
          rw [List.length_drop]
          omega
        rcases hdrop : subs.drop 2 with _ | ⟨third, _ | ⟨fourth, more⟩⟩
        · rw [hdrop] at hg
          exact internalFits_groupOf (hpost.cons first) hfits g hg
        · rw [hdrop] at hg
          exact internalFits_groupOf (hpost.cons_cons third) hfits g hg
        · rw [hdrop] at hlen
          simp at hlen
  · have h₁ := length_groupOf pre
    have h₂ := length_groupOf (subs.take 2)
    have h₃ := length_groupOf (subs.drop 2 ++ post)
    simp only [List.length_append]
    omega
  · simp only [List.flatMap_append, flatMap_groupOf]
    rw [← List.append_assoc (subs.take 2), List.take_append_drop]

/-! ## an edit -/

variable {key : Bytes}

theorem Descent.slim {pre post : List (Bytes × Subtree)} {c : Bytes × Subtree}
    (h : Descent pages before editor level t key firstKey pre c post) (hnodup : t.pages.Nodup)
    (hslim : Slim pages editor isRoot t) : Slim pages editor false c.2 := by
  intro id hid n hn
  have hmem := h.mem_pages hid
  rw [h.pages_eq] at hnodup
  rcases hslim id (by rw [h.pages_eq]; exact List.mem_cons_of_mem _ hmem) n hn with hfits
    | ⟨-, rfl, -⟩
  · exact .inl hfits
  · exact absurd hmem (List.nodup_cons.mp hnodup).1

variable {value : Option PageId}

/-- A leaf is replaced by at most three pieces. -/
theorem leaf_few {next : Option PageId} {n : Nat} (hself : t.page ∈ t.pages)
    (hslim : Slim pages editor isRoot t)
    (hread : editor.node pages t.page = some (.leaf t.entries next))
    (hkey : ∀ v, value = some v → Fits key)
    (hcut : ∀ cut : List (Group IndexEntry), (∀ g ∈ cut, g.LeafFits) →
      cut.flatMap Group.toList = put IndexEntry.key key (entryFor key value) t.entries →
        n ≤ cut.length) : n ≤ 3 := by
  rcases hslim t.page hself _ hread with hfits | ⟨-, -, -, _, _, _, _, hinternal⟩
  · rw [Node.encodedLength] at hfits
    obtain ⟨cut, hcutfits, hlen, hflat⟩ := @put_cut t.entries key value
      (by simpa [Node.fields, sizeOf, Function.comp_def] using hfits) hkey
    exact Nat.le_trans (hcut cut hcutfits hflat) hlen
  · cases hinternal

/-- The replacement of a node has at most three pieces again. -/
theorem Descent.few {pre post subs : List (Bytes × Subtree)} {c : Bytes × Subtree} {n : Nat}
    (h : Descent pages before editor level t key firstKey pre c post) (hself : t.page ∈ t.pages)
    (hslim : Slim pages editor isRoot t) (hkeys : ∀ d ∈ subs, Fits d.1) (hfew : subs.length ≤ 3)
    (hhalf : 2 * n ≤ (pre ++ (subs ++ post)).length + 1)
    (hcut : ∀ cut : List (Group Child), (∀ g ∈ cut, g.InternalFits) →
      cut.flatMap Group.toList = (pre ++ (subs ++ post)).map toChild → n ≤ cut.length) :
    n ≤ 3 := by
  obtain ⟨first, rest, hsplit, hread⟩ := h.read
  rcases hslim t.page hself _ hread with hfits | ⟨-, -, -, hternary⟩
  · have hfits' : headerSize + sizeOf ((rest.map toChild).map Prod.fst) ≤ maxPagePayload := by
      rwa [← encodedLength_internal (level + 1) ⟨(firstKey, first.page), rest.map toChild⟩]
    have hsplit' : pre.map toChild ++ toChild c :: post.map toChild =
        (firstKey, first.page) :: rest.map toChild := by
      rw [← List.map_cons, ← List.map_append, hsplit]
      rfl
    have hkeys' : ∀ child ∈ subs.map toChild, Fits child.1 := by
      intro child hchild
      obtain ⟨d, hd, rfl⟩ := List.mem_map.mp hchild
      exact hkeys d hd
    obtain ⟨cut, hcutfits, hlen, hflat⟩ := splice_cut hsplit' hfits' hkeys' (by simpa using hfew)
    have hle := hcut cut hcutfits (by rw [hflat, List.map_append, List.map_append])
    omega
  · -- at most five children, two to a node
    obtain ⟨_, _, second, third, heq⟩ := hternary
    have hrest : rest.length = 2 := by
      have hsep := (Node.internal.inj heq).2.2
      simpa using congrArg List.length hsep
    have hlen := congrArg List.length hsplit
    simp only [List.length_append, List.length_cons] at hlen hhalf
    omega

/-- **An edit.**  It finds nothing to delete, or puts at most three subtrees in the place of
the node that have its entries with the mutation applied. -/
theorem edit_spec {result : Option Edited} (hinv : editor.Inv before)
    (hholds : Holds (Mixed before editor) (editor.node pages) level t)
    (huse : ∀ id ∈ t.pages, editor.allocator.InUse id) (hnodup : t.pages.Nodup)
    (hslim : Slim pages editor isRoot t) (hfirst : ∀ e ∈ t.entries, firstKey ≤ e.key)
    (hfit : FitsBound (firstKey, t)) (hkeys : ∀ e ∈ t.entries, Fits e.key)
    (hkey : ∀ v, value = some v → Fits key) (hlevel : level < 2 ^ 16)
    (h : editor.edit pages key value isRoot level t.page firstKey = .ok (result, editor')) :
    editor'.Inv before ∧ editor.Extends editor' ∧ editor.NewFits editor' ∧
      (result = none →
        editor' = editor ∧ value = none ∧ find IndexEntry.key key t.entries = none) ∧
      ∀ edited, result = some edited → (isRoot = false → edited.collapsed = false) ∧
        ∃ subs, Replaces pages before editor editor' t key value firstKey level edited subs := by
  induction level generalizing isRoot t firstKey result editor' with
  | zero =>
    have hself := hholds.mem_pages
    obtain ⟨-, hinc, -, next, hread⟩ := hholds
    rw [edit, node_eq_some.mp hread] at h
    simp only [Node.level, ne_eq, not_true_eq_false, if_false] at h
    split at h
    · next hleaf =>
      obtain ⟨rfl, rfl⟩ := Prod.mk.inj (Except.ok.inj h)
      exact ⟨hinv, Extends.refl _, NewFits.refl _, fun _ => ⟨rfl, editLeaf_none hinc hleaf⟩,
        by simp⟩
    · next entries delta hleaf =>
      obtain ⟨⟨children, last⟩, hmake, h⟩ := bind_eq_ok.mp h
      obtain ⟨rfl, rfl⟩ := Prod.mk.inj (Except.ok.inj h)
      obtain ⟨rfl, hdelta⟩ := editLeaf_some hinc hleaf
      have hinc' := increasing_put hinc (@key_entryFor key value)
      obtain ⟨subs, rfl, hinv', hext, hforest, hentries, howned, hbounds, hnew, hcut⟩ :=
        makeLeaves_spec hinv hinc' (fits_put hkeys hkey) hmake
      refine ⟨hinv', hext, hnew, by simp, fun edited hsome => ?_⟩
      cases hsome
      refine ⟨fun _ => rfl, subs, rfl, hforest, hentries, hdelta, fun id hid =>
        .inr (howned id hid), fun x hx hxk c hc => ?_, by simp, ?_⟩
      · obtain ⟨e, he, hce⟩ := hbounds c hc
        rw [hce]
        rcases mem_put.mp he with ⟨he, -⟩ | he
        · exact Std.lt_of_lt_of_le hx (hfirst e he)
        · exact key_entryFor e he ▸ hxk
      · exact leaf_few hself hslim hread hkey hcut
  | succ level ih =>
    have hself := hholds.mem_pages
    obtain ⟨pre, c, post, hd⟩ := exists_descent key hholds huse hnodup hfirst hfit
    rw [hd.run] at h
    have hcuse : ∀ id ∈ c.2.pages, editor.allocator.InUse id := fun id hid =>
      hd.forest.inUse id (hd.mem_pages hid)
    have hstep := fun result' editor₁ => @ih editor₁ false c.2 c.1 result' hd.holds hcuse hd.nodup
      (hd.slim hnodup hslim) (hd.forest.separated.bounded c hd.mem) hd.fits
      (fun e he => hkeys e (hd.mem_entries he)) (by omega)
    unfold ascend at h
    split at h
    · cases h
    · next editor₁ hrun =>
      obtain ⟨rfl, rfl⟩ := Prod.mk.inj (Except.ok.inj h)
      obtain ⟨hinv₁, hext₁, hnew₁, hnone, -⟩ := hstep _ _ hrun
      exact ⟨hinv₁, hext₁, hnew₁, fun _ => hd.find_eq ▸ hnone rfl, by simp⟩
    · next edited₁ editor₁ hrun =>
      obtain ⟨hinv₁, hext₁, hnew₁, -, hsome⟩ := hstep _ _ hrun
      obtain ⟨hcollapsed, subs₁, hrep⟩ := hsome edited₁ rfl
      have hall₁ := hd.splice hinv hext₁ (hcollapsed rfl) hrep
      rw [hrep.children, List.append_assoc, ← List.map_append, ← List.map_append] at h
      obtain ⟨hinv₂, hext₂, edited, subs, rfl, hdelta, hcoll, hchildren, hforest₂, hentries₂,
        howned₂, hbounds₂, hnew₂, hhalf, hcut⟩ := rebuild_spec hinv₁ hall₁ hlevel h
      refine ⟨hinv₂, hext₁.trans hext₂, hnew₁.trans hnew₂ hext₂, by simp,
        fun edited' hsome' => ?_⟩
      cases hsome'
      refine ⟨hcoll, subs, hchildren, ?_, ?_, ?_, fun id hid => ?_, fun x hx hxk d hmem => ?_,
        fun _ => Nat.succ_pos _, ?_⟩
      · cases hc : edited.collapsed with
        | true => rw [hc] at hforest₂; exact hforest₂
        | false => rw [hc] at hforest₂; exact hforest₂
      · rw [hentries₂, entriesOf_append, entriesOf_append, hrep.entries, hd.entries_eq,
          entriesOf_append, entriesOf_cons, put_between hd.pre_lt hd.post_entries]
      · have hdel := hrep.delta
        rw [← hdelta] at hdel
        cases hed : edited.delta <;> rw [hed] at hdel <;> simpa [DeltaFor, hd.find_eq] using hdel
      · -- a page of the replacement is a page below this node or a new one
        have hbelow : ∀ id ∈ pagesOf (pre ++ c :: post), id ∈ t.pages ∧ id ≠ t.page := by
          intro id hid
          rw [hd.pages_eq] at hnodup ⊢
          refine ⟨List.mem_cons_of_mem _ hid, ?_⟩
          rintro rfl
          exact (List.nodup_cons.mp hnodup).1 hid
        rcases howned₂ id hid with hid | hid
        · rw [pagesOf_append, pagesOf_append, List.mem_append, List.mem_append] at hid
          rcases hid with hid | hid | hid
          · exact .inl (hbelow id (by rw [pagesOf_append]; simp [hid]))
          · exact (hrep.owned id hid).imp_left fun hid => hbelow id (hd.mem_pages hid.1)
          · exact .inl (hbelow id (by rw [pagesOf_append, pagesOf_cons]; simp [hid]))
        · exact .inr fun huse' => hid (hext₁.inUse id huse')
      · -- no bound goes below the first key, unless the mutation's key did
        obtain ⟨d', hd', heq⟩ := hbounds₂ d hmem
        rw [heq]
        rcases List.mem_append.mp hd' with hd' | hd'
        · exact Std.lt_of_lt_of_le hx (hd.first_le d' (List.mem_append_left _ hd'))
        · rcases List.mem_append.mp hd' with hd' | hd'
          · exact hrep.bound x (Std.lt_of_lt_of_le hx (hd.first_le c hd.mem)) hxk d' hd'
          · exact Std.lt_of_lt_of_le hx
              (hd.first_le d' (List.mem_append_right _ (List.mem_cons_of_mem _ hd')))
      · refine hd.few hself hslim (fun d hmem => ?_) hrep.few hhalf hcut
        exact (hall₁.holds d (List.mem_append_right _ (List.mem_append_left _ hmem))).1.1.fits

/-! ## an edit goes through while pages last -/

/-- The computation returns while the allocator has `n` more pages to give, and takes no
more than that. -/
def Takes {α : Type} (n : Nat) (editor : Editor) (x : Except IndexError (α × Editor)) : Prop :=
  editor.allocator.nextPageId + n < 2 ^ 64 → ∃ a editor', x = .ok (a, editor') ∧
    editor'.allocator.nextPageId ≤ editor.allocator.nextPageId + n

namespace Takes

variable {α β : Type} {n m : Nat} {x : Except IndexError (α × Editor)}

theorem mono (h : Takes n editor x) (hle : n ≤ m) : Takes m editor x := by
  intro hroom
  obtain ⟨a, editor', hrun, htaken⟩ := h (by omega)
  exact ⟨a, editor', hrun, by omega⟩

theorem ok (a : α) : Takes n editor (.ok (a, editor)) :=
  fun _ => ⟨a, editor, rfl, Nat.le_add_right _ _⟩

/-- One after the other they take what both take. -/
theorem bind {f : α × Editor → Except IndexError (β × Editor)} (h : Takes n editor x)
    (hf : ∀ a editor', x = .ok (a, editor') → Takes m editor' (f (a, editor'))) :
    Takes (n + m) editor (x >>= f) := by
  intro hroom
  obtain ⟨a, editor', hrun, htaken⟩ := h (by omega)
  obtain ⟨b, editor'', hrun', htaken'⟩ := hf a editor' hrun (by omega)
  exact ⟨b, editor'', bind_eq_ok.mpr ⟨_, hrun, hrun'⟩, by omega⟩

end Takes

end Editor

end QuantaDb.Index
