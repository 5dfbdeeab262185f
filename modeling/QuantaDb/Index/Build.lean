import QuantaDb.Index.Cursor
import QuantaDb.Index.Grouping
import QuantaDb.Storage.Allocator

/-!
# QuantaDb.Index.Build

The bulk build is correct for every list of entries.

`partition_leaves` and `partition_internal` cut a list into groups that fit a page;
any separator fits beside a first child, so every level has at most half the nodes
of the one below, rounded up (`partitionInternal_ok`).  `Built` is what holds of the nodes
written so far and of the children of the next level.
-/

namespace QuantaDb.Index

open Fallible Ordered Std

/-! ## partitions -/

/-- A key that fits a node of its own. -/
def Fits (key : Bytes) : Prop := headerSize + entrySize key ≤ maxPagePayload

/-- A child whose bound fits and is the key of one of its entries. -/
structure FitsBound (c : Bytes × Subtree) : Prop where
  fits : Fits c.1
  attained : ∃ e ∈ c.2.entries, e.key = c.1

/-- The bound of a leaf is its first key. -/
theorem FitsBound.leaf {group : Group IndexEntry} (h : Fits group.first.key) (page : PageId) :
    FitsBound (leafTree group page) :=
  ⟨h, group.first, List.mem_cons_self, rfl⟩

/-- The bound of a node is that of its first child. -/
theorem FitsBound.parent {group : Group (Bytes × Subtree)} (h : FitsBound group.first)
    (page : PageId) : FitsBound (parentTree group page) := by
  obtain ⟨e, he, hkey⟩ := h.attained
  exact ⟨h.fits, e, mem_entriesOf.mpr ⟨group.first, List.mem_cons_self, he⟩, hkey⟩

variable {entries : List IndexEntry}

theorem validateEntries_ok :
    validateEntries entries = .ok () ↔
      Increasing IndexEntry.key entries ∧ ∀ entry ∈ entries, Fits entry.key := by
  unfold validateEntries
  rw [← strict_map_iff]
  cases strict (entries.map IndexEntry.key) with
  | false => simp
  | true =>
    simp only [Bool.not_true, Bool.false_eq_true, if_false, true_and, Fits]
    cases hfind : entries.find? fun entry => maxPagePayload < headerSize + entrySize entry.key with
    | none =>
      rw [List.find?_eq_none] at hfind
      simp only [decide_eq_true_eq, Nat.not_lt] at hfind
      simpa using hfind
    | some entry =>
      have hmem := List.mem_of_find?_eq_some hfind
      have hlarge := List.find?_some hfind
      simp only [decide_eq_true_eq] at hlarge
      simp only [reduceCtorEq, false_iff, not_forall]
      exact ⟨entry, hmem, Nat.not_le.mpr hlarge⟩

/-- The bytes of some fields. -/
def sizeOf (keys : List Bytes) : Nat := (keys.map entrySize).sum

theorem sizeOf_append (l m : List Bytes) : sizeOf (l ++ m) = sizeOf l + sizeOf m := by
  simp [sizeOf]

theorem sizeOf_cons (key : Bytes) (l : List Bytes) :
    sizeOf (key :: l) = entrySize key + sizeOf l := by
  simp [sizeOf]

/-- Entries that fit one leaf. -/
def Group.LeafFits (group : Group IndexEntry) : Prop :=
  headerSize + sizeOf (group.toList.map IndexEntry.key) ≤ maxPagePayload

/-- Children that fit one internal node. -/
def Group.InternalFits (group : Group Child) : Prop :=
  headerSize + sizeOf (group.rest.map Prod.fst) ≤ maxPagePayload

theorem leafFits_singleton {entry : IndexEntry} (h : Fits entry.key) :
    Group.LeafFits ⟨entry, []⟩ := by
  rw [Fits] at h
  simpa [Group.LeafFits, Group.toList, sizeOf] using h

theorem internalFits_singleton (child : Child) : Group.InternalFits ⟨child, []⟩ :=
  show headerSize + 0 ≤ maxPagePayload by decide

theorem fillLeaf_ok {first : IndexEntry} {group rest : List IndexEntry} {used : Nat}
    (hused : used = headerSize + sizeOf ((first :: group).map IndexEntry.key))
    (hfits : Group.LeafFits ⟨first, group⟩) (hrest : ∀ entry ∈ rest, Fits entry.key) :
    ∃ groups, fillLeaf first group used rest = .ok groups ∧
      groups.flatMap Group.toList = first :: group ++ rest ∧ ∀ g ∈ groups, g.LeafFits := by
  induction rest generalizing first group used with
  | nil =>
    refine ⟨_, rfl, by simp [Group.toList], fun g hg => ?_⟩
    obtain rfl := List.mem_singleton.mp hg
    exact hfits
  | cons entry rest ih =>
    rw [List.forall_mem_cons] at hrest
    rw [fillLeaf]
    split
    · -- the next leaf starts here
      have hstart : startLeaf entry = .ok (headerSize + entrySize entry.key) :=
        if_neg (Nat.not_lt.mpr hrest.1)
      obtain ⟨groups, hrun, hflat, hall⟩ :=
        @ih entry [] (headerSize + entrySize entry.key) (by simp [sizeOf])
          (leafFits_singleton hrest.1) hrest.2
      refine ⟨⟨first, group⟩ :: groups, ?_, by simp [hflat, Group.toList], fun g hg => ?_⟩
      · rw [hstart]
        exact bind_eq_ok.mpr ⟨_, rfl, bind_eq_ok.mpr ⟨groups, hrun, rfl⟩⟩
      · rcases List.mem_cons.mp hg with rfl | hg
        · exact hfits
        · exact hall g hg
    · next hroom =>
      have hused' : used + entrySize entry.key =
          headerSize + sizeOf ((first :: (group ++ [entry])).map IndexEntry.key) := by
        rw [hused, ← List.cons_append, List.map_append, sizeOf_append, Nat.add_assoc]
        simp [sizeOf]
      obtain ⟨groups, hrun, hflat, hall⟩ :=
        @ih first (group ++ [entry]) _ hused'
          (by rw [Group.LeafFits, Group.toList, ← hused']; omega) hrest.2
      exact ⟨groups, hrun, by simpa using hflat, hall⟩

theorem partitionLeaves_ok (h : ∀ entry ∈ entries, Fits entry.key) :
    ∃ groups, partitionLeaves entries = .ok groups ∧ groups.flatMap Group.toList = entries ∧
      ∀ g ∈ groups, g.LeafFits := by
  cases entries with
  | nil => exact ⟨[], rfl, rfl, by simp⟩
  | cons entry rest =>
    rw [List.forall_mem_cons] at h
    have hstart : startLeaf entry = .ok (headerSize + entrySize entry.key) :=
      if_neg (Nat.not_lt.mpr h.1)
    obtain ⟨groups, hrun, hflat, hall⟩ :=
      @fillLeaf_ok entry [] rest (headerSize + entrySize entry.key) (by simp [sizeOf])
        (leafFits_singleton h.1) h.2
    refine ⟨groups, ?_, by simpa using hflat, hall⟩
    rw [partitionLeaves, hstart]
    exact hrun

theorem fillInternal_ok {first : Child} {group rest : List Child} {used : Nat}
    (hused : used = headerSize + sizeOf (group.map Prod.fst))
    (hfits : Group.InternalFits ⟨first, group⟩) (hrest : ∀ child ∈ rest, Fits child.1) :
    ∃ groups, fillInternal first group used rest = .ok groups ∧
      groups.flatMap Group.toList = first :: group ++ rest ∧ (∀ g ∈ groups, g.InternalFits) ∧
      2 * groups.length ≤ 2 + group.length + rest.length := by
  induction rest generalizing first group used with
  | nil =>
    refine ⟨_, rfl, by simp [Group.toList], fun g hg => ?_, by simp⟩
    obtain rfl := List.mem_singleton.mp hg
    exact hfits
  | cons child rest ih =>
    rw [List.forall_mem_cons] at hrest
    rw [fillInternal]
    split
    · next hfull =>
      -- beside a first child alone there is room for any separator
      have hgroup : group ≠ [] := by
        rintro rfl
        have hone : used = headerSize := by simpa [sizeOf] using hused
        have := hrest.1
        rw [Fits] at this
        omega
      rw [if_neg hgroup]
      obtain ⟨groups, hrun, hflat, hall, hlen⟩ :=
        @ih child [] headerSize (by simp [sizeOf]) (internalFits_singleton child) hrest.2
      have hpos := List.length_pos_of_ne_nil hgroup
      refine ⟨⟨first, group⟩ :: groups, ?_, by simp [hflat, Group.toList], fun g hg => ?_, ?_⟩
      · exact bind_eq_ok.mpr ⟨groups, hrun, rfl⟩
      · rcases List.mem_cons.mp hg with rfl | hg
        · exact hfits
        · exact hall g hg
      · rw [List.length_cons, List.length_cons]
        rw [List.length_nil] at hlen
        omega
    · next hroom =>
      have hused' : used + entrySize child.1 =
          headerSize + sizeOf ((group ++ [child]).map Prod.fst) := by
        rw [hused, List.map_append, sizeOf_append, Nat.add_assoc]
        simp [sizeOf]
      obtain ⟨groups, hrun, hflat, hall, hlen⟩ :=
        @ih first (group ++ [child]) _ hused'
          (by rw [Group.InternalFits, ← hused']; omega) hrest.2
      refine ⟨groups, hrun, by simpa using hflat, hall, ?_⟩
      rw [List.length_append, List.length_singleton] at hlen
      rw [List.length_cons]
      omega

/-- **A level** is at most half as long as the one below it. -/
theorem partitionInternal_ok {children : List Child} (h : ∀ child ∈ children, Fits child.1) :
    ∃ groups, partitionInternal children = .ok groups ∧
      groups.flatMap Group.toList = children ∧ (∀ g ∈ groups, g.InternalFits) ∧
      2 * groups.length ≤ children.length + 1 := by
  cases children with
  | nil => exact ⟨[], rfl, rfl, by simp, by simp⟩
  | cons child rest =>
    rw [List.forall_mem_cons] at h
    obtain ⟨groups, hrun, hflat, hall, hlen⟩ :=
      @fillInternal_ok child [] rest headerSize (by simp [sizeOf])
        (internalFits_singleton child) h.2
    refine ⟨groups, hrun, by simpa using hflat, hall, ?_⟩
    rw [List.length_nil] at hlen
    rw [List.length_cons]
    omega

/-! ## writing nodes -/

theorem encodedLength_leaf (group : Group IndexEntry) (next : Option PageId) :
    (Node.leaf group.toList next).encodedLength =
      headerSize + sizeOf (group.toList.map IndexEntry.key) := by
  simp [Node.encodedLength, Node.fields, sizeOf, Function.comp_def]

theorem encodedLength_internal (level : Nat) (group : Group Child) :
    (internalNode level group).encodedLength = headerSize + sizeOf (group.rest.map Prod.fst) := by
  simp [Node.encodedLength, Node.fields, internalNode, sizeOf, Function.comp_def]

theorem encode_of_fits {node : Node} (h : node.encodedLength ≤ maxPagePayload) :
    node.encode = .ok node.bytes := if_neg (Nat.not_lt.mpr h)

variable {ids : List PageId}

theorem leafWrites_ok {groups : List (Group IndexEntry)} (hlen : ids.length = groups.length)
    (hfits : ∀ g ∈ groups, g.LeafFits) :
    ∃ writes, leafWrites groups ids = .ok (writes, (leafTrees groups ids).map toChild) ∧
      writes.map Prod.fst = ids ∧ (∀ write ∈ writes, write.2.length ≤ maxPagePayload) ∧
      ∀ g id, (g, id) ∈ groups.zip ids →
        ∃ next, (next = none ∨ ∃ page ∈ ids, next = some page) ∧
          (id, (Node.leaf g.toList next).bytes) ∈ writes := by
  induction groups generalizing ids with
  | nil =>
    have hnil : ids = [] := by simpa using hlen
    subst hnil
    exact ⟨[], rfl, rfl, by simp, by simp⟩
  | cons group groups ih =>
    cases ids with
    | nil => simp at hlen
    | cons id ids =>
      rw [List.forall_mem_cons] at hfits
      obtain ⟨writes, hrun, hids, hsizes, hmem⟩ := @ih ids (by simpa using hlen) hfits.2
      have hfit : (Node.leaf group.toList ids.head?).encodedLength ≤ maxPagePayload := by
        rw [encodedLength_leaf]
        exact hfits.1
      refine ⟨(id, (Node.leaf group.toList ids.head?).bytes) :: writes, ?_, by simp [hids],
        by simpa [hfit] using hsizes, ?_⟩
      · rw [leafWrites, encode_of_fits hfit]
        exact bind_eq_ok.mpr ⟨_, rfl, bind_eq_ok.mpr ⟨_, hrun, rfl⟩⟩
      · intro g page hg
        rcases List.mem_cons.mp hg with heq | hg
        · cases heq
          refine ⟨ids.head?, ?_, List.mem_cons_self⟩
          cases ids with
          | nil => exact .inl rfl
          | cons next ids => exact .inr ⟨next, by simp, rfl⟩
        · obtain ⟨next, hnext, hwrite⟩ := hmem g page hg
          refine ⟨next, ?_, List.mem_cons_of_mem _ hwrite⟩
          rcases hnext with hnone | ⟨page, hpage, hsome⟩
          · exact .inl hnone
          · exact .inr ⟨page, List.mem_cons_of_mem _ hpage, hsome⟩

variable {groups : List (Group (Bytes × Subtree))}

theorem levelWrites_ok (level : Nat) (hlen : ids.length = groups.length)
    (hfits : ∀ g ∈ groups, (g.map toChild).InternalFits) :
    ∃ writes, levelWrites level (groups.map (Group.map toChild)) ids =
        .ok (writes, (parentTrees groups ids).map toChild) ∧
      writes.map Prod.fst = ids ∧ (∀ write ∈ writes, write.2.length ≤ maxPagePayload) ∧
      ∀ g id, (g, id) ∈ groups.zip ids →
        (id, (internalNode level (g.map toChild)).bytes) ∈ writes := by
  induction groups generalizing ids with
  | nil =>
    have hnil : ids = [] := by simpa using hlen
    subst hnil
    exact ⟨[], rfl, rfl, by simp, by simp⟩
  | cons group groups ih =>
    cases ids with
    | nil => simp at hlen
    | cons id ids =>
      rw [List.forall_mem_cons] at hfits
      obtain ⟨writes, hrun, hids, hsizes, hmem⟩ := @ih ids (by simpa using hlen) hfits.2
      have hfit : (internalNode level (group.map toChild)).encodedLength ≤ maxPagePayload := by
        rw [encodedLength_internal]
        exact hfits.1
      refine ⟨(id, (internalNode level (group.map toChild)).bytes) :: writes, ?_,
        by simp [hids], by simpa [hfit] using hsizes, ?_⟩
      · rw [List.map_cons, levelWrites, encode_of_fits hfit]
        exact bind_eq_ok.mpr ⟨_, rfl, bind_eq_ok.mpr ⟨_, hrun, rfl⟩⟩
      · intro g page hg
        rcases List.mem_cons.mp hg with heq | hg
        · cases heq
          exact List.mem_cons_self
        · exact List.mem_cons_of_mem _ (hmem g page hg)

variable {writes : List PageWrite} {page : PageId}

theorem write_of_not_mem (pages : PageTable) (h : page ∉ writes.map Prod.fst) :
    (pages.write writes)[page]? = pages[page]? := by
  induction writes generalizing pages with
  | nil => rfl
  | cons write writes ih =>
    rw [List.map_cons, List.mem_cons, not_or] at h
    rw [PageTable.write, List.foldl_cons]
    refine (ih (pages.insert write.1 write.2) h.2).trans ?_
    rw [TreeMaps.get_insert, if_neg (Ne.symm h.1)]

theorem write_of_mem (pages : PageTable) {payload : Bytes} (hnodup : (writes.map Prod.fst).Nodup)
    (h : (page, payload) ∈ writes) :
    (pages.write writes)[page]? = some payload := by
  induction writes generalizing pages with
  | nil => cases h
  | cons write writes ih =>
    rw [List.map_cons, List.nodup_cons] at hnodup
    rw [PageTable.write, List.foldl_cons]
    rcases List.mem_cons.mp h with rfl | h
    · refine (write_of_not_mem (pages.insert page payload) hnodup.1).trans ?_
      rw [TreeMaps.get_insert, if_pos rfl]
    · exact ih _ hnodup.2 h

theorem nodeAt_write_of_not_mem (pages : PageTable) (h : page ∉ writes.map Prod.fst) :
    nodeAt (pages.write writes) page = nodeAt pages page := by
  rw [nodeAt, nodeAt, readNode, readNode, write_of_not_mem pages h]

/-- A node that was written is read. -/
theorem nodeAt_write_of_mem (pages : PageTable) {node : Node}
    (hnodup : (writes.map Prod.fst).Nodup) (hsound : node.Sound)
    (hfits : node.encodedLength ≤ maxPagePayload) (h : (page, node.bytes) ∈ writes) :
    nodeAt (pages.write writes) page = some node := by
  rw [nodeAt_eq_some, readNode, write_of_mem pages hnodup h]
  exact Node.decode_encode hsound (encode_of_fits hfits) page

/-! ## the levels -/

/-- Page IDs that a plan may use for its nodes. -/
structure Reserved (before after : PageAllocator) (ids : List PageId) : Prop where
  nodup : ids.Nodup
  fresh : ∀ id ∈ ids, ¬before.InUse id
  inUse : ∀ id, after.InUse id ↔ before.InUse id ∨ id ∈ ids
  pooled : after.Pooled
  bounded : after.nextPageId < 2 ^ 64

variable {allocator after : PageAllocator}

theorem reservePageIds_ok {count : Nat} (hpool : allocator.Pooled)
    (h : reservePageIds allocator count = .ok (ids, after)) :
    ids.length = count ∧ Reserved allocator after ids := by
  unfold reservePageIds at h
  split at h
  · next ids' after' heq =>
    cases h
    obtain ⟨hlen, hnodup, hpooled, hfresh, huse⟩ := PageAllocator.reserve_ok hpool heq
    exact ⟨hlen, hnodup, hfresh, huse, hpooled, PageAllocator.nextPageId_reserve heq⟩
  · cases h

theorem reservePageIds_isOk (allocator : PageAllocator) {count : Nat}
    (h : allocator.nextPageId + count < 2 ^ 64) :
    ∃ ids after, reservePageIds allocator count = .ok (ids, after) ∧
      after.nextPageId ≤ allocator.nextPageId + count := by
  obtain ⟨ids, after, heq, hle⟩ := PageAllocator.reserve_isOk allocator h
  refine ⟨ids, after, ?_, hle⟩
  rw [reservePageIds, heq]

/-- One reservation after another. -/
theorem Reserved.append {a b c : PageAllocator} {ids' : List PageId} (h : Reserved a b ids)
    (h' : Reserved b c ids') : Reserved a c (ids ++ ids') := by
  refine ⟨List.nodup_append.mpr ⟨h.nodup, h'.nodup, ?_⟩, fun id hid => ?_, fun id => ?_, h'.pooled,
    h'.bounded⟩
  · rintro id hid _ hid' rfl
    exact h'.fresh id hid' ((h.inUse id).mpr (.inr hid))
  · rcases List.mem_append.mp hid with hid | hid
    · exact h.fresh id hid
    · exact fun huse => h'.fresh id hid ((h.inUse id).mpr (.inl huse))
  · rw [h'.inUse, h.inUse, List.mem_append, or_assoc]

variable {before : PageAllocator}

/-- A reserved page is not the one that stands for no page. -/
theorem Reserved.ne_noPage (h : Reserved before after ids) {id : PageId} (hid : after.InUse id) :
    id ≠ noPage := by
  rintro rfl
  have hlt := hid.1
  have hbound := h.bounded
  have hno : noPage.toNat = 2 ^ 64 - 1 := rfl
  omega

/-- The nodes written so far hold the subtrees of one level. -/
structure Built (pages : PageTable) (before allocator : PageAllocator) (writes : List PageWrite)
    (level : Nat) (subs : List (Bytes × Subtree)) : Prop where
  reserved : Reserved before allocator (writes.map Prod.fst)
  fits : ∀ write ∈ writes, write.2.length ≤ maxPagePayload
  holds : ∀ c ∈ subs, Holds FitsBound (nodeAt (pages.write writes)) level c.2
  owned : ∀ id ∈ pagesOf subs, id ∈ writes.map Prod.fst
  nodup : (pagesOf subs).Nodup
  separated : Separated subs
  keys : ∀ c ∈ subs, FitsBound c

variable {pages : PageTable}

theorem Built.ne_nil {level : Nat} {subs : List (Bytes × Subtree)}
    (h : Built pages before allocator writes level subs) : ∀ c ∈ subs, c.2.entries ≠ [] :=
  fun c hc => (h.holds c hc).ne_nil

/-- **One more level.** -/
theorem Built.level {nodes : List PageWrite} {level : Nat}
    (h : Built pages before allocator writes level (groups.flatMap Group.toList))
    (hlevel : level + 1 < 2 ^ 16) (hlen : ids.length = groups.length)
    (hreserved : Reserved allocator after ids)
    (hfits : ∀ g ∈ groups, (g.map toChild).InternalFits) (hids : nodes.map Prod.fst = ids)
    (hsizes : ∀ write ∈ nodes, write.2.length ≤ maxPagePayload)
    (hnodes : ∀ g id, (g, id) ∈ groups.zip ids →
      (id, (internalNode (level + 1) (g.map toChild)).bytes) ∈ nodes) :
    Built pages before after (writes ++ nodes) (level + 1) (parentTrees groups ids) := by
  have hall : Reserved before after ((writes ++ nodes).map Prod.fst) := by
    rw [List.map_append, hids]
    exact h.reserved.append hreserved
  -- the subtrees below stay as they are
  have hbelow : ∀ c ∈ groups.flatMap Group.toList,
      Holds FitsBound (nodeAt (pages.write (writes ++ nodes))) level c.2 := by
    intro c hc
    refine (h.holds c hc).congr fun page hpage => ?_
    have hmem := h.owned page (List.mem_flatMap.mpr ⟨c, hc, hpage⟩)
    have hnot : page ∉ nodes.map Prod.fst := by
      rw [hids]
      intro hid
      exact hreserved.fresh page hid ((h.reserved.inUse page).mpr (.inr hmem))
    rw [PageTable.write, List.foldl_append]
    exact nodeAt_write_of_not_mem _ hnot
  have hperm := pagesOf_parentTrees hlen
  refine ⟨hall, ?_, fun c hc => ?_, fun id hid => ?_, ?_,
    separated_parentTrees h.separated h.ne_nil,
    fun c hc => ?_⟩
  · intro write hwrite
    rcases List.mem_append.mp hwrite with hwrite | hwrite
    · exact h.fits write hwrite
    · exact hsizes write hwrite
  · obtain ⟨g, id, hmem, rfl⟩ := mem_zipWith hc
    have hg := (List.of_mem_zip hmem).1
    have hgsub : ∀ c ∈ g.toList, c ∈ groups.flatMap Group.toList :=
      fun c hc => List.mem_flatMap.mpr ⟨g, hg, hc⟩
    have hgsep : Separated g.toList := by
      have hsub : g.toList.Sublist (groups.flatMap Group.toList) := by
        rw [List.flatMap_def]
        exact List.sublist_flatten_of_mem (List.mem_map_of_mem hg)
      exact ⟨fun c hc => h.separated.bounded c (hgsub c hc), h.separated.apart.sublist hsub⟩
    refine holds_parentTree hgsep
      (fun c hc => ⟨h.keys c (hgsub c hc), hbelow c (hgsub c hc)⟩) ?_
    refine nodeAt_write_of_mem pages hall.nodup ?_ ?_ (List.mem_append_right _ (hnodes g id hmem))
    · have hkids : ∀ c ∈ g.toList, (toChild c).2 ≠ noPage := by
        intro c hc
        refine h.reserved.ne_noPage ((h.reserved.inUse _).mpr (.inr ?_))
        exact h.owned _ (List.mem_flatMap.mpr ⟨c, hgsub c hc, (h.holds c (hgsub c hc)).mem_pages⟩)
      have hinc := hgsep.increasing_bounds fun c hc => h.ne_nil c (hgsub c hc)
      refine ⟨Nat.succ_pos _, hlevel, hkids g.first List.mem_cons_self, ?_, ?_⟩
      · intro separator hsep
        obtain ⟨c, hc, rfl⟩ := List.mem_map.mp hsep
        exact hkids c (List.mem_cons_of_mem _ hc)
      · exact List.pairwise_map.mpr (List.pairwise_cons.mp hinc).2
    · rw [encodedLength_internal]
      exact hfits g hg
  · have hid' := hperm.mem_iff.mp hid
    rw [List.map_append, hids]
    rcases List.mem_append.mp hid' with hid' | hid'
    · exact List.mem_append_right _ hid'
    · exact List.mem_append_left _ (h.owned id hid')
  · rw [hperm.nodup_iff, List.nodup_append]
    refine ⟨hreserved.nodup, h.nodup, ?_⟩
    rintro id hid _ hid' rfl
    exact hreserved.fresh id hid ((h.reserved.inUse id).mpr (.inr (h.owned id hid')))
  · obtain ⟨g, id, hmem, rfl⟩ := mem_zipWith hc
    have hfirst : g.first ∈ groups.flatMap Group.toList :=
      List.mem_flatMap.mpr ⟨g, (List.of_mem_zip hmem).1, List.mem_cons_self⟩
    exact (h.keys g.first hfirst).parent id

theorem length_parentTrees (hlen : ids.length = groups.length) :
    (parentTrees groups ids).length = groups.length := by
  simp [parentTrees, hlen]

/-- **All levels**: the loop ends with one subtree that has all entries, while page IDs are
left or whenever it returned. -/
theorem buildLevels_ok {pages : PageTable} {before allocator : PageAllocator}
    {writes : List PageWrite} {k left level : Nat} {subs : List (Bytes × Subtree)}
    (h : Built pages before allocator writes level subs) (hne : subs ≠ [])
    (hcount : subs.length ≤ 2 ^ k) (hk : k ≤ left) (hleft : level + left < 2 ^ 16)
    (hroom : allocator.nextPageId + 2 * (subs.length - 1) < 2 ^ 64 ∨
      ∃ result, buildLevels left level allocator (subs.map toChild) writes = .ok result) :
    ∃ level' c writes' allocator',
      buildLevels left level allocator (subs.map toChild) writes =
        .ok (level', [toChild c], writes', allocator') ∧
      Built pages before allocator' writes' level' [c] ∧ c.2.entries = entriesOf subs ∧
      level' ≤ level + k := by
  induction k generalizing left level allocator writes subs with
  | zero =>
    have hone : subs.length = 1 := by
      have := List.length_pos_of_ne_nil hne
      rw [Nat.pow_zero] at hcount
      omega
    obtain ⟨c, rfl⟩ := List.length_eq_one_iff.mp hone
    refine ⟨level, c, writes, allocator, ?_, h, by simp [entriesOf], Nat.le_refl _⟩
    rw [buildLevels.eq_def, if_pos (by simp)]
    rfl
  | succ k ih =>
    rw [buildLevels.eq_def, List.length_map] at hroom ⊢
    split
    · next hsmall =>
      have hone : subs.length = 1 := by
        have := List.length_pos_of_ne_nil hne
        omega
      obtain ⟨c, rfl⟩ := List.length_eq_one_iff.mp hone
      exact ⟨level, c, writes, allocator, rfl, h, by simp [entriesOf], Nat.le_add_right _ _⟩
    · next hlarge =>
      obtain ⟨left, rfl⟩ : ∃ n, left = n + 1 := ⟨left - 1, by omega⟩
      have hkeys : ∀ child ∈ subs.map toChild, Fits child.1 := by
        intro child hchild
        obtain ⟨c, hc, rfl⟩ := List.mem_map.mp hchild
        exact (h.keys c hc).fits
      obtain ⟨groups', hpart, hflat, hfits, hhalf⟩ := partitionInternal_ok hkeys
      obtain ⟨groups, rfl, rfl⟩ := groups_of_map hflat
      rw [List.length_map, List.length_map] at hhalf
      -- the pages of the level, from the room there is or from the run
      obtain ⟨ids, after, hreserve, hroom'⟩ : ∃ ids after,
          reservePageIds allocator groups.length = .ok (ids, after) ∧
          (after.nextPageId + 2 * (groups.length - 1) < 2 ^ 64 ∨ ∀ nodes parents,
            levelWrites (level + 1) (groups.map (Group.map toChild)) ids = .ok (nodes, parents) →
            ∃ result, buildLevels left (level + 1) after parents (writes ++ nodes) =
              .ok result) := by
        rcases hroom with hroom | ⟨result, hrun⟩
        · obtain ⟨ids, after, hreserve, hnext⟩ := reservePageIds_isOk allocator
            (show allocator.nextPageId + groups.length < 2 ^ 64 by omega)
          exact ⟨ids, after, hreserve, .inl (by omega)⟩
        · rw [if_neg hlarge] at hrun
          simp only [hpart] at hrun
          obtain ⟨_, hgroups, hrun⟩ := bind_eq_ok.mp hrun
          obtain rfl := Except.ok.inj hgroups
          obtain ⟨⟨ids, after⟩, hreserve, hrun⟩ := bind_eq_ok.mp hrun
          rw [List.length_map] at hreserve
          refine ⟨ids, after, hreserve, .inr fun nodes parents hwrites => ⟨result, ?_⟩⟩
          simp only [hwrites] at hrun
          exact hrun
      obtain ⟨hlen, hreserved⟩ := reservePageIds_ok h.reserved.pooled hreserve
      obtain ⟨nodes, hwrites, hids, hsizes, hnodes⟩ := levelWrites_ok (level + 1) hlen
        fun g hg => hfits _ (List.mem_map_of_mem hg)
      have hbuilt := h.level (by omega) hlen hreserved
        (fun g hg => hfits _ (List.mem_map_of_mem hg)) hids hsizes hnodes
      have hlenp := length_parentTrees hlen
      have hne' : parentTrees groups ids ≠ [] := by
        intro hnil
        rw [hnil, List.length_nil] at hlenp
        rw [List.eq_nil_of_length_eq_zero hlenp.symm] at hne
        exact hne rfl
      have hpow : 2 ^ (k + 1) = 2 * 2 ^ k := by rw [Nat.pow_succ, Nat.mul_comm]
      have hroom'' : after.nextPageId + 2 * ((parentTrees groups ids).length - 1) < 2 ^ 64 ∨
          ∃ result, buildLevels left (level + 1) after ((parentTrees groups ids).map toChild)
            (writes ++ nodes) = .ok result :=
        hroom'.imp (fun hroom => by rw [hlenp]; exact hroom) fun hrun => hrun _ _ hwrites
      obtain ⟨level', c, writes', allocator', hrun, hfinal, hentries, hle⟩ :=
        ih hbuilt hne' (by omega) (show k ≤ left by omega) (by omega) hroom''
      refine ⟨level', c, writes', allocator', ?_, hfinal, ?_, by omega⟩
      · simp only [hpart]
        refine bind_eq_ok.mpr ⟨_, rfl, ?_⟩
        refine bind_eq_ok.mpr ⟨(ids, after), ?_, bind_eq_ok.mpr ⟨_, hwrites, hrun⟩⟩
        rw [List.length_map]
        exact hreserve
      · rw [hentries, entriesOf_parentTrees hlen]

theorem built_leaves (pages : PageTable) {leaves : List PageWrite}
    {groups : List (Group IndexEntry)}
    (hinc : Increasing IndexEntry.key (groups.flatMap Group.toList))
    (hkeys : ∀ entry ∈ groups.flatMap Group.toList, Fits entry.key)
    (hlen : ids.length = groups.length) (hreserved : Reserved before after ids)
    (hfits : ∀ g ∈ groups, g.LeafFits) (hids : leaves.map Prod.fst = ids)
    (hsizes : ∀ write ∈ leaves, write.2.length ≤ maxPagePayload)
    (hleaves : ∀ g id, (g, id) ∈ groups.zip ids →
      ∃ next, (next = none ∨ ∃ page ∈ ids, next = some page) ∧
        (id, (Node.leaf g.toList next).bytes) ∈ leaves) :
    Built pages before after leaves 0 (leafTrees groups ids) := by
  have hpages := pagesOf_leafTrees hlen
  refine ⟨hids ▸ hreserved, hsizes, fun c hc => ?_, ?_, by rw [hpages]; exact hreserved.nodup,
    separated_leafTrees hinc, fun c hc => ?_⟩
  · obtain ⟨g, id, hmem, rfl⟩ := mem_zipWith hc
    have hg := (List.of_mem_zip hmem).1
    obtain ⟨next, hnext, hwrite⟩ := hleaves g id hmem
    have hginc : Increasing IndexEntry.key g.toList := by
      refine List.Pairwise.sublist ?_ hinc
      rw [List.flatMap_def]
      exact List.sublist_flatten_of_mem (List.mem_map_of_mem hg)
    refine holds_leafTree hginc (nodeAt_write_of_mem pages (hids ▸ hreserved.nodup) ?_ ?_ hwrite)
    · refine ⟨hginc, ?_⟩
      rcases hnext with rfl | ⟨page, hpage, rfl⟩
      · simp
      · rw [Ne, Option.some.injEq]
        exact hreserved.ne_noPage ((hreserved.inUse page).mpr (.inr hpage))
    · rw [encodedLength_leaf]
      exact hfits g hg
  · rw [hpages, hids]
    exact fun id hid => hid
  · obtain ⟨g, id, hmem, rfl⟩ := mem_zipWith hc
    have hfirst : g.first ∈ groups.flatMap Group.toList :=
      List.mem_flatMap.mpr ⟨g, (List.of_mem_zip hmem).1, List.mem_cons_self⟩
    exact FitsBound.leaf (hkeys g.first hfirst) id

/-! ## the tree under a root -/

/-- The pages hold a tree under a root, and the tree's pages are in use. -/
structure Stored (pages : PageTable) (allocator : PageAllocator) (root : IndexRoot) (t : Subtree) :
    Prop where
  page : root.page = t.page
  level : ∃ level, root.height = level + 1 ∧ Holds FitsBound (nodeAt pages) level t
  height : root.height < 2 ^ 16
  count : root.entries = t.entries.length
  keys : ∀ entry ∈ t.entries, Fits entry.key
  nodup : t.pages.Nodup
  inUse : ∀ id ∈ t.pages, allocator.InUse id
  sizes : ∀ id ∈ t.pages, ∀ payload, pages[id]? = some payload → payload.length ≤ maxPagePayload

variable {root : IndexRoot}

/-- The nodes of a stored tree fit their pages. -/
theorem Stored.fits {t : Subtree} (h : Stored pages allocator root t) {id : PageId}
    (hid : id ∈ t.pages) {node : Node} (hnode : nodeAt pages id = some node) :
    node.encodedLength ≤ maxPagePayload := by
  rw [nodeAt_eq_some, readNode] at hnode
  split at hnode
  · cases hnode
  · next payload hpayload =>
    rw [Node.encodedLength_of_decode hnode]
    exact h.sizes id hid payload hpayload

/-- **Lookup** under a root. -/
theorem Stored.get {t : Subtree} (h : Stored pages allocator root t) (key : Bytes) :
    get pages root key = .ok ((find IndexEntry.key key t.entries).map IndexEntry.value) := by
  obtain ⟨level, hheight, hholds⟩ := h.level
  rw [Index.get, if_neg (by omega), hheight, Nat.add_sub_cancel, h.page]
  exact getAt_holds hholds key

/-- **Scan** under a root. -/
theorem Stored.range {t : Subtree} (h : Stored pages allocator root t) (start stop : Option Bytes)
    (limit : Nat) :
    range pages root start stop limit =
      .ok ((t.entries.filter (ScanRange.within ⟨start, stop, limit⟩)).take limit) := by
  obtain ⟨level, hheight, hholds⟩ := h.level
  exact range_holds hholds h.page hheight h.nodup start stop limit

/-- **The bulk build** succeeds while page IDs are left, and stores the entries. -/
theorem plan_ok (pages : PageTable) (hpool : allocator.Pooled)
    (hbounded : allocator.nextPageId < 2 ^ 64) (hvalid : validateEntries entries = .ok ())
    (hcount : entries.length < 2 ^ 64)
    (hroom : allocator.nextPageId + 3 * entries.length < 2 ^ 64 ∨
      ∃ result, plan allocator entries = .ok result) :
    ∃ p after, plan allocator entries = .ok (p, after) ∧
      Reserved allocator after (p.writes.map Prod.fst) ∧
      (∀ write ∈ p.writes, write.2.length ≤ maxPagePayload) ∧
      (entries = [] → p.root = none) ∧
      (entries ≠ [] → ∃ root t, p.root = some root ∧
        Stored (pages.write p.writes) after root t ∧ t.entries = entries) := by
  obtain ⟨hinc, hkeys⟩ := validateEntries_ok.mp hvalid
  by_cases hempty : entries = []
  · subst hempty
    refine ⟨⟨none, []⟩, allocator, ?_, ⟨List.nodup_nil, by simp, by simp, hpool, hbounded⟩,
      by simp, fun _ => rfl, fun h => absurd rfl h⟩
    rfl
  · obtain ⟨groups, hpart, hflat, hfits⟩ := partitionLeaves_ok hkeys
    have hgroups : groups ≠ [] := by
      rintro rfl
      exact hempty hflat.symm
    have hgl : groups.length ≤ entries.length := by
      rw [← hflat, List.length_flatMap]
      have hone : ∀ n ∈ groups.map fun g => g.toList.length, 1 ≤ n := by
        intro n hn
        obtain ⟨g, -, rfl⟩ := List.mem_map.mp hn
        simp [Group.toList]
      simpa using List.length_le_sum_of_one_le _ hone
    obtain ⟨ids, after, hreserve, hroom'⟩ : ∃ ids after,
        reservePageIds allocator groups.length = .ok (ids, after) ∧
        (after.nextPageId + 2 * (groups.length - 1) < 2 ^ 64 ∨ ∀ leaves children,
          leafWrites groups ids = .ok (leaves, children) →
          ∃ result, buildLevels (2 ^ 16 - 1) 0 after children leaves = .ok result) := by
      rcases hroom with hroom | ⟨result, hrun⟩
      · obtain ⟨ids, after, hreserve, hnext⟩ := reservePageIds_isOk allocator
          (show allocator.nextPageId + groups.length < 2 ^ 64 by omega)
        exact ⟨ids, after, hreserve, .inl (by omega)⟩
      · unfold plan at hrun
        obtain ⟨-, -, hrun⟩ := bind_eq_ok.mp hrun
        rw [if_neg hempty, if_neg (Nat.not_le.mpr hcount)] at hrun
        simp only [hpart] at hrun
        obtain ⟨_, hgroups, hrun⟩ := bind_eq_ok.mp hrun
        obtain rfl := Except.ok.inj hgroups
        obtain ⟨⟨ids, after⟩, hreserve, hrun⟩ := bind_eq_ok.mp hrun
        refine ⟨ids, after, hreserve, .inr fun leaves children hleaves => ?_⟩
        simp only [hleaves] at hrun
        obtain ⟨_, hpair, hrun⟩ := bind_eq_ok.mp hrun
        obtain rfl := Except.ok.inj hpair
        obtain ⟨levels, hlevels, -⟩ := bind_eq_ok.mp hrun
        exact ⟨levels, hlevels⟩
    obtain ⟨hlen, hreserved⟩ := reservePageIds_ok hpool hreserve
    obtain ⟨leaves, hleaves, hids, hsizes, hmem⟩ := leafWrites_ok hlen hfits
    have hbuilt := built_leaves pages (hflat ▸ hinc)
      (hflat ▸ hkeys) hlen hreserved hfits hids hsizes
      hmem
    have htrees : (leafTrees groups ids).length = groups.length := by simp [leafTrees, hlen]
    have hne : leafTrees groups ids ≠ [] := by
      intro hnil
      rw [hnil, List.length_nil] at htrees
      exact hgroups (List.eq_nil_of_length_eq_zero htrees.symm)
    obtain ⟨level, c, writes, after', hlevels, hfinal, hentries, hle⟩ :=
      @buildLevels_ok pages allocator after leaves 64 (2 ^ 16 - 1) 0 _ hbuilt hne
        (by rw [htrees]; exact Nat.le_of_lt (Nat.lt_of_le_of_lt hgl hcount)) (by omega) (by omega)
        (hroom'.imp (fun hroom => by rw [htrees]; exact hroom) fun hrun => hrun _ _ hleaves)
    rw [entriesOf_leafTrees hlen, hflat] at hentries
    have hheight : ¬2 ^ 16 ≤ level + 1 := by omega
    refine ⟨⟨some ⟨c.2.page, level + 1, entries.length⟩, writes⟩, after', ?_, hfinal.reserved,
      hfinal.fits, fun h => absurd h hempty, fun _ => ⟨_, c.2, rfl, ?_, hentries⟩⟩
    · unfold plan
      refine bind_eq_ok.mpr ⟨(), hvalid, ?_⟩
      rw [if_neg hempty, if_neg (Nat.not_le.mpr hcount)]
      refine bind_eq_ok.mpr ⟨groups, hpart, bind_eq_ok.mpr ⟨(ids, after), hreserve, ?_⟩⟩
      refine bind_eq_ok.mpr ⟨_, hleaves, bind_eq_ok.mpr ⟨_, hlevels, ?_⟩⟩
      simp only [if_neg hheight]
      rfl
    · have hpages : pagesOf [c] = c.2.pages := by simp [pagesOf]
      refine ⟨rfl, ⟨level, rfl, hfinal.holds c (List.mem_singleton_self c)⟩, by simp only; omega,
        by simp only [hentries], hentries ▸ hkeys, hpages ▸ hfinal.nodup, fun id hid => ?_,
        fun id hid payload hpayload => ?_⟩
      · exact (hfinal.reserved.inUse id).mpr (.inr (hfinal.owned id (hpages ▸ hid)))
      · obtain ⟨write, hwrite, rfl⟩ := List.mem_map.mp (hfinal.owned id (hpages ▸ hid))
        rw [write_of_mem pages hfinal.reserved.nodup hwrite] at hpayload
        exact Option.some.inj hpayload ▸ hfinal.fits write hwrite

/-- **Bulk build.**  For every list of entries that passes the validation, while page IDs are
left, the plan succeeds, every level is shorter than the one below it, every node fits its
page, and the tree answers lookups and scans like the list. -/
theorem plan_correct (pages : PageTable) (allocator : PageAllocator) (entries : List IndexEntry)
    (hpool : allocator.Pooled) (hvalid : validateEntries entries = .ok ())
    (hroom : allocator.nextPageId + 3 * entries.length < 2 ^ 64) :
    ∃ p after, plan allocator entries = .ok (p, after) ∧
      (∀ children : List Child, (∀ child ∈ children, ∃ entry ∈ entries, child.1 = entry.key) →
        1 < children.length →
          ∃ groups, partitionInternal children = .ok groups ∧ groups.length < children.length) ∧
      (∀ write ∈ p.writes, write.2.length ≤ maxPagePayload) ∧
      (entries = [] → p.root = none) ∧
      (entries ≠ [] → ∃ root, p.root = some root ∧
        (∀ key, get (pages.write p.writes) root key =
          .ok ((find IndexEntry.key key entries).map IndexEntry.value)) ∧
        ∀ start stop limit, range (pages.write p.writes) root start stop limit =
          .ok ((entries.filter (ScanRange.within ⟨start, stop, limit⟩)).take limit)) := by
  obtain ⟨p, after, hplan, -, hsizes, hnone, hsome⟩ := plan_ok pages hpool (by omega) hvalid
    (by omega) (.inl hroom)
  refine ⟨p, after, hplan, fun children hkeys hlong => ?_, hsizes, hnone, fun hne => ?_⟩
  · have hfits : ∀ child ∈ children, Fits child.1 := by
      intro child hchild
      obtain ⟨entry, hentry, heq⟩ := hkeys child hchild
      rw [heq]
      exact (validateEntries_ok.mp hvalid).2 entry hentry
    obtain ⟨groups, hpart, -, -, hhalf⟩ := partitionInternal_ok hfits
    exact ⟨groups, hpart, by omega⟩
  · obtain ⟨root, t, hroot, hstored, rfl⟩ := hsome hne
    exact ⟨root, hroot, hstored.get, hstored.range⟩

theorem plan_correct_two :
    ∃ p after, plan {} [⟨[97], 1⟩, ⟨[98], 2⟩] = .ok (p, after) ∧
      ∃ root, p.root = some root ∧
        range (PageTable.write ∅ p.writes) root none none 5 = .ok [⟨[97], 1⟩, ⟨[98], 2⟩] := by
  obtain ⟨p, after, hplan, -, -, -, hsome⟩ :=
    plan_correct ∅ {} [⟨[97], 1⟩, ⟨[98], 2⟩] (fun id hid => absurd hid (by simp))
      (by decide +kernel) (by decide)
  obtain ⟨root, hroot, -, hrange⟩ := hsome (by simp)
  exact ⟨p, after, hplan, root, hroot, (hrange none none 5).trans (by decide +kernel)⟩

end QuantaDb.Index
