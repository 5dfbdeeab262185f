import QuantaDb.Index.Layout

/-!
# QuantaDb.Index.Grouping

Putting groups of entries into leaves and groups of children into nodes.

`leafTrees` and `parentTrees` are the subtrees that groups make once each has a
page.  They have the same entries in the same order, lie apart, and own their new
pages with all pages below.
-/

namespace QuantaDb.Index

open Ordered Std

variable {α β : Type}

def Group.map (f : α → β) (group : Group α) : Group β := ⟨f group.first, group.rest.map f⟩

/-- Groups of images are images of groups. -/
theorem groups_of_map {f : α → β} {groups : List (Group β)} {l : List α}
    (h : groups.flatMap Group.toList = l.map f) :
    ∃ gs : List (Group α), gs.flatMap Group.toList = l ∧ groups = gs.map (Group.map f) := by
  induction groups generalizing l with
  | nil =>
    have hnil : l = [] := by simpa using h.symm
    exact ⟨[], by simp [hnil], rfl⟩
  | cons group groups ih =>
    rw [List.flatMap_cons] at h
    obtain ⟨l₁, l₂, rfl, hgroup, hrest⟩ := List.map_eq_append_iff.mp h.symm
    obtain ⟨gs, rfl, rfl⟩ := ih hrest.symm
    obtain ⟨a, as, rfl, ha, has⟩ := List.map_eq_cons_iff.mp hgroup
    refine ⟨⟨a, as⟩ :: gs, by simp [Group.toList], ?_⟩
    rw [List.map_cons, Group.map, ha, has]

theorem mem_zipWith {γ : Type} {f : α → β → γ} {as : List α} {bs : List β} {c : γ}
    (h : c ∈ List.zipWith f as bs) : ∃ a b, (a, b) ∈ as.zip bs ∧ c = f a b := by
  rw [← List.map_uncurry_zip_eq_zipWith] at h
  obtain ⟨x, hx, rfl⟩ := List.mem_map.mp h
  exact ⟨x.1, x.2, hx, rfl⟩

/-- A group of entries on a page. -/
def leafTree (group : Group IndexEntry) (page : PageId) : Bytes × Subtree :=
  (group.first.key, ⟨page, [page], group.toList⟩)

/-- A node over a group of subtrees. -/
def parentTree (group : Group (Bytes × Subtree)) (page : PageId) : Bytes × Subtree :=
  (group.first.1, ⟨page, page :: pagesOf group.toList, entriesOf group.toList⟩)

def leafTrees (groups : List (Group IndexEntry)) (ids : List PageId) : List (Bytes × Subtree) :=
  List.zipWith leafTree groups ids

def parentTrees (groups : List (Group (Bytes × Subtree))) (ids : List PageId) :
    List (Bytes × Subtree) :=
  List.zipWith parentTree groups ids

variable {P : Bytes × Subtree → Prop} {read : PageId → Option Node}

theorem holds_leafTree {group : Group IndexEntry} {page : PageId} {next : Option PageId}
    (hinc : Increasing IndexEntry.key group.toList)
    (hread : read page = some (.leaf group.toList next)) :
    Holds P read 0 (leafTree group page).2 :=
  ⟨by simp [leafTree, Group.toList], hinc, rfl, next, hread⟩

theorem holds_parentTree {level : Nat} {group : Group (Bytes × Subtree)} {page : PageId}
    (hsep : Separated group.toList) (hall : ∀ c ∈ group.toList, P c ∧ Holds P read level c.2)
    (hread : read page = some (internalNode (level + 1) (group.map toChild))) :
    Holds P read (level + 1) (parentTree group page).2 :=
  ⟨group.first.1, group.first.2, group.rest, hread, rfl, rfl, hsep, hall⟩

/-! ## entries and pages -/

variable {groups : List (Group IndexEntry)} {ids : List PageId}

theorem entriesOf_leafTrees (hlen : ids.length = groups.length) :
    entriesOf (leafTrees groups ids) = groups.flatMap Group.toList := by
  induction groups generalizing ids with
  | nil => simp [leafTrees, entriesOf]
  | cons group groups ih =>
    cases ids with
    | nil => simp at hlen
    | cons id ids =>
      rw [leafTrees, List.zipWith_cons_cons, entriesOf_cons, List.flatMap_cons]
      exact congrArg _ (ih (by simpa using hlen))

theorem entriesOf_parentTrees {groups : List (Group (Bytes × Subtree))}
    (hlen : ids.length = groups.length) :
    entriesOf (parentTrees groups ids) = entriesOf (groups.flatMap Group.toList) := by
  induction groups generalizing ids with
  | nil => simp [parentTrees, entriesOf]
  | cons group groups ih =>
    cases ids with
    | nil => simp at hlen
    | cons id ids =>
      rw [parentTrees, List.zipWith_cons_cons, entriesOf_cons, List.flatMap_cons,
        entriesOf_append]
      exact congrArg _ (ih (by simpa using hlen))

theorem pagesOf_leafTrees (hlen : ids.length = groups.length) :
    pagesOf (leafTrees groups ids) = ids := by
  induction groups generalizing ids with
  | nil =>
    have : ids = [] := by simpa using hlen
    simp [leafTrees, pagesOf, this]
  | cons group groups ih =>
    cases ids with
    | nil => simp at hlen
    | cons id ids =>
      rw [leafTrees, List.zipWith_cons_cons, pagesOf_cons]
      exact congrArg (id :: ·) (ih (by simpa using hlen))

/-- The pages of parents: the new ones and those below. -/
theorem pagesOf_parentTrees {groups : List (Group (Bytes × Subtree))}
    (hlen : ids.length = groups.length) :
    (pagesOf (parentTrees groups ids)).Perm (ids ++ pagesOf (groups.flatMap Group.toList)) := by
  induction groups generalizing ids with
  | nil =>
    have : ids = [] := by simpa using hlen
    simp [parentTrees, pagesOf, this]
  | cons group groups ih =>
    cases ids with
    | nil => simp at hlen
    | cons id ids =>
      rw [parentTrees, List.zipWith_cons_cons, pagesOf_cons, List.flatMap_cons, pagesOf_append]
      have hrest := @ih ids (by simpa using hlen)
      have hswap : (pagesOf group.toList ++ (ids ++ pagesOf (groups.flatMap Group.toList))).Perm
          (ids ++ (pagesOf group.toList ++ pagesOf (groups.flatMap Group.toList))) := by
        rw [← List.append_assoc, ← List.append_assoc]
        exact List.perm_append_comm.append_right _
      exact ((hrest.append_left _).trans hswap).cons id

/-! ## lying apart -/

theorem separated_leafTrees (hinc : Increasing IndexEntry.key (groups.flatMap Group.toList)) :
    Separated (leafTrees groups ids) := by
  induction groups generalizing ids with
  | nil => exact ⟨by simp [leafTrees], by simp [leafTrees]⟩
  | cons group groups ih =>
    cases ids with
    | nil => exact ⟨by simp [leafTrees], by simp [leafTrees]⟩
    | cons id ids =>
      rw [List.flatMap_cons] at hinc
      obtain ⟨hgroup, hrest, hlt⟩ := Increasing.append_iff.mp hinc
      have hsep := @ih ids hrest
      rw [leafTrees, List.zipWith_cons_cons, ← List.singleton_append, Separated.append_iff]
      refine ⟨⟨fun c hc e he => ?_, List.pairwise_singleton _ _⟩, hsep, ?_⟩
      · obtain rfl := List.mem_singleton.mp hc
        rcases List.mem_cons.mp he with rfl | he
        · exact Std.le_refl _
        · exact le_of_lt ((List.pairwise_cons.mp hgroup).1 e he)
      · intro a ha b hb e he
        obtain rfl := List.mem_singleton.mp ha
        obtain ⟨g, page, hmem, rfl⟩ := mem_zipWith hb
        refine hlt e he _ (List.mem_flatMap.mpr ⟨g, (List.of_mem_zip hmem).1, ?_⟩)
        exact List.mem_cons_self

theorem separated_parentTrees {groups : List (Group (Bytes × Subtree))}
    (hsep : Separated (groups.flatMap Group.toList))
    (hne : ∀ c ∈ groups.flatMap Group.toList, c.2.entries ≠ []) :
    Separated (parentTrees groups ids) := by
  induction groups generalizing ids with
  | nil => exact ⟨by simp [parentTrees], by simp [parentTrees]⟩
  | cons group groups ih =>
    cases ids with
    | nil => exact ⟨by simp [parentTrees], by simp [parentTrees]⟩
    | cons id ids =>
      rw [List.flatMap_cons] at hsep hne
      obtain ⟨hgroup, hrest, hlt⟩ := Separated.append_iff.mp hsep
      have hsep' := @ih ids hrest fun c hc => hne c (List.mem_append_right _ hc)
      rw [parentTrees, List.zipWith_cons_cons, ← List.singleton_append, Separated.append_iff]
      refine ⟨⟨fun c hc e he => ?_, List.pairwise_singleton _ _⟩, hsep', ?_⟩
      · -- the bound of the first child is below all entries of the group
        obtain rfl := List.mem_singleton.mp hc
        obtain ⟨d, hd, he⟩ := mem_entriesOf.mp he
        have hbounds := hgroup.increasing_bounds fun c hc => hne c (List.mem_append_left _ hc)
        rcases List.mem_cons.mp hd with rfl | hd'
        · exact hgroup.bounded _ List.mem_cons_self e he
        · exact le_trans (le_of_lt ((List.pairwise_cons.mp hbounds).1 d hd'))
            (hgroup.bounded d hd e he)
      · intro a ha b hb e he
        obtain rfl := List.mem_singleton.mp ha
        obtain ⟨d, hd, he⟩ := mem_entriesOf.mp he
        obtain ⟨g, page, hmem, rfl⟩ := mem_zipWith hb
        exact hlt d hd g.first
          (List.mem_flatMap.mpr ⟨g, (List.of_mem_zip hmem).1, List.mem_cons_self⟩) e he

end QuantaDb.Index
