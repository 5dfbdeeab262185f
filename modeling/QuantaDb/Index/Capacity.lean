import QuantaDb.Index.Build

/-!
# QuantaDb.Index.Capacity

How many nodes a partition makes.

Both partitions fill each node as far as it goes.  No other way to cut a list into
nodes that fit makes fewer of them (`partitionLeaves_le`, `partitionInternal_le`), so a
cut that one can see bounds the one that the code makes.
-/

namespace QuantaDb.Index

open Fallible

/-- The loop against a cut whose current node still has `left` to come: at most one node
more, and none if the rest fits the node being filled. -/
theorem fillLeaf_le {rest left : List IndexEntry} {first : IndexEntry} {group : List IndexEntry}
    {used : Nat} {groups cut : List (Group IndexEntry)}
    (hrest : rest = left ++ cut.flatMap Group.toList) (hcut : ∀ g ∈ cut, g.LeafFits)
    (hleft : headerSize + sizeOf (left.map IndexEntry.key) ≤ maxPagePayload)
    (h : fillLeaf first group used rest = .ok groups) :
    groups.length ≤ 2 + cut.length ∧
      (used + sizeOf (left.map IndexEntry.key) ≤ maxPagePayload →
        groups.length ≤ 1 + cut.length) := by
  induction rest generalizing left first group used groups cut with
  | nil =>
    obtain rfl := Except.ok.inj h
    simp only [List.length_singleton]
    omega
  | cons entry rest ih =>
    rw [fillLeaf] at h
    cases left with
    | nil =>
      -- the cut goes on with its next node
      cases cut with
      | nil => cases hrest
      | cons g cut =>
        rw [List.forall_mem_cons] at hcut
        obtain ⟨rfl, rfl⟩ := List.cons.inj hrest
        have hg : headerSize + (entrySize g.first.key + sizeOf (g.rest.map IndexEntry.key)) ≤
            maxPagePayload := by
          have := hcut.1
          rwa [Group.LeafFits, Group.toList, List.map_cons, sizeOf_cons] at this
        rw [List.length_cons]
        split at h
        · obtain ⟨size, hsize, h⟩ := bind_eq_ok.mp h
          obtain ⟨groups', hrun, h⟩ := bind_eq_ok.mp h
          obtain rfl := Except.ok.inj h
          rw [startLeaf, ite_error_eq_ok] at hsize
          obtain rfl := Except.ok.inj hsize.2
          have hle := (ih rfl hcut.2 (by omega) hrun).2 (by omega)
          rw [List.length_cons]
          omega
        · have hle := (ih rfl hcut.2 (by omega) h).1
          omega
    | cons next left =>
      obtain ⟨rfl, rfl⟩ := List.cons.inj hrest
      rw [List.map_cons, sizeOf_cons] at hleft ⊢
      split at h
      · next hfull =>
        obtain ⟨size, hsize, h⟩ := bind_eq_ok.mp h
        obtain ⟨groups', hrun, h⟩ := bind_eq_ok.mp h
        obtain rfl := Except.ok.inj h
        rw [startLeaf, ite_error_eq_ok] at hsize
        obtain rfl := Except.ok.inj hsize.2
        have hle := (ih rfl hcut (by omega) hrun).2 (by omega)
        rw [List.length_cons]
        omega
      · have hle := ih rfl hcut (by omega) h
        omega

/-- **Leaves**: no cut into leaves that fit is shorter. -/
theorem partitionLeaves_le {cut groups : List (Group IndexEntry)} (hcut : ∀ g ∈ cut, g.LeafFits)
    (h : partitionLeaves (cut.flatMap Group.toList) = .ok groups) : groups.length ≤ cut.length := by
  cases cut with
  | nil =>
    obtain rfl := Except.ok.inj h
    exact Nat.le_refl _
  | cons g cut =>
    rw [List.forall_mem_cons] at hcut
    obtain ⟨size, hsize, h⟩ := bind_eq_ok.mp h
    rw [startLeaf, ite_error_eq_ok] at hsize
    obtain rfl := Except.ok.inj hsize.2
    have hg := hcut.1
    rw [Group.LeafFits, Group.toList, List.map_cons, sizeOf_cons] at hg
    have hle := (fillLeaf_le rfl hcut.2 (by omega) h).2 (by omega)
    rw [List.length_cons]
    omega

theorem fillInternal_le {rest left : List Child} {first : Child} {group : List Child} {used : Nat}
    {groups cut : List (Group Child)} (hrest : rest = left ++ cut.flatMap Group.toList)
    (hcut : ∀ g ∈ cut, g.InternalFits)
    (hleft : headerSize + sizeOf (left.map Prod.fst) ≤ maxPagePayload)
    (h : fillInternal first group used rest = .ok groups) :
    groups.length ≤ 2 + cut.length ∧
      (used + sizeOf (left.map Prod.fst) ≤ maxPagePayload → groups.length ≤ 1 + cut.length) := by
  induction rest generalizing left first group used groups cut with
  | nil =>
    obtain rfl := Except.ok.inj h
    simp only [List.length_singleton]
    omega
  | cons child rest ih =>
    rw [fillInternal] at h
    cases left with
    | nil =>
      cases cut with
      | nil => cases hrest
      | cons g cut =>
        rw [List.forall_mem_cons] at hcut
        obtain ⟨rfl, rfl⟩ := List.cons.inj hrest
        have hg : headerSize + sizeOf (g.rest.map Prod.fst) ≤ maxPagePayload := hcut.1
        rw [List.length_cons]
        split at h
        · split at h
          · cases h
          · obtain ⟨groups', hrun, h⟩ := bind_eq_ok.mp h
            obtain rfl := Except.ok.inj h
            have hle := (ih rfl hcut.2 hg hrun).2 hg
            rw [List.length_cons]
            omega
        · have hle := (ih rfl hcut.2 hg h).1
          omega
    | cons next left =>
      obtain ⟨rfl, rfl⟩ := List.cons.inj hrest
      rw [List.map_cons, sizeOf_cons] at hleft ⊢
      split at h
      · split at h
        · cases h
        · obtain ⟨groups', hrun, h⟩ := bind_eq_ok.mp h
          obtain rfl := Except.ok.inj h
          have hle := (ih rfl hcut (by omega) hrun).2 (by omega)
          rw [List.length_cons]
          omega
      · have hle := ih rfl hcut (by omega) h
        omega

/-- **Internal nodes**: no cut into nodes that fit is shorter. -/
theorem partitionInternal_le {cut groups : List (Group Child)} (hcut : ∀ g ∈ cut, g.InternalFits)
    (h : partitionInternal (cut.flatMap Group.toList) = .ok groups) :
    groups.length ≤ cut.length := by
  cases cut with
  | nil =>
    obtain rfl := Except.ok.inj h
    exact Nat.le_refl _
  | cons g cut =>
    rw [List.forall_mem_cons] at hcut
    have hg : headerSize + sizeOf (g.rest.map Prod.fst) ≤ maxPagePayload := hcut.1
    have hle := (fillInternal_le rfl hcut.2 hg h).2 hg
    rw [List.length_cons]
    omega

end QuantaDb.Index
