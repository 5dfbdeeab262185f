import Mathlib

/-!
# QuantaDb.Lib.TreeMaps

Ordered maps and sets whose order decides equality: lookups after the updates
that loops make, stated with `=` on keys.
-/

namespace TreeMaps

open Std

variable {α β : Type} [Ord α] [TransOrd α]

theorem mem_iff_get (m : TreeMap α β) (k : α) : k ∈ m ↔ ∃ v, m[k]? = some v := by
  rw [TreeMap.mem_iff_isSome_getElem?, Option.isSome_iff_exists]

variable [LawfulEqOrd α]

theorem mem_insert_set (s : TreeSet α) (k k' : α) : k' ∈ s.insert k ↔ k = k' ∨ k' ∈ s := by
  rw [TreeSet.mem_insert, LawfulEqOrd.compare_eq_iff_eq]

theorem mem_erase_set (s : TreeSet α) (k k' : α) : k' ∈ s.erase k ↔ k ≠ k' ∧ k' ∈ s := by
  rw [TreeSet.mem_erase, Ne, Ne, LawfulEqOrd.compare_eq_iff_eq]

theorem mem_filter_set (s : TreeSet α) (p : α → Bool) (k : α) :
    k ∈ s.filter p ↔ k ∈ s ∧ p k = true := by
  rw [TreeSet.mem_filter]
  constructor
  · rintro ⟨h, hp⟩
    rw [TreeSet.get_eq] at hp
    exact ⟨h, hp⟩
  · rintro ⟨h, hp⟩
    exact ⟨h, by rwa [TreeSet.get_eq]⟩

theorem nodup_toList_set (s : TreeSet α) : s.toList.Nodup :=
  s.distinct_toList.imp fun hne heq => hne (LawfulEqOrd.compare_eq_iff_eq.mpr heq)

/-- The entries of a map, each once. -/
theorem nodup_toList (m : TreeMap α β) : m.toList.Nodup :=
  m.distinct_keys_toList.imp fun hne heq => hne (by rw [heq]; exact ReflOrd.compare_self)

/-- A map is listed by any list of its entries in the order of the keys. -/
theorem toList_eq {m : TreeMap α β} {l : List (α × β)}
    (hsorted : l.Pairwise fun a b => compare a.1 b.1 = .lt)
    (hmem : ∀ k v, (k, v) ∈ l ↔ m[k]? = some v) : m.toList = l := by
  have hnodup : l.Nodup :=
    hsorted.imp fun hlt heq => by rw [heq, ReflOrd.compare_self] at hlt; cases hlt
  have hperm : m.toList.Perm l := by
    rw [List.perm_ext_iff_of_nodup (nodup_toList m) hnodup]
    intro entry
    rw [hmem, TreeMap.mem_toList_iff_getElem?_eq_some]
  refine hperm.eq_of_pairwise (fun a b _ _ hab hba => ?_) m.ordered_keys_toList hsorted
  rw [OrientedOrd.eq_swap, hba] at hab
  cases hab

variable [DecidableEq α]

/-- A map made of the entries of another has the same entries. -/
theorem get_ofList_toList (m : TreeMap α β) (k : α) : (TreeMap.ofList m.toList)[k]? = m[k]? := by
  cases hk : m[k]? with
  | some v =>
    exact TreeMap.getElem?_ofList_of_mem (ReflOrd.compare_self (a := k)) m.distinct_keys_toList
      (TreeMap.mem_toList_iff_getElem?_eq_some.mpr hk)
  | none =>
    refine TreeMap.getElem?_eq_none fun hmem => ?_
    rw [TreeMap.mem_ofList, TreeMap.map_fst_toList_eq_keys, List.contains_iff_mem,
      TreeMap.mem_keys, mem_iff_get] at hmem
    obtain ⟨v, hv⟩ := hmem
    rw [hk] at hv
    cases hv

theorem get_insert (m : TreeMap α β) (k k' : α) (v : β) :
    (m.insert k v)[k']? = if k = k' then some v else m[k']? := by
  rw [TreeMap.getElem?_insert]
  simp only [LawfulEqOrd.compare_eq_iff_eq]

theorem get_insert_self (m : TreeMap α β) (k : α) (v : β) : (m.insert k v)[k]? = some v := by
  rw [get_insert, if_pos rfl]

theorem get_erase (m : TreeMap α β) (k k' : α) :
    (m.erase k)[k']? = if k = k' then none else m[k']? := by
  rw [TreeMap.getElem?_erase]
  simp only [LawfulEqOrd.compare_eq_iff_eq]

theorem getD_insert (m : TreeMap α β) (k k' : α) (v d : β) :
    (m.insert k v).getD k' d = if k = k' then v else m.getD k' d := by
  rw [TreeMap.getD_insert]
  simp only [LawfulEqOrd.compare_eq_iff_eq]

theorem mem_ofList_set (l : List α) (k : α) : k ∈ TreeSet.ofList l ↔ k ∈ l := by
  rw [TreeSet.mem_ofList, List.contains_iff_mem]

/-- One value for each of several keys. -/
theorem get_foldl_insert (keys : List α) (v : β) (m : TreeMap α β) (k : α) :
    (keys.foldl (fun m key => m.insert key v) m)[k]? = if k ∈ keys then some v else m[k]? := by
  induction keys generalizing m with
  | nil => simp
  | cons key keys ih =>
    rw [List.foldl_cons, ih, get_insert]
    by_cases hk : k ∈ keys
    · simp [hk]
    · by_cases heq : key = k
      · simp [heq]
      · simp [hk, heq, Ne.symm heq]

end TreeMaps
