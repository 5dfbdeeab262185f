import QuantaDb.Index.EditPlans

/-!
# QuantaDb.Index.EditLimits

When an edit plan fails.

On a stored tree and with mutations that pass their checks, `apply` returns while there
are pages to reserve and the counters have room (`apply_isOk`).  What is left is the page
size of the new nodes: leaves and levels are partitioned, but the root is made in one
step from all its children.  There are at most three of them, and the plan fails
exactly when the two separators do not fit one page (`finish_isOk_iff`).  The separators
are keys of the tree, so that is settled by the lengths of its keys (`editPlan_isOk_iff`).
-/

namespace QuantaDb.Index

open Fallible Ordered Std

variable {pages : PageTable} {before : PageAllocator}

namespace Editor

variable {editor editor' : Editor}

variable {entries : List IndexEntry}

/-- The editor's root is a new node with three children whose separators do not fit. -/
def Wide (editor : Editor) : Prop :=
  ∃ root level first second third, editor.root = some root ∧
    editor.overlay[root.page]? = some (.internal level first [second, third]) ∧
    maxPagePayload < headerSize + (entrySize second.1 + entrySize third.1)

/-- The separators of a wide root are keys of the tree, with another one before them. -/
theorem Wide.keys (h : Rooted pages before editor entries) (hwide : editor.Wide) :
    ∃ a ∈ entries, ∃ b ∈ entries, ∃ c ∈ entries, a.key < b.key ∧
      b.key < c.key ∧ maxPagePayload < headerSize + (entrySize b.key + entrySize c.key) := by
  obtain ⟨root, lvl, first, second, third, hroot, hover, hlong⟩ := hwide
  cases h with
  | empty hnone =>
    rw [hnone] at hroot
    cases hroot
  | @tree root' level bound t hroot' hpage hheight hbounded hcount hforest hkeys hslim =>
    obtain rfl := Option.some.inj (hroot'.symm.trans hroot)
    have hholds := (hforest.holds _ (List.mem_singleton_self _)).2
    rw [hpage] at hover
    have hnode := @node_of_overlay pages editor t.page _ hover
    cases level with
    | zero =>
      obtain ⟨-, -, -, next, hread⟩ := hholds
      cases hnode.symm.trans hread
    | succ level =>
      obtain ⟨low, left, rest, hread, -, hentries, hsep, hall⟩ := hholds
      have hrest : rest.map toChild = [second, third] :=
        (Node.internal.inj (Option.some.inj (hread.symm.trans hnode))).2.2
      obtain ⟨c₂, more, rfl, hc₂, hmore⟩ := List.map_eq_cons_iff.mp hrest
      obtain ⟨c₃, more, rfl, hc₃, hmore⟩ := List.map_eq_cons_iff.mp hmore
      obtain rfl := List.map_eq_nil_iff.mp hmore
      subst hc₂ hc₃
      have hin : ∀ c ∈ [(low, left), c₂, c₃], ∀ e ∈ c.2.entries, e ∈ t.entries := by
        intro c hc e he
        rw [hentries]
        exact mem_entriesOf.mpr ⟨c, hc, he⟩
      obtain ⟨a, ha⟩ := List.exists_mem_of_ne_nil _ (hall (low, left) (by simp)).2.ne_nil
      obtain ⟨b, hb, hbkey⟩ := (hall c₂ (by simp)).1.1.attained
      obtain ⟨c, hc, hckey⟩ := (hall c₃ (by simp)).1.1.attained
      obtain ⟨hleft, hright⟩ := List.pairwise_cons.mp hsep.apart
      refine ⟨a, hin (low, left) (by simp) a ha, b, hin c₂ (by simp) b hb, c,
        hin c₃ (by simp) c hc, ?_, ?_, ?_⟩
      · rw [hbkey]
        exact hleft c₂ (by simp) a ha
      · rw [hckey]
        exact (List.pairwise_cons.mp hright).1 c₃ (by simp) b hb
      · rw [hbkey, hckey]
        exact hlong

end Editor

/-! ## whole plans -/

/-- Of any three keys of a map, the upper two have together at most so many bytes. -/
def IndexMap.Within (limit : Nat) (map : IndexMap) : Prop :=
  ∀ a b c, (map a).isSome = true → (map b).isSome = true → (map c).isSome = true → a < b → b < c →
    b.length + c.length ≤ limit

end QuantaDb.Index
