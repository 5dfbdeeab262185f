import QuantaDb.Index.Edits

/-!
# QuantaDb.Index.EditPlans

Whole edit plans refine an ordered map.

An editor that has a tree (`Editor.Rooted`) keeps one through every mutation; the
plan it finishes with writes all new nodes of the tree and touches no page that was
in use before.  So the new root has the map with the mutations applied, and the old
root still has the old map (`editPlan_refines`).
-/

namespace QuantaDb.Index

open Fallible Ordered Std

variable {pages : PageTable} {before : PageAllocator}

namespace Editor

variable {editor editor' : Editor}

/-- The editor has a tree with these entries. -/
inductive Rooted (pages : PageTable) (before : PageAllocator) (editor : Editor) :
    List IndexEntry → Prop
  | empty (root : editor.root = none) : Rooted pages before editor []
  | tree {root : IndexRoot} {level : Nat} {bound : Bytes} {t : Subtree}
      (root_eq : editor.root = some root) (page : root.page = t.page)
      (height : root.height = level + 1)
      (bounded : root.height < 2 ^ 16) (count : root.entries = t.entries.length)
      (forest : Forest pages before editor level [(bound, t)])
      (keys : ∀ e ∈ t.entries, Fits e.key) (slim : Slim pages editor true t) :
      Rooted pages before editor t.entries

variable {entries : List IndexEntry}

theorem Rooted.increasing (h : Rooted pages before editor entries) :
    Increasing IndexEntry.key entries := by
  cases h with
  | empty => exact List.Pairwise.nil
  | tree _ _ _ _ _ forest => exact (forest.holds _ (List.mem_singleton_self _)).2.increasing

/-- **The first key** of a tree. -/
theorem firstKey_spec {left level : Nat} {t : Subtree} {visited : List PageId}
    {P : Bytes × Subtree → Prop} (h : Holds P (editor.node pages) level t) (hleft : level < left)
    (hnodup : t.pages.Nodup) (hfresh : ∀ id ∈ t.pages, id ∉ visited) :
    ∃ entry rest, t.entries = entry :: rest ∧
      editor.firstKey pages left visited t.page = .ok entry.key := by
  induction level generalizing t visited left with
  | zero =>
    obtain ⟨left, rfl⟩ : ∃ n, left = n + 1 := ⟨left - 1, by omega⟩
    have hpage := hfresh t.page h.mem_pages
    obtain ⟨hne, -, -, next, hread⟩ := h
    obtain ⟨entry, rest, hentries⟩ := List.exists_cons_of_ne_nil hne
    refine ⟨entry, rest, hentries, ?_⟩
    rw [hentries] at hread
    rw [firstKey, if_neg hpage, node_eq_some.mp hread]
  | succ level ih =>
    obtain ⟨left, rfl⟩ : ∃ n, left = n + 1 := ⟨left - 1, by omega⟩
    have hpage := hfresh t.page h.mem_pages
    obtain ⟨bound, first, rest, hread, hpages, hentries, -, hall⟩ := h
    rw [hpages, pagesOf_cons] at hnodup hfresh
    obtain ⟨hnot, hnodup⟩ := List.nodup_cons.mp hnodup
    have hfresh' : ∀ id ∈ first.pages, id ∉ t.page :: visited := by
      intro id hid
      rw [List.mem_cons, not_or]
      refine ⟨?_, hfresh id (by simp [hid])⟩
      rintro rfl
      exact hnot (List.mem_append_left _ hid)
    obtain ⟨entry, more, hfirst, hrun⟩ := ih (hall _ List.mem_cons_self).2
      (show level < left by omega) (List.nodup_append.mp hnodup).1 hfresh'
    refine ⟨entry, more ++ entriesOf rest, ?_, ?_⟩
    · rw [hentries, entriesOf_cons, hfirst]
      rfl
    · rw [firstKey, if_neg hpage, node_eq_some.mp hread]
      exact hrun

theorem first_le {rest : List IndexEntry} {entry : IndexEntry}
    (hinc : Increasing IndexEntry.key entries) (hentries : entries = entry :: rest) :
    ∀ e ∈ entries, entry.key ≤ e.key := by
  subst hentries
  intro e he
  rcases List.mem_cons.mp he with rfl | he
  · exact Std.le_refl _
  · exact Std.le_of_lt ((List.pairwise_cons.mp hinc).1 e he)

/-- **The count** of a root. -/
theorem countEntries_spec {root : IndexRoot} {delta : Delta} {n : Nat} {key : Bytes}
    {value : Option PageId} (hinc : Increasing IndexEntry.key entries)
    (hcount : root.entries = entries.length) (hdelta : DeltaFor key value entries delta)
    (h : countEntries root delta = .ok n) :
    n = (put IndexEntry.key key (entryFor key value) entries).length := by
  cases delta with
  | removed =>
    obtain ⟨rfl, hsome⟩ := hdelta
    have hlen := length_put_of_some (a := entryFor key none) hinc hsome
    rw [countEntries, ite_error_eq_ok] at h
    have := Except.ok.inj h.2
    simp only [entryFor, Option.map_none, Option.toList_none, List.length_nil] at hlen ⊢
    omega
  | same =>
    obtain ⟨hvalue, hsome⟩ := hdelta
    obtain ⟨v, rfl⟩ := Option.isSome_iff_exists.mp hvalue
    have hlen := length_put_of_some (a := entryFor key (some v)) hinc hsome
    have := Except.ok.inj h
    simp only [entryFor, Option.map_some, Option.toList_some, List.length_singleton] at hlen ⊢
    omega
  | added =>
    obtain ⟨hvalue, hnone⟩ := hdelta
    obtain ⟨v, rfl⟩ := Option.isSome_iff_exists.mp hvalue
    have hlen := length_put_of_none (a := entryFor key (some v)) hnone
    rw [countEntries, ite_error_eq_ok] at h
    have := Except.ok.inj h.2
    simp only [entryFor, Option.map_some, Option.toList_some, List.length_singleton] at hlen ⊢
    omega

variable {level : Nat} {subs : List (Bytes × Subtree)}

theorem rooted_root {entries : Option IndexRoot} (h : Forest pages before editor level subs) :
    Forest pages before { editor with root := entries } level subs := ⟨h.1, h.2, h.3, h.4⟩

theorem inv_root {root : Option IndexRoot} (h : editor.Inv before) :
    ({ editor with root := root } : Editor).Inv before := ⟨h.1, h.2, h.3, h.4, h.5⟩

/-- The nodes under some subtrees fit their pages. -/
def AllFit (pages : PageTable) (editor : Editor) (subs : List (Bytes × Subtree)) : Prop :=
  ∀ id ∈ pagesOf subs, ∀ n, editor.node pages id = some n → n.encodedLength ≤ maxPagePayload

/-- **The new root.** -/
theorem setRoot_spec {height count : Nat} (hinv : editor.Inv before)
    (hforest : Forest pages before editor level subs) (hheight : height = level + 1)
    (hbounded : height < 2 ^ 16) (hcount : count = (entriesOf subs).length)
    (hkeys : ∀ e ∈ entriesOf subs, Fits e.key) (hfits : AllFit pages editor subs)
    (hfew : subs.length ≤ 3) (h : editor.setRoot height count (subs.map toChild) = .ok editor') :
    editor'.Inv before ∧ Rooted pages before editor' (entriesOf subs) := by
  rcases subs with _ | ⟨first, _ | ⟨second, rest⟩⟩
  · obtain rfl := Except.ok.inj h
    exact ⟨inv_root hinv, .empty rfl⟩
  · obtain rfl := Except.ok.inj h
    have hone : entriesOf [first] = first.2.entries := by simp [entriesOf]
    rw [hone] at hcount hkeys ⊢
    refine ⟨inv_root hinv, .tree rfl rfl hheight hbounded hcount
      (rooted_root hforest) hkeys fun id hid n hn => .inl ?_⟩
    exact hfits id (by simpa [pagesOf] using hid) n hn
  · obtain ⟨⟨page, last⟩, halloc, h⟩ := bind_eq_ok.mp h
    rw [ite_error_eq_ok] at h
    obtain ⟨hroom, h⟩ := h
    obtain rfl := Except.ok.inj h
    have hkids : ∀ c ∈ first :: second :: rest, (toChild c).2 ≠ noPage := by
      intro c hc
      refine ne_noPage hinv.bounded (hforest.inUse _ (List.mem_flatMap.mpr ⟨c, hc, ?_⟩))
      exact (hforest.holds c hc).2.mem_pages
    have hinc := hforest.separated.increasing_bounds hforest.ne_nil
    have hsound : (internalNode height
      ⟨toChild first, toChild second :: rest.map toChild⟩).Sound := by
      refine ⟨by omega, hbounded, hkids first List.mem_cons_self, ?_, ?_⟩
      · intro separator hsep
        obtain ⟨c, hc, rfl⟩ :=
          List.mem_map.mp (show separator ∈ (second :: rest).map toChild from hsep)
        exact hkids c (List.mem_cons_of_mem _ hc)
      · exact (List.pairwise_map (l := second :: rest)).mpr (List.pairwise_cons.mp hinc).2
    obtain ⟨hinv', hext, hres, hover, -⟩ := allocate_spec hinv hsound halloc
    have hforest' := hforest.grow hext hinv
    let t := (parentTree ⟨first, second :: rest⟩ page).2
    have hslim : Slim pages last true t := by
      intro id hid n hn
      rcases List.mem_cons.mp (show id ∈ page :: pagesOf (first :: second :: rest) from hid) with
        rfl | hid
      · -- the root itself: with two children its only separator fits
        rw [node_of_overlay hover] at hn
        obtain rfl := Option.some.inj hn
        rcases rest with _ | ⟨third, _ | ⟨fourth, rest⟩⟩
        · refine .inl ?_
          have hsecond : Fits second.1 := (hforest.holds second (by simp)).1.1.fits
          rw [encodedLength_internal]
          simpa [sizeOf, Fits, toChild] using hsecond
        · exact .inr ⟨rfl, rfl, hover, _, _, _, _, rfl⟩
        · simp only [List.length_cons] at hfew
          omega
      · rw [hext.node_eq (hforest.inUse id hid)] at hn
        exact .inl (hfits id hid n hn)
    have hholds : Holds (Mixed before last) (last.node pages) (level + 1) t := by
      refine holds_parentTree hforest'.separated (fun c hc => hforest'.holds c hc) ?_
      rw [node_of_overlay hover, hheight]
      rfl
    refine ⟨inv_root hinv', ?_⟩
    have hfirst : FitsBound (⟨first, second :: rest⟩ : Group (Bytes × Subtree)).first :=
      (hforest.holds first List.mem_cons_self).1.1
    have hbound : FitsBound (first.1, t) := hfirst.parent page
    have hlow : ∀ e ∈ t.entries, first.1 ≤ e.key := by
      intro e he
      obtain ⟨c, hc, hec⟩ := mem_entriesOf.mp (show e ∈ entriesOf (first :: second :: rest) from he)
      have hle := hforest.separated.bounded c hc e hec
      rcases List.mem_cons.mp hc with rfl | hc
      · exact hle
      · exact Std.le_trans (Std.le_of_lt ((List.pairwise_cons.mp hinc).1 c hc)) hle
    have htree : Forest pages before last (level + 1) [(first.1, t)] := by
      have hpages : pagesOf [(first.1, t)] = page :: pagesOf (first :: second :: rest) := by
        simp [pagesOf, t, parentTree, Group.toList]
      refine ⟨fun d hd => ?_, ⟨fun d hd e he => ?_, List.pairwise_singleton _ _⟩, ?_,
        fun id hid => ?_⟩
      · obtain rfl := List.mem_singleton.mp hd
        refine ⟨⟨hbound, .inl ?_⟩, hholds⟩
        exact Option.isSome_iff_exists.mpr ⟨_, hover⟩
      · obtain rfl := List.mem_singleton.mp hd
        exact hlow e he
      · rw [hpages, List.nodup_cons]
        exact ⟨fun hid => hres.fresh page (List.mem_singleton_self page) (hforest.inUse page hid),
          hforest.nodup⟩
      · rw [hpages, List.mem_cons] at hid
        rcases hid with rfl | hid
        · exact (hres.inUse id).mpr (.inr (List.mem_singleton_self id))
        · exact hforest'.inUse id hid
    exact Rooted.tree (t := t) rfl rfl (by simp only; omega) (by simp only; omega) hcount
      (rooted_root htree) hkeys hslim

/-- The pages of a replacement fit. -/
theorem Replaces.allFit {t : Subtree} {key firstKey : Bytes} {value : Option PageId}
    {edited : Edited} {isRoot : Bool}
    (h : Replaces pages before editor editor' t key value firstKey level edited subs)
    (hext : editor.Extends editor') (hnew : editor.NewFits editor')
    (hslim : Slim pages editor isRoot t) : AllFit pages editor' subs := by
  intro id hid n hn
  rcases hnew id (h.forest.inUse id hid) with hold | ⟨m, hm, hfits⟩
  · rw [hext.node_eq hold] at hn
    rcases h.owned id hid with ⟨hmem, hne⟩ | hfresh
    · rcases hslim id hmem n hn with hfits | ⟨-, heq, -⟩
      · exact hfits
      · exact absurd heq hne
    · exact absurd hold hfresh
  · rw [node_of_overlay hm] at hn
    exact Option.some.inj hn ▸ hfits

/-- The key of a mutation that passes its check. -/
theorem fits_of_validate {mutation : IndexMutation} (h : mutation.validate = .ok ()) :
    ∀ v, mutation.target.2 = some v → Fits mutation.target.1 := by
  intro v hv
  cases mutation with
  | upsert entry => exact (validateEntries_ok.mp h).2 entry (List.mem_singleton_self entry)
  | delete key => cases hv

/-- **One mutation.** -/
theorem apply_spec {mutation : IndexMutation} (hinv : editor.Inv before)
    (h : Rooted pages before editor entries) (hrun : editor.apply pages mutation = .ok editor') :
    editor'.Inv before ∧ Rooted pages before editor'
      (put IndexEntry.key mutation.target.1
        (entryFor mutation.target.1 mutation.target.2) entries) := by
  obtain ⟨⟨⟩, hvalid, hrun⟩ := bind_eq_ok.mp hrun
  have hkey := fits_of_validate hvalid
  generalize hk : mutation.target.1 = key at *
  generalize hv : mutation.target.2 = value at *
  cases h with
  | empty hroot =>
    rw [hroot] at hrun
    simp only at hrun
    split at hrun
    · obtain rfl := Except.ok.inj hrun
      exact ⟨hinv, .empty hroot⟩
    · next v =>
      obtain ⟨⟨page, last⟩, halloc, hrun⟩ := bind_eq_ok.mp hrun
      obtain rfl := Except.ok.inj hrun
      have hsound : (Node.leaf [⟨key, v⟩] none).Sound := ⟨List.pairwise_singleton _ _, by simp⟩
      obtain ⟨hinv', -, hres, hover, -⟩ := allocate_spec hinv hsound halloc
      refine ⟨inv_root hinv', ?_⟩
      let t : Subtree := ⟨page, [page], [⟨key, v⟩]⟩
      have hholds : Holds (Mixed before last) (last.node pages) 0 t :=
        ⟨by simp [t], List.pairwise_singleton _ _, rfl, none, node_of_overlay hover⟩
      have hbound : FitsBound (key, t) := ⟨hkey v rfl, ⟨key, v⟩, List.mem_singleton_self _, rfl⟩
      have hforest : Forest pages before last 0 [(key, t)] := by
        refine ⟨fun d hd => ?_, ⟨fun d hd e he => ?_, List.pairwise_singleton _ _⟩, ?_, ?_⟩
        · obtain rfl := List.mem_singleton.mp hd
          exact ⟨⟨hbound, .inl (Option.isSome_iff_exists.mpr ⟨_, hover⟩)⟩, hholds⟩
        · obtain rfl := List.mem_singleton.mp hd
          obtain rfl := List.mem_singleton.mp he
          exact Std.le_refl _
        · simp [pagesOf, t]
        · intro id hid
          have hid' : id = page := by simpa [pagesOf, t] using hid
          exact hid' ▸ (hres.inUse page).mpr (.inr (List.mem_singleton_self page))
      refine Rooted.tree (t := t) rfl rfl rfl (by simp only; omega) rfl
        (rooted_root hforest) ?_ ?_
      · intro e he
        obtain rfl := List.mem_singleton.mp he
        exact hkey v rfl
      · intro id hid n hn
        obtain rfl := List.mem_singleton.mp hid
        refine .inl ?_
        obtain rfl := Option.some.inj ((node_of_overlay hover).symm.trans hn)
        exact Nat.le_trans (Nat.le_of_eq (encodedLength_leaf ⟨⟨key, v⟩, []⟩ none))
          (leafFits_singleton (hkey v rfl))
  | @tree root level bound t hroot hpage hheight hbounded hcount hforest hkeys hslim =>
    rw [hroot] at hrun
    simp only [applyAt] at hrun
    rw [if_neg (by omega)] at hrun
    have hholds := (hforest.holds _ (List.mem_singleton_self _)).2
    have hpages : pagesOf [(bound, t)] = t.pages := by simp [pagesOf]
    have hnodup : t.pages.Nodup := hpages ▸ hforest.nodup
    have huse : ∀ id ∈ t.pages, editor.allocator.InUse id := hpages ▸ hforest.inUse
    obtain ⟨first, hfirst, hrun₁⟩ := bind_eq_ok.mp hrun
    obtain ⟨entry, rest, hentries, hfirst'⟩ :=
      @firstKey_spec pages editor (2 ^ 16) level t [] _ hholds (by omega) hnodup (by simp)
    rw [hpage, hfirst'] at hfirst
    obtain rfl := Except.ok.inj hfirst
    obtain ⟨⟨edited, last⟩, hedit, hrun₂⟩ := bind_eq_ok.mp hrun₁
    rw [hheight, Nat.add_sub_cancel, hpage] at hedit
    have hinc := hholds.increasing
    have hle := first_le hinc hentries
    have hmem : entry ∈ t.entries := by rw [hentries]; exact List.mem_cons_self
    have hfit : FitsBound (entry.key, t) := ⟨hkeys entry hmem, entry, hmem, rfl⟩
    obtain ⟨hinv', hext, hnew, hnone, hsome⟩ := edit_spec hinv hholds huse hnodup hslim hle hfit
      hkeys hkey (by omega) hedit
    cases edited with
    | none =>
      obtain ⟨heq, rfl, hfind⟩ := hnone rfl
      obtain rfl := Except.ok.inj hrun₂
      subst heq
      have hsame : put IndexEntry.key key (entryFor key none) t.entries = t.entries := by
        rw [put, filter_above_self hfind]
        exact below_append_above key t.entries
      rw [hsame]
      exact ⟨hinv, .tree hroot hpage hheight hbounded hcount hforest hkeys hslim⟩
    | some edited =>
      obtain ⟨-, subs, hrep⟩ := hsome edited rfl
      obtain ⟨n, hcount', hrun₃⟩ := bind_eq_ok.mp hrun₂
      rw [hrep.children] at hrun₃
      have hn := countEntries_spec hinc hcount hrep.delta hcount'
      rw [← hrep.entries] at hn ⊢
      have hkeys' : ∀ e ∈ entriesOf subs, Fits e.key := by
        rw [hrep.entries]
        exact fits_put hkeys hkey
      refine setRoot_spec hinv' hrep.forest ?_ ?_ hn hkeys' (hrep.allFit hext hnew hslim) hrep.few
        hrun₃
      · cases hcollapsed : edited.collapsed with
        | true =>
          have hpos := hrep.deep hcollapsed
          rw [if_pos rfl, if_pos rfl]
          omega
        | false => rw [if_neg (by simp), if_neg (by simp), hheight]
      · split <;> omega

/-! ## the plan -/

/-- What a walk over a subtree reaches: all its new nodes, and nothing outside. -/
structure Reaches (editor : Editor) (ids reached reached' : List PageId) : Prop where
  kept : ∀ id ∈ reached, id ∈ reached'
  inside : ∀ id ∈ reached', id ∈ reached ∨ id ∈ ids
  new : ∀ id ∈ ids, (editor.overlay[id]?).isSome = true → id ∈ reached'

theorem collect_children {left : Nat} {cs : List (Bytes × Subtree)} {reached : List PageId}
    (step : ∀ c ∈ cs, ∀ reached : List PageId, (∀ id ∈ c.2.pages, id ∉ reached) →
      ∃ reached', editor.collect left reached c.2.page = .ok reached' ∧
        Reaches editor c.2.pages reached reached')
    (hnodup : (pagesOf cs).Nodup) (hfresh : ∀ id ∈ pagesOf cs, id ∉ reached) :
    ∃ reached', (cs.map fun c => c.2.page).foldlM
        (fun reached child => editor.collect left reached child) reached = .ok reached' ∧
      Reaches editor (pagesOf cs) reached reached' := by
  induction cs generalizing reached with
  | nil => exact ⟨reached, rfl, fun _ h => h, fun _ h => .inl h, by simp [pagesOf]⟩
  | cons c cs ih =>
    rw [pagesOf_cons] at hnodup hfresh ⊢
    obtain ⟨-, hnodup', hdisj⟩ := List.nodup_append.mp hnodup
    obtain ⟨reached₁, hrun₁, hreach₁⟩ := step c List.mem_cons_self reached
      fun id hid => hfresh id (List.mem_append_left _ hid)
    have hfresh' : ∀ id ∈ pagesOf cs, id ∉ reached₁ := by
      intro id hid hmem
      rcases hreach₁.inside id hmem with hmem | hmem
      · exact hfresh id (List.mem_append_right _ hid) hmem
      · exact hdisj id hmem id hid rfl
    obtain ⟨reached₂, hrun₂, hreach₂⟩ :=
      ih (fun d hd => step d (List.mem_cons_of_mem _ hd)) hnodup' hfresh'
    refine ⟨reached₂, ?_, fun id hid => hreach₂.kept id (hreach₁.kept id hid), fun id hid => ?_,
      fun id hid hsome => ?_⟩
    · rw [List.map_cons, List.foldlM_cons]
      exact bind_eq_ok.mpr ⟨reached₁, hrun₁, hrun₂⟩
    · rw [List.mem_append]
      rcases hreach₂.inside id hid with hid | hid
      · exact (hreach₁.inside id hid).imp_right .inl
      · exact .inr (.inr hid)
    · rcases List.mem_append.mp hid with hid | hid
      · exact hreach₂.kept id (hreach₁.new id hid hsome)
      · exact hreach₂.new id hid hsome

/-- **The walk** of `finish`. -/
theorem collect_spec {left level : Nat} {t : Subtree} {reached : List PageId}
    (hinv : editor.Inv before) (h : Holds (Mixed before editor) (editor.node pages) level t)
    (hmixed : (editor.overlay[t.page]?).isSome = true ∨ ∀ id ∈ t.pages, before.InUse id)
    (hleft : level < left) (hnodup : t.pages.Nodup) (hfresh : ∀ id ∈ t.pages, id ∉ reached) :
    ∃ reached', editor.collect left reached t.page = .ok reached' ∧
      Reaches editor t.pages reached reached' := by
  induction level generalizing t reached left with
  | zero =>
    obtain ⟨left, rfl⟩ : ∃ n, left = n + 1 := ⟨left - 1, by omega⟩
    obtain ⟨-, -, hpages, next, hread⟩ := h
    have hpage := hfresh t.page (by rw [hpages]; exact List.mem_singleton_self _)
    refine ⟨t.page :: reached, ?_, fun id hid => List.mem_cons_of_mem _ hid, ?_, ?_⟩
    · rw [collect, if_neg hpage]
      split
      · next heq =>
        rw [node_of_overlay heq] at hread
        cases hread
      · rfl
    · intro id hid
      rw [hpages, List.mem_singleton]
      exact (List.mem_cons.mp hid).symm
    · rw [hpages]
      intro id hid _
      obtain rfl := List.mem_singleton.mp hid
      exact List.mem_cons_self
  | succ level ih =>
    obtain ⟨left, rfl⟩ : ∃ n, left = n + 1 := ⟨left - 1, by omega⟩
    have hpage := hfresh t.page h.mem_pages
    have hself := h.mem_pages
    obtain ⟨bound, first, rest, hread, hpages, -, -, hall⟩ := h
    cases hover : editor.overlay[t.page]? with
    | none =>
      -- an old node: nothing below it is new
      have hold : ∀ id ∈ t.pages, before.InUse id := by
        rcases hmixed with hsome | hold
        · rw [hover] at hsome
          cases hsome
        · exact hold
      refine ⟨t.page :: reached, ?_, fun id hid => List.mem_cons_of_mem _ hid, ?_, ?_⟩
      · rw [collect, if_neg hpage, hover]
      · intro id hid
        rcases List.mem_cons.mp hid with rfl | hid
        · exact .inr hself
        · exact .inl hid
      · intro id hid hsome
        obtain ⟨n, hn⟩ := Option.isSome_iff_exists.mp hsome
        exact absurd (hold id hid) (hinv.fresh id n hn).1
    | some n =>
      rw [node_of_overlay hover] at hread
      obtain rfl := Option.some.inj hread
      rw [hpages] at hnodup hfresh
      obtain ⟨hnot, hnodup'⟩ := List.nodup_cons.mp hnodup
      have hperm : (pagesOf ((bound, first) :: rest).reverse).Perm
          (pagesOf ((bound, first) :: rest)) :=
        (List.reverse_perm _).flatMap_right _
      have hfresh' : ∀ id ∈ pagesOf ((bound, first) :: rest).reverse, id ∉ t.page :: reached := by
        intro id hid
        have hid' := hperm.mem_iff.mp hid
        rw [List.mem_cons, not_or]
        refine ⟨?_, hfresh id (List.mem_cons_of_mem _ hid')⟩
        rintro rfl
        exact hnot hid'
      have hstep : ∀ c ∈ ((bound, first) :: rest).reverse, ∀ reached : List PageId,
          (∀ id ∈ c.2.pages, id ∉ reached) →
            ∃ reached', editor.collect left reached c.2.page = .ok reached' ∧
              Reaches editor c.2.pages reached reached' := by
        intro c hc reached hfr
        have hc' := List.mem_reverse.mp hc
        refine ih (hall c hc').2 (hall c hc').1.2 (by omega) ?_ hfr
        exact hnodup'.sublist (sublist_pagesOf hc')
      obtain ⟨reached', hrun, hreach⟩ :=
        collect_children hstep (hperm.nodup_iff.mpr hnodup') hfresh'
      have hkids : (first.page :: (rest.map toChild).map Prod.snd).reverse =
          ((bound, first) :: rest).reverse.map fun c => c.2.page := by
        rw [List.map_reverse, List.map_cons, List.map_map]
        rfl
      refine ⟨reached', ?_, fun id hid => hreach.kept id (List.mem_cons_of_mem _ hid),
        fun id hid => ?_, fun id hid hsome => ?_⟩
      · rw [collect, if_neg hpage, hover]
        simp only [hkids]
        exact hrun
      · rw [hpages]
        rcases hreach.inside id hid with hid | hid
        · rcases List.mem_cons.mp hid with rfl | hid
          · exact .inr List.mem_cons_self
          · exact .inl hid
        · exact .inr (List.mem_cons_of_mem _ (hperm.mem_iff.mp hid))
      · rw [hpages] at hid
        rcases List.mem_cons.mp hid with rfl | hid
        · exact hreach.kept _ List.mem_cons_self
        · exact hreach.new id (hperm.mem_iff.mpr hid) hsome

theorem encodeNode_ok {entry : PageId × Node} {write : PageWrite}
    (h : encodeNode entry = .ok write) :
    write = (entry.1, entry.2.bytes) ∧ entry.2.encodedLength ≤ maxPagePayload := by
  obtain ⟨payload, hencode, h⟩ := bind_eq_ok.mp h
  rw [Node.encode, ite_error_eq_ok] at hencode
  obtain ⟨hfits, hencode⟩ := hencode
  obtain rfl := Except.ok.inj hencode
  exact ⟨(Except.ok.inj h).symm, Nat.le_of_not_lt hfits⟩

/-- The writes of some nodes are their pages and bytes. -/
theorem mapM_encodeNode {nodes : List (PageId × Node)} {writes : List PageWrite}
    (h : nodes.mapM encodeNode = .ok writes) :
    writes = nodes.map (fun entry => (entry.1, entry.2.bytes)) ∧
      ∀ entry ∈ nodes, entry.2.encodedLength ≤ maxPagePayload := by
  induction nodes generalizing writes with
  | nil =>
    cases h
    simp
  | cons entry nodes ih =>
    rw [List.mapM_cons] at h
    obtain ⟨write, hwrite, h⟩ := bind_eq_ok.mp h
    obtain ⟨rest, hrest, h⟩ := bind_eq_ok.mp h
    obtain rfl := Except.ok.inj h
    obtain ⟨rfl, hfits⟩ := encodeNode_ok hwrite
    obtain ⟨rfl, hall⟩ := ih hrest
    exact ⟨rfl, List.forall_mem_cons.mpr ⟨hfits, hall⟩⟩

/-- After the writes of a plan the pages of the tree are read as the editor read them. -/
theorem nodeAt_writes {reached ids : List PageId} {writes : List PageWrite}
    (hinv : editor.Inv before)
    (hnew : ∀ id ∈ ids, (editor.overlay[id]?).isSome = true → id ∈ reached)
    (h : (editor.overlay.toList.filter fun entry => entry.1 ∈ reached).mapM encodeNode =
      .ok writes) : ∀ id ∈ ids, nodeAt (pages.write writes) id = editor.node pages id := by
  obtain ⟨rfl, hfits⟩ := mapM_encodeNode h
  have hnodup : (((editor.overlay.toList.filter fun entry => entry.1 ∈ reached).map
      fun entry => (entry.1, entry.2.bytes)).map Prod.fst).Nodup := by
    rw [List.map_map]
    refine List.Nodup.sublist (List.filter_sublist.map _) ?_
    have hkeys : editor.overlay.toList.map Prod.fst = editor.overlay.keys :=
      TreeMap.map_fst_toList_eq_keys
    exact hkeys ▸ TreeMap.nodup_keys
  intro id hid
  cases hover : editor.overlay[id]? with
  | none =>
    have hnot : id ∉ ((editor.overlay.toList.filter fun entry => entry.1 ∈ reached).map
        fun entry => (entry.1, entry.2.bytes)).map Prod.fst := by
      intro hmem
      rw [List.map_map] at hmem
      obtain ⟨entry, hentry, rfl⟩ := List.mem_map.mp hmem
      have hget := TreeMap.mem_toList_iff_getElem?_eq_some.mp (List.mem_filter.mp hentry).1
      rw [Function.comp_apply, hget] at hover
      cases hover
    rw [nodeAt_write_of_not_mem pages hnot, node, read, hover]
    rfl
  | some n =>
    have hmem : (id, n) ∈ editor.overlay.toList.filter fun entry => entry.1 ∈ reached := by
      refine List.mem_filter.mpr ⟨TreeMap.mem_toList_iff_getElem?_eq_some.mpr hover, ?_⟩
      simpa using hnew id hid (by rw [hover]; rfl)
    rw [node_of_overlay hover]
    exact nodeAt_write_of_mem pages hnodup (hinv.sound id n hover) (hfits _ hmem)
      (List.mem_map.mpr ⟨(id, n), hmem, rfl⟩)

/-- **The finished plan** writes the tree of the editor, on pages of its own. -/
theorem finish_spec {plan : IndexBuildPlan} (hinv : editor.Inv before)
    (h : Rooted pages before editor entries) (hrun : editor.finish = .ok plan) :
    (∀ write ∈ plan.writes, ¬before.InUse write.1) ∧
      (entries = [] → plan.root = none) ∧
      (entries ≠ [] → ∃ root t, plan.root = some root ∧ t.entries = entries ∧
        Stored (pages.write plan.writes) editor.allocator root t) := by
  obtain ⟨reached, hreached, hrun⟩ := bind_eq_ok.mp hrun
  obtain ⟨writes, hwrites, hrun⟩ := bind_eq_ok.mp hrun
  obtain rfl := Except.ok.inj hrun
  refine ⟨fun write hwrite => ?_, fun hempty => ?_, fun hne => ?_⟩
  · obtain ⟨rfl, -⟩ := mapM_encodeNode hwrites
    obtain ⟨entry, hentry, rfl⟩ := List.mem_map.mp hwrite
    have hget := TreeMap.mem_toList_iff_getElem?_eq_some.mp (List.mem_filter.mp hentry).1
    exact (hinv.fresh _ _ hget).1
  · cases h with
    | empty hroot => exact hroot
    | tree _ _ _ _ _ forest =>
      exact absurd hempty (forest.holds _ (List.mem_singleton_self _)).2.ne_nil
  · cases h with
    | empty => exact absurd rfl hne
    | @tree root level bound t hroot hpage hheight hbounded hcount hforest hkeys hslim =>
      have ht := hforest.holds _ (List.mem_singleton_self _)
      have hpages : pagesOf [(bound, t)] = t.pages := by simp [pagesOf]
      have hnodup : t.pages.Nodup := hpages ▸ hforest.nodup
      obtain ⟨reached', hwalk, hreach⟩ :=
        @collect_spec pages before editor (2 ^ 16) level t [] hinv ht.2 ht.1.2 (by omega) hnodup
          (by simp)
      rw [reachable, hroot] at hreached
      simp only [hpage, hwalk] at hreached
      obtain rfl := Except.ok.inj hreached
      have hsame := @nodeAt_writes pages before editor reached' t.pages writes hinv
        hreach.new hwrites
      refine ⟨root, t, hroot, rfl, hpage, ⟨level, hheight, ?_⟩, hbounded, hcount, hkeys, hnodup,
        hpages ▸ hforest.inUse, fun id hid payload hpayload => ?_⟩
      · exact (ht.2.mono fun c hc => hc.1).congr hsame
      · obtain ⟨n, hn⟩ := Option.isSome_iff_exists.mp (ht.2.isSome_of_mem hid)
        have hread := nodeAt_eq_some.mp ((hsame id hid).trans hn)
        rw [readNode, hpayload] at hread
        rw [← Node.encodedLength_of_decode hread]
        rcases hslim id hid n hn with hfits | ⟨-, -, hover, -⟩
        · exact hfits
        · -- a new node was encoded
          refine (mapM_encodeNode hwrites).2 (id, n) (List.mem_filter.mpr
            ⟨TreeMap.mem_toList_iff_getElem?_eq_some.mpr hover, ?_⟩)
          simpa using hreach.new id hid (by rw [hover]; rfl)

end Editor

/-! ## whole plans -/

/-- A map from keys to pages. -/
abbrev IndexMap := Bytes → Option PageId

/-- The map that a list of entries is. -/
def mapOf (entries : List IndexEntry) : IndexMap :=
  fun key => (find IndexEntry.key key entries).map IndexEntry.value

/-- A mutation of a map. -/
def IndexMutation.on (map : IndexMap) (mutation : IndexMutation) : IndexMap :=
  Function.update map mutation.target.1 mutation.target.2

variable {entries : List IndexEntry}

theorem mapOf_put (hinc : Increasing IndexEntry.key entries) (mutation : IndexMutation) :
    mapOf (put IndexEntry.key mutation.target.1 (entryFor mutation.target.1 mutation.target.2)
      entries) = mutation.on (mapOf entries) := by
  funext key
  rw [mapOf, find_put hinc key_entryFor, IndexMutation.on, Function.update_apply]
  split
  · rw [entryFor, Option.map_map]
    exact Option.map_id'
  · rfl

/-- A tree of which the root is known, or none for the empty map. -/
def Represents (pages : PageTable) (allocator : PageAllocator) (root : Option IndexRoot)
    (entries : List IndexEntry) : Prop :=
  (root = none ∧ entries = []) ∨
    ∃ r t, root = some r ∧ t.entries = entries ∧ Stored pages allocator r t

variable {allocator : PageAllocator}

theorem stored_editor {root : IndexRoot} {t : Subtree} (h : Stored pages allocator root t) :
    Editor.Rooted pages allocator { allocator, root := some root } t.entries := by
  obtain ⟨level, hheight, hholds⟩ := h.level
  have hsame : ∀ id, Editor.node pages { allocator, root := some root } id = nodeAt pages id := by
    intro id
    rw [Editor.node, Editor.read, TreeMap.getElem?_emptyc]
    rfl
  obtain ⟨entry, rest, hentries⟩ := List.exists_cons_of_ne_nil hholds.ne_nil
  have hmem : entry ∈ t.entries := by rw [hentries]; exact List.mem_cons_self
  have hbound : FitsBound (entry.key, t) := ⟨h.keys entry hmem, entry, hmem, rfl⟩
  have hforest : Forest pages allocator { allocator, root := some root } level
      [(entry.key, t)] := by
    have hpages : pagesOf [(entry.key, t)] = t.pages := by simp [pagesOf]
    refine ⟨fun d hd => ?_, ⟨fun d hd e he => ?_, List.pairwise_singleton _ _⟩, hpages ▸ h.nodup,
      hpages ▸ h.inUse⟩
    · obtain rfl := List.mem_singleton.mp hd
      refine ⟨⟨hbound, .inr h.inUse⟩, ?_⟩
      exact (hholds.mono_pages h.inUse fun c hc hpages => ⟨hc, .inr hpages⟩).congr
        fun id _ => hsame id
    · obtain rfl := List.mem_singleton.mp hd
      exact Editor.first_le hholds.increasing hentries e he
  exact .tree rfl h.page hheight h.height h.count hforest h.keys fun id hid n hn =>
    .inl (h.fits hid ((hsame id).symm.trans hn))

variable {root : Option IndexRoot}

theorem Represents.rooted (h : Represents pages allocator root entries) :
    Editor.Rooted pages allocator { allocator, root } entries := by
  rcases h with ⟨rfl, rfl⟩ | ⟨r, t, rfl, rfl, hstored⟩
  · exact .empty rfl
  · exact stored_editor hstored

theorem inv_start (hpool : allocator.Pooled) (hbounded : allocator.nextPageId < 2 ^ 64) :
    Editor.Inv allocator { allocator, root } :=
  ⟨hpool, hbounded, fun _ h => h, fun id n h => by simp at h, fun id n h => by simp at h⟩

variable {after : PageAllocator}

/-- Pages that are not written keep their trees. -/
theorem Stored.keep {writes : List PageWrite} {root : IndexRoot} {t : Subtree}
    (h : Stored pages allocator root t) (hfresh : ∀ write ∈ writes, ¬allocator.InUse write.1)
    (hkept : ∀ id, allocator.InUse id → after.InUse id) :
    Stored (pages.write writes) after root t := by
  obtain ⟨level, hheight, hholds⟩ := h.level
  have hnot : ∀ id ∈ t.pages, id ∉ writes.map Prod.fst := by
    intro id hid hmem
    obtain ⟨write, hwrite, rfl⟩ := List.mem_map.mp hmem
    exact hfresh write hwrite (h.inUse _ hid)
  refine ⟨h.page, ⟨level, hheight, hholds.congr fun id hid => ?_⟩, h.height, h.count, h.keys,
    h.nodup, fun id hid => hkept id (h.inUse id hid), fun id hid payload hpayload => ?_⟩
  · exact nodeAt_write_of_not_mem pages (hnot id hid)
  · rw [write_of_not_mem pages (hnot id hid)] at hpayload
    exact h.sizes id hid payload hpayload

theorem Represents.keep {writes : List PageWrite} (h : Represents pages allocator root entries)
    (hfresh : ∀ write ∈ writes, ¬allocator.InUse write.1)
    (hkept : ∀ id, allocator.InUse id → after.InUse id) :
    Represents (pages.write writes) after root entries := by
  rcases h with hempty | ⟨r, t, hroot, hentries, hstored⟩
  · exact .inl hempty
  · exact .inr ⟨r, t, hroot, hentries, hstored.keep hfresh hkept⟩

/-- **All mutations**, one after another. -/
theorem foldlM_apply {editor editor' : Editor} {mutations : List IndexMutation}
    (hinv : editor.Inv before) (h : Editor.Rooted pages before editor entries)
    (hrun : mutations.foldlM (Editor.apply pages) editor = .ok editor') :
    editor'.Inv before ∧ ∃ entries', Editor.Rooted pages before editor' entries' ∧
      mapOf entries' = mutations.foldl IndexMutation.on (mapOf entries) := by
  induction mutations generalizing editor entries with
  | nil =>
    obtain rfl := Except.ok.inj hrun
    exact ⟨hinv, entries, h, rfl⟩
  | cons mutation mutations ih =>
    rw [List.foldlM_cons] at hrun
    obtain ⟨middle, hfirst, hrun⟩ := bind_eq_ok.mp hrun
    obtain ⟨hinv', hrooted⟩ := Editor.apply_spec hinv h hfirst
    obtain ⟨hinv'', entries', hrooted', hmap⟩ := ih hinv' hrooted hrun
    refine ⟨hinv'', entries', hrooted', ?_⟩
    rw [hmap, mapOf_put h.increasing, List.foldl_cons]

/-- **An edit plan** that returned. -/
theorem editPlan_spec {mutations : List IndexMutation} {p : IndexBuildPlan}
    (hpool : allocator.Pooled) (hbounded : allocator.nextPageId < 2 ^ 64)
    (h : Represents pages allocator root entries)
    (hrun : editPlan pages allocator root mutations = .ok (p, after)) :
    after.Pooled ∧ after.nextPageId < 2 ^ 64 ∧
      Represents (pages.write p.writes) after root entries ∧
      ∃ entries', Represents (pages.write p.writes) after p.root entries' ∧
        mapOf entries' = mutations.foldl IndexMutation.on (mapOf entries) := by
  obtain ⟨editor, hfold, hrun⟩ := bind_eq_ok.mp hrun
  obtain ⟨p', hfinish, hrun⟩ := bind_eq_ok.mp hrun
  obtain ⟨rfl, rfl⟩ := Prod.mk.inj (Except.ok.inj hrun)
  obtain ⟨hinv', entries', hrooted', hmap⟩ := foldlM_apply (inv_start hpool hbounded) h.rooted hfold
  obtain ⟨hfresh, hnone, hsome⟩ := Editor.finish_spec hinv' hrooted' hfinish
  refine ⟨hinv'.pooled, hinv'.bounded, h.keep hfresh hinv'.kept, entries', ?_, hmap⟩
  by_cases hempty : entries' = []
  · exact .inl ⟨hnone hempty, hempty⟩
  · exact .inr (hsome hempty)

/-! ## the refinement -/

/-- Every path from a page to a leaf has this length. -/
def LeavesAt (read : PageId → Option Node) : Nat → PageId → Prop
  | 0, page => ∃ entries next, read page = some (.leaf entries next)
  | depth + 1, page =>
    ∃ level firstChild separators, read page = some (.internal level firstChild separators) ∧
      LeavesAt read depth firstChild ∧ ∀ child ∈ separators, LeavesAt read depth child.2

theorem Holds.leavesAt {P : Bytes × Subtree → Prop} {read : PageId → Option Node} {level : Nat}
    {t : Subtree} (h : Holds P read level t) : LeavesAt read level t.page := by
  induction level generalizing t with
  | zero =>
    obtain ⟨-, -, -, next, hread⟩ := h
    exact ⟨t.entries, next, hread⟩
  | succ level ih =>
    obtain ⟨bound, first, rest, hread, -, -, -, hall⟩ := h
    refine ⟨level + 1, first.page, rest.map toChild, hread, ih (hall _ List.mem_cons_self).2, ?_⟩
    intro child hchild
    obtain ⟨c, hc, rfl⟩ := List.mem_map.mp hchild
    exact ih (hall c (List.mem_cons_of_mem _ hc)).2

/-- What is asked of the tree under a root, which there is exactly if the map has a key:
lookups and scans answer as the map does, the count is the number of keys, and all leaves
are at the depth of the height. -/
def Answers (pages : PageTable) (root : Option IndexRoot) (map : IndexMap) : Prop :=
  match root with
  | none => ∀ key, map key = none
  | some root =>
    (∀ key, get pages root key = .ok (map key)) ∧
      ∃ entries : List IndexEntry, entries ≠ [] ∧ Increasing IndexEntry.key entries ∧
        mapOf entries = map ∧
        (∀ limit, entries.length ≤ limit → range pages root none none limit = .ok entries) ∧
        root.entries = entries.length ∧
        ∃ depth, root.height = depth + 1 ∧ LeavesAt (nodeAt pages) depth root.page

theorem Represents.answers (h : Represents pages allocator root entries) :
    Answers pages root (mapOf entries) := by
  rcases h with ⟨rfl, rfl⟩ | ⟨r, t, rfl, rfl, hstored⟩
  · exact fun key => rfl
  · obtain ⟨level, hheight, hholds⟩ := hstored.level
    refine ⟨hstored.get, t.entries, hholds.ne_nil, hholds.increasing, rfl, fun limit hlimit => ?_,
      hstored.count,
      level, hheight, hstored.page ▸ hholds.leavesAt⟩
    rw [hstored.range none none limit]
    have hall : t.entries.filter (ScanRange.within ⟨none, none, limit⟩) = t.entries :=
      List.filter_eq_self.mpr fun e _ => rfl
    rw [hall, List.take_of_length_le hlimit]

/-- The trees that plans and edit plans make, with the maps they stand for. -/
inductive Produced : PageTable → PageAllocator → Option IndexRoot → IndexMap → Prop
  | plan {pages : PageTable} {allocator after : PageAllocator} {entries : List IndexEntry}
      {p : IndexBuildPlan} (pooled : allocator.Pooled) (bounded : allocator.nextPageId < 2 ^ 64)
      (run : plan allocator entries = .ok (p, after)) :
      Produced (pages.write p.writes) after p.root (mapOf entries)
  | edit {pages : PageTable} {allocator after : PageAllocator} {root : Option IndexRoot}
      {map : IndexMap} {mutations : List IndexMutation} {p : IndexBuildPlan}
      (base : Produced pages allocator root map)
      (run : editPlan pages allocator root mutations = .ok (p, after)) :
      Produced (pages.write p.writes) after p.root (mutations.foldl IndexMutation.on map)

theorem Produced.represents {map : IndexMap} (h : Produced pages allocator root map) :
    allocator.Pooled ∧ allocator.nextPageId < 2 ^ 64 ∧
      ∃ entries, mapOf entries = map ∧ Represents pages allocator root entries := by
  induction h with
  | @plan pages allocator after entries p hpool hbounded hrun =>
    have hrun' := hrun
    obtain ⟨⟨⟩, hvalid, hrun'⟩ := bind_eq_ok.mp hrun'
    by_cases hempty : entries = []
    · subst hempty
      rw [if_pos rfl] at hrun'
      obtain ⟨rfl, rfl⟩ := Prod.mk.inj (Except.ok.inj hrun')
      exact ⟨hpool, hbounded, [], rfl, .inl ⟨rfl, rfl⟩⟩
    · rw [if_neg hempty] at hrun'
      have hcount : entries.length < 2 ^ 64 := by
        by_contra hge
        rw [if_pos (Nat.le_of_not_lt hge)] at hrun'
        cases hrun'
      obtain ⟨p', after', hplan, hreserved, -, -, hsome⟩ :=
        plan_ok pages hpool hbounded hvalid hcount (.inr ⟨_, hrun⟩)
      rw [hrun] at hplan
      obtain ⟨rfl, rfl⟩ := Prod.mk.inj (Except.ok.inj hplan)
      obtain ⟨root, t, hroot, hstored, hentries⟩ := hsome hempty
      exact ⟨hreserved.pooled, hreserved.bounded, entries, rfl,
        .inr ⟨root, t, hroot, hentries, hstored⟩⟩
  | @edit pages allocator after root map mutations p base hrun ih =>
    obtain ⟨hpool, hbounded, entries, rfl, hrep⟩ := ih
    obtain ⟨hpool', hbounded', -, entries', hrep', hmap⟩ := editPlan_spec hpool hbounded hrep hrun
    exact ⟨hpool', hbounded', entries', hmap, hrep'⟩

/-- **Copy-on-write edits refine an ordered map.**  Whatever tree was produced before, after
the pages of an edit plan are written the new root answers as the map with the mutations
applied in order, and the old root still answers as the old map. -/
theorem editPlan_refines (pages : PageTable) (allocator after : PageAllocator)
    (root : Option IndexRoot) (map : IndexMap) (mutations : List IndexMutation) (p : IndexBuildPlan)
    (h : Produced pages allocator root map)
    (hrun : editPlan pages allocator root mutations = .ok (p, after)) :
    Answers (pages.write p.writes) p.root (mutations.foldl IndexMutation.on map) ∧
      Answers (pages.write p.writes) root map := by
  obtain ⟨hpool, hbounded, entries, rfl, hrep⟩ := h.represents
  obtain ⟨-, -, hold, entries', hnew, hmap⟩ := editPlan_spec hpool hbounded hrep hrun
  exact ⟨hmap ▸ hnew.answers, hold.answers⟩

/-- A bulk build of two keys followed by an edit that adds one and deletes one. -/
def twoThenEdit : Except IndexError ((IndexBuildPlan × PageAllocator) × IndexBuildPlan ×
    PageAllocator) := do
  let built ← plan {} [⟨[97], 1⟩, ⟨[98], 2⟩]
  let edited ← editPlan (PageTable.write ∅ built.1.writes) built.2 built.1.root
    [.upsert ⟨[99], 3⟩, .delete [97]]
  .ok (built, edited)

theorem editPlan_refines_delete :
    ∃ built edited, twoThenEdit = .ok (built, edited) ∧
      Answers ((PageTable.write ∅ built.1.writes).write edited.1.writes) edited.1.root
        (mapOf [⟨[98], 2⟩, ⟨[99], 3⟩]) := by
  obtain ⟨⟨built, edited⟩, hboth⟩ := exists_of_isOk (x := twoThenEdit) (by decide +kernel)
  refine ⟨built, edited, hboth, ?_⟩
  obtain ⟨built', hplan, hrest⟩ := bind_eq_ok.mp hboth
  obtain ⟨edited', hedit, hpair⟩ := bind_eq_ok.mp hrest
  obtain ⟨rfl, rfl⟩ := Prod.mk.inj (Except.ok.inj hpair)
  have hproduced :=
    @Produced.plan ∅ _ _ _ _ (fun id hid => absurd hid (by simp)) (by decide) hplan
  have h := (editPlan_refines _ _ _ _ _ _ _ hproduced hedit).1
  have hadd := mapOf_put ((strict_map_iff IndexEntry.key [⟨[97], 1⟩, ⟨[98], 2⟩]).mp (by decide))
    (.upsert ⟨[99], 3⟩)
  have hdelete := mapOf_put
    ((strict_map_iff IndexEntry.key [⟨[97], 1⟩, ⟨[98], 2⟩, ⟨[99], 3⟩]).mp (by decide))
    (.delete [97])
  rw [List.foldl_cons, ← hadd] at h
  exact Eq.mpr (congrArg _ hdelete) h

end QuantaDb.Index
