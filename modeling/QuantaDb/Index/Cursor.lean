import QuantaDb.Index.Layout

/-!
# QuantaDb.Index.Cursor

Scans of a range with the cursor stack.

`Ahead` describes what the frames of a cursor still lead to: the subtrees behind
the position of each frame.  Descending to a leaf and advancing to the next keep
it, so a scan runs over the entries in their order (`range_holds`).
-/

namespace QuantaDb.Index

open Ordered Std

variable {P : Bytes × Subtree → Prop} {pages : PageTable}

/-- What the frames of a cursor still lead to: pages and entries. -/
inductive Ahead (P : Bytes × Subtree → Prop) (read : PageId → Option Node) :
    List CursorFrame → List PageId → List IndexEntry → Prop
  | nil : Ahead P read [] [] []
  | cons {frame : CursorFrame} {frames : List CursorFrame} {ids : List PageId}
      {entries : List IndexEntry} (before : List PageId) (current : PageId)
      (later : List (Bytes × Subtree))
      (children : frame.children = before ++ current :: later.map fun c => c.2.page)
      (position : frame.position = before.length)
      (holds : ∀ c ∈ later, Holds P read frame.childLevel c.2)
      (rest : Ahead P read frames ids entries) :
      Ahead P read (frame :: frames) (pagesOf later ++ ids) (entriesOf later ++ entries)

/-- A cursor at a leaf with these entries, with the rest of the tree ahead and not
visited yet. -/
structure AtLeaf (P : Bytes × Subtree → Prop) (pages : PageTable) (cursor : Cursor)
    (leaf : List IndexEntry)
    (ids : List PageId) (entries : List IndexEntry) : Prop where
  leaf : ∃ next, readNode pages cursor.page = .ok (.leaf leaf next)
  ahead : Ahead P (nodeAt pages) cursor.frames ids entries
  nodup : ids.Nodup
  fresh : ∀ page ∈ ids, page ∉ cursor.visited

/-- **Descending.**  The cursor stops at a leaf of the subtree; what it passes by on the
left is below the key. -/
theorem descendToLeaf_holds (key : Option Bytes) {level : Nat} {t : Subtree}
    (h : Holds P (nodeAt pages) level t) {frames : List CursorFrame} {visited ids : List PageId}
    {entries : List IndexEntry} (hahead : Ahead P (nodeAt pages) frames ids entries)
    (hnodup : (t.pages ++ ids).Nodup) (hfresh : ∀ page ∈ t.pages ++ ids, page ∉ visited) :
    ∃ cursor passed leaf ids' entries',
      descendToLeaf pages key level ⟨t.page, frames, visited⟩ = .ok cursor ∧
      AtLeaf P pages cursor leaf ids' entries' ∧
      t.entries ++ entries = passed ++ (leaf ++ entries') ∧
      (∀ e ∈ passed, ∃ k, key = some k ∧ e.key < k) ∧ ids'.length < (t.pages ++ ids).length := by
  induction level generalizing t frames visited ids entries with
  | zero =>
    obtain ⟨-, -, hpages, next, hread⟩ := h
    rw [hpages] at hnodup hfresh ⊢
    have hpage : t.page ∉ visited := hfresh t.page (by simp)
    refine ⟨⟨t.page, frames, t.page :: visited⟩, [], t.entries, ids, entries, ?_, ?_, rfl,
      by simp, by simp⟩
    · rw [descendToLeaf, if_neg hpage, nodeAt_eq_some.mp hread]
      rfl
    · refine ⟨⟨next, nodeAt_eq_some.mp hread⟩, hahead, (List.nodup_cons.mp hnodup).2, ?_⟩
      intro page hpage
      rw [List.mem_cons, not_or]
      refine ⟨?_, hfresh page (List.mem_append_right _ hpage)⟩
      rintro rfl
      exact (List.nodup_cons.mp hnodup).1 hpage
  | succ level ih =>
    obtain ⟨bound, first, rest, hread, hpages, hentries, hsep, hall⟩ := h
    -- the children before the chosen one are passed by, those after it go into the frame
    obtain ⟨pre, c, post, hsplit, hchild, hpre⟩ : ∃ pre c post,
        ([], first) :: rest = pre ++ c :: post ∧
        childAt key first.page (rest.map toChild) =
          (pre.map toChild, toChild c, post.map toChild) ∧
        ∀ e ∈ entriesOf pre, ∃ k, key = some k ∧ e.key < k := by
      cases key with
      | none => exact ⟨[], ([], first), rest, rfl, rfl, by simp [entriesOf]⟩
      | some k =>
        obtain ⟨pre, c, post, hsplit, hchild, hpre, -⟩ :=
          childFor_spec k hsep fun c hc => (hall c hc).2.ne_nil
        exact ⟨pre, c, post, hsplit, hchild, fun e he => ⟨k, rfl, hpre e he⟩⟩
    have hall' := forall_unbounded fun c hc => (hall c hc).2
    rw [pagesOf_unbounded, hsplit, pagesOf_append, pagesOf_cons] at hpages
    rw [entriesOf_unbounded, hsplit, entriesOf_append, entriesOf_cons] at hentries
    rw [hsplit] at hall'
    have hc : Holds P (nodeAt pages) level c.2 := hall' c (by simp)
    have hpost : ∀ d ∈ post, Holds P (nodeAt pages) level d.2 := fun d hd => hall' d (by simp [hd])
    have hkids : first.page :: (rest.map toChild).map Prod.snd =
        (pre.map fun c => c.2.page) ++ c.2.page :: post.map fun c => c.2.page := by
      have := congrArg (List.map fun c : Bytes × Subtree => c.2.page) hsplit
      simpa [toChild, Function.comp_def] using this
    have hahead' : Ahead P (nodeAt pages)
        (⟨first.page :: (rest.map toChild).map Prod.snd, (pre.map toChild).length, level⟩ ::
          frames) (pagesOf post ++ ids) (entriesOf post ++ entries) :=
      .cons (pre.map fun c => c.2.page) c.2.page post hkids (by simp) hpost hahead
    rw [hpages] at hnodup hfresh
    have hpage : t.page ∉ visited := hfresh t.page (by simp)
    have hsub : (c.2.pages ++ (pagesOf post ++ ids)).Sublist
        (t.page :: (pagesOf pre ++ (c.2.pages ++ pagesOf post)) ++ ids) := by
      rw [List.cons_append, List.append_assoc, List.append_assoc]
      exact (List.sublist_append_right _ _).cons _
    have hfresh' : ∀ page ∈ c.2.pages ++ (pagesOf post ++ ids), page ∉ t.page :: visited := by
      intro page hmem
      rw [List.mem_cons, not_or]
      refine ⟨?_, hfresh page (hsub.subset hmem)⟩
      rintro rfl
      rw [List.cons_append, List.nodup_cons] at hnodup
      refine hnodup.1 ?_
      rw [List.append_assoc, List.append_assoc]
      exact List.mem_append_right _ hmem
    obtain ⟨cursor, passed, leaf, ids', entries', hrun, hat, hsplit', hpassed, hlen⟩ :=
      ih hc hahead' (hnodup.sublist hsub) hfresh'
    refine ⟨cursor, entriesOf pre ++ passed, leaf, ids', entries', ?_, hat, ?_, ?_, ?_⟩
    · rw [descendToLeaf, if_neg hpage, nodeAt_eq_some.mp hread]
      simp only [Node.level, ne_eq, not_true_eq_false, if_false, hchild]
      exact hrun
    · rw [hentries, List.append_assoc, List.append_assoc, hsplit', List.append_assoc]
    · intro e he
      rcases List.mem_append.mp he with he | he
      · exact hpre e he
      · exact hpassed e he
    · rw [hpages]
      exact Nat.lt_of_lt_of_le hlen hsub.length_le

/-- **Advancing** goes to the next leaf, or the scan is at its end. -/
theorem advanceToNextLeaf_ahead {frames : List CursorFrame} {visited ids : List PageId}
    {entries : List IndexEntry} (hahead : Ahead P (nodeAt pages) frames ids entries)
    (hnodup : ids.Nodup) (hfresh : ∀ page ∈ ids, page ∉ visited) :
    (advanceToNextLeaf pages visited frames = .ok none ∧ entries = []) ∨
      ∃ cursor leaf ids' entries', advanceToNextLeaf pages visited frames = .ok (some cursor) ∧
        AtLeaf P pages cursor leaf ids' entries' ∧ entries = leaf ++ entries' ∧
        ids'.length < ids.length := by
  induction hahead with
  | nil => exact .inl ⟨rfl, rfl⟩
  | @cons frame frames ids entries before current later hchildren hposition hholds hrest ih =>
    cases later with
    | nil =>
      have hnone : frame.children[frame.position + 1]? = none := by
        rw [hchildren, hposition]
        simp
      rw [advanceToNextLeaf, hnone]
      exact ih hnodup hfresh
    | cons c later =>
      have hsome : frame.children[frame.position + 1]? = some c.2.page := by
        rw [hchildren, hposition, List.getElem?_append_right (Nat.le_succ _)]
        simp
      have hahead' : Ahead P (nodeAt pages)
          ({ frame with position := frame.position + 1 } :: frames) (pagesOf later ++ ids)
          (entriesOf later ++ entries) := by
        refine .cons (before ++ [current]) c.2.page later ?_ ?_
          (fun d hd => hholds d (List.mem_cons_of_mem _ hd)) hrest
        · rw [hchildren]
          simp
        · rw [List.length_append, ← hposition]
          rfl
      rw [pagesOf_cons, List.append_assoc] at hnodup hfresh ⊢
      rw [entriesOf_cons, List.append_assoc]
      obtain ⟨cursor, passed, leaf, ids', entries', hrun, hat, hsplit, hpassed, hlen⟩ :=
        descendToLeaf_holds none (hholds c List.mem_cons_self) hahead' hnodup hfresh
      have hnil : passed = [] := by
        refine List.eq_nil_iff_forall_not_mem.mpr fun e he => ?_
        obtain ⟨k, hk, -⟩ := hpassed e he
        cases hk
      rw [hnil, List.nil_append] at hsplit
      refine .inr ⟨cursor, leaf, ids', entries', ?_, hat, hsplit, hlen⟩
      rw [advanceToNextLeaf, hsome]
      simp only [hrun]
      rfl

/-! ## collecting the entries -/

/-- An entry between the bounds. -/
def ScanRange.within (range : ScanRange) (entry : IndexEntry) : Bool :=
  !(range.start.any fun start => decide (entry.key < start)) &&
    !(range.stop.any fun stop => decide (stop ≤ entry.key))

/-- Behind an entry at the end of the range there is nothing. -/
theorem filter_within_nil {range : ScanRange} {entry : IndexEntry} {l : List IndexEntry}
    (hstop : (range.stop.any fun stop => decide (stop ≤ entry.key)) = true)
    (hl : ∀ e ∈ l, entry.key ≤ e.key) : l.filter range.within = [] := by
  refine List.filter_eq_nil_iff.mpr fun e he => ?_
  obtain ⟨stop, hsome, hle⟩ := (Option.any_eq_true _ _).mp hstop
  have : (range.stop.any fun stop => decide (stop ≤ e.key)) = true := by
    rw [hsome]
    simpa using le_trans (by simpa using hle) (hl e he)
  simp [ScanRange.within, this]

/-- **One leaf of a scan**, with the entries that are still to come. -/
theorem scanLeaf_spec (range : ScanRange) (page : PageId) {scan : Scan} {leaf : List IndexEntry}
    (more : List IndexEntry) (hinc : Increasing IndexEntry.key (leaf ++ more))
    (hopen : scan.finished = false) (hroom : scan.result.length < range.limit)
    (hprev : ∀ k ∈ scan.previous, ∀ e ∈ leaf ++ more, k < e.key) :
    ∃ scan', scanLeaf range page scan leaf = .ok scan' ∧
      (scan'.finished = true → scan'.result = scan.result ++
        ((leaf ++ more).filter range.within).take (range.limit - scan.result.length)) ∧
      (scan'.finished = false → scan'.result = scan.result ++ leaf.filter range.within ∧
        scan'.result.length < range.limit ∧ ∀ k ∈ scan'.previous, ∀ e ∈ more, k < e.key) := by
  induction leaf generalizing scan with
  | nil => exact ⟨scan, rfl, by simp [hopen], fun _ => ⟨by simp, hroom, hprev⟩⟩
  | cons entry leaf ih =>
    obtain ⟨hentry, hinc'⟩ := List.pairwise_cons.mp hinc
    have hprev' : ∀ k ∈ scan.previous, ∀ e ∈ leaf ++ more, k < e.key :=
      fun k hk e he => hprev k hk e (List.mem_cons_of_mem _ he)
    rw [scanLeaf]
    by_cases hstart : (range.start.any fun start => decide (entry.key < start)) = true
    · -- before the range
      rw [if_pos hstart]
      have hout : range.within entry = false := by simp [ScanRange.within, hstart]
      obtain ⟨scan', hrun, hfin, hgo⟩ := ih hinc' hopen hroom hprev'
      refine ⟨scan', hrun, ?_, ?_⟩
      · rw [List.cons_append, List.filter_cons_of_neg (by simp [hout])]
        exact hfin
      · rw [List.filter_cons_of_neg (by simp [hout])]
        exact hgo
    · rw [if_neg hstart]
      by_cases hstop : (range.stop.any fun stop => decide (stop ≤ entry.key)) = true
      · -- behind the range
        rw [if_pos hstop]
        refine ⟨_, rfl, fun _ => ?_, fun h => by cases h⟩
        rw [filter_within_nil hstop, List.take_nil, List.append_nil]
        intro e he
        rcases List.mem_cons.mp he with rfl | he
        · exact Std.le_refl _
        · exact le_of_lt (hentry e he)
      · rw [if_neg hstop]
        have hnotlast : ¬(scan.previous.any fun previous => decide (entry.key ≤ previous)) =
          true := by
          intro hany
          obtain ⟨k, hk, hle⟩ := (Option.any_eq_true _ _).mp hany
          have hlt := hprev k hk entry List.mem_cons_self
          exact not_lt.mpr (by simpa using hle) hlt
        rw [if_neg hnotlast]
        have hin : range.within entry = true := by
          simp only [ScanRange.within, Bool.not_eq_true] at hstart hstop ⊢
          rw [hstart, hstop]
          rfl
        simp only
        split
        · -- the limit is reached
          next hfull =>
            refine ⟨_, rfl, fun _ => ?_, fun h => by cases h⟩
            have hone : range.limit - scan.result.length = 1 := by
              rw [List.length_append, List.length_singleton] at hfull
              omega
            rw [hone, List.cons_append, List.filter_cons_of_pos hin]
            rfl
        · next hfull =>
          rw [List.length_append, List.length_singleton] at hfull
          have hlast : ∀ k ∈ some entry.key, ∀ e ∈ leaf ++ more, k < e.key := by
            rintro k hk e he
            cases hk
            exact hentry e he
          obtain ⟨scan', hrun, hfin, hgo⟩ :=
            @ih ⟨scan.result ++ [entry], some entry.key, false⟩ hinc' rfl
              (by rw [List.length_append, List.length_singleton]; omega) hlast
          refine ⟨scan', hrun, fun h => ?_, fun h => ?_⟩
          · have hsub : range.limit - scan.result.length =
                (range.limit - (scan.result ++ [entry]).length) + 1 := by
              rw [List.length_append, List.length_singleton]
              omega
            rw [hfin h, hsub, List.cons_append, List.filter_cons_of_pos hin, List.take_succ_cons,
              List.append_assoc]
            rfl
          · obtain ⟨hres, hlt, hprev⟩ := hgo h
            refine ⟨?_, hlt, hprev⟩
            rw [hres, List.filter_cons_of_pos hin, List.append_assoc]
            rfl

/-- **The leaves of a scan.** -/
theorem scanLeaves_spec (range : ScanRange) {turns : Nat} {cursor : Cursor} {scan : Scan}
    {leaf entries : List IndexEntry} {ids : List PageId}
    (hat : AtLeaf P pages cursor leaf ids entries)
    (hinc : Increasing IndexEntry.key (leaf ++ entries)) (hopen : scan.finished = false)
    (hroom : scan.result.length < range.limit)
    (hprev : ∀ k ∈ scan.previous, ∀ e ∈ leaf ++ entries, k < e.key) (hturns : ids.length < turns) :
    scanLeaves pages range turns cursor scan =
      .ok (scan.result ++
        ((leaf ++ entries).filter range.within).take (range.limit - scan.result.length)) := by
  induction turns generalizing cursor scan leaf entries ids with
  | zero => omega
  | succ turns ih =>
    obtain ⟨next, hread⟩ := hat.leaf
    obtain ⟨scan', hscan, hfin, hgo⟩ :=
      scanLeaf_spec range cursor.page entries hinc hopen hroom hprev
    rw [scanLeaves, if_neg (by omega), hread]
    simp only [hscan]
    cases hdone : scan'.finished with
    | true => rw [if_pos rfl, hfin hdone]
    | false =>
      obtain ⟨hres, hlt, hprev'⟩ := hgo hdone
      rw [if_neg (by simp)]
      have hlen := congrArg List.length hres
      rw [List.length_append] at hlen
      -- the whole leaf is in the result, within the limit
      have htake : ∀ more : List IndexEntry,
          ((leaf ++ more).filter range.within).take (range.limit - scan.result.length) =
            leaf.filter range.within ++
              (more.filter range.within).take (range.limit - scan'.result.length) := by
        intro more
        rw [List.filter_append, List.take_append, List.take_of_length_le (by omega), hlen]
        congr 2
        omega
      rcases advanceToNextLeaf_ahead hat.ahead hat.nodup hat.fresh with
        ⟨hadv, hnil⟩ | ⟨cursor', leaf', ids', entries', hadv, hat', hentries, hlt'⟩
      · rw [hadv, htake, hnil, hres]
        simp
      · rw [hadv, htake, hentries]
        rw [hentries] at hinc hprev'
        simp only
        rw [ih hat' (Increasing.append_iff.mp hinc).2.1 hdone hlt hprev' (by omega), hres,
          List.append_assoc]

/-- The pages of a tree are pages of the table. -/
theorem Holds.length_pages_le {level : Nat} {t : Subtree} (h : Holds P (nodeAt pages) level t)
    (hnodup : t.pages.Nodup) : t.pages.length ≤ pages.size := by
  have hsub : t.pages ⊆ pages.keys := by
    intro page hpage
    obtain ⟨node, hnode⟩ := Option.isSome_iff_exists.mp (h.isSome_of_mem hpage)
    rw [nodeAt_eq_some, readNode] at hnode
    rw [TreeMap.mem_keys, TreeMaps.mem_iff_get]
    cases hget : pages[page]? with
    | none => rw [hget] at hnode; cases hnode
    | some payload => exact ⟨payload, rfl⟩
  rw [← TreeMap.length_keys]
  exact (hnodup.subperm hsub).length_le

/-- **Scan**: `range` lists the first entries of the tree between the bounds. -/
theorem range_holds {root : IndexRoot} {level : Nat} {t : Subtree}
    (h : Holds P (nodeAt pages) level t) (hpage : root.page = t.page)
    (hheight : root.height = level + 1) (hnodup : t.pages.Nodup) (start stop : Option Bytes)
    (limit : Nat) : range pages root start stop limit =
      .ok ((t.entries.filter (ScanRange.within ⟨start, stop, limit⟩)).take limit) := by
  unfold range
  by_cases hempty : limit = 0 ∨
      (start.any fun start => stop.any fun stop => decide (stop ≤ start)) = true
  · rw [if_pos hempty]
    rcases hempty with rfl | hempty
    · rw [List.take_zero]
    · -- no key lies between bounds that are crossed
      obtain ⟨low, rfl, hlow⟩ := (Option.any_eq_true _ _).mp hempty
      obtain ⟨high, rfl, hle⟩ := (Option.any_eq_true _ _).mp hlow
      have hle' : high ≤ low := by simpa using hle
      have hnil : t.entries.filter (ScanRange.within ⟨some low, some high, limit⟩) = [] := by
        refine List.filter_eq_nil_iff.mpr fun e _ => ?_
        simp only [ScanRange.within, Option.any_some, Bool.and_eq_true, Bool.not_eq_true',
          decide_eq_false_iff_not, not_and, not_not]
        exact fun hlt => le_trans hle' (not_lt.mp hlt)
      rw [hnil, List.take_nil]
  · rw [if_neg hempty, if_neg (by omega), hpage, hheight, Nat.add_sub_cancel]
    obtain ⟨cursor, passed, leaf, ids, entries, hrun, hat, hsplit, hpassed, hlen⟩ :=
      @descendToLeaf_holds P pages (some (start.getD [])) level t h [] [] [] [] .nil
        (by simpa using hnodup) (by simp)
    rw [List.append_nil] at hsplit hlen
    have hinc := h.increasing
    rw [hsplit] at hinc
    -- what the descent passed by is before the range
    have hbefore : passed.filter (ScanRange.within ⟨start, stop, limit⟩) = [] := by
      refine List.filter_eq_nil_iff.mpr fun e he => ?_
      obtain ⟨k, hk, hlt⟩ := hpassed e he
      cases start with
      | none =>
        cases hk
        exact absurd hlt (List.not_lt_nil e.key)
      | some low =>
        cases hk
        simp [ScanRange.within, show e.key < low from hlt]
    have hsize := h.length_pages_le hnodup
    have hscan := @scanLeaves_spec P pages ⟨start, stop, limit⟩ (pages.size + 1) cursor {} leaf
      entries ids hat (Increasing.append_iff.mp hinc).2.1 rfl
      (Nat.pos_of_ne_zero fun h => hempty (.inl h)) (by simp) (by omega)
    simp only [hrun, hscan]
    have hwhole : t.entries.filter (ScanRange.within ⟨start, stop, limit⟩) =
        (leaf ++ entries).filter (ScanRange.within ⟨start, stop, limit⟩) := by
      rw [hsplit, List.filter_append, hbefore, List.nil_append]
    rw [hwhole]
    rfl

end QuantaDb.Index
