import QuantaDb.Index.Cursor
import QuantaDb.Lib.Looping

/-!
# QuantaDb.Index.Untrusted

Lookups and scans over pages with any contents.

The loops of `get`, `range`, `descend_to_leaf` and `advance_to_next_leaf` are
taken turn by turn, as the source has them, without a bound on the turns.  A
descent reads pages it has not visited, at levels that go down; a scan reads a
leaf once more when it collects its entries.  So the loops end, whatever the
pages hold and point to, and ask for no page more than twice
(`reads_bounded`); the entries of a scan that returns are in order and between
the bounds, since every one of them was compared with the one before.
-/

namespace QuantaDb.Index

open Looping Ordered

variable {pages : PageTable}

/-! ## lookups -/

/-- Where a lookup is. -/
inductive GetState where
  | enter (root : IndexRoot)
  | reading (level : Nat) (page : PageId)

/-- A turn of `get`: a page is read and gives the next one. -/
def getTurn (pages : PageTable) (key : Bytes) :
    GetState → Turn PageId GetState (Except IndexError (Option PageId))
  | .enter root =>
    if root.height = 0 then .done [] (.error (corrupt root.page "root height cannot be zero"))
    else .next [] (.reading (root.height - 1) root.page)
  | .reading level page =>
    match readNode pages page with
    | .error error => .done [page] (.error error)
    | .ok node =>
      if node.level ≠ level then
        .done [page] (.error
          (corrupt page s!"node level {node.level} does not match expected level {level}"))
      else
        match node, level with
        | .leaf entries _, _ =>
          .done [page] (.ok ((find IndexEntry.key key entries).map IndexEntry.value))
        | .internal _ firstChild separators, 0 =>
          .done [page] (.error (corrupt (childFor key firstChild separators).2.1.2
            "internal node below leaf level"))
        | .internal _ firstChild separators, level + 1 =>
          .next [page] (.reading level (childFor key firstChild separators).2.1.2)

/-- What a lookup gives from here on. -/
def GetState.value (pages : PageTable) (key : Bytes) : GetState → Except IndexError (Option PageId)
  | .enter root => get pages root key
  | .reading level page => getAt pages key level page

/-- What a turn of a lookup that goes on does. -/
theorem getTurn_next {key : Bytes} {s s' : GetState} {asked : List PageId}
    (h : getTurn pages key s = .next asked s') :
    s.value pages key = s'.value pages key ∧
    ((∃ root level page, s = .enter root ∧ root.height = level + 1 ∧ asked = [] ∧
      s' = .reading level page) ∨
    ∃ level page node page', s = .reading (level + 1) page ∧ asked = [page] ∧
      readNode pages page = .ok node ∧ node.level = level + 1 ∧ s' = .reading level page') := by
  cases s with
  | enter root =>
    rw [getTurn] at h
    split at h
    · cases h
    · next hheight =>
      cases h
      refine ⟨?_, .inl ⟨root, _, _, rfl, by omega, rfl, rfl⟩⟩
      rw [GetState.value, get, if_neg hheight]
      rfl
  | reading level page =>
    rw [getTurn] at h
    cases hread : readNode pages page with
    | error error =>
      rw [hread] at h
      cases h
    | ok node =>
      simp only [hread] at h
      split at h
      · cases h
      · next hlevel =>
        cases node with
        | leaf entries next => cases h
        | internal l firstChild separators =>
          cases level with
          | zero => cases h
          | succ level =>
            cases h
            refine ⟨?_, .inr ⟨level, page, _, _, rfl, rfl, hread, not_not.mp hlevel, rfl⟩⟩
            simp only [GetState.value]
            rw [getAt, hread]
            simp only
            rw [if_neg hlevel]

/-- The last turn of a lookup reads at most the page it is at. -/
theorem getTurn_done {key : Bytes} {s : GetState} {asked : List PageId}
    {result : Except IndexError (Option PageId)} (h : getTurn pages key s = .done asked result) :
    s.value pages key = result ∧
      (asked = [] ∨ ∃ level page, s = .reading level page ∧ asked = [page]) := by
  cases s with
  | enter root =>
    rw [getTurn] at h
    split at h
    · next hheight =>
      cases h
      exact ⟨by rw [GetState.value, get, if_pos hheight], .inl rfl⟩
    · cases h
  | reading level page =>
    rw [getTurn] at h
    rw [GetState.value, getAt]
    cases hread : readNode pages page with
    | error error =>
      rw [hread] at h
      cases h
      exact ⟨rfl, .inr ⟨level, page, rfl, rfl⟩⟩
    | ok node =>
      simp only [hread] at h ⊢
      split at h
      · next hlevel =>
        cases h
        exact ⟨if_pos hlevel, .inr ⟨level, page, rfl, rfl⟩⟩
      · next hlevel =>
        rw [if_neg hlevel]
        cases node with
        | leaf entries next =>
          cases h
          exact ⟨rfl, .inr ⟨level, page, rfl, rfl⟩⟩
        | internal l firstChild separators =>
          cases level with
          | zero =>
            cases h
            exact ⟨rfl, .inr ⟨0, page, rfl, rfl⟩⟩
          | succ level => cases h

/-- The turns that are left at most. -/
def GetState.left : GetState → Nat
  | .enter root => root.height
  | .reading level _ => level

/-- **A lookup ends**, since the level goes down. -/
theorem get_ends (pages : PageTable) (root : IndexRoot) (key : Bytes) :
    Ends (getTurn pages key) (.enter root) (get pages root key) := by
  refine @Ends.of_measure _ _ _ _ (GetState.value pages key) GetState.left
    (fun h => (getTurn_done h).1) (fun h => ?_) (.enter root)
  obtain ⟨hvalue, ⟨root, level, page, rfl, hheight, -, rfl⟩ |
    ⟨level, page, node, page', rfl, -, -, -, rfl⟩⟩ := getTurn_next h
  · exact ⟨hvalue, by simp only [GetState.left]; omega⟩
  · exact ⟨hvalue, Nat.lt_succ_self level⟩

/-- The pages a lookup has read, each at a level above where it is now. -/
def GetState.Passed (pages : PageTable) : GetState → List PageId → Prop
  | .enter _, read => read = []
  | .reading level _, read => read.Nodup ∧
      ∀ page ∈ read, ∃ node, readNode pages page = .ok node ∧ level < node.level

/-- A lookup comes back to a page it has read at most once: there the level is wrong. -/
theorem get_count_le {root : IndexRoot} {key : Bytes} {read : List PageId}
    {result : Except IndexError (Option PageId)}
    (h : Returns (getTurn pages key) (.enter root) read result) (page : PageId) :
    read.count page ≤ 2 := by
  refine @Returns.invariant _ _ _ _ (GetState.Passed pages) (fun read _ => read.count page ≤ 2)
    ?_ ?_ _ _ [] _ h rfl
  · intro s s' asked before hpassed hturn
    obtain ⟨-, ⟨root, level, page, rfl, -, rfl, rfl⟩ |
      ⟨level, page, node, page', rfl, rfl, hread, hlevel, rfl⟩⟩ := getTurn_next hturn
    · have hnil : before = [] := hpassed
      rw [hnil]
      exact ⟨List.nodup_nil, by simp⟩
    · obtain ⟨hnodup, habove⟩ := hpassed
      -- a page read before was read at a higher level
      have hfresh : page ∉ before := by
        intro hmem
        obtain ⟨node', hread', hlt⟩ := habove page hmem
        rw [hread] at hread'
        cases hread'
        omega
      refine ⟨List.nodup_append_comm.mp (List.nodup_cons.mpr ⟨hfresh, hnodup⟩), fun q hq => ?_⟩
      rcases List.mem_append.mp hq with hq | hq
      · obtain ⟨node', hread', hlt⟩ := habove q hq
        exact ⟨node', hread', by omega⟩
      · rw [List.mem_singleton.mp hq]
        exact ⟨node, hread, by omega⟩
  · intro s asked before result hpassed hturn
    have hcount : before.count page ≤ 1 := by
      cases s with
      | enter root =>
        have hnil : before = [] := hpassed
        rw [hnil]
        exact Nat.zero_le 1
      | reading level q => exact List.nodup_iff_count_le_one.mp hpassed.1 page
    rw [List.count_append]
    obtain ⟨-, rfl | ⟨level, q, -, rfl⟩⟩ := getTurn_done hturn
    · rw [List.count_nil]
      omega
    · have := @List.count_le_length _ _ page [q]
      rw [List.length_singleton] at this
      omega

/-! ## scans -/

/-- Where a scan is: in a descent, at a leaf, or on its way to the next one. -/
inductive RangeState where
  | enter (root : IndexRoot)
  | descend (key : Option Bytes) (level : Nat) (cursor : Cursor) (scan : Scan)
  | collect (cursor : Cursor) (scan : Scan)
  | advance (visited : List PageId) (frames : List CursorFrame) (scan : Scan)

/-- A turn of the loop of `range`, `descend_to_leaf` or `advance_to_next_leaf`. -/
def rangeTurn (pages : PageTable) (range : ScanRange) :
    RangeState → Turn PageId RangeState (Except IndexError (List IndexEntry))
  | .enter root =>
    if range.limit = 0 ∨
        (range.start.any fun start => range.stop.any fun stop => decide (stop ≤ start)) = true then
      .done [] (.ok [])
    else if root.height = 0 then
      .done [] (.error (corrupt root.page "root height cannot be zero"))
    else .next [] (.descend (some (range.start.getD [])) (root.height - 1) ⟨root.page, [], []⟩ {})
  | .descend key level cursor scan =>
    if cursor.page ∈ cursor.visited then
      .done [] (.error (corrupt cursor.page "index tree contains a page cycle"))
    else
      match readNode pages cursor.page with
      | .error error => .done [cursor.page] (.error error)
      | .ok node =>
        if node.level ≠ level then
          .done [cursor.page] (.error
            (corrupt cursor.page "node level does not match tree height"))
        else
          match node, level with
          | .leaf _ _, _ =>
            .next [cursor.page]
              (.collect { cursor with visited := cursor.page :: cursor.visited } scan)
          | .internal _ _ _, 0 =>
            .done [cursor.page] (.error
              (corrupt cursor.page "internal node below leaf level"))
          | .internal _ firstChild separators, level + 1 =>
            let chosen := childAt key firstChild separators
            .next [cursor.page] (.descend key level {
              page := chosen.2.1.2
              frames := ⟨firstChild :: separators.map Prod.snd, chosen.1.length, level⟩ ::
                cursor.frames
              visited := cursor.page :: cursor.visited } scan)
  | .collect cursor scan =>
    if range.limit ≤ scan.result.length then .done [] (.ok scan.result)
    else
      match readNode pages cursor.page with
      | .error error => .done [cursor.page] (.error error)
      | .ok (.internal _ _ _) =>
        .done [cursor.page] (.error
          (corrupt cursor.page "tree cursor reached an internal node"))
      | .ok (.leaf entries _) =>
        match scanLeaf range cursor.page scan entries with
        | .error error => .done [cursor.page] (.error error)
        | .ok scan =>
          if scan.finished then .done [cursor.page] (.ok scan.result)
          else .next [cursor.page] (.advance cursor.visited cursor.frames scan)
  | .advance _ [] scan => .done [] (.ok scan.result)
  | .advance visited (frame :: frames) scan =>
    match frame.children[frame.position + 1]? with
    | some page =>
      .next [] (.descend none frame.childLevel {
        page
        frames := { frame with position := frame.position + 1 } :: frames
        visited } scan)
    | none => .next [] (.advance visited frames scan)

variable {range : ScanRange}

/-- What a turn of a descent does: it fails, it reaches a leaf or it goes a level down.
Only a page that was not visited is read. -/
theorem descend_cases (pages : PageTable) (range : ScanRange) (key : Option Bytes) (level : Nat)
    (cursor : Cursor) (scan : Scan) :
    (∃ asked error,
      rangeTurn pages range (.descend key level cursor scan) = .done asked (.error error) ∧
      descendToLeaf pages key level cursor = .error error ∧
      (asked = [] ∨ asked = [cursor.page] ∧ cursor.page ∉ cursor.visited)) ∨
    cursor.page ∉ cursor.visited ∧ (∃ node, readNode pages cursor.page = .ok node) ∧
      ((∃ leaf, rangeTurn pages range (.descend key level cursor scan) =
          .next [cursor.page] (.collect leaf scan) ∧
          descendToLeaf pages key level cursor = .ok leaf ∧ leaf.page = cursor.page ∧
          leaf.visited = cursor.page :: cursor.visited) ∨
        ∃ below cursor', level = below + 1 ∧
        rangeTurn pages range (.descend key level cursor scan) =
          .next [cursor.page] (.descend key below cursor' scan) ∧
          descendToLeaf pages key level cursor = descendToLeaf pages key below cursor' ∧
          cursor'.visited = cursor.page :: cursor.visited) := by
  rw [rangeTurn, descendToLeaf.eq_def]
  split
  · exact .inl ⟨_, _, rfl, rfl, .inl rfl⟩
  · next hvisited =>
    cases hread : readNode pages cursor.page with
    | error error => exact .inl ⟨_, _, rfl, rfl, .inr ⟨rfl, hvisited⟩⟩
    | ok node =>
      simp only
      split
      · exact .inl ⟨_, _, rfl, rfl, .inr ⟨rfl, hvisited⟩⟩
      · cases node with
        | leaf entries next => exact .inr ⟨hvisited, ⟨_, rfl⟩, .inl ⟨_, rfl, rfl, rfl, rfl⟩⟩
        | internal l firstChild separators =>
          cases level with
          | zero => exact .inl ⟨_, _, rfl, rfl, .inr ⟨rfl, hvisited⟩⟩
          | succ below =>
            exact .inr ⟨hvisited, ⟨_, rfl⟩, .inr ⟨below, _, rfl, rfl, rfl, rfl⟩⟩

/-- What a turn at a leaf does: the scan ends, or it goes on behind the leaf. -/
theorem collect_cases (pages : PageTable) (range : ScanRange) (cursor : Cursor) (scan : Scan) :
    (∃ asked result, rangeTurn pages range (.collect cursor scan) = .done asked result ∧
      (∀ turns, scanLeaves pages range (turns + 1) cursor scan = result) ∧
      (asked = [] ∨ asked = [cursor.page]) ∧
      ∀ entries, result = .ok entries → entries = scan.result ∨ scan.result.length < range.limit ∧
        ∃ leaf scan', scanLeaf range cursor.page scan leaf = .ok scan' ∧ entries = scan'.result) ∨
    scan.result.length < range.limit ∧ ∃ leaf scan',
      scanLeaf range cursor.page scan leaf = .ok scan' ∧
      rangeTurn pages range (.collect cursor scan) =
        .next [cursor.page] (.advance cursor.visited cursor.frames scan') ∧
      ∀ turns, scanLeaves pages range (turns + 1) cursor scan =
        (advanceToNextLeaf pages cursor.visited cursor.frames >>= fun next =>
          next.elim (.ok scan'.result) fun cursor =>
            scanLeaves pages range turns cursor scan') := by
  simp only [rangeTurn, scanLeaves]
  split
  · exact .inl ⟨_, _, rfl, fun _ => rfl, .inl rfl, fun entries h => .inl (Except.ok.inj h).symm⟩
  · next hroom =>
    rw [Nat.not_le] at hroom
    cases readNode pages cursor.page with
    | error error => exact .inl ⟨_, _, rfl, fun _ => rfl, .inr rfl, fun entries h => by cases h⟩
    | ok node =>
      cases node with
      | internal l firstChild separators =>
        exact .inl ⟨_, _, rfl, fun _ => rfl, .inr rfl, fun entries h => by cases h⟩
      | leaf entries next =>
        simp only
        cases hscan : scanLeaf range cursor.page scan entries with
        | error error =>
          exact .inl ⟨_, _, rfl, fun _ => rfl, .inr rfl, fun entries h => by cases h⟩
        | ok scan' =>
          simp only
          split
          · refine .inl ⟨_, _, rfl, fun _ => rfl, .inr rfl, fun entries' h => .inr ⟨hroom, ?_⟩⟩
            exact ⟨entries, scan', hscan, (Except.ok.inj h).symm⟩
          · refine .inr ⟨hroom, entries, scan', hscan, rfl, fun turns => ?_⟩
            cases advanceToNextLeaf pages cursor.visited cursor.frames with
            | error error => rfl
            | ok next => cases next <;> rfl

/-! ## scans end -/

/-- Pages of the table, each visited once. -/
structure Seen (pages : PageTable) (visited : List PageId) : Prop where
  nodup : visited.Nodup
  stored : ∀ page ∈ visited, page ∈ pages

theorem Seen.length_le {visited : List PageId} (h : Seen pages visited) :
    visited.length ≤ pages.size := by
  rw [← Std.TreeMap.length_keys]
  exact (h.nodup.subperm fun page hpage => Std.TreeMap.mem_keys.mpr (h.stored page hpage)).length_le

theorem Seen.cons {visited : List PageId} (h : Seen pages visited) {page : PageId}
    (hfresh : page ∉ visited) (hread : ∃ node, readNode pages page = .ok node) :
    Seen pages (page :: visited) := by
  refine ⟨List.nodup_cons.mpr ⟨hfresh, h.nodup⟩, fun q hq => ?_⟩
  rcases List.mem_cons.mp hq with rfl | hq
  · obtain ⟨node, hnode⟩ := hread
    rw [readNode] at hnode
    rw [TreeMaps.mem_iff_get]
    cases hget : pages[q]? with
    | none => rw [hget] at hnode; cases hnode
    | some payload => exact ⟨payload, rfl⟩
  · exact h.stored q hq

/-- A descent visits pages it has not visited before. -/
theorem descendToLeaf_seen {key : Option Bytes} {level : Nat} {cursor leaf : Cursor}
    (h : descendToLeaf pages key level cursor = .ok leaf) (hseen : Seen pages cursor.visited) :
    Seen pages leaf.visited ∧ cursor.visited.length < leaf.visited.length := by
  induction level using Nat.strongRecOn generalizing cursor with
  | ind level ih =>
    rcases descend_cases pages ⟨none, none, 0⟩ key level cursor {} with
      ⟨_, _, -, herror, -⟩ | ⟨hfresh, hread, ⟨leaf', -, hleaf, -, hvisited⟩ |
      ⟨below, cursor', rfl, -, hstep, hvisited⟩⟩
    · rw [herror] at h
      cases h
    · rw [hleaf] at h
      cases h
      rw [hvisited]
      exact ⟨hseen.cons hfresh hread, Nat.lt_succ_self _⟩
    · rw [hstep] at h
      obtain ⟨hseen', hlt⟩ :=
        ih below (Nat.lt_succ_self below) h (hvisited ▸ hseen.cons hfresh hread)
      rw [hvisited, List.length_cons] at hlt
      exact ⟨hseen', by omega⟩

/-- A descent ends in the error of `descendToLeaf`, or goes on from its leaf. -/
theorem descend_ends {key : Option Bytes} {level : Nat} {cursor : Cursor} {scan : Scan}
    {rest : Cursor → Except IndexError (List IndexEntry)}
    (hrest : ∀ leaf, descendToLeaf pages key level cursor = .ok leaf →
      Ends (rangeTurn pages range) (.collect leaf scan) (rest leaf)) :
    Ends (rangeTurn pages range) (.descend key level cursor scan)
      (descendToLeaf pages key level cursor >>= rest) := by
  induction level using Nat.strongRecOn generalizing cursor with
  | ind level ih =>
    rcases descend_cases pages range key level cursor scan with
      ⟨_, _, hturn, herror, -⟩ | ⟨-, -, ⟨leaf, hturn, hleaf, -⟩ |
      ⟨below, cursor', rfl, hturn, hstep, -⟩⟩
    · rw [herror]
      exact .done hturn
    · rw [hleaf]
      exact .next hturn (hrest leaf hleaf)
    · rw [hstep] at hrest ⊢
      exact .next hturn (ih below (Nat.lt_succ_self below) hrest)

/-- What a turn between two leaves does: without a next child a frame is dropped. -/
theorem advance_cases (pages : PageTable) (range : ScanRange) (visited : List PageId)
    (frames : List CursorFrame) (scan : Scan) :
    (rangeTurn pages range (.advance visited frames scan) = .done [] (.ok scan.result) ∧
      frames = [] ∧ advanceToNextLeaf pages visited frames = .ok none) ∨
    (∃ frame frames', frames = frame :: frames' ∧
      rangeTurn pages range (.advance visited frames scan) = .next []
      (.advance visited frames' scan) ∧
      advanceToNextLeaf pages visited frames = advanceToNextLeaf pages visited frames') ∨
    ∃ level cursor, cursor.visited = visited ∧
    rangeTurn pages range (.advance visited frames scan) =
        .next [] (.descend none level cursor scan) ∧
      advanceToNextLeaf pages visited frames = (descendToLeaf pages none level cursor).map
      some := by
  cases frames with
  | nil => exact .inl ⟨rfl, rfl, rfl⟩
  | cons frame frames =>
    simp only [rangeTurn, advanceToNextLeaf]
    cases frame.children[frame.position + 1]? with
    | none => exact .inr (.inl ⟨frame, frames, rfl, rfl, rfl⟩)
    | some page => exact .inr (.inr ⟨_, _, rfl, rfl, rfl⟩)

theorem advanceToNextLeaf_seen {visited : List PageId} {frames : List CursorFrame} {leaf : Cursor}
    (h : advanceToNextLeaf pages visited frames = .ok (some leaf)) (hseen : Seen pages visited) :
    Seen pages leaf.visited ∧ visited.length < leaf.visited.length := by
  induction frames with
  | nil => cases h
  | cons frame frames ih =>
    rcases advance_cases pages ⟨none, none, 0⟩ visited (frame :: frames) {} with
      ⟨-, hnil, -⟩ | ⟨_, _, hframes, -, hstep⟩ | ⟨level, cursor, hvisited, -, hstep⟩
    · cases hnil
    · cases hframes
      rw [hstep] at h
      exact ih h
    · rw [hstep] at h
      obtain ⟨leaf', hleaf, heq⟩ := Fallible.map_eq_ok.mp h
      cases heq
      subst hvisited
      exact descendToLeaf_seen hleaf hseen

/-- On the way to the next leaf a scan ends, or goes on from there. -/
theorem advance_ends {visited : List PageId} {frames : List CursorFrame} {scan : Scan}
    {rest : Cursor → Except IndexError (List IndexEntry)}
    (hrest : ∀ leaf, advanceToNextLeaf pages visited frames = .ok (some leaf) →
      Ends (rangeTurn pages range) (.collect leaf scan) (rest leaf)) :
    Ends (rangeTurn pages range) (.advance visited frames scan)
      (advanceToNextLeaf pages visited frames >>= fun next =>
        next.elim (.ok scan.result) rest) := by
  induction frames with
  | nil => exact .done rfl
  | cons frame frames ih =>
    rcases advance_cases pages range visited (frame :: frames) scan with
      ⟨-, hnil, -⟩ | ⟨_, _, hframes, hturn, hstep⟩ | ⟨level, cursor, -, hturn, hstep⟩
    · cases hnil
    · cases hframes
      rw [hstep] at hrest ⊢
      exact .next hturn (ih hrest)
    · rw [hstep] at hrest ⊢
      have hdescend := @descend_ends pages range none level cursor scan rest
        fun leaf hleaf => hrest leaf (by rw [hleaf]; rfl)
      refine .next hturn ?_
      cases hleaf : descendToLeaf pages none level cursor with
      | error error => rwa [hleaf] at hdescend
      | ok leaf => rwa [hleaf] at hdescend

/-- The loop over the leaves ends: with every leaf a page of the table is used up. -/
theorem scanLeaves_ends {turns : Nat} {cursor : Cursor} (scan : Scan)
    (hseen : Seen pages cursor.visited) (hturns : pages.size < turns + cursor.visited.length) :
    Ends (rangeTurn pages range) (.collect cursor scan)
      (scanLeaves pages range turns cursor scan) := by
  induction turns generalizing cursor scan with
  | zero =>
    have := hseen.length_le
    omega
  | succ turns ih =>
    rcases collect_cases pages range cursor scan with
      ⟨_, _, hturn, hresult, -⟩ | ⟨-, _, scan', -, hturn, hstep⟩
    · rw [hresult]
      exact .done hturn
    · rw [hstep]
      refine .next hturn (advance_ends fun leaf hleaf => ?_)
      obtain ⟨hseen', hlt⟩ := advanceToNextLeaf_seen hleaf hseen
      exact ih scan' hseen' (by omega)

/-- **A scan ends**, whatever the pages hold. -/
theorem range_ends (pages : PageTable) (root : IndexRoot) (start stop : Option Bytes)
    (limit : Nat) :
    Ends (rangeTurn pages ⟨start, stop, limit⟩) (.enter root)
      (Index.range pages root start stop limit) := by
  unfold Index.range
  split
  · next hempty => exact .done (by rw [rangeTurn, if_pos hempty])
  · next hempty =>
    split
    · next hheight => exact .done (by rw [rangeTurn, if_neg hempty, if_pos hheight])
    · next hheight =>
      refine .next (by rw [rangeTurn, if_neg hempty, if_neg hheight]) ?_
      have hdescend := @descend_ends pages ⟨start, stop, limit⟩ (some (start.getD []))
        (root.height - 1) ⟨root.page, [], []⟩ {}
        (fun cursor => scanLeaves pages ⟨start, stop, limit⟩ (pages.size + 1) cursor {})
        fun leaf hleaf => by
          obtain ⟨hseen, -⟩ := descendToLeaf_seen hleaf ⟨List.nodup_nil, by simp⟩
          exact scanLeaves_ends {} hseen (by omega)
      cases hleaf : descendToLeaf pages (some (start.getD [])) (root.height - 1)
          ⟨root.page, [], []⟩ with
      | error error => rwa [hleaf] at hdescend
      | ok leaf => rwa [hleaf] at hdescend

/-! ## what a scan reads and returns -/

/-- Entries of a scan: in order, between the bounds, within the limit. -/
structure Collected (range : ScanRange) (entries : List IndexEntry) : Prop where
  increasing : Increasing IndexEntry.key entries
  within : ∀ entry ∈ entries, range.within entry = true
  limit : entries.length ≤ range.limit

/-- What a scan has collected, with the last key kept for the next comparison. -/
structure Collecting (range : ScanRange) (scan : Scan) : Prop where
  collected : Collected range scan.result
  previous : ∀ entry ∈ scan.result, ∃ last ∈ scan.previous, entry.key ≤ last

/-- One more entry, after the checks that `range` makes. -/
theorem Collecting.push {scan : Scan} {entry : IndexEntry} (h : Collecting range scan)
    (hroom : scan.result.length < range.limit)
    (hstart : ¬(range.start.any fun start => decide (entry.key < start)) = true)
    (hstop : ¬(range.stop.any fun stop => decide (stop ≤ entry.key)) = true)
    (hlast : ¬(scan.previous.any fun previous => decide (entry.key ≤ previous)) = true) :
    Collecting range ⟨scan.result ++ [entry], some entry.key, false⟩ := by
  -- the last key is compared with the new one, the others are below it
  have hbelow : ∀ e ∈ scan.result, e.key < entry.key := by
    intro e he
    obtain ⟨last, hmem, hle⟩ := h.previous e he
    rw [Option.mem_def] at hmem
    rw [hmem, Option.any_some, decide_eq_true_eq] at hlast
    exact Std.lt_of_le_of_lt hle (Std.not_le.mp hlast)
  have hin : range.within entry = true := by
    rw [Bool.not_eq_true] at hstart hstop
    rw [ScanRange.within, hstart, hstop]
    rfl
  refine ⟨⟨?_, ?_, ?_⟩, ?_⟩
  · refine Increasing.append_iff.mpr ⟨h.collected.increasing, List.pairwise_singleton _ _, ?_⟩
    intro e he f hf
    rw [List.mem_singleton.mp hf]
    exact hbelow e he
  · intro e he
    rcases List.mem_append.mp he with he | he
    · exact h.collected.within e he
    · rwa [List.mem_singleton.mp he]
  · rw [List.length_append, List.length_singleton]
    exact hroom
  · intro e he
    refine ⟨entry.key, rfl, ?_⟩
    rcases List.mem_append.mp he with he | he
    · exact Std.le_of_lt (hbelow e he)
    · rw [List.mem_singleton.mp he]
      exact Std.le_refl _

theorem scanLeaf_collecting {page : PageId} {leaf : List IndexEntry} {scan scan' : Scan}
    (h : scanLeaf range page scan leaf = .ok scan') (hscan : Collecting range scan)
    (hroom : scan.result.length < range.limit) : Collecting range scan' := by
  induction leaf generalizing scan with
  | nil =>
    cases h
    exact hscan
  | cons entry leaf ih =>
    rw [scanLeaf] at h
    split at h
    · exact ih h hscan hroom
    · next hstart =>
      split at h
      · cases h
        exact ⟨hscan.collected, hscan.previous⟩
      · next hstop =>
        split at h
        · cases h
        · next hlast =>
          have hnew := hscan.push hroom hstart hstop hlast
          simp only at h
          split at h
          · cases h
            exact ⟨hnew.collected, hnew.previous⟩
          · next hfull =>
            refine ih h hnew ?_
            rw [List.length_append, List.length_singleton] at hfull ⊢
            omega

namespace RangeState

/-- The pages visited by descents. -/
def visited : RangeState → List PageId
  | enter _ => []
  | descend _ _ cursor _ => cursor.visited
  | collect cursor _ => cursor.visited
  | advance visited _ _ => visited

/-- The leaf whose entries are to be collected. -/
def leaf : RangeState → Option PageId
  | collect cursor _ => some cursor.page
  | _ => none

def scan : RangeState → Scan
  | enter _ => {}
  | descend _ _ _ scan => scan
  | collect _ scan => scan
  | advance _ _ scan => scan

/-- Every page read was visited by a descent, or is a leaf that was visited and then
collected. -/
structure Read (range : ScanRange) (s : RangeState) (read : List PageId) : Prop where
  reads : ∃ collected, read.Perm (s.visited ++ collected) ∧ collected.Nodup ∧
    collected ⊆ s.visited ∧ ∀ page ∈ s.leaf, page ∈ s.visited ∧ page ∉ collected
  nodup : s.visited.Nodup
  collecting : Collecting range s.scan

end RangeState

/-- Pages visited once and collected once are read twice at most. -/
theorem count_le_two {read visited collected : List PageId} (h : read.Perm (visited ++ collected))
    (hvisited : visited.Nodup) (hcollected : collected.Nodup) (page : PageId) :
    read.count page ≤ 2 := by
  have hone := List.nodup_iff_count_le_one.mp hvisited page
  have htwo := List.nodup_iff_count_le_one.mp hcollected page
  rw [h.count_eq, List.count_append]
  omega

/-- **One turn of a scan** reads a page that was not visited, or the leaf it is at. -/
theorem RangeState.Read.next {s s' : RangeState} {read asked : List PageId}
    (h : s.Read range read) (hturn : rangeTurn pages range s = .next asked s') :
    s'.Read range (read ++ asked) := by
  obtain ⟨collected, hperm, hnodup, hsub, hleaf⟩ := h.reads
  cases s with
  | enter root =>
    rw [rangeTurn] at hturn
    split at hturn
    · cases hturn
    · split at hturn
      · cases hturn
      · cases hturn
        rw [List.append_nil]
        exact ⟨⟨collected, hperm, hnodup, hsub, by simp [RangeState.leaf]⟩, List.nodup_nil,
          h.collecting⟩
  | descend key level cursor scan =>
    have hstep : ∀ visited : List PageId, visited = cursor.page :: cursor.visited →
        (read ++ [cursor.page]).Perm (visited ++ collected) := by
      rintro _ rfl
      exact (List.perm_append_comm).trans (hperm.cons cursor.page)
    rcases descend_cases pages range key level cursor scan with ⟨_, _, hdone, -⟩ |
      ⟨hfresh, -, ⟨leaf, hnext, -, hpage, hvisited⟩ | ⟨below, cursor', -, hnext, -, hvisited⟩⟩
    · rw [hdone] at hturn
      cases hturn
    · rw [hnext] at hturn
      cases hturn
      refine ⟨⟨collected, hstep _ hvisited, hnodup, ?_, ?_⟩, ?_, h.collecting⟩
      · rw [RangeState.visited, hvisited]
        exact List.subset_cons_of_subset _ hsub
      · intro page hmem
        cases hmem
        rw [RangeState.visited, hvisited, hpage]
        exact ⟨List.mem_cons_self, fun hq => hfresh (hsub hq)⟩
      · rw [RangeState.visited, hvisited]
        exact List.nodup_cons.mpr ⟨hfresh, h.nodup⟩
    · rw [hnext] at hturn
      cases hturn
      refine ⟨⟨collected, hstep _ hvisited, hnodup, ?_, by simp [RangeState.leaf]⟩, ?_,
        h.collecting⟩
      · rw [RangeState.visited, hvisited]
        exact List.subset_cons_of_subset _ hsub
      · rw [RangeState.visited, hvisited]
        exact List.nodup_cons.mpr ⟨hfresh, h.nodup⟩
  | collect cursor scan =>
    obtain ⟨hin, hnot⟩ := hleaf cursor.page rfl
    rcases collect_cases pages range cursor scan with ⟨_, _, hdone, -⟩ |
      ⟨hroom, leaf, scan', hscan, hnext, -⟩
    · rw [hdone] at hturn
      cases hturn
    · rw [hnext] at hturn
      cases hturn
      refine ⟨⟨collected ++ [cursor.page], ?_, ?_, ?_, by simp [RangeState.leaf]⟩, h.nodup,
        scanLeaf_collecting hscan h.collecting hroom⟩
      · rw [← List.append_assoc]
        exact hperm.append_right _
      · exact List.nodup_append_comm.mp (List.nodup_cons.mpr ⟨hnot, hnodup⟩)
      · intro q hq
        rcases List.mem_append.mp hq with hq | hq
        · exact hsub hq
        · rwa [List.mem_singleton.mp hq]
  | advance visited frames scan =>
    rcases advance_cases pages range visited frames scan with ⟨hdone, -⟩ |
      ⟨_, _, -, hnext, -⟩ | ⟨level, cursor, hvisited, hnext, -⟩
    · rw [hdone] at hturn
      cases hturn
    · rw [hnext] at hturn
      cases hturn
      rw [List.append_nil]
      exact ⟨⟨collected, hperm, hnodup, hsub, by simp [RangeState.leaf]⟩, h.nodup, h.collecting⟩
    · rw [hnext] at hturn
      cases hturn
      subst hvisited
      rw [List.append_nil]
      exact ⟨⟨collected, hperm, hnodup, hsub, by simp [RangeState.leaf]⟩, h.nodup, h.collecting⟩

/-- The last turn of a scan. -/
theorem RangeState.Read.done {s : RangeState} {read asked : List PageId}
    {result : Except IndexError (List IndexEntry)} (h : s.Read range read)
    (hturn : rangeTurn pages range s = .done asked result) :
    (∀ page, (read ++ asked).count page ≤ 2) ∧
      ∀ entries, result = .ok entries → Collected range entries := by
  obtain ⟨collected, hperm, hnodup, hsub, hleaf⟩ := h.reads
  have hnone : ∀ page, (read ++ []).count page ≤ 2 := by
    rw [List.append_nil]
    exact count_le_two hperm h.nodup hnodup
  cases s with
  | enter root =>
    rw [rangeTurn] at hturn
    split at hturn
    · cases hturn
      refine ⟨hnone, fun entries hentries => ?_⟩
      cases hentries
      exact ⟨List.Pairwise.nil, by simp, Nat.zero_le _⟩
    · split at hturn
      · cases hturn
        exact ⟨hnone, fun entries hentries => by cases hentries⟩
      · cases hturn
  | descend key level cursor scan =>
    rcases descend_cases pages range key level cursor scan with ⟨_, _, hdone, -, hasked⟩ |
      ⟨-, -, ⟨_, hnext, -⟩ | ⟨_, _, -, hnext, -⟩⟩
    · rw [hdone] at hturn
      cases hturn
      refine ⟨?_, fun entries hentries => by cases hentries⟩
      rcases hasked with rfl | ⟨rfl, hfresh⟩
      · exact hnone
      · exact @count_le_two _ (cursor.page :: cursor.visited) collected
          (List.perm_append_comm.trans (hperm.cons cursor.page))
          (List.nodup_cons.mpr ⟨hfresh, h.nodup⟩) hnodup
    · rw [hnext] at hturn
      cases hturn
    · rw [hnext] at hturn
      cases hturn
  | collect cursor scan =>
    obtain ⟨hin, hnot⟩ := hleaf cursor.page rfl
    rcases collect_cases pages range cursor scan with ⟨_, _, hdone, -, hasked, hresult⟩ |
      ⟨_, _, _, _, hnext, -⟩
    · rw [hdone] at hturn
      cases hturn
      refine ⟨?_, fun entries hentries => ?_⟩
      · rcases hasked with rfl | rfl
        · exact hnone
        · refine @count_le_two _ cursor.visited (collected ++ [cursor.page]) ?_ h.nodup
            (List.nodup_append_comm.mp (List.nodup_cons.mpr ⟨hnot, hnodup⟩))
          rw [← List.append_assoc]
          exact hperm.append_right _
      · rcases hresult entries hentries with rfl | ⟨hroom, leaf, scan', hscan, rfl⟩
        · exact h.collecting.collected
        · exact (scanLeaf_collecting hscan h.collecting hroom).collected
    · rw [hnext] at hturn
      cases hturn
  | advance visited frames scan =>
    rcases advance_cases pages range visited frames scan with ⟨hdone, -⟩ |
      ⟨_, _, -, hnext, -⟩ | ⟨_, _, -, hnext, -⟩
    · rw [hdone] at hturn
      cases hturn
      refine ⟨hnone, fun entries hentries => ?_⟩
      cases hentries
      exact h.collecting.collected
    · rw [hnext] at hturn
      cases hturn
    · rw [hnext] at hturn
      cases hturn

theorem range_read {root : IndexRoot} {read : List PageId}
    {result : Except IndexError (List IndexEntry)}
    (h : Returns (rangeTurn pages range) (.enter root) read result) :
    (∀ page, read.count page ≤ 2) ∧ ∀ entries, result = .ok entries → Collected range entries := by
  refine @Returns.invariant _ _ _ _ (RangeState.Read range)
    (fun read result => (∀ page, read.count page ≤ 2) ∧
      ∀ entries, result = .ok entries → Collected range entries)
    (fun hread hturn => hread.next hturn) (fun hread hturn => hread.done hturn) _ _ [] _ h ?_
  exact ⟨⟨[], .refl _, List.nodup_nil, by simp, by simp [RangeState.leaf]⟩, List.nodup_nil,
    ⟨⟨List.Pairwise.nil, by simp [RangeState.scan], Nat.zero_le _⟩, by simp [RangeState.scan]⟩⟩

/-- **Any pages.**  Whatever the pages hold, the loops of a lookup and of a scan end with
what the functions give, after reading each page at most twice; a scan that returns lists
entries in strictly increasing order, as many as allowed, between its bounds. -/
theorem reads_bounded (pages : PageTable) (root : IndexRoot) (key : Bytes)
    (start stop : Option Bytes) (limit : Nat) :
    (∃ read, Returns (getTurn pages key) (.enter root) read (get pages root key) ∧
      ∀ page, read.count page ≤ 2) ∧
    (∃ read, Returns (rangeTurn pages ⟨start, stop, limit⟩) (.enter root) read
        (Index.range pages root start stop limit) ∧ ∀ page, read.count page ≤ 2) ∧
    ∀ entries, Index.range pages root start stop limit = .ok entries →
      (entries.Pairwise fun a b => a.key < b.key) ∧ entries.length ≤ limit ∧
        ∀ entry ∈ entries, (∀ low ∈ start, low ≤ entry.key) ∧ ∀ high ∈ stop, entry.key < high := by
  obtain ⟨read, hget⟩ := get_ends pages root key
  obtain ⟨read', hrange⟩ := range_ends pages root start stop limit
  obtain ⟨hcount, hcollected⟩ := range_read hrange
  refine ⟨⟨read, hget, get_count_le hget⟩, ⟨read', hrange, hcount⟩, fun entries hentries => ?_⟩
  obtain ⟨hincreasing, hwithin, hlimit⟩ := hcollected entries hentries
  refine ⟨hincreasing, hlimit, fun entry hentry => ?_⟩
  have hin := hwithin entry hentry
  rw [ScanRange.within, Bool.and_eq_true, Bool.not_eq_true', Bool.not_eq_true'] at hin
  obtain ⟨hlow, hhigh⟩ := hin
  constructor
  · rintro low rfl
    rw [Option.any_some, decide_eq_false_iff_not] at hlow
    exact Std.not_lt.mp hlow
  · rintro high rfl
    rw [Option.any_some, decide_eq_false_iff_not] at hhigh
    exact Std.not_le.mp hhigh

end QuantaDb.Index
