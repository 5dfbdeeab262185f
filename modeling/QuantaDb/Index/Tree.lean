import QuantaDb.Index.Node

/-!
# QuantaDb.Index.Tree

The immutable B+ tree: bulk build, lookup and range scan (`tree.rs`).

A range of entries or children that goes into one node is given as its elements
(`Group`), never empty.  Nodes are read from the pages they were written to; the
cache in front of them is left out.
-/

namespace QuantaDb.Index

open Ordered

/-- `IndexRoot`. -/
structure IndexRoot where
  page : PageId
  height : Nat
  entries : Nat
deriving DecidableEq, Repr

/-- `Child`: the first key and the page. -/
abbrev Child := Bytes × PageId

/-- `PageWrite`. -/
abbrev PageWrite := PageId × Bytes

/-- `IndexBuildPlan`. -/
structure IndexBuildPlan where
  root : Option IndexRoot
  writes : List PageWrite
deriving DecidableEq, Repr

/-- The elements of one node. -/
structure Group (α : Type) where
  first : α
  rest : List α
deriving DecidableEq, Repr

def Group.toList {α : Type} (group : Group α) : List α := group.first :: group.rest

/-! ## partitions -/

/-- `validate_entries`. -/
def validateEntries (entries : List IndexEntry) : Except IndexError Unit :=
  if !strict (entries.map IndexEntry.key) then .error .keysNotStrictlyIncreasing
  else
    match entries.find? fun entry => maxPagePayload < headerSize + entrySize entry.key with
    | some entry => .error (.keyTooLarge entry.key.length (maxPagePayload - headerSize - 12))
    | none => .ok ()

/-- A leaf starts with an entry. -/
def startLeaf (entry : IndexEntry) : Except IndexError Nat :=
  if maxPagePayload < headerSize + entrySize entry.key then
    .error (.keyTooLarge (entrySize entry.key) (maxPagePayload - headerSize))
  else .ok (headerSize + entrySize entry.key)

/-- The loops of `partition_by` from inside a range whose elements take `used` bytes. -/
def fillLeaf (first : IndexEntry) (group : List IndexEntry) (used : Nat) :
    List IndexEntry → Except IndexError (List (Group IndexEntry))
  | [] => .ok [⟨first, group⟩]
  | entry :: rest =>
    if maxPagePayload < used + entrySize entry.key then do
      let used ← startLeaf entry
      let groups ← fillLeaf entry [] used rest
      return ⟨first, group⟩ :: groups
    else fillLeaf first (group ++ [entry]) (used + entrySize entry.key) rest

/-- `partition_leaves`. -/
def partitionLeaves : List IndexEntry → Except IndexError (List (Group IndexEntry))
  | [] => .ok []
  | entry :: rest => do
      let used ← startLeaf entry
      fillLeaf entry [] used rest

/-- The loops of `partition_internal` from inside a range.  The first child of a node
takes no space of its own. -/
def fillInternal (first : Child) (group : List Child) (used : Nat) :
    List Child → Except IndexError (List (Group Child))
  | [] => .ok [⟨first, group⟩]
  | child :: rest =>
    if maxPagePayload < used + entrySize child.1 then
      if group = [] then
        .error (.keyTooLarge child.1.length (maxPagePayload - headerSize - 12))
      else do
        let groups ← fillInternal child [] headerSize rest
        return ⟨first, group⟩ :: groups
    else fillInternal first (group ++ [child]) (used + entrySize child.1) rest

/-- `partition_internal`. -/
def partitionInternal : List Child → Except IndexError (List (Group Child))
  | [] => .ok []
  | child :: rest => fillInternal child [] headerSize rest

/-! ## the bulk build -/

/-- The internal node over a group of children. -/
def internalNode (level : Nat) (group : Group Child) : Node :=
  .internal level group.first.2 group.rest

/-- `reserve_page_ids`. -/
def reservePageIds (allocator : PageAllocator) (count : Nat) :
    Except IndexError (List PageId × PageAllocator) :=
  match allocator.reserve count with
  | (.ok ids, after) => .ok (ids, after)
  | (.error error, _) => .error (.storage error)

/-- The leaves of a plan; each has the page of the next. -/
def leafWrites : List (Group IndexEntry) → List PageId →
    Except IndexError (List PageWrite × List Child)
  | group :: groups, page :: pages => do
      let payload ← (Node.leaf group.toList pages.head?).encode
      let (writes, children) ← leafWrites groups pages
      return ((page, payload) :: writes, (group.first.key, page) :: children)
  | _, _ => .ok ([], [])

/-- The nodes of one level of a plan. -/
def levelWrites (level : Nat) : List (Group Child) → List PageId →
    Except IndexError (List PageWrite × List Child)
  | group :: groups, page :: pages => do
      let payload ← (internalNode level group).encode
      let (writes, parents) ← levelWrites level groups pages
      return ((page, payload) :: writes, (group.first.1, page) :: parents)
  | _, _ => .ok ([], [])

/-- The level loop of `plan`.  The level is a `u16`, `left` of them are left. -/
def buildLevels (left level : Nat) (allocator : PageAllocator) (children : List Child)
    (writes : List PageWrite) :
    Except IndexError (Nat × List Child × List PageWrite × PageAllocator) :=
  if children.length ≤ 1 then .ok (level, children, writes, allocator)
  else
    match left with
    | 0 => .error .entryCountOverflow
    | left + 1 => do
        let groups ← partitionInternal children
        let (pages, allocator) ← reservePageIds allocator groups.length
        let (nodes, parents) ← levelWrites (level + 1) groups pages
        buildLevels left (level + 1) allocator parents (writes ++ nodes)

/-- `BPlusTree::plan`. -/
def plan (allocator : PageAllocator) (entries : List IndexEntry) :
    Except IndexError (IndexBuildPlan × PageAllocator) := do
  validateEntries entries
  if entries = [] then return (⟨none, []⟩, allocator)
  else if 2 ^ 64 ≤ entries.length then .error .entryCountOverflow
  else
    let groups ← partitionLeaves entries
    let (pages, allocator) ← reservePageIds allocator groups.length
    let (leaves, children) ← leafWrites groups pages
    let (level, children, writes, allocator) ← buildLevels (2 ^ 16 - 1) 0 allocator children leaves
    if 2 ^ 16 ≤ level + 1 then .error .entryCountOverflow
    else
      return (⟨children.head?.map fun child => ⟨child.2, level + 1, entries.length⟩, writes⟩,
        allocator)

/-! ## reading -/

/-- The payloads of the pages. -/
abbrev PageTable := Std.TreeMap PageId Bytes

/-- The pages after a batch of writes. -/
def PageTable.write (pages : PageTable) (writes : List PageWrite) : PageTable :=
  writes.foldl (fun pages write => pages.insert write.1 write.2) pages

/-- `read_node`. -/
def readNode (pages : PageTable) (page : PageId) : Except IndexError Node :=
  match pages[page]? with
  | none => .error (corrupt page "referenced page does not exist")
  | some payload => Node.decode page payload

/-- The child that `partition_point` on the separators leads to, with the pages
before and after it. -/
def childFor (key : Bytes) (firstChild : PageId) (separators : List Child) :
    List Child × Child × List Child :=
  route key [] ([], firstChild) separators

/-- The loop of `get`. -/
def getAt (pages : PageTable) (key : Bytes) (level : Nat) (page : PageId) :
    Except IndexError (Option PageId) :=
  match readNode pages page with
  | .error error => .error error
  | .ok node =>
    if node.level ≠ level then
      .error (corrupt page s!"node level {node.level} does not match expected level {level}")
    else
      match node, level with
      | .leaf entries _, _ => .ok ((find IndexEntry.key key entries).map IndexEntry.value)
      | .internal _ firstChild separators, 0 =>
        .error (corrupt (childFor key firstChild separators).2.1.2
          "internal node below leaf level")
      | .internal _ firstChild separators, level + 1 =>
        getAt pages key level (childFor key firstChild separators).2.1.2

/-- `BPlusTree::get`. -/
def get (pages : PageTable) (root : IndexRoot) (key : Bytes) : Except IndexError (Option PageId) :=
  if root.height = 0 then .error (corrupt root.page "root height cannot be zero")
  else getAt pages key (root.height - 1) root.page

/-- `CursorFrame`. -/
structure CursorFrame where
  children : List PageId
  position : Nat
  childLevel : Nat
deriving DecidableEq, Repr

/-- A cursor at a leaf: its page, the frames above it, the pages visited. -/
structure Cursor where
  page : PageId
  frames : List CursorFrame
  visited : List PageId
deriving DecidableEq, Repr

/-- Where a descent goes on: with a key to its child, without one to the first. -/
def childAt (key : Option Bytes) (firstChild : PageId) (separators : List Child) :
    List Child × Child × List Child :=
  match key with
  | some key => childFor key firstChild separators
  | none => ([], ([], firstChild), separators)

/-- `descend_to_leaf`. -/
def descendToLeaf (pages : PageTable) (key : Option Bytes) (level : Nat) (cursor : Cursor) :
    Except IndexError Cursor :=
  if cursor.page ∈ cursor.visited then
    .error (corrupt cursor.page "index tree contains a page cycle")
  else
    match readNode pages cursor.page with
    | .error error => .error error
    | .ok node =>
      if node.level ≠ level then
        .error (corrupt cursor.page "node level does not match tree height")
      else
        match node, level with
        | .leaf _ _, _ => .ok { cursor with visited := cursor.page :: cursor.visited }
        | .internal _ _ _, 0 => .error (corrupt cursor.page "internal node below leaf level")
        | .internal _ firstChild separators, level + 1 =>
          let chosen := childAt key firstChild separators
          descendToLeaf pages key level {
            page := chosen.2.1.2
            frames := ⟨firstChild :: separators.map Prod.snd, chosen.1.length, level⟩ ::
              cursor.frames
            visited := cursor.page :: cursor.visited }

/-- `advance_to_next_leaf`. -/
def advanceToNextLeaf (pages : PageTable) (visited : List PageId) :
    List CursorFrame → Except IndexError (Option Cursor)
  | [] => .ok none
  | frame :: frames =>
    match frame.children[frame.position + 1]? with
    | some page =>
      (descendToLeaf pages none frame.childLevel {
        page
        frames := { frame with position := frame.position + 1 } :: frames
        visited }).map some
    | none => advanceToNextLeaf pages visited frames

/-- What a scan has collected. -/
structure Scan where
  result : List IndexEntry := []
  previous : Option Bytes := none
  finished : Bool := false
deriving DecidableEq, Repr

/-- The bounds and the limit of a scan. -/
structure ScanRange where
  start : Option Bytes
  stop : Option Bytes
  limit : Nat
deriving DecidableEq, Repr

/-- The loop of `range` over the entries of one leaf. -/
def scanLeaf (range : ScanRange) (page : PageId) (scan : Scan) :
    List IndexEntry → Except IndexError Scan
  | [] => .ok scan
  | entry :: rest =>
    if range.start.any fun start => decide (entry.key < start) then
      scanLeaf range page scan rest
    else if range.stop.any fun stop => decide (stop ≤ entry.key) then
      .ok { scan with finished := true }
    else if scan.previous.any fun previous => decide (entry.key ≤ previous) then
      .error (corrupt page "leaf chain is not strictly ordered")
    else
      let result := scan.result ++ [entry]
      if result.length = range.limit then .ok ⟨result, some entry.key, true⟩
      else scanLeaf range page ⟨result, some entry.key, false⟩ rest

/-- The loop of `range` over the leaves.  Every turn visits a page for the first time,
so the number of pages bounds the turns. -/
def scanLeaves (pages : PageTable) (range : ScanRange) :
    Nat → Cursor → Scan → Except IndexError (List IndexEntry)
  | 0, cursor, _ => .error (corrupt cursor.page "index tree contains a page cycle")
  | turns + 1, cursor, scan =>
    if range.limit ≤ scan.result.length then .ok scan.result
    else
      match readNode pages cursor.page with
      | .error error => .error error
      | .ok (.internal _ _ _) =>
        .error (corrupt cursor.page "tree cursor reached an internal node")
      | .ok (.leaf entries _) =>
        match scanLeaf range cursor.page scan entries with
        | .error error => .error error
        | .ok scan =>
          if scan.finished then .ok scan.result
          else
            match advanceToNextLeaf pages cursor.visited cursor.frames with
            | .error error => .error error
            | .ok none => .ok scan.result
            | .ok (some cursor) => scanLeaves pages range turns cursor scan

/-- `BPlusTree::range`. -/
def range (pages : PageTable) (root : IndexRoot) (start stop : Option Bytes) (limit : Nat) :
    Except IndexError (List IndexEntry) :=
  if limit = 0 ∨ (start.any fun start => stop.any fun stop => decide (stop ≤ start)) = true then
    .ok []
  else if root.height = 0 then .error (corrupt root.page "root height cannot be zero")
  else
    match descendToLeaf pages (some (start.getD [])) (root.height - 1) ⟨root.page, [], []⟩ with
    | .error error => .error error
    | .ok cursor => scanLeaves pages ⟨start, stop, limit⟩ (pages.size + 1) cursor {}

end QuantaDb.Index
