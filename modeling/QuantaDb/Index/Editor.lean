import QuantaDb.Index.Build

/-!
# QuantaDb.Index.Editor

Copy-on-write edits of the tree (`Editor` in `tree.rs`).

An edit goes down to a leaf, and every node on the way back is written again on new
pages, which are kept in an overlay over the stored pages until the plan is made.
The frames of the descent are the calls of the recursion `Editor.edit`.
-/

namespace QuantaDb.Index

open Ordered

/-- `IndexMutation`. -/
inductive IndexMutation where
  | upsert (entry : IndexEntry)
  | delete (key : Bytes)
deriving DecidableEq, Repr

/-- `Editor`, over the stored pages. -/
structure Editor where
  allocator : PageAllocator
  root : Option IndexRoot
  overlay : Std.TreeMap PageId Node := ∅

/-- `entry_delta`. -/
inductive Delta where
  | removed
  | same
  | added
deriving DecidableEq, Repr

/-- What an edit puts in the place of a node: the children for its parent, the change of
the count, and whether the root is gone. -/
structure Edited where
  replacement : List Child
  delta : Delta
  collapsed : Bool := false
deriving DecidableEq, Repr

/-- The key and the new value of a mutation. -/
def IndexMutation.target : IndexMutation → Bytes × Option PageId
  | upsert entry => (entry.key, some entry.value)
  | delete key => (key, none)

/-- Only an upsert is checked. -/
def IndexMutation.validate : IndexMutation → Except IndexError Unit
  | upsert entry => validateEntries [entry]
  | delete _ => .ok ()

/-- The entries of a leaf after a mutation, if they change. -/
def editLeaf (key : Bytes) (value : Option PageId) (entries : List IndexEntry) :
    Option (List IndexEntry × Delta) :=
  match above IndexEntry.key key entries, value with
  | entry :: after, some value =>
    if entry.key = key then
      some (below IndexEntry.key key entries ++ ⟨entry.key, value⟩ :: after, .same)
    else some (below IndexEntry.key key entries ++ ⟨key, value⟩ :: entry :: after, .added)
  | [], some value => some (below IndexEntry.key key entries ++ [⟨key, value⟩], .added)
  | entry :: after, none =>
    if entry.key = key then some (below IndexEntry.key key entries ++ after, .removed) else none
  | [], none => none

namespace Editor

/-- `Editor::read`. -/
def read (pages : PageTable) (editor : Editor) (page : PageId) : Except IndexError Node :=
  match editor.overlay[page]? with
  | some node => .ok node
  | none => readNode pages page

/-- `Editor::allocate`. -/
def allocate (editor : Editor) (node : Node) : Except IndexError (PageId × Editor) := do
  let (ids, allocator) ← reservePageIds editor.allocator 1
  match ids with
  | [] => .error .entryCountOverflow
  | page :: _ => .ok (page, { editor with allocator, overlay := editor.overlay.insert page node })

/-- Nodes with their first keys, one after another. -/
def allocateAll (editor : Editor) : List (Bytes × Node) → Except IndexError (List Child × Editor)
  | [] => .ok ([], editor)
  | node :: nodes => do
      let (page, editor) ← editor.allocate node.2
      let (children, editor) ← editor.allocateAll nodes
      return ((node.1, page) :: children, editor)

/-- `Editor::make_leaves`. -/
def makeLeaves (editor : Editor) (entries : List IndexEntry) :
    Except IndexError (List Child × Editor) := do
  let groups ← partitionLeaves entries
  editor.allocateAll (groups.map fun group => (group.first.key, .leaf group.toList none))

/-- `Editor::make_internal_level`. -/
def makeInternalLevel (editor : Editor) (level : Nat) (children : List Child) :
    Except IndexError (List Child × Editor) := do
  let groups ← partitionInternal children
  editor.allocateAll (groups.map fun group => (group.first.1, internalNode level group))

/-- `Editor::first_key`.  A tree has fewer than `2 ^ 16` levels. -/
def firstKey (pages : PageTable) (editor : Editor) :
    Nat → List PageId → PageId → Except IndexError Bytes
  | 0, _, page => .error (corrupt page "index tree contains a page cycle")
  | left + 1, visited, page =>
    if page ∈ visited then .error (corrupt page "index tree contains a page cycle")
    else
      match editor.read pages page with
      | .error error => .error error
      | .ok (.leaf [] _) => .error (corrupt page "reachable leaf is empty")
      | .ok (.leaf (entry :: _) _) => .ok entry.key
      | .ok (.internal _ firstChild _) => editor.firstKey pages left (page :: visited) firstChild

/-- The children of a node on the way back up. -/
def rebuild (editor : Editor) (isRoot : Bool) (level : Nat) (children : List Child)
    (delta : Delta) : Except IndexError (Option Edited × Editor) :=
  if children = [] then .ok (some ⟨[], delta, false⟩, editor)
  else if isRoot && children.length == 1 then .ok (some ⟨children, delta, true⟩, editor)
  else do
    let (replacement, editor) ← editor.makeInternalLevel level children
    return (some ⟨replacement, delta, false⟩, editor)

/-- The descent of `apply` to a leaf and the way back, below a node of a level.  No result
stands for a deletion that finds nothing. -/
def edit (pages : PageTable) (key : Bytes) (value : Option PageId) (editor : Editor)
    (isRoot : Bool) (level : Nat) (page : PageId) (firstKey : Bytes) :
    Except IndexError (Option Edited × Editor) :=
  match editor.read pages page with
  | .error error => .error error
  | .ok node =>
    if node.level ≠ level then .error (corrupt page "node level does not match tree height")
    else
      match node, level with
      | .leaf entries _, _ =>
        match editLeaf key value entries with
        | none => .ok (none, editor)
        | some (entries, delta) => do
            let (replacement, editor) ← editor.makeLeaves entries
            return (some ⟨replacement, delta, false⟩, editor)
      | .internal _ firstChild separators, 0 =>
        .error (corrupt (route key [] (firstKey, firstChild) separators).2.1.2
          "internal node below leaf level")
      | .internal nodeLevel firstChild separators, level + 1 =>
        let chosen := route key [] (firstKey, firstChild) separators
        match editor.edit pages key value false level chosen.2.1.2 chosen.2.1.1 with
        | .error error => .error error
        | .ok (none, editor) => .ok (none, editor)
        | .ok (some edited, editor) =>
          editor.rebuild isRoot nodeLevel (chosen.1 ++ edited.replacement ++ chosen.2.2)
            edited.delta

/-- The count of a root after an edit. -/
def countEntries (root : IndexRoot) : Delta → Except IndexError Nat
  | .removed =>
    if root.entries = 0 then .error (corrupt root.page "root entry count underflow")
    else .ok (root.entries - 1)
  | .same => .ok root.entries
  | .added =>
    if 2 ^ 64 ≤ root.entries + 1 then .error .entryCountOverflow else .ok (root.entries + 1)

/-- The new root of `apply`, in one step from all its children. -/
def setRoot (editor : Editor) (height entries : Nat) : List Child → Except IndexError Editor
  | [] => .ok { editor with root := none }
  | [child] => .ok { editor with root := some ⟨child.2, height, entries⟩ }
  | first :: second :: rest => do
      let (page, editor) ← editor.allocate (internalNode height ⟨first, second :: rest⟩)
      if 2 ^ 16 ≤ height + 1 then .error .entryCountOverflow
      else return { editor with root := some ⟨page, height + 1, entries⟩ }

/-- `Editor::apply` on a tree that has a root. -/
def applyAt (pages : PageTable) (editor : Editor) (root : IndexRoot) (key : Bytes)
    (value : Option PageId) : Except IndexError Editor :=
  if root.height = 0 then .error (corrupt root.page "root height cannot be zero")
  else do
    let firstKey ← editor.firstKey pages (2 ^ 16) [] root.page
    let (edited, editor) ←
      editor.edit pages key value true (root.height - 1) root.page firstKey
    match edited with
    | none => return editor
    | some edited =>
      let entries ← countEntries root edited.delta
      editor.setRoot (if edited.collapsed then root.height - 1 else root.height) entries
        edited.replacement

/-- `Editor::apply`. -/
def apply (pages : PageTable) (editor : Editor) (mutation : IndexMutation) :
    Except IndexError Editor := do
  mutation.validate
  match editor.root with
  | some root => editor.applyAt pages root mutation.target.1 mutation.target.2
  | none =>
    match mutation.target.2 with
    | none => return editor
    | some value =>
      let (page, editor) ← editor.allocate (.leaf [⟨mutation.target.1, value⟩] none)
      return { editor with root := some ⟨page, 1, 1⟩ }

/-- The walk of `finish` over the new nodes, last child first as the stack pops them. -/
def collect (editor : Editor) : Nat → List PageId → PageId → Except IndexError (List PageId)
  | 0, _, page => .error (corrupt page "copy-on-write plan contains a page cycle")
  | left + 1, reached, page =>
    if page ∈ reached then .error (corrupt page "copy-on-write plan contains a page cycle")
    else
      match editor.overlay[page]? with
      | some (.internal _ firstChild separators) =>
        (firstChild :: separators.map Prod.snd).reverse.foldlM
          (fun reached child => editor.collect left reached child) (page :: reached)
      | _ => .ok (page :: reached)

/-- The page write of a new node. -/
def encodeNode (entry : PageId × Node) : Except IndexError PageWrite := do
  let payload ← entry.2.encode
  return (entry.1, payload)

/-- The pages that the root reaches through new nodes. -/
def reachable (editor : Editor) : Except IndexError (List PageId) :=
  match editor.root with
  | none => .ok []
  | some root => editor.collect (2 ^ 16) [] root.page

/-- `Editor::finish`: the new nodes that the root reaches, by page. -/
def finish (editor : Editor) : Except IndexError IndexBuildPlan := do
  let reached ← editor.reachable
  let writes ← (editor.overlay.toList.filter fun entry => entry.1 ∈ reached).mapM encodeNode
  return ⟨editor.root, writes⟩

end Editor

/-- `BPlusTree::edit_plan`. -/
def editPlan (pages : PageTable) (allocator : PageAllocator) (root : Option IndexRoot)
    (mutations : List IndexMutation) : Except IndexError (IndexBuildPlan × PageAllocator) := do
  let editor ← mutations.foldlM (Editor.apply pages) { allocator, root }
  let plan ← editor.finish
  return (plan, editor.allocator)

end QuantaDb.Index
