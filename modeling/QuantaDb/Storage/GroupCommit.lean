import QuantaDb.Storage.Store

/-!
# QuantaDb.Storage.GroupCommit

The commit coordinator (`group_commit.rs`): requests that queued up together
are logged as one group, and after each group a few dirty pages are flushed.

The worker thread is the only caller of the store apart from the checkpointer,
so a group is one call on the store.
-/

namespace QuantaDb

open Crash Prog

/-- `CommitRequest`, without the channel its answer goes to. -/
structure CommitRequest where
  writes : List PageWrite
  appends : List PageAppend
  durable : Bool
deriving DecidableEq, Repr

namespace DurableStore

/-- The answers of `execute_group`: each request gets the LSNs of its own
records, cut from the list it contributed to. -/
def answers (writeLsns appendLsns : List Nat) : List CommitRequest → List (List Nat)
  | [] => []
  | request :: rest =>
    (if request.appends = [] then writeLsns.take request.writes.length
      else appendLsns.take request.appends.length) ::
    answers (writeLsns.drop request.writes.length) (appendLsns.drop request.appends.length) rest

/-- `execute_group`: one `apply_batch` for all the requests, durable if any of
them is. -/
def executeGroup (order : HashOrder) (requests : List CommitRequest) :
    StoreM (List (List Nat)) := do
  let (writeLsns, appendLsns) ← applyBatch order (requests.flatMap (·.writes))
    (requests.flatMap (·.appends)) (requests.any (·.durable))
  pure (answers writeLsns appendLsns requests)

/-- `pace_flush`: the error of a flush, if any, is dropped. -/
def paceFlush (flushPagesPerBatch : Nat) : StoreM Unit := fun s =>
  if flushPagesPerBatch = 0 then ⟨[], s, .ok ()⟩
  else { flushSomeDirty flushPagesPerBatch s with result := .ok () }

end DurableStore

end QuantaDb
