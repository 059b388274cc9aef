import Ltfs.Error
import Ltfs.Lib.Segment

/-!
# Write requests of the unified I/O scheduler

`unified.c` keeps for every file a list of cached write requests. This module
has the requests and the three functions that edit them while a write walks the
list: `_unified_update_request`, `_unified_merge_requests` and
`_unified_insert_new_request`.

* `updateRequest` copies new bytes into a request and may fill it; a request
  that becomes full promotes `requestPartial` requests to `requestDp`
  (`promote`).
* `mergeRequests` moves bytes of a request into its predecessor and trims or
  removes it.
* `insertNewRequest` takes a cache block and makes a request of new bytes.

The functions report the queue membership updates they make as a log
(`QueueUpdate`), so that the list edits can be studied on their own.
-/

namespace Ltfs.Sched

open Lib Lib.Segment

/-- `enum request_state`. -/
inductive RequestState where
  /-- Not full; normally not written yet. -/
  | requestPartial
  /-- Ready to be written to the data partition. -/
  | requestDp
  /-- Already on the data partition, waiting to be written to the index partition. -/
  | requestIp
deriving DecidableEq, Repr

/-- `struct write_request`. `data` holds the first `count` bytes of the cache
block, `writeCache` names the block. -/
structure WriteRequest where
  offset : ℕ
  data : List UInt8
  state : RequestState
  writeCache : ℕ
deriving DecidableEq, Repr

namespace WriteRequest

def count (r : WriteRequest) : ℕ := r.data.length

/-- First file offset after the request. -/
def limit (r : WriteRequest) : ℕ := r.offset + r.count

instance : Segment WriteRequest where
  start := WriteRequest.offset
  len := WriteRequest.count

@[simp] theorem segment_start (r : WriteRequest) : Segment.start r = r.offset := rfl

@[simp] theorem segment_stop (r : WriteRequest) : Segment.stop r = r.limit := rfl

theorem covers_iff {r : WriteRequest} {x : ℕ} :
    Covers r x ↔ r.offset ≤ x ∧ x < r.limit := Iff.rfl

end WriteRequest

open RequestState

/-- One call of `_unified_update_queue_membership` with `all` unset. -/
structure QueueUpdate where
  add : Bool
  queue : RequestState
deriving DecidableEq, Repr

/-! ## Updating a request -/

/-- "Update an existing request with bytes from a new buffer": the number of bytes
taken and the new request. -/
def copyInto (cs : ℕ) (buf : List UInt8) (offset : ℕ) (req : WriteRequest) :
    ℕ × WriteRequest :=
  let copyOffset := offset - req.offset
  let copyCount := min buf.length (req.offset + cs - offset)
  (copyCount, { req with
    data := req.data.take copyOffset ++ buf.take copyCount
      ++ req.data.drop (copyOffset + copyCount) })

/-- A request that became full lets every `requestPartial` request up to `offset`
go to the data partition; `none` promotes nothing. -/
def promote : Option ℕ → WriteRequest → WriteRequest
  | none, r => r
  | some offset, r =>
    if r.state = requestPartial ∧ r.offset ≤ offset then { r with state := requestDp } else r

/-- Membership updates of a promotion, request by request. -/
def promoteLog (p : Option ℕ) (l : List WriteRequest) : List QueueUpdate :=
  l.flatMap fun r =>
    if (promote p r).state = r.state then []
    else [⟨false, requestPartial⟩, ⟨true, requestDp⟩]

/-- `_unified_update_request` on the request itself: bytes taken, the new request
(promoted as well) and the promotion the rest of the list undergoes. -/
def updateRequest (cs : ℕ) (buf : List UInt8) (offset : ℕ) (req : WriteRequest) :
    ℕ × WriteRequest × Option ℕ :=
  if buf.length = 0 then
    (0, req, none)
  else
    let r := copyInto cs buf offset req
    let p := if req.state = requestPartial ∧ r.2.count = cs then some offset else none
    (r.1, promote p r.2, p)

/-! ## Merging two requests -/

/-- Result of `_unified_merge_requests`. -/
structure MergeResult where
  /-- `2` if `src` was freed, `1` if it was modified, `0` otherwise. -/
  ret : ℕ
  dest : WriteRequest
  src : WriteRequest
  /-- Whether bytes were copied to `dest`. -/
  updated : Bool
  /-- Promotion caused by filling `dest`. -/
  promoted : Option ℕ
  /-- Membership updates for `src`, after those of the promotion. -/
  srcLog : List QueueUpdate
deriving DecidableEq, Repr

/-- "Truncate or remove the current request": its first `copyOffset` bytes are
`dest`'s now. -/
def trimSource (copyOffset : ℕ) (dest src : WriteRequest) (updated : Bool) (p : Option ℕ) :
    MergeResult :=
  if copyOffset > 0 then
    if copyOffset < src.count then
      let src' := { src with offset := src.offset + copyOffset, data := src.data.drop copyOffset }
      if src.state = requestDp then
        ⟨1, dest, { src' with state := requestPartial }, updated, p,
          [⟨false, requestDp⟩, ⟨true, requestPartial⟩]⟩
      else
        ⟨1, dest, src', updated, p, []⟩
    else
      ⟨2, dest, src, updated, p, [⟨false, src.state⟩]⟩
  else
    ⟨0, dest, src, updated, p, []⟩

/-- Bytes of `src` may only move to `dest` if both go to the same partition. -/
def sameTarget (dest src : WriteRequest) : Prop :=
  ¬ (dest.state ≠ src.state ∧ (dest.state = requestIp ∨ src.state = requestIp))

instance (dest src : WriteRequest) : Decidable (sameTarget dest src) :=
  inferInstanceAs (Decidable (¬ _))

/-- `_unified_merge_requests` for a `dest` that exists. -/
def mergeRequests (cs : ℕ) (dest src : WriteRequest) : MergeResult :=
  if src.offset > dest.limit then
    ⟨0, dest, src, false, none, []⟩
  else
    let copyOffset := dest.limit - src.offset
    if sameTarget dest src ∧ dest.count < cs ∧ src.count > copyOffset then
      let u := updateRequest cs (src.data.drop copyOffset) (src.offset + copyOffset) dest
      trimSource (copyOffset + u.1) u.2.1 (promote u.2.2 src) true u.2.2
    else
      trimSource copyOffset dest src false none

/-! ## Cache blocks -/

/-- The scheduler's view of the cache manager: blocks handed out, the next fresh
block name, the capacity, and the blocks given back so far, latest first. -/
structure CachePool where
  outstanding : List ℕ
  fresh : ℕ
  maxCapacity : ℕ
  freed : List ℕ
deriving DecidableEq, Repr

/-- `cache_manager_allocate_object`; `none` is cache pressure. -/
def CachePool.allocateObject (pool : CachePool) : Option (ℕ × CachePool) :=
  if pool.outstanding.length < pool.maxCapacity then
    some (pool.fresh,
      { pool with outstanding := pool.fresh :: pool.outstanding, fresh := pool.fresh + 1 })
  else
    none

/-- `cache_manager_free_object`. -/
def CachePool.freeObject (cache : ℕ) (pool : CachePool) : CachePool :=
  { pool with outstanding := pool.outstanding.erase cache, freed := cache :: pool.freed }

/-! ## The state of a running write -/

/-- What `unified_write` carries along while it edits the request list. The list
is split at the cursor: `passed`, the request `prev_req` points to, the requests
`skipped` since then, and (not part of this record) the requests from the cursor
on. `buf` are the `size` bytes still to be stored, at file offset `offset`. -/
structure WriteState where
  passed : List WriteRequest
  prev : Option WriteRequest
  skipped : List WriteRequest
  buf : List UInt8
  offset : ℕ
  /-- `spare_cache`. -/
  spare : Option ℕ
  /-- `dpr->file_size`. -/
  fileSize : ℕ
  pool : CachePool
  /-- Results of the coming `calloc` calls; an exhausted script succeeds. -/
  mem : List Bool
  /-- Membership updates so far. -/
  log : List QueueUpdate
deriving DecidableEq, Repr

namespace WriteState

/-- The requests before the cursor. -/
def before (w : WriteState) : List WriteRequest := w.passed ++ (w.prev.toList ++ w.skipped)

/-- The cursor moves on and `prev_req` points to `req`. -/
def advance (w : WriteState) (req : WriteRequest) : WriteState :=
  { w with passed := w.before, prev := some req, skipped := [] }

/-- All requests before the cursor are promoted. -/
def promoteBefore (w : WriteState) (p : Option ℕ) : WriteState :=
  { w with
    passed := w.passed.map (promote p)
    prev := w.prev.map (promote p)
    skipped := w.skipped.map (promote p) }

end WriteState

/-- Result of `_unified_insert_new_request`. -/
inductive InsertResult where
  /-- The new request; the caller links it into the list. -/
  | inserted (req : WriteRequest) (w : WriteState)
  /-- Cache pressure: the locks were released, the write has to start again. -/
  | wait (w : WriteState)
  /-- `calloc` failed. -/
  | noMemory (w : WriteState)

/-- The second half of `_unified_insert_new_request`, with a cache block at hand.
When `calloc` fails the block is given back but stays in `spare`. -/
def storeRequest (cs : ℕ) (buf : List UInt8) (offset : ℕ) (ip : Bool) (cache : ℕ)
    (w : WriteState) : InsertResult :=
  let data := buf.take cs
  if w.mem.headD true then
    let state := if ip then requestIp else if data.length = cs then requestDp else requestPartial
    let req : WriteRequest := ⟨offset, data, state, cache⟩
    .inserted req { w with
      spare := none
      mem := w.mem.tail
      fileSize := max w.fileSize req.limit
      log := w.log ++ [⟨true, state⟩] }
  else
    .noMemory { w with spare := some cache, mem := w.mem.tail, pool := w.pool.freeObject cache }

/-- `_unified_insert_new_request`. On success it reports all of `buf` as copied. -/
def insertNewRequest (cs : ℕ) (buf : List UInt8) (offset : ℕ) (ip : Bool) (w : WriteState) :
    InsertResult :=
  match w.spare with
  | some cache => storeRequest cs buf offset ip cache w
  | none =>
    match w.pool.allocateObject with
    | none => .wait w
    | some (cache, pool) => storeRequest cs buf offset ip cache { w with pool := pool }

/-- A request that left the list: its cache block becomes the spare one or goes
back to the pool. -/
def WriteState.release (w : WriteState) (req : WriteRequest) : WriteState :=
  match w.spare with
  | none => { w with spare := some req.writeCache }
  | some _ => { w with pool := w.pool.freeObject req.writeCache }

end Ltfs.Sched
