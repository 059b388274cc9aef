import Ltfs.Extent
import Ltfs.Sched.Write

/-!
# State of the unified scheduler

`Unified` is `struct unified_data` together with the `dentry_priv` of every
dentry; dentries are numbered. Everything below the scheduler, from the raw file
operations of libltfs to the tape, is the interface `Libltfs` over an arbitrary
volume state: the scheduler only ever calls these functions.

* `updateQueueMembership` — the queues and their counters.
* `getDentryPriv`, `setWriteIp`, `unsetWriteIp`, `handleWriteError`,
  `freeDentryPrivConditional` — the helpers that every operation uses.
* `writeAttempt` — `unified_write` from `write_start` up to its return or to the
  next `goto write_start`.
-/

namespace Ltfs.Sched

open RequestState

/-- `struct dentry_priv`. -/
structure DentryPriv where
  fileSize : ℕ
  writeIp : Bool
  writeError : ℤ
  inWorkingSet : ℕ
  inDpQueue : ℕ
  inIpQueue : ℕ
  requests : List WriteRequest
  altExtentlist : List ExtentInfo
deriving DecidableEq, Repr

/-- What the scheduler calls in libltfs. Functions that can fail return a negative
code. -/
structure Libltfs (V : Type) where
  /-- `vol->label->blocksize`. -/
  blocksize : V → ℕ
  /-- `d->size`, `d->matches_name_criteria`, `d->deleted`, `d->numhandles`. -/
  dentrySize : ℕ → V → ℕ
  matchesNameCriteria : ℕ → V → Bool
  deleted : ℕ → V → Bool
  numhandles : ℕ → V → ℕ
  /-- `index_criteria_get_max_filesize`. -/
  maxFilesize : V → ℕ
  /-- `ltfs_get_tape_readonly`, `ltfs_get_partition_readonly`. -/
  tapeReadonly : V → ℤ
  partitionReadonly : Partition → V → ℤ
  /-- `ltfs_get_volume_lock` for reading, released again at once. -/
  getVolumeLock : V → ℤ × V
  /-- `ltfs_fsraw_read` of `size` bytes at `offset`. -/
  fsrawRead : ℕ → ℕ → ℕ → V → Except ℤ (List UInt8) × V
  /-- `ltfs_fsraw_write` to the data partition. -/
  fsrawWrite : ℕ → List UInt8 → ℕ → V → ℤ × V
  /-- `ltfs_fsraw_write_data` to the index partition; gives the start block. -/
  fsrawWriteData : List UInt8 → V → Except ℤ ℕ × V
  /-- `ltfs_fsraw_add_extent`. -/
  fsrawAddExtent : ℕ → ExtentInfo → V → ℤ × V
  /-- `ltfs_fsraw_truncate`. -/
  fsrawTruncate : ℕ → ℕ → V → ℤ × V
  /-- `ltfs_fsraw_get_dentry`, `ltfs_fsraw_put_dentry`, `ltfs_fsraw_close`. -/
  fsrawGetDentry : ℕ → V → V
  fsrawPutDentry : ℕ → V → V
  fsrawClose : ℕ → V → V
  /-- `tape_set_cart_volume_lock_status`. -/
  setCartVolumeLockStatus : V → ℤ × V
  /-- `_unified_write_index_after_perm`, which only works on the volume. -/
  writeIndexAfterPerm : ℤ → V → V

/-- `struct unified_data`, with the `iosched_priv` of every dentry. -/
structure Unified (V : Type) where
  cacheSize : ℕ
  workingSet : List ℕ
  dpQueue : List ℕ
  ipQueue : List ℕ
  extQueue : List ℕ
  wsCount : ℤ
  dpCount : ℤ
  ipCount : ℤ
  wsRequestCount : ℤ
  dpRequestCount : ℤ
  ipRequestCount : ℤ
  pool : CachePool
  /-- Results of the coming `calloc` and `malloc` calls of the scheduler. -/
  mem : List Bool
  priv : ℕ → Option DentryPriv
  vol : V

/-- A scheduler state with one `dentry_priv` at hand. While an operation works
on the list, the requests of `dpr` are only as current as the operation keeps
them. -/
structure Ctx (V : Type) where
  u : Unified V
  dpr : DentryPriv

section Helpers

variable {V : Type}

/-- Write the `dentry_priv` back. -/
def Unified.setPriv (u : Unified V) (d : ℕ) (dpr : Option DentryPriv) : Unified V :=
  { u with priv := fun e => if e = d then dpr else u.priv e }

def Ctx.store (c : Ctx V) (d : ℕ) : Unified V := c.u.setPriv d (some c.dpr)

/-- The result of the next allocation. -/
def Unified.allocates (u : Unified V) : Bool × Unified V :=
  (u.mem.headD true, { u with mem := u.mem.tail })

/-! ## Queues -/

/-- `_unified_update_queue_membership`. -/
def updateQueueMembership (add all : Bool) (queue : RequestState) (d : ℕ) (c : Ctx V) : Ctx V :=
  let u := c.u
  let dpr := c.dpr
  match queue with
  | requestPartial =>
    if add then
      { u := { u with
          workingSet := if dpr.inWorkingSet = 0 then u.workingSet ++ [d] else u.workingSet
          wsCount := if dpr.inWorkingSet = 0 then u.wsCount + 1 else u.wsCount
          wsRequestCount := u.wsRequestCount + 1 }
        dpr := { dpr with inWorkingSet := dpr.inWorkingSet + 1 } }
    else
      let leaves := (all ∧ dpr.inWorkingSet ≠ 0) ∨ dpr.inWorkingSet = 1
      { u := { u with
          workingSet := if leaves then u.workingSet.erase d else u.workingSet
          wsCount := if leaves then u.wsCount - 1 else u.wsCount
          wsRequestCount := if all then u.wsRequestCount - dpr.inWorkingSet
            else if dpr.inWorkingSet ≠ 0 then u.wsRequestCount - 1 else u.wsRequestCount }
        dpr := { dpr with inWorkingSet := if all then 0 else dpr.inWorkingSet - 1 } }
  | requestDp =>
    if add then
      { u := { u with
          dpQueue := if dpr.inDpQueue = 0 then u.dpQueue ++ [d] else u.dpQueue
          dpCount := if dpr.inDpQueue = 0 then u.dpCount + 1 else u.dpCount
          dpRequestCount := if dpr.writeIp then u.dpRequestCount else u.dpRequestCount + 1 }
        dpr := { dpr with inDpQueue := dpr.inDpQueue + 1 } }
    else
      let leaves := (all ∧ dpr.inDpQueue ≠ 0) ∨ dpr.inDpQueue = 1
      { u := { u with
          dpQueue := if leaves then u.dpQueue.erase d else u.dpQueue
          dpCount := if leaves then u.dpCount - 1 else u.dpCount
          dpRequestCount := if dpr.writeIp then u.dpRequestCount
            else if all then u.dpRequestCount - dpr.inDpQueue
            else if dpr.inDpQueue ≠ 0 then u.dpRequestCount - 1 else u.dpRequestCount }
        dpr := { dpr with inDpQueue := if all then 0 else dpr.inDpQueue - 1 } }
  | requestIp =>
    if add then
      { u := { u with
          ipQueue := if dpr.inIpQueue = 0 then u.ipQueue ++ [d] else u.ipQueue
          ipCount := if dpr.inIpQueue = 0 then u.ipCount + 1 else u.ipCount
          ipRequestCount := u.ipRequestCount + 1 }
        dpr := { dpr with inIpQueue := dpr.inIpQueue + 1 } }
    else
      let leaves := (all ∧ dpr.inIpQueue ≠ 0) ∨ dpr.inIpQueue = 1
      { u := { u with
          ipQueue := if leaves then u.ipQueue.erase d else u.ipQueue
          ipCount := if leaves then u.ipCount - 1 else u.ipCount
          ipRequestCount := if all then u.ipRequestCount - dpr.inIpQueue
            else if dpr.inIpQueue ≠ 0 then u.ipRequestCount - 1 else u.ipRequestCount }
        dpr := { dpr with inIpQueue := if all then 0 else dpr.inIpQueue - 1 } }

/-- The membership updates of a list edit, in their order. -/
def applyLog (log : List QueueUpdate) (d : ℕ) (c : Ctx V) : Ctx V :=
  log.foldl (fun c q => updateQueueMembership q.add false q.queue d c) c

/-- `_unified_free_request`. -/
def freeRequest (req : WriteRequest) (u : Unified V) : Unified V :=
  { u with pool := u.pool.freeObject req.writeCache }

/-- The requests of a list, one after the other. -/
def freeRequests (l : List WriteRequest) (u : Unified V) : Unified V :=
  l.foldl (fun u r => freeRequest r u) u

/-! ## Error and placement helpers -/

/-- `_unified_get_write_error`: read the code and reset it. -/
def getWriteError (dpr : DentryPriv) : ℤ × DentryPriv :=
  (dpr.writeError, { dpr with writeError := 0 })

/-- `_unified_clear_alt_extentlist` without saving. -/
def dropAltExtentlist (d : ℕ) (c : Ctx V) : Ctx V :=
  if c.dpr.altExtentlist.isEmpty then
    c
  else
    { u := { c.u with extQueue := c.u.extQueue.erase d }
      dpr := { c.dpr with altExtentlist := [] } }

/-- `_unified_set_write_ip`. -/
def setWriteIp (c : Ctx V) : Ctx V :=
  { u := { c.u with dpRequestCount := c.u.dpRequestCount - c.dpr.inDpQueue }
    dpr := { c.dpr with writeIp := true } }

/-- `_unified_unset_write_ip`. -/
def unsetWriteIp (d : ℕ) (c : Ctx V) : Ctx V :=
  let c := { c with dpr := { c.dpr with writeIp := false } }
  let c := if c.dpr.inIpQueue ≠ 0 then
      let gone := c.dpr.requests.filter fun r => decide (r.state = requestIp)
      updateQueueMembership false true requestIp d
        { u := freeRequests gone c.u
          dpr := { c.dpr with
            requests := c.dpr.requests.filter fun r => decide (r.state ≠ requestIp) } }
    else c
  let c := { c with u := { c.u with dpRequestCount := c.u.dpRequestCount + c.dpr.inDpQueue } }
  dropAltExtentlist d c

variable (L : Libltfs V)

/-- "Clear requests for the partition that experienced the error", and for the
other one if the file system is read-only or that partition is full: the flags
`(clear_dp, clear_ip)`. -/
def clearFlags (writeRet : ℤ) (failed : WriteRequest) (vol : V) : Bool × Bool :=
  let hard := writeRet ≠ -ltfsNoSpace ∧ writeRet ≠ -ltfsLessSpace
  if failed.state = requestIp then
    (decide (hard ∨ L.partitionReadonly .dp vol < 0), true)
  else
    (true, decide (hard ∨ L.partitionReadonly .ip vol < 0))

/-- A request that error handling with these flags leaves in the list. -/
def keepsRequest (clear : Bool × Bool) (r : WriteRequest) : Bool :=
  if r.state = requestIp then ! clear.2 else ! clear.1

/-- `_unified_handle_write_error`. -/
def handleWriteError (writeRet : ℤ) (failed : WriteRequest) (d : ℕ) (c : Ctx V) : Ctx V :=
  let soft := failed.state = requestIp ∧ (writeRet = -ltfsNoSpace ∨ writeRet = -ltfsLessSpace)
  let c := if ¬ soft ∧ c.dpr.writeError = 0 then
      { c with dpr := { c.dpr with writeError := writeRet } }
    else c
  let clear := clearFlags L writeRet failed c.u.vol
  let c := { c with dpr := { c.dpr with fileSize := L.dentrySize d c.u.vol } }
  if c.dpr.requests.isEmpty then
    c
  else
    let c := if clear.1 then
        updateQueueMembership false true requestPartial d
          (updateQueueMembership false true requestDp d c)
      else c
    let c := if clear.2 then updateQueueMembership false true requestIp d c else c
    let kept := c.dpr.requests.filter (keepsRequest clear)
    let gone := c.dpr.requests.filter fun r => ! keepsRequest clear r
    { u := freeRequests gone c.u
      dpr := { c.dpr with
        requests := kept
        fileSize := kept.foldl (fun n r => max n r.limit) c.dpr.fileSize } }

/-- `_unified_get_dentry_priv`; `none` if the allocation failed. -/
def getDentryPriv (d : ℕ) (u : Unified V) : Option DentryPriv × Unified V :=
  match u.priv d with
  | some dpr => (some dpr, u)
  | none =>
    let a := u.allocates
    if ! a.1 then
      (none, a.2)
    else
      let size := L.dentrySize d u.vol
      let max := L.maxFilesize u.vol
      let dpr : DentryPriv := {
        fileSize := size
        writeIp := L.matchesNameCriteria d u.vol && ! (decide (max = 0 ∨ size > max))
        writeError := 0
        inWorkingSet := 0
        inDpQueue := 0
        inIpQueue := 0
        requests := []
        altExtentlist := [] }
      (some dpr, { a.2.setPriv d (some dpr) with vol := L.fsrawGetDentry d u.vol })

/-- `_unified_free_dentry_priv_conditional`. -/
def freeDentryPrivConditional (d targetHandles : ℕ) (u : Unified V) : Unified V :=
  match u.priv d with
  | none => u
  | some dpr =>
    if L.numhandles d u.vol ≤ targetHandles ∧ dpr.requests.isEmpty ∧ dpr.altExtentlist.isEmpty then
      { u.setPriv d none with vol := L.fsrawPutDentry d u.vol }
    else
      u

/-! ## Writing -/

/-- What a call of `unified_write` still has to do: bytes, offset, the spare cache
block it got while it waited, and whether the medium was checked already. -/
structure WriteCall where
  buf : List UInt8
  offset : ℕ
  spare : Option ℕ
  checkedReadonly : Bool
deriving DecidableEq, Repr

/-- How an attempt ends. -/
inductive WriteReturn where
  /-- The call returned. -/
  | returned (ret : ℤ)
  /-- Cache pressure: the call waits for a cache block and goes on with the rest. -/
  | restart (call : WriteCall)
  /-- The model ran out of fuel. -/
  | diverges
deriving DecidableEq, Repr

/-- "Update data placement based on file size": whether the write takes the file
off the index partition. -/
def leavesIp (call : WriteCall) (dpr : DentryPriv) (vol : V) : Bool :=
  let readonly := L.partitionReadonly .ip vol
  dpr.writeIp && decide (call.offset + call.buf.length > L.maxFilesize vol ∨
    readonly = -ltfsNoSpace ∨ readonly = -ltfsLessSpace)

/-- The placement update at the beginning of an attempt. -/
def placeWrite (d : ℕ) (call : WriteCall) (c : Ctx V) : Ctx V :=
  if leavesIp L call c.dpr c.u.vol then unsetWriteIp d c else c

/-- Put the result of the list walk back into the scheduler state. -/
def finishWrite (d : ℕ) (r : WriteResult) (c : Ctx V) : Ctx V :=
  applyLog r.state.log d
    { u := { c.u with pool := r.state.pool, mem := r.state.mem }
      dpr := { c.dpr with requests := r.requests, fileSize := r.state.fileSize } }

/-- A spare cache block that is left over goes back to the pool. -/
def freeSpare (spare : Option ℕ) (u : Unified V) : Unified V :=
  match spare with
  | some cache => { u with pool := u.pool.freeObject cache }
  | none => u

/-- `unified_write` from `write_start` up to its return or the next
`goto write_start`. `size` is what the call returns on success. -/
def writeAttempt (d size : ℕ) (call : WriteCall) (u : Unified V) : WriteReturn × Unified V :=
  match getDentryPriv L d u with
  | (none, u) => (.returned (-ltfsNoMemory), freeSpare call.spare u)
  | (some dpr, u) =>
    let e := getWriteError dpr
    if e.1 < 0 then
      (.returned e.1, u.setPriv d (some e.2))
    else if ¬ call.checkedReadonly ∧ L.tapeReadonly u.vol < 0 then
      (.returned (L.tapeReadonly u.vol), u.setPriv d (some e.2))
    else
      let c := placeWrite L d call ⟨u, e.2⟩
      let w : WriteState := {
        passed := []
        prev := none
        skipped := []
        buf := call.buf
        offset := call.offset
        spare := call.spare
        fileSize := c.dpr.fileSize
        pool := c.u.pool
        mem := c.u.mem
        log := [] }
      let r := doAppend c.u.cacheSize (appendFuel c.dpr.requests) c.dpr.requests w
      let u := (finishWrite d r c).store d
      match r.outcome with
      | .done => (.returned size, freeSpare r.state.spare { u with vol := (L.getVolumeLock u.vol).2 })
      | .noMemory => (.returned (-ltfsNoMemory), freeSpare r.state.spare u)
      | .restart =>
        (.restart ⟨r.state.buf, r.state.offset, r.state.spare, true⟩, u)
      | .diverges => (.diverges, u)

/-- `unified_write` up to its return or its first wait. -/
def unifiedWrite (d : ℕ) (buf : List UInt8) (offset : ℕ) (u : Unified V) :
    WriteReturn × Unified V :=
  if buf.length = 0 then
    (.returned 0, u)
  else
    let l := L.getVolumeLock u.vol
    if l.1 < 0 then
      (.returned l.1, { u with vol := l.2 })
    else
      writeAttempt L d buf.length ⟨buf, offset, none, false⟩ { u with vol := l.2 }

end Helpers

end Ltfs.Sched
