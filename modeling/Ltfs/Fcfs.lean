import Ltfs.Revalidate
import Ltfs.Fsraw.Read
import Ltfs.Fsraw.Truncate

/-!
# The scheduler that does not wait

The I/O scheduler `fcfs` hands every call on to `ltfs_fsops_raw.c`, and so does `ltfs_fsops.c` where
no scheduler is loaded. A write goes to the data partition at once and becomes an extent of the
file; a read looks the extents up.

* `State` — the volume and its block cache. The root of the index is what it says of all files.
* `Round` — a call starts again at `start:` after each revalidation that succeeds.
* `ltfsFsrawWrite` — write the data, then "save extent to the file".
* `ltfsFsrawRead` — the locks and the block cache around `fsrawReadAttempt`.
* `Call.exec`, `trace` — one call, and a sequence of calls with the answers they get.
-/

namespace Ltfs.Fcfs

/-- The part of `struct ltfs_volume` that the calls work on. -/
structure State (ι : Type) where
  vol : Volume (ι → Dentry)
  /-- The labels as they were read when the volume was mounted. -/
  label : Partition → List (Option (List UInt8))
  lastPos : TapeOffset
  lastSize : ℕ
  /-- `last_block` is not `NULL`. -/
  allocated : Bool
  lastBlock : ℕ → UInt8
  atimeDirty : Bool

/-- What a call asks for; `ι` are the files. -/
inductive Request (ι : Type) where
  | write (f : ι) (buf : List UInt8) (offset : ℕ)
  /-- `buf` is what the memory of the caller holds before. -/
  | read (f : ι) (buf : ℕ → UInt8) (count offset : ℕ)
  | truncate (f : ι) (length : ℕ)
  | getFilesize (f : ι)
  /-- Not a call of the scheduler: an index is written, for a sync or at the end. -/
  | writeIndex (p : Partition) (writePerm : Bool)

/-- What a call meets each time it comes to `start:`. -/
structure Round where
  /-- `ltfs_get_volume_lock`. -/
  lock : ℤ
  /-- `tape_device_lock`. -/
  deviceLock : ℤ

/-- A call, and what it meets. -/
structure Call (ι : Type) where
  request : Request ι
  rounds : List Round
  /-- `ltfs_get_volume_lock` behind these rounds. -/
  refusal : ErrorCode
  mem : ExtentMem
  /-- The `malloc` of `last_block` succeeds. -/
  cacheMem : Bool
  drive : ℕ → Answer

/-- What the caller gets. -/
inductive Reply where
  | code (ret : ℤ)
  | bytes (data : List UInt8)
  | size (n : ℕ)
deriving DecidableEq, Repr

section Fcfs

variable {ι : Type} [DecidableEq ι] (doc : Index (ι → Dentry) → ℕ → List UInt8)

/-- The dentry of a file is replaced. -/
def setFile (f : ι) (d : Dentry) (v : Volume (ι → Dentry)) : Volume (ι → Dentry) :=
  { v with index := { v.index with root := Function.update v.index.root f d } }

/-- An unexpected move of the cartridge calls for a revalidation that fails. -/
def noteMove (ret : ℤ) (v : Volume (ι → Dentry)) : Volume (ι → Dentry) :=
  if isUnexpectedMove ret then { v with reval := -ltfsRevalFailed } else v

/-- `ltfs_get_volume_lock`, for a call that does not start again. -/
def Call.lock (c : Call ι) : ℤ :=
  match c.rounds with
  | [] => c.refusal.1
  | r :: _ => r.lock

/-- `_ltfs_fsraw_write_data_unlocked` with the device lock, which it takes only if there is
something to write. -/
def writeDataLocked (r : Round) (p : Partition) (buf : List UInt8) (v : Volume (ι → Dentry)) :
    Except ℤ ℕ × Volume (ι → Dentry) :=
  if buf.length ≠ 0 ∧ r.deviceLock < 0 then (.error r.deviceLock, v)
  else writeDataUnlocked p buf 1 v

/-- "Save extent to the file". -/
def saveExtent (c : Call ι) (p : Partition) (f : ι) (buf : List UInt8) (offset start : ℕ)
    (v : Volume (ι → Dentry)) : ℤ × Volume (ι → Dentry) :=
  let r := addExtent v.blocksize c.mem ⟨⟨some p, start⟩, 0, buf.length, offset⟩ (v.index.root f)
  (r.1, setFile f r.2 { v with dirty := v.dirty || decide (r.1 = 0) })

/-- `ltfs_fsraw_write` from `start:` on. A call that finds the device fenced waits for the
revalidation of another thread; one that loses the medium revalidates it itself. -/
def ltfsFsrawWrite (label : Partition → List (Option (List UInt8))) (c : Call ι) (p : Partition)
    (f : ι) (buf : List UInt8) (offset : ℕ) :
    List Round → Volume (ι → Dentry) → ℤ × Volume (ι → Dentry)
  | [], v => (c.refusal.1, v)
  | r :: rounds, v =>
    if r.lock < 0 then
      (r.lock, v)
    else
      match writeDataLocked r p buf v with
      | (.error ret, v) =>
        if ret = -ltfsDeviceFenced ∨ needReval ret then
          let q := ltfsRevalidate label v
          if q.1 = 0 then ltfsFsrawWrite label c p f buf offset rounds q.2
          else (if ret = -ltfsDeviceFenced then q.2.reval else q.1, q.2)
        else
          (ret, noteMove ret v)
      | (.ok start, v) => saveExtent c p f buf offset start v

/-- `fcfs_write`: all data goes to the data partition. -/
def fcfsWrite (c : Call ι) (f : ι) (buf : List UInt8) (offset : ℕ) (st : State ι) : ℤ × State ι :=
  let r := ltfsFsrawWrite st.label c .dp f buf offset c.rounds st.vol
  (r.1, { st with vol := r.2 })

/-- `fcfs_truncate`. -/
def fcfsTruncate (c : Call ι) (f : ι) (length : ℕ) (v : Volume (ι → Dentry)) :
    ℤ × Volume (ι → Dentry) :=
  let r := fsrawTruncate c.lock length (v.index.root f)
  (r.1, setFile f r.2 { v with dirty := v.dirty || decide (r.1 = 0) })

/-- What a read works on, with the buffer of the caller. -/
def State.reader (st : State ι) (buf : ℕ → UInt8) : ReadState (ι → Dentry) where
  dev := st.vol.dev
  lastPos := st.lastPos
  lastSize := st.lastSize
  lastBlock := st.lastBlock
  buf := buf
  atimeDirty := st.atimeDirty

/-- The volume after a read. -/
def State.afterRead (st : State ι) (rs : ReadState (ι → Dentry)) : State ι where
  vol := { st.vol with dev := rs.dev }
  label := st.label
  lastPos := rs.lastPos
  lastSize := rs.lastSize
  allocated := true
  lastBlock := rs.lastBlock
  atimeDirty := rs.atimeDirty

/-- `ltfs_fsraw_read` from `start:` on. -/
def ltfsFsrawRead (c : Call ι) (f : ι) (count offset : ℕ) :
    List Round → (ℕ → UInt8) → State ι → Reply × State ι
  | [], _, st => (.code c.refusal.1, st)
  | r :: rounds, buf, st =>
    if r.lock < 0 then
      (.code r.lock, st)
    else if r.deviceLock = -ltfsDeviceFenced then
      -- another thread revalidates the medium
      let q := ltfsRevalidate st.label st.vol
      let st := { st with vol := q.2 }
      if q.1 = 0 then ltfsFsrawRead c f count offset rounds buf st else (.code q.2.reval, st)
    else if r.deviceLock < 0 then
      (.code r.deviceLock, st)
    else if ! st.allocated && ! c.cacheMem then
      (.code (-ltfsNoMemory), st)
    else
      match fsrawReadAttempt doc st.vol.blocksize (st.vol.index.root f) count offset
        (st.reader buf) with
      | (.ok n, rs) => (.bytes ((List.range n).map rs.buf), st.afterRead rs)
      | (.error ret, rs) =>
        let st := st.afterRead rs
        if needReval ret then
          let q := ltfsRevalidate st.label st.vol
          let st := { st with vol := q.2 }
          if q.1 = 0 then ltfsFsrawRead c f count offset rounds rs.buf st else (.code q.1, st)
        else
          (.code ret, { st with vol := noteMove ret st.vol })

/-- `fcfs_read`. -/
def fcfsRead (c : Call ι) (f : ι) (buf : ℕ → UInt8) (count offset : ℕ) (st : State ι) :
    Reply × State ι :=
  if count = 0 then (.bytes [], st)
  else ltfsFsrawRead doc c f count offset c.rounds buf st

/-- `fcfs_get_filesize`. -/
def fcfsGetFilesize (f : ι) (v : Volume (ι → Dentry)) : ℕ := (v.index.root f).size

/-- The drive answers a call. -/
def State.withDrive (drive : ℕ → Answer) (st : State ι) : State ι :=
  { st with vol := { st.vol with dev := { st.vol.dev with answers := drive } } }

/-- One call, with the drive that it meets. -/
def Call.exec (c : Call ι) (st : State ι) : Reply × State ι :=
  let st := st.withDrive c.drive
  match c.request with
  | .write f buf offset =>
    let r := fcfsWrite c f buf offset st
    (.code r.1, r.2)
  | .read f buf count offset => fcfsRead doc c f buf count offset st
  | .truncate f length =>
    let r := fcfsTruncate c f length st.vol
    (.code r.1, { st with vol := r.2 })
  | .getFilesize f => (.size (fcfsGetFilesize f st.vol), st)
  | .writeIndex p writePerm =>
    let r := writeIndex p writePerm st.vol
    (.code r.1, { st with vol := r.2 })

/-- The calls and the answers they get. -/
def trace : List (Call ι) → State ι → List (Call ι × Reply)
  | [], _ => []
  | c :: calls, st => (c, (c.exec doc st).1) :: trace calls (c.exec doc st).2

/-- The state after a sequence of calls. -/
def run (calls : List (Call ι)) (st : State ι) : State ι :=
  calls.foldl (fun st c => (c.exec doc st).2) st

end Fcfs

end Ltfs.Fcfs
