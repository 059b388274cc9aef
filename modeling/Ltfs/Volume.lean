import Ltfs.Tape

/-!
# Indexes and data on a volume

`ltfs_write_index` (for full indexes) and `_ltfs_fsraw_write_data_unlocked`, the
only functions that write to a mounted volume. An index is a file mark, the
blocks of its XML document and another file mark; its self pointer names the
first block of the document, its back pointer the last index of the data
partition before it.

Before a partition gets data, the other one must end in an index
(`writeIndexConditional`), and before the index partition gets a new index, so
must the data partition: this is the nested write in `writeIndex`.
-/

namespace Ltfs

/-- The part of `struct ltfs_volume` that writing needs. -/
structure Volume (T : Type) where
  dev : Device T
  /-- The index in memory. -/
  index : Index T
  /-- `ltfs_is_dirty`. -/
  dirty : Bool
  ipIndexFileEnd : Bool
  dpIndexFileEnd : Bool
  /-- `ip_coh` and `dp_coh`. -/
  coherency : Partition → Coherency
  /-- Volume UUID of the label; `0` is the empty string. -/
  uuid : ℕ
  blocksize : ℕ
  /-- The blocks an index takes on tape, less the first one. -/
  moreBlocks : Index T → ℕ
  lockStatus : VolumeLock
  reval : ℤ
  /-- The indexes that have been written completely so far, in order. -/
  written : List (Index T)

section Volume

variable {T : Type}

/-! ## Cartridge memory -/

/-- `tape_get_cart_volume_lock_status`. -/
def getCartVolumeLockStatus (dev : Device T) : Except ℤ VolumeLock × Device T :=
  match dev.answer with
  | .ok _ _ => (.ok dev.volumeLock, dev.tick)
  | .error code _ =>
    if code.1 = -edevInvalidFieldCdb then (.ok .unlocked, dev.tick) else (.error code, dev.tick)

/-- The lock status is known to be `s`. -/
def lockIs (cur : Except ℤ VolumeLock) (s : VolumeLock) : Bool :=
  match cur with
  | .ok s' => decide (s' = s)
  | .error _ => false

/-- `tape_set_cart_volume_lock_status`, for the states of a permanent write error. -/
def setCartVolumeLockStatus (status : VolumeLock) (v : Volume T) : ℤ × Volume T :=
  let cur := getCartVolumeLockStatus v.dev
  let v := { v with dev := cur.2 }
  if lockIs cur.1 status then
    (0, v)
  else if lockIs cur.1 .permLocked then
    (-ltfsUnexpectedValue, v)
  else match v.dev.answer with
    | .error code _ => (code, { v with dev := v.dev.tick })
    | .ok _ _ =>
      (0, { v with dev := { v.dev.tick with volumeLock := status }, lockStatus := status })

/-- The partition ends in an index. -/
def Volume.endsInIndex (v : Volume T) : Partition → Bool
  | .ip => v.ipIndexFileEnd
  | .dp => v.dpIndexFileEnd

def Volume.setEndsInIndex (v : Volume T) (p : Partition) (b : Bool) : Volume T :=
  match p with
  | .ip => { v with ipIndexFileEnd := b }
  | .dp => { v with dpIndexFileEnd := b }

/-- The coherency information of one partition, in memory and in the cartridge. -/
def updateCoherencyOf (p : Partition) (vcr : ℕ) (v : Volume T) : Volume T :=
  if ! v.endsInIndex p then
    v
  else
    let old := v.coherency p
    let here := v.index.selfptr.partition = some p
    let coh : Coherency := {
      volumeChangeRef := vcr
      count := if here then v.index.generation else old.count
      setId := if here then v.index.selfptr.block else old.setId
      version := 1
      uuid := if old.uuid = 0 then v.uuid else old.uuid }
    let dev := match v.dev.answer with
      | .ok _ _ => { v.dev.tick with coherency := Function.update v.dev.coherency p coh }
      | .error _ _ => v.dev.tick
    { v with dev := dev, coherency := Function.update v.coherency p coh }

/-- `UINT64_MAX`, the unusable volume change reference. -/
def invalidVcr : ℕ := 2 ^ 64 - 1

/-- `tape_get_volume_change_reference`. -/
def tapeGetVolumeChangeReference (dev : Device T) : ℕ :=
  match dev.answer with
  | .ok _ _ => if dev.volumeChangeRef = 2 ^ 32 - 1 then invalidVcr else dev.volumeChangeRef
  | .error _ _ => invalidVcr

/-- `ltfs_update_cart_coherency`. -/
def updateCartCoherency (v : Volume T) : Volume T :=
  let vcr := tapeGetVolumeChangeReference v.dev
  let v := { v with dev := v.dev.tick }
  if vcr = 0 ∨ vcr = invalidVcr then v
  else updateCoherencyOf .dp vcr (updateCoherencyOf .ip vcr v)

/-! ## Writing an index -/

/-- Blocks of an index on tape. -/
def Volume.blocksOf (v : Volume T) (index : Index T) : ℕ := v.moreBlocks index + 1

/-- `tape_write` for one block after the other, until one fails. -/
def writeBlocks (ignoreLess ignoreNospc : Bool) : List (Record T × ℕ) → Device T → ℤ × Device T
  | [], dev => (0, dev)
  | (rec, size) :: rest, dev =>
    let r := tapeWrite rec size ignoreLess ignoreNospc dev
    if r.1 < 0 then r else writeBlocks ignoreLess ignoreNospc rest r.2

/-- `xml_schema_to_tape`: the blocks of the document and the closing file mark. -/
def xmlSchemaToTape (blocksize n : ℕ) (index : Index T) (dev : Device T) : ℤ × Device T :=
  let r := writeBlocks true true ((List.range n).map fun k => (.idx index k n, blocksize)) dev
  if r.1 < 0 then r else tapeWriteFilemark 1 true true r.2

/-- "Write the Index": flush the data before it if asked to, then the opening file
mark and the document. -/
def writeIndexRecords (flush : Bool) (blocksize n : ℕ) (index : Index T) (dev : Device T) :
    ℤ × Device T :=
  let r := if flush then tapeWriteFilemark 0 true true dev else (0, dev)
  if r.1 < 0 then r
  else
    let r := tapeWriteFilemark 1 true true r.2
    if r.1 < 0 then r else xmlSchemaToTape blocksize n index r.2

/-- The new volume lock status after a permanent write error on `p`. -/
def newVolumeLock (volstat : VolumeLock) (p : Partition) : Option VolumeLock :=
  match volstat, p with
  | .pweDp, .ip => some .pweBoth
  | .pweIp, .dp => some .pweBoth
  | .unlocked, .ip => some .pweIp
  | .unlocked, .dp => some .pweDp
  | _, _ => none

/-- From the label `out_write_perm` on. -/
def outWritePerm (p : Partition) (writePerm updateVollock : Bool) (volstat : VolumeLock) (ret : ℤ)
    (v : Volume T) : ℤ × Volume T :=
  let v := if writePerm then { v with dev := { v.dev with writeError := true } } else v
  match if updateVollock then newVolumeLock volstat p else none with
  | none => (ret, v)
  | some status =>
    let m := setCartVolumeLockStatus status v
    (if m.1 ≠ 0 then m.1 else ret, m.2)

/-- `index->generation` is an `unsigned int`. -/
def incGeneration (g : ℕ) : ℕ := (g + 1) % 2 ^ 32

/-- The next index, for the current position `pos`. -/
def Volume.indexFor (v : Volume T) (pos : Position) : Index T :=
  { v.index with
    generation := if v.dirty then incGeneration v.index.generation else v.index.generation
    backptr := if v.index.selfptr.partition = some .dp then v.index.selfptr else v.index.backptr
    -- the first data block, not the preceding file mark
    selfptr := ⟨some pos.partition, pos.block + 1⟩ }

/-- `index` is on tape: "Update MAM parameters", "update append position". -/
def indexWritten (p : Partition) (index : Index T) (v : Volume T) : Volume T :=
  let v := { v with index := index, dirty := false, written := v.written ++ [index] }
  let v := updateCartCoherency (v.setEndsInIndex p true)
  if p = .ip then
    { v with dev := setIpAppendPosition (index.selfptr.block - 1) v.dev }
  else v

/-- `ltfs_write_index` from "update index generation" on. Generation and pointers
of the index in memory only change when the write succeeds. -/
def writeIndexHere (p : Partition) (writePerm : Bool) (volstat : VolumeLock) (v : Volume T) :
    ℤ × Volume T :=
  let s := seekAppendPosition p (decide (p = .ip)) v.dev
  if s.1 < 0 then
    outWritePerm p writePerm false volstat s.1 { v with dev := s.2 }
  else
    let index := v.indexFor s.2.position
    let w := writeIndexRecords (decide (p = .ip) && ! v.ipIndexFileEnd) v.blocksize
      (v.blocksOf index) index s.2
    if w.1 < 0 then
      outWritePerm p writePerm (isWritePerm (-w.1)) volstat w.1 { v with dev := w.2 }
    else
      outWritePerm p writePerm false volstat w.1 (indexWritten p index { v with dev := w.2 })

/-- "Check read-only status. Ignore the out-of-space condition". -/
def indexRefusal (v : Volume T) : ℤ :=
  let soft := fun ret : ℤ => ret = -ltfsNoSpace ∨ ret = -ltfsLessSpace
  let ip := tapeReadOnly .ip v.dev
  let ret := if ip = 0 ∨ soft ip then tapeReadOnly .dp v.dev else ip
  if ret < 0 ∧ ¬ soft ret then ret else 0

/-- After a permanent write error the index goes to the end of the partition, so
that it does not overwrite the last one, and writing is allowed once more. -/
def clearWritePerm (p : Partition) (v : Volume T) : Volume T :=
  { v with dev := { v.dev.setAppendPos p 0 with writeError := false } }

/-- `ltfs_write_index` without the nested write. -/
def writeIndexFlat (p : Partition) (writePerm : Bool) (v : Volume T) : ℤ × Volume T :=
  match getCartVolumeLockStatus v.dev with
  | (.error ret, dev) => (ret, { v with dev := dev })
  | (.ok volstat, dev) =>
    let v := { v with dev := dev }
    if writePerm then
      writeIndexHere p true volstat (clearWritePerm p v)
    else if indexRefusal v < 0 then
      (indexRefusal v, v)
    else
      writeIndexHere p false volstat v

/-- "Write to data partition first if required". -/
def needsDpIndex (v : Volume T) : Bool :=
  ! v.dpIndexFileEnd || (v.ipIndexFileEnd && decide (v.index.selfptr.partition = some .ip))

/-- After the nested write to the data partition, which returned `d`. -/
def writeIndexAfterDp (p : Partition) (volstat : VolumeLock) (d : ℤ × Volume T) : ℤ × Volume T :=
  if needReval d.1 then
    d
  else if isUnexpectedMove d.1 then
    (d.1, { d.2 with reval := -ltfsRevalFailed })
  else if isWritePerm (-d.1) then
    match getCartVolumeLockStatus d.2.dev with
    | (.error ret, dev) => (ret, { d.2 with dev := dev })
    | (.ok volstat, dev) =>
      writeIndexHere p true volstat (clearWritePerm p { d.2 with dev := dev })
  else
    -- "we want to keep trying even if, e.g., the DP fills up"
    writeIndexHere p false volstat d.2

/-- `ltfs_write_index` for a full index. -/
def writeIndex (p : Partition) (writePerm : Bool) (v : Volume T) : ℤ × Volume T :=
  if p = .dp ∨ writePerm then
    writeIndexFlat p writePerm v
  else
    match getCartVolumeLockStatus v.dev with
    | (.error ret, dev) => (ret, { v with dev := dev })
    | (.ok volstat, dev) =>
      let v := { v with dev := dev }
      if indexRefusal v < 0 then
        (indexRefusal v, v)
      else if ! needsDpIndex v then
        writeIndexHere p false volstat v
      else
        writeIndexAfterDp p volstat (writeIndexFlat .dp false v)

/-- `ltfs_write_index_conditional`. -/
def writeIndexConditional (p : Partition) (v : Volume T) : ℤ × Volume T :=
  match p with
  | .ip => if v.ipIndexFileEnd then (0, v) else writeIndex .ip false v
  | .dp => if needsDpIndex v then writeIndex .dp false v else (0, v)

/-! ## Writing data -/

/-- A buffer in pieces of `blocksize` bytes, the last one may be shorter. -/
def chunks (blocksize : ℕ) : ℕ → List UInt8 → List (List UInt8)
  | 0, _ => []
  | _, [] => []
  | n + 1, buf => buf.take blocksize :: chunks blocksize n (buf.drop blocksize)

/-- The blocks of a data write. -/
def dataBlocks (blocksize : ℕ) (buf : List UInt8) : List (Record T × ℕ) :=
  (chunks blocksize buf.length buf).map fun bytes => (.data bytes, bytes.length)

def Partition.other : Partition → Partition
  | .ip => .dp
  | .dp => .ip

/-- `_ltfs_fsraw_write_data_unlocked` at `out_unlock`, with an error. -/
def outUnlock (ret : ℤ) (v : Volume T) : Except ℤ ℕ × Volume T :=
  (.error ret, if isUnexpectedMove ret then { v with reval := -ltfsRevalFailed } else v)

/-- `_ltfs_fsraw_write_data_unlocked` from "locate to append position" on. -/
def writeDataHere (p : Partition) (buf : List UInt8) (repetitions : ℕ) (v : Volume T) :
    Except ℤ ℕ × Volume T :=
  -- from here on the partition does not end in an index
  let v := v.setEndsInIndex p false
  let s := seekAppendPosition p (decide (p = .ip)) v.dev
  if s.1 < 0 then
    outUnlock s.1 { v with dev := s.2 }
  else
    let w := writeBlocks false false
      (List.replicate repetitions (dataBlocks v.blocksize buf)).flatten s.2
    if w.1 < 0 then outUnlock w.1 { v with dev := w.2 }
    else (.ok s.2.position.block, { v with dev := w.2 })

/-- `_ltfs_fsraw_write_data_unlocked`: code or start block, and the volume. -/
def writeDataUnlocked (p : Partition) (buf : List UInt8) (repetitions : ℕ) (v : Volume T) :
    Except ℤ ℕ × Volume T :=
  if buf.length = 0 ∨ repetitions = 0 then
    (.ok 0, v)
  else if repetitions > 1 ∧ buf.length % v.blocksize ≠ 0 then
    (.error (-ltfsBadArg), v)
  else if tapeReadOnly p v.dev < 0 then
    outUnlock (tapeReadOnly p v.dev) v
  else
    let c := writeIndexConditional p.other v
    if c.1 < 0 then outUnlock c.1 c.2 else writeDataHere p buf repetitions c.2

end Volume

end Ltfs
