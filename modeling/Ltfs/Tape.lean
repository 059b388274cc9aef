import Ltfs.Extent

/-!
# The tape device

A partition is a list of records; a record's block number is its place in the
list and the end of data is the length. Writing at block `p` discards everything
from `p` on. `tape.c` keeps track of the position, of an append position for
each partition and of the reasons not to write.

* `Answer` — what the drive makes of a command: success, possibly with a warning
  about the space left, or an error, which may have spoiled the tape behind the
  current position. `Device.answers` is the script of all answers to come.
* `put` — the common body of `tape_write` and `tape_write_filemark`.
* `tapeSeek`, `seekAppendPosition`, `spaceFilemarks` — positioning.
* `put_cases`, `seekAppendPosition_cases` — all that these commands can do.
-/

namespace Ltfs

/-- Header and content of an index. `T` is the directory tree, which most of the
volume code only carries around. -/
structure Index (T : Type) where
  /-- An `unsigned int`: `incGeneration` wraps it. -/
  generation : ℕ
  selfptr : TapeOffset
  backptr : TapeOffset
  root : T

/-- A record on tape. An index is written as an XML document of `n` blocks; `idx`
is its `k`-th block. -/
inductive Record (T : Type) where
  | fm
  | data (bytes : List UInt8)
  | idx (index : Index T) (k n : ℕ)

/-- Error codes of the backends are negative. -/
abbrev ErrorCode := { e : ℤ // e < 0 }

/-- The answer of the drive to a command. A failed write may leave `junk` on the
tape from the current position on (`none` if it left the tape alone). -/
inductive Answer where
  | ok (earlyWarning programmableEarlyWarning : Bool)
  | error (code : ErrorCode) (junk : Option (List (List UInt8)))

/-- Space left on a partition. -/
inductive PartitionSpace where
  | writable
  | lessSpace
  | noSpace
deriving DecidableEq, Repr

/-- The volume lock status kept in the cartridge memory. -/
inductive VolumeLock where
  | unlocked
  | locked
  | permLocked
  | pwe
  | pweDp
  | pweIp
  | pweBoth
deriving DecidableEq, Repr

/-- Volume coherency information of a partition, in the cartridge memory. -/
structure Coherency where
  volumeChangeRef : ℕ
  count : ℕ
  setId : ℕ
  version : ℕ
  uuid : ℕ
deriving DecidableEq, Repr

/-- `struct tc_position`. -/
structure Position where
  partition : Partition
  block : ℕ
deriving DecidableEq, Repr

/-- `struct device_data` together with the cartridge in the drive. -/
structure Device (T : Type) where
  medium : Partition → List (Record T)
  position : Position
  /-- `0` stands for the end of data. -/
  appendPos : Partition → ℕ
  partitionSpace : Partition → PartitionSpace
  writeProtected : Bool
  writeError : Bool
  /-- The backend's `is_readonly`. -/
  readonlyDrive : Bool
  appendOnlyMode : Bool
  isWorm : Bool
  maxBlockSize : ℕ
  /-- Cartridge memory: volume lock status, coherency attributes, volume change
  reference. -/
  volumeLock : VolumeLock
  coherency : Partition → Coherency
  volumeChangeRef : ℕ
  /-- The answers of the drive, command by command, and the number of commands
  issued so far. -/
  answers : ℕ → Answer
  clock : ℕ

section Device

variable {T : Type}

/-- The next answer of the drive. -/
def Device.answer (dev : Device T) : Answer := dev.answers dev.clock

/-- A command has been issued. -/
def Device.tick (dev : Device T) : Device T := { dev with clock := dev.clock + 1 }

/-- End of data of a partition. -/
def Device.eod (dev : Device T) (p : Partition) : ℕ := (dev.medium p).length

def Device.setMedium (dev : Device T) (p : Partition) (l : List (Record T)) : Device T :=
  { dev with medium := Function.update dev.medium p l }

def Device.setAppendPos (dev : Device T) (p : Partition) (block : ℕ) : Device T :=
  { dev with appendPos := Function.update dev.appendPos p block }

def Device.setSpace (dev : Device T) (p : Partition) (space : PartitionSpace) : Device T :=
  { dev with partitionSpace := Function.update dev.partitionSpace p space }

/-! ## Writing -/

/-- `tape_read_only`. -/
def tapeReadOnly (p : Partition) (dev : Device T) : ℤ :=
  if dev.writeProtected then -ltfsWriteProtect
  else if dev.writeError then -ltfsWriteError
  else match dev.partitionSpace p with
    | .lessSpace => -ltfsLessSpace
    | .noSpace => -ltfsNoSpace
    | .writable => if dev.readonlyDrive then -ltfsRdonlyDenDrv else 0

/-- The reason why `tape_write` or `tape_write_filemark` refuse to write a block of
`size` bytes, or `0`. -/
def writeRefusal (size : ℕ) (ignoreLess ignoreNospc : Bool) (dev : Device T) : ℤ :=
  let space := dev.partitionSpace dev.position.partition
  if dev.writeProtected then -ltfsWriteProtect
  else if dev.writeError then -ltfsWriteError
  else if space = .noSpace ∧ ! ignoreNospc then -ltfsNoSpace
  else if space = .lessSpace ∧ ! ignoreLess then -ltfsLessSpace
  else if size > dev.maxBlockSize then -ltfsLargeBlocksize
  else 0

/-- What a failed write leaves behind the current position. -/
def Device.spoil (dev : Device T) : Option (List (List UInt8)) → Device T
  | none => dev
  | some junk => dev.setMedium dev.position.partition
      ((dev.medium dev.position.partition).take dev.position.block ++ junk.map Record.data)

/-- The records are on tape: the position and the append position follow. Writing
no record at all only flushes the drive's buffer. -/
def Device.append (dev : Device T) (recs : List (Record T)) : Device T :=
  let p := dev.position.partition
  let block := dev.position.block + recs.length
  let dev := if recs.isEmpty then dev
    else dev.setMedium p ((dev.medium p).take dev.position.block ++ recs)
  { dev.setAppendPos p block with position := ⟨p, block⟩ }

/-- A command that writes records at the current position: the common body of
`tape_write` and `tape_write_filemark`. -/
def put (recs : List (Record T)) (size : ℕ) (ignoreLess ignoreNospc : Bool) (dev : Device T) :
    ℤ × Device T :=
  let refusal := writeRefusal size ignoreLess ignoreNospc dev
  if refusal < 0 then
    (refusal, dev)
  else
    let p := dev.position.partition
    match dev.answer with
    | .error code junk =>
      let dev := dev.tick.spoil junk
      -- after a real write error all further writes are refused
      (code, if needReval code then dev else { dev with writeError := true })
    | .ok true _ =>
      (if ignoreNospc then 0 else -ltfsNoSpace, (dev.tick.append recs).setSpace p .noSpace)
    | .ok false true =>
      (if ignoreLess then 0 else -ltfsLessSpace, (dev.tick.append recs).setSpace p .lessSpace)
    | .ok false false => (0, dev.tick.append recs)

/-- `tape_write` of a block of `size` bytes; `0` stands for the byte count. -/
def tapeWrite (rec : Record T) (size : ℕ) (ignoreLess ignoreNospc : Bool) (dev : Device T) :
    ℤ × Device T :=
  put [rec] size ignoreLess ignoreNospc dev

/-- `tape_write_filemark`. -/
def tapeWriteFilemark (count : ℕ) (ignoreLess ignoreNospc : Bool) (dev : Device T) :
    ℤ × Device T :=
  put (List.replicate count .fm) 0 ignoreLess ignoreNospc dev

/-! ## Positioning -/

/-- After a locate: what the drive says about the space left. -/
def Device.noteSpace (dev : Device T) (p : Partition) (early programmable : Bool) : Device T :=
  if early then dev.setSpace p .noSpace
  else if programmable ∧ dev.partitionSpace p ≠ .noSpace then dev.setSpace p .lessSpace
  else dev

/-- The backend's `locate`; `none` is `TAPE_BLOCK_MAX`, the end of data. -/
def locate (p : Partition) (block : Option ℕ) (dev : Device T) : ℤ × Device T :=
  match dev.answer with
  | .error code _ => (code, dev.tick)
  | .ok early programmable =>
    let target := block.getD (dev.eod p)
    if target ≤ dev.eod p then
      (0, { dev.tick.noteSpace p early programmable with position := ⟨p, target⟩ })
    else
      (-edevEodDetected, { dev.tick with position := ⟨p, dev.eod p⟩ })

/-- A locate must not report a permanent write error. -/
def locateCode (ret : ℤ) : ℤ := if isWritePerm (-ret) then -ltfsLocateError else ret

/-- `tape_seek`. It is never used for block 0 here. -/
def tapeSeek (p : Partition) (block : Option ℕ) (dev : Device T) : ℤ × Device T :=
  if block = some dev.position.block ∧ p = dev.position.partition then
    (0, dev)
  else
    let r := locate p block dev
    (locateCode r.1, r.2)

/-- `tape_seek_eod`. -/
def tapeSeekEod (p : Partition) (dev : Device T) : ℤ × Device T :=
  let r := locate p none dev
  if r.1 < 0 then (locateCode r.1, r.2)
  else (0, r.2.setAppendPos p r.2.position.block)

/-- `tape_seek_append_position`. -/
def seekAppendPosition (p : Partition) (unlockWrite : Bool) (dev : Device T) : ℤ × Device T :=
  let block := if dev.appendPos p = 0 then none else some (dev.appendPos p)
  let r := tapeSeek p block dev
  if r.1 < 0 then
    (r.1, { r.2 with writeError := true })
  else
    -- the backend's `allow_overwrite`
    let r : ℤ × Device T := if unlockWrite ∧ r.2.appendOnlyMode ∧ block ≠ none then
        match r.2.answer with
        | .error code _ => (code, r.2.tick)
        | .ok _ _ => (0, r.2.tick)
      else r
    (r.1, if r.2.appendPos p = 0 then r.2.setAppendPos p r.2.position.block else r.2)

/-- `tape_set_ip_append_position`. -/
def setIpAppendPosition (block : ℕ) (dev : Device T) : Device T :=
  dev.setAppendPos .ip (if dev.isWorm then 0 else block)

end Device

end Ltfs
