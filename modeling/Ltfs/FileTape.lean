import Ltfs.Error
import Ltfs.Lib.RecordTape
import Mathlib.Algebra.Group.Nat.Defs

/-!
# The file backend

The backend `file` keeps a cartridge in a directory. A block is a file whose name says the
partition, the block number and what the block is: a record, a file mark, or the end of data.

* `Directory` — the files of the blocks. `FileDebug` — the drive with its cartridge.
* `filedebugLoad` — the directory is searched for the end of data of both partitions.
* `filedebugRead`, `filedebugWrite`, `filedebugWritefm`, `filedebugLocate`, `filedebugRewind`,
  `filedebugSpace` — the commands.

The host file system does not fail. Spacing over records is left out.
-/

namespace Ltfs.FileTape

/-! ## The directory -/

/-- `rec_suffixes`. -/
inductive Suffix where
  | record
  | filemark
  | eod
deriving DecidableEq, Repr

/-- The contents of the files, by partition, block number and suffix. -/
abbrev Directory := ℕ → ℕ → Suffix → Option (List UInt8)

namespace Directory

variable (dir : Directory) (part : ℕ)

/-- `_filedebug_check_file`. -/
def checkFile (pos : ℕ) (type : Suffix) : Bool := (dir part pos type).isSome

/-- `open` with `O_CREAT | O_TRUNC`, and the bytes that are written into the file. -/
def create (pos : ℕ) (type : Suffix) (content : List UInt8) : Directory := fun p b s =>
  if p = part ∧ b = pos ∧ s = type then some content else dir p b s

/-- `_filedebug_remove_record`: the file of the block goes, whatever its suffix. -/
def removeRecord (blknum : ℕ) : Directory := fun p b s =>
  if p = part ∧ b = blknum then none else dir p b s

/-- The loop of `_filedebug_write_eod` over the `n` blocks from `first` on. -/
def removeRecords (first n : ℕ) : Directory :=
  (List.range' first n).foldl (fun dir i => dir.removeRecord part i) dir

/-- The number of file marks in front of a block. -/
def countFm (block : ℕ) : ℕ := (List.range block).countP fun i => dir.checkFile part i .filemark

end Directory

/-! ## The drive -/

/-- `struct tc_position`. -/
structure TcPosition where
  partition : ℕ
  block : ℕ
  filemarks : ℕ
  earlyWarning : Bool
  programmableEarlyWarning : Bool
deriving DecidableEq, Repr

/-- `MISSING_EOD` -/
def missingEod : ℕ := 2 ^ 64 - 1

/-- `MAX_PARTITIONS` -/
def maxPartitions : ℕ := 2

/-- `THRESHOLD_FORCE_WRITE_NO_WRITE` -/
def thresholdForceWriteNoWrite : ℕ := 20

/-- `struct filedebug_data`. -/
structure FileDebug where
  dir : Directory
  partition : ℕ
  block : ℕ
  filemarks : ℕ
  maxBlockSize : ℕ
  ready : Bool
  isReadonly : Bool
  isWorm : Bool
  unsupportedTape : Bool
  unsupportedFormat : Bool
  /-- The block before the end of data; -1 stands for `UINT64_MAX`. -/
  lastBlock : ℕ → ℤ
  eod : ℕ → ℕ
  writePassPrev : ℕ
  writePass : ℕ
  p0Warning : ℕ
  p1Warning : ℕ
  p0PWarning : ℕ
  p1PWarning : ℕ
  clearByPc : Bool
  forceWriteperm : ℕ
  forceReadperm : ℕ
  writeCounter : ℕ
  readCounter : ℕ
  forceErrortype : Bool
  dummyIo : Bool
  emulateReadonly : Bool

/-- What a command returns: a code, the bytes it has read, the position it reports, and the
drive. -/
structure Result where
  ret : ℤ
  data : List UInt8
  pos : TcPosition
  drive : FileDebug

namespace FileDebug

variable (st : FileDebug) (pos : TcPosition)

/-- Is the dummy mode in charge of the current block? -/
def dummyBlock : Bool := st.dummyIo && st.partition ≠ 0 && decide (6 < st.block)

/-- The head in front of the next block. -/
def step : FileDebug := { st with block := st.block + 1 }

/-- The warnings that a position gives rise to; `exactly` is the way `filedebug_write` looks for the
second one. -/
def warn (exactly : Bool) : TcPosition :=
  let early := (st.p0Warning ≠ 0 && st.partition = 0 && decide (st.p0Warning ≤ st.block)) ||
    (st.p1Warning ≠ 0 && st.partition = 1 && decide (st.p1Warning ≤ st.block))
  let reached (warning : ℕ) := if exactly then st.block = warning else warning ≤ st.block
  let programmable := (st.p0PWarning ≠ 0 && st.partition = 0 && decide (reached st.p0PWarning)) ||
    (st.p1PWarning ≠ 0 && st.partition = 1 && decide (reached st.p1PWarning))
  { pos with
    earlyWarning := pos.earlyWarning || early
    programmableEarlyWarning := pos.programmableEarlyWarning || programmable }

/-! ### Writing -/

/-- `_filedebug_write_eod`. -/
def writeEod : FileDebug :=
  let removeExtraRec := st.eod st.partition ≠ missingEod
  -- remove any existing record at this position
  let dir := (st.dir.removeRecord st.partition st.block).create st.partition st.block .eod []
  let dir :=
    -- remove records following this position
    if removeExtraRec then
      dir.removeRecords st.partition (st.block + 1) (st.eod st.partition - st.block)
    else dir
  { st with
    dir
    lastBlock := Function.update st.lastBlock st.partition (st.block - 1)
    eod := Function.update st.eod st.partition st.block }

/-- The write pass goes up once for a loaded cartridge. -/
def countWritePass : FileDebug :=
  { st with writePass := if st.writePassPrev = st.writePass then st.writePass + 1 else st.writePass }

/-- A record in place of the current block. -/
def putRecord (type : Suffix) (content : List UInt8) : FileDebug :=
  { st with
    dir := (st.dir.removeRecord st.partition st.block).create st.partition st.block type content }

/-- The part of `filedebug_write` behind the checks. -/
def writeRecord (buf : List UInt8) : Result :=
  let st :=
    if st.dummyBlock then { st.step with eod := Function.update st.eod st.partition (st.block + 1) }
    else ((st.countWritePass.putRecord .record buf).step).writeEod
  ⟨buf.length, [], st.warn { pos with block := st.block } true, st⟩

end FileDebug

open FileDebug

/-- `filedebug_write`. -/
def filedebugWrite (st : FileDebug) (buf : List UInt8) (pos : TcPosition) : Result :=
  let refuse (code : ℤ) (st : FileDebug) : Result := ⟨-code, [], pos, st⟩
  if !st.ready then refuse edevNotReady st
  -- Emulate WORM
  else if st.isWorm && st.eod pos.partition ≠ pos.block then refuse edevWriteProtectedWorm st
  -- Emulate read-only tape and write protected tape
  else if st.isReadonly then
    refuse (if st.emulateReadonly then edevWriteProtected else edevDataProtect) st
  -- Emulate unsupported cart/format
  else if st.unsupportedTape || st.unsupportedFormat then refuse edevMediumFormatError st
  else if buf = [] then ⟨0, [], pos, st⟩
  else
    let forced := st.forceWriteperm ≠ 0
    let st := if forced then { st with writeCounter := st.writeCounter + 1 } else st
    if forced ∧ st.forceWriteperm < st.writeCounter then
      refuse (if st.forceErrortype then edevNoSense else edevWritePerm) st
    else if forced ∧
        (st.forceWriteperm + 2 ^ 64 - thresholdForceWriteNoWrite) % 2 ^ 64 < st.writeCounter then
      ⟨0, [], { pos with block := st.block + 1 }, st.step⟩
    else if st.maxBlockSize < buf.length then refuse edevInvalidArg st
    else st.writeRecord pos buf

namespace FileDebug

/-- One file mark of `filedebug_writefm`. -/
def writeOneFm (st : FileDebug) : FileDebug :=
  let st := (st.putRecord .filemark []).step
  { st with filemarks := st.filemarks + 1 }.writeEod

/-- The loop of `filedebug_writefm`. -/
def writeFms : ℕ → FileDebug → FileDebug
  | 0, st => st
  | n + 1, st => writeFms n st.writeOneFm

end FileDebug

/-- `filedebug_writefm`. -/
def filedebugWritefm (st : FileDebug) (count : ℕ) (pos : TcPosition) : Result :=
  if !st.ready then ⟨-edevNotReady, [], pos, st⟩
  -- Do nothing in case of WFM 0
  else if count = 0 then ⟨0, [], pos, st⟩
  else
    let st :=
      if st.dummyBlock then
        { st with
          block := st.block + count
          filemarks := st.filemarks + count
          eod := Function.update st.eod st.partition (st.block + count) }
      else writeFms count st.countWritePass
    ⟨0, [], st.warn { pos with block := st.block, filemarks := st.filemarks } false, st⟩

/-! ## Reading and positioning -/

/-- `filedebug_read`, into a buffer of `count` bytes. -/
def filedebugRead (st : FileDebug) (count : ℕ) (pos : TcPosition) : Result :=
  if !st.ready then ⟨-edevNotReady, [], pos, st⟩
  else if st.unsupportedTape || st.unsupportedFormat then ⟨-edevMediumFormatError, [], pos, st⟩
  else
    let forced := st.forceReadperm ≠ 0
    let st := if forced then { st with readCounter := st.readCounter + 1 } else st
    if forced ∧ st.forceReadperm < st.readCounter then
      ⟨-(if st.forceErrortype then edevReadPerm else edevNoSense), [], pos, st⟩
    -- check for EOD (reading is an error)
    else if st.eod st.partition = st.block then ⟨-edevEodDetected, [], pos, st⟩
    else if st.dummyBlock then ⟨count, [], { pos with block := st.block + 1 }, st.step⟩
    else if st.dir.checkFile st.partition st.block .eod then ⟨-edevEodNotFound, [], pos, st⟩
    -- check for filemark (reading returns 0 bytes and advances the position)
    else if st.dir.checkFile st.partition st.block .filemark then
      let st := { st.step with filemarks := st.filemarks + 1 }
      ⟨0, [], { pos with block := st.block, filemarks := st.filemarks }, st⟩
    else
      match st.dir st.partition st.block .record with
      | some content =>
        ⟨(content.take count).length, content.take count, { pos with block := st.block + 1 }, st.step⟩
      -- couldn't find any records?! something is corrupted
      | none => ⟨-edevRwPerm, [], pos, st⟩

/-- `filedebug_rewind`. -/
def filedebugRewind (st : FileDebug) (pos : TcPosition) : Result :=
  if !st.ready then ⟨-edevNotReady, [], pos, st⟩
  -- Emulate unsupported cart
  else if st.unsupportedTape then ⟨-edevMediumFormatError, [], pos, st⟩
  else
    ⟨0, [], ⟨pos.partition, 0, 0, false, false⟩,
      { st with
        block := 0
        filemarks := 0
        clearByPc := false
        forceWriteperm := 0
        forceReadperm := 0
        writeCounter := 0
        readCounter := 0 }⟩

/-- `filedebug_locate`. -/
def filedebugLocate (st : FileDebug) (destPartition destBlock : ℕ) (pos : TcPosition) : Result :=
  if !st.ready then ⟨-edevNotReady, [], pos, st⟩
  else if st.unsupportedTape || st.unsupportedFormat then ⟨-edevMediumFormatError, [], pos, st⟩
  else if maxPartitions ≤ destPartition then ⟨-edevInvalidArg, [], pos, st⟩
  else
    let st :=
      if st.partition ≠ destPartition ∧ st.clearByPc then
        { st with
          clearByPc := false
          forceWriteperm := 0
          forceReadperm := 0
          forceErrortype := false }
      else st
    let block :=
      if st.eod destPartition = missingEod ∧ st.lastBlock destPartition < destBlock then
        (st.lastBlock destPartition + 1).toNat
      else if st.eod destPartition < destBlock then st.eod destPartition
      else destBlock
    let st :=
      { st with
        partition := destPartition
        block
        filemarks := st.dir.countFm destPartition block }
    ⟨0, [], st.warn { pos with
      partition := destPartition, block, filemarks := st.filemarks } false, st⟩

/-! ## Spacing -/

/-- `TC_SPACE_TYPE`, without the spacing over records. -/
inductive SpaceType where
  | eod
  | fmF
  | fmB
deriving DecidableEq, Repr

namespace FileDebug

variable (st : FileDebug)

/-- The loop of `_filedebug_space_fm` forward, from a block on and with `fmCount` marks behind it:
the code and the block where it ends. There is no answer when it takes more rounds than given. -/
def spaceFmForward (count : ℕ) : ℕ → ℕ → ℕ → Option (ℤ × ℕ)
  | 0, _, _ => none
  | rounds + 1, fmCount, block =>
    if block = st.eod st.partition then some (-edevEodDetected, block)
    else if (block : ℤ) = st.lastBlock st.partition + 1 then some (-edevRwPerm, block)
    else if st.dir.checkFile st.partition block .filemark then
      if fmCount + 1 = count then some (0, block + 1)
      else spaceFmForward count rounds (fmCount + 1) (block + 1)
    else spaceFmForward count rounds fmCount (block + 1)

/-- The loop of `_filedebug_space_fm` backward. -/
def spaceFmBackward (count : ℕ) : ℕ → ℕ → ℤ × ℕ
  | fmCount, 0 =>
    if st.dir.checkFile st.partition 0 .filemark ∧ fmCount + 1 = count then (0, 0)
    else (-edevBopDetected, 0)
  | fmCount, block + 1 =>
    if st.dir.checkFile st.partition (block + 1) .filemark then
      if fmCount + 1 = count then (0, block + 1)
      else spaceFmBackward count (fmCount + 1) block
    else spaceFmBackward count fmCount block

/-- `_filedebug_space_fm`: the code and the block where it ends. The end of data is the last block a
loop forward comes to. -/
def spaceFm (count : ℕ) (back : Bool) : Option (ℤ × ℕ) :=
  if count = 0 then some (0, st.block)
  else if back then some (st.spaceFmBackward count 0 (st.block - 1))
  else st.spaceFmForward count (st.eod st.partition - st.block + 1) 0 st.block

/-- Is there no end of data to go to, or no block to go from? -/
def missing : SpaceType → Bool
  | .eod => st.eod st.partition == missingEod
  | .fmF | .fmB => st.block == missingEod

/-- Where a space command of this type leads to. -/
def target (count : ℕ) : SpaceType → Option (ℤ × ℕ)
  | .eod => some (0, st.eod st.partition)
  | .fmF => st.spaceFm count false
  | .fmB => st.spaceFm count true

end FileDebug

/-- `filedebug_space`. -/
def filedebugSpace (st : FileDebug) (count : ℕ) (type : SpaceType) (pos : TcPosition) :
    Option Result :=
  if !st.ready then some ⟨-edevNotReady, [], pos, st⟩
  else if st.unsupportedTape || st.unsupportedFormat then
    some ⟨-edevMediumFormatError, [], pos, st⟩
  else if st.missing type then
    some ⟨-edevRwPerm, [], pos, match type with
      | .eod => { st with block := missingEod }
      | .fmF | .fmB => st⟩
  else
    (st.target count type).map fun (ret, block) =>
      let st := { st with block, filemarks := st.dir.countFm st.partition block }
      ⟨ret, [], st.warn { pos with block, filemarks := st.filemarks } false, st⟩

/-! ## Loading -/

namespace FileDebug

/-- The loop of `filedebug_search_eod` from a block on: the block where it ends, and whether that is
the end of data. There is no answer when it takes more rounds than given. -/
def searchEodLoop (dir : Directory) (partition : ℕ) : ℕ → ℕ → Option (ℕ × Bool)
  | 0, _ => none
  | rounds + 1, block =>
    if dir.checkFile partition block .eod then some (block, true)
    else if dir.checkFile partition block .record || dir.checkFile partition block .filemark then
      searchEodLoop dir partition rounds (block + 1)
    else some (block, false)

/-- `filedebug_search_eod`, outside of the dummy mode. -/
def searchEod (rounds : ℕ) (st : FileDebug) (partition : ℕ) : Option FileDebug :=
  (searchEodLoop st.dir partition rounds 0).map fun (block, found) =>
    let st := { st with partition, block }
    if !found && block ≠ 0 then
      { st with
        lastBlock := Function.update st.lastBlock partition block
        eod := Function.update st.eod partition missingEod }
    else st.writeEod

end FileDebug

/-- What the cartridge in the directory and the drive type come to. -/
structure Cartridge where
  isReadonly : Bool
  isWorm : Bool
  unsupportedTape : Bool
  unsupportedFormat : Bool
  emulateReadonly : Bool
  writePass : ℕ
  p0Warning : ℕ
  p1Warning : ℕ
  p0PWarning : ℕ
  p1PWarning : ℕ

/-- `filedebug_load` on a drive that was just opened, for a cartridge it accepts. -/
def filedebugLoad (rounds : ℕ) (cart : Cartridge) (dir : Directory) :
    Option (FileDebug × TcPosition) :=
  let st : FileDebug :=
    { dir
      partition := 0
      block := 0
      filemarks := 0
      maxBlockSize := 16 * (1024 * 1024)
      ready := true
      isReadonly := cart.isReadonly
      isWorm := cart.isWorm
      unsupportedTape := cart.unsupportedTape
      unsupportedFormat := cart.unsupportedFormat
      lastBlock := fun _ => 0
      eod := fun _ => 0
      writePassPrev := cart.writePass
      writePass := cart.writePass
      p0Warning := cart.p0Warning
      p1Warning := cart.p1Warning
      p0PWarning := cart.p0PWarning
      p1PWarning := cart.p1PWarning
      clearByPc := false
      forceWriteperm := 0
      forceReadperm := 0
      writeCounter := 0
      readCounter := 0
      forceErrortype := false
      dummyIo := false
      emulateReadonly := cart.emulateReadonly }
  (st.searchEod rounds 0).bind fun st =>
    (st.searchEod rounds 1).map fun st =>
      ({ st with partition := 0, block := 0, filemarks := 0 }, ⟨0, 0, 0, false, false⟩)

end Ltfs.FileTape
