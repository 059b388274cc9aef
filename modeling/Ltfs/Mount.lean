import Ltfs.CheckMedium

/-!
# Mounting

`ltfs_mount` for the latest generation. Where the cartridge memory can be trusted it tells which
index is the last one, so that only this one is read. In all other cases the medium is checked.

* `mountIndex` — where the index comes from; the index partition may still have to be written.
* `ltfsMount` — this last write, and the append position of the index partition, which is taken
  from the self pointer of the index in memory.
-/

namespace Ltfs.CheckMedium

/-- The arguments of `ltfs_mount`, and what the drive says about the end of data. -/
structure MountOptions where
  forceFull : Bool
  deepRecovery : Bool
  recoverExtra : Bool
  recoverSymlink : Bool
  skipEodCheck : Bool
  eodMissing : Partition → Bool

/-- Where the index comes from. -/
inductive MountIndex (T : Type) where
  | failed (ret : ℤ) (v : Volume T)
  /-- It is on the index partition, the cartridge memory says where. -/
  | current (v : Volume T)
  /-- It is on the data partition, and the index partition is behind. -/
  | ipBehind (v : Volume T)
  /-- The medium has been checked. -/
  | checked (outcome : Outcome T)

section Mount

variable {T : Type} (M : MediumReader T) (o : MountOptions)

/-! ## Loading -/

/-- `ltfs_read_labels`: both partitions begin with two blocks, each with a file mark behind it. What
is in the blocks is in the `MediumReader`. -/
def readLabels (dev : Device T) : ℤ × Device T :=
  match dev.answer with
  | .error code _ => (code, dev.tick)
  | .ok _ _ =>
    if [Partition.ip, .dp].all fun p => fmAt (dev.medium p) 1 && fmAt (dev.medium p) 3 then
      (0, dev.tick)
    else (-ltfsLabelInvalid, dev.tick)

/-- `ltfs_start_mount`. -/
def ltfsStartMount (v : Volume T) : ℤ × Device T :=
  onOk (startMount v.dev) fun dev =>
  onOk (readLabels dev) fun dev =>
  if dev.maxBlockSize < v.blocksize then (-ltfsLargeBlocksize, dev) else (0, dev)

/-- `ltfs_check_eod_status`. -/
def ltfsCheckEodStatus : ℤ :=
  if o.eodMissing .ip && o.eodMissing .dp then -ltfsBothEodMissing
  else if o.eodMissing .ip || o.eodMissing .dp then -ltfsEodMissingMedium
  else 0

/-- `IS_SINGLE_WRITE_PERM`. -/
def isSingleWritePerm (lock : VolumeLock) : Bool :=
  decide (lock = .pwe) || decide (lock = .pweDp) || decide (lock = .pweIp)

/-- The coherency data of a volume about which nothing is known. -/
def noCoherency : Coherency := ⟨0, 0, 0, 0, 0⟩

/-- "read MAM parameters", of one partition. -/
def readCoherency (p : Partition) (v : Volume T) : Volume T :=
  let r := getCartCoherency p v.dev
  let coh := match r.1 with
    | .ok coh => if coh.uuid = v.uuid then coh else noCoherency
    | .error _ => noCoherency
  { v with dev := r.2, coherency := Function.update v.coherency p coh }

/-- "read MAM parameters": the volume change reference, and the volume. -/
def readMam (v : Volume T) : ℕ × Volume T :=
  let v := readCoherency .dp (readCoherency .ip v)
  let vcr := tapeGetVolumeChangeReference v.dev
  let v := { v with dev := v.dev.tick }
  (vcr, if vcr = 0 ∨ vcr = invalidVcr then { v with coherency := fun _ => noCoherency } else v)

/-! ## Reading one index -/

/-- Seek to a block and read the index there, which counts as one command. Whether the block is
there at all decides if the cartridge memory is to be trusted. The tape is left where the index
begins: what follows is a seek to the end of data. -/
def readTrusted (p : Partition) (block : ℕ) (next : Volume T → MountIndex T) (v : Volume T) :
    MountIndex T :=
  let s := tapeSeek p (some block) v.dev
  let v := { v with dev := s.2 }
  if s.1 = -edevEodDetected then
    -- "MAM parameters could be corrupted, try a full consistency check"
    .checked (checkMedium M true o.deepRecovery o.recoverExtra o.recoverSymlink v)
  else if s.1 < 0 then .failed s.1 v
  else
    let m := v.dev.medium p
    let seen := { v with dev := v.dev.tick }
    match v.dev.answer with
    | .error code _ => .failed code seen
    | .ok _ _ =>
      match XmlTape.ltfsReadIndex (M.reader false m) p 0 ⟨m.map M.image, block, []⟩ with
      | some (.ok _, _) => next { seen with index := (M.parse (region m block)).index }
      | some (.error ret, _) => .failed ret seen
      | none => .failed (-ltfsIndexInvalid) seen

/-! ## Write protection after a write error -/

/-- `_ltfs_search_index_wp`: the place of the newest index. -/
def searchIndexWp (canSkipIp : Bool) (v : Volume T) : Except ℤ (Partition × ℕ) × Volume T :=
  let i := lookFor M o.recoverSymlink .ip v
  let found := match i.1 with
    | .ok f => f.found.isSome
    | .error _ => false
  if ! found && ! canSkipIp then (.error (-ltfsIndexInvalid), i.2)
  else
    let unknown := { i.2.coherency .ip with count := 0, setId := 0 }
    let v := if found then i.2
      else { i.2 with coherency := Function.update i.2.coherency .ip unknown }
    match lookFor M o.recoverSymlink .dp v with
    | (.error _, v) => (.error (-ltfsIndexInvalid), v)
    | (.ok _, v) =>
      let p := if (v.coherency .dp).count < (v.coherency .ip).count then .ip else .dp
      (.ok (p, (v.coherency p).setId), v)

/-- "Write permed cartridge is detected. Seek the newest index". The volume is read-only then. -/
def mountWritePerm (lock : VolumeLock) (vcr : ℕ) (v : Volume T) : MountIndex T :=
  let v := { v with dev := { v.dev with writeError := true } }
  let p := if (v.coherency .ip).count < (v.coherency .dp).count then Partition.dp else .ip
  if vcr ≠ (v.coherency p).volumeChangeRef then
    match searchIndexWp M o (decide (p = .dp) || decide (lock = .pweBoth)) v with
    | (.error ret, v) => .failed ret v
    | (.ok (p, block), v) => readTrusted M o p block .current v
  else readTrusted M o p (v.coherency p).setId .current v

/-! ## The mount -/

/-- "check for consistency", from the volume lock status and the volume change reference. -/
def checkConsistency (lock : VolumeLock) (vcr : ℕ) (v : Volume T) : MountIndex T :=
  let ip := v.coherency .ip
  let dp := v.coherency .dp
  -- "Don't trust version 0 MAM parameters"
  let forceFull := o.forceFull || decide (ip.version = 0) || decide (dp.version = 0)
  if isSingleWritePerm lock || decide (lock = .pweBoth) then
    mountWritePerm M o lock vcr v
  else if ! forceFull && decide (0 < vcr) && decide (vcr = ip.volumeChangeRef) &&
      decide (vcr = dp.volumeChangeRef) then
    if ip.count < dp.count then readTrusted M o .dp dp.setId .ipBehind v
    else readTrusted M o .ip ip.setId .current v
  else
    -- "do a full consistency check on the medium itself"
    .checked (checkMedium M true o.deepRecovery o.recoverExtra o.recoverSymlink v)

/-- `ltfs_mount` up to the last index write. -/
def mountIndex (v : Volume T) : MountIndex T :=
  let s := ltfsStartMount v
  let v := { v with dev := s.2 }
  if s.1 < 0 then .failed s.1 v
  else
    -- an error of this query plays no role
    let cur := getCartVolumeLockStatus v.dev
    let lock := match cur.1 with
      | .ok lock => lock
      | .error _ => .unlocked
    -- the two queries for the end of data
    let v := { v with dev := cur.2.tick.tick }
    if ltfsCheckEodStatus o < 0 ∧ ! o.skipEodCheck ∧ ! isSingleWritePerm lock then
      .failed (ltfsCheckEodStatus o) v
    else
      let r := readMam v
      checkConsistency M o lock r.1 r.2

/-- "set append position for index partition", and "both partitions end in an index file". -/
def setPointers (v : Volume T) : Volume T :=
  { v with
    dev := setIpAppendPosition (v.index.selfptr.block - 1) v.dev
    ipIndexFileEnd := true
    dpIndexFileEnd := true }

/-- The last index write. It has to succeed only where the cartridge memory was trusted. -/
def MountIndex.finish : MountIndex T → Except ℤ Unit × Volume T
  | .failed ret v => (.error ret, v)
  | .current v => (.ok (), v)
  | .ipBehind v =>
    let w := writeIndex .ip false v
    (if w.1 < 0 then .error w.1 else .ok (), w.2)
  | .checked outcome => outcome.finish

/-- `ltfs_mount`. -/
def ltfsMount (v : Volume T) : Except ℤ Unit × Volume T :=
  let r := (mountIndex M o v).finish
  (r.1, match r.1 with
    | .ok _ => setPointers r.2
    | .error _ => r.2)

end Mount

end Ltfs.CheckMedium
