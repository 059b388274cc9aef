import Ltfs.Fs.Dentry

/-!
# Extended attributes

`xattr_set` and `xattr_remove` with the attributes `immutable` and `appendonly`
that protect a dentry, and the two calls `ltfs_fsops_setxattr` and
`ltfs_fsops_removexattr` around them.

A virtual attribute concerns the volume, not the name tree; of setting or removing
one only the code is modelled (`Env.setVirtual`, `Env.removeVirtual`; after the
retries a revalidation asks for).
-/

namespace Ltfs.Fs

/-- What a call meets outside the name tree. -/
structure Env where
  /-- `ltfs_get_tape_readonly` -/
  tapeReadonly : ℤ
  /-- `ltfs_test_unit_ready` -/
  unitReady : ℤ
  /-- `ltfs_get_volume_lock` -/
  volumeLock : ℤ
  /-- `ltfs_get_volume_lock` in `ltfs_update_valid_block_count` -/
  countLock : ℤ
  /-- `tape_get_worm_status`: the code and the status -/
  wormStatus : ℤ × Bool
  /-- `ltfs_fsops_flush(NULL, …)` -/
  flush : ℤ
  setVirtual : ℤ
  removeVirtual : ℤ
  /-- `vol->index->index_criteria.have_criteria` -/
  haveCriteria : Bool
  /-- `iosched_initialized(vol)` -/
  ioschedInitialized : Bool
  alloc : Alloc
  hashAlloc : Alloc

/-- The bytes of an ASCII string. -/
def ascii (s : String) : Path := s.toList.map fun c => UInt8.ofNat c.toNat

/-! ## Attribute names -/

/-- `"ltfs.vendor.IBM.immutable"` -/
def immutableEa : Path := ascii "ltfs.vendor.IBM.immutable"

/-- `"ltfs.vendor.IBM.appendonly"` -/
def appendonlyEa : Path := ascii "ltfs.vendor.IBM.appendonly"

/-- `LTFS_LIVELINK_EA_NAME` -/
def livelinkEa : Path := ascii "ltfs.vendor.IBM.prefixLength"

/-- `LTFS_MAX_XATTR_SIZE` -/
def ltfsMaxXattrSize : ℕ := 4096

/-- `_xattr_is_worm_ea`. -/
def xattrIsWormEa (name : Path) : Bool := name == immutableEa || name == appendonlyEa

/-- `tolower` on an ASCII byte. -/
def toLower (c : UInt8) : UInt8 := if 0x41 ≤ c && c ≤ 0x5A then c + 0x20 else c

/-- `strcasestr(name, pre) == name`. -/
def startsWithCaseless (name pre : Path) : Bool :=
  (pre.map toLower).isPrefixOf (name.map toLower)

/-- `_xattr_is_stored_vea`. -/
def xattrIsStoredVea (name : Path) : Bool :=
  name == ascii "ltfs.spannedFileOffset" ||
    startsWithCaseless name (ascii "ltfs.permissions.") ||
    startsWithCaseless name (ascii "ltfs.hash.")

/-- A name in the reserved namespace that is not stored in the index. -/
def xattrIsReserved (name : Path) : Bool :=
  startsWithCaseless name (ascii "ltfs") && !xattrIsStoredVea name && !xattrIsWormEa name

/-- xattrs on all dentries. -/
def virtualOnAll : List Path :=
  ["ltfs.createTime", "ltfs.modifyTime", "ltfs.accessTime", "ltfs.changeTime",
    "ltfs.backupTime", "ltfs.fileUID", "ltfs.volumeUUID", "ltfs.volumeName",
    "ltfs.driveCaptureDump", "ltfs.softwareVersion", "ltfs.softwareFormatSpec",
    "ltfs.softwareVendor", "ltfs.softwareProduct", "ltfs.mamBarcode",
    "ltfs.mamApplicationVendor", "ltfs.mamApplicationVersion",
    "ltfs.mamApplicationFormatVersion", "ltfs.volumeLockState"].map ascii

/-- xattrs on the root dentry; `ltfs.vendor…` names are virtual there too. -/
def virtualOnRoot : List Path :=
  ["ltfs.commitMessage", "ltfs.indexVersion", "ltfs.labelVersion", "ltfs.sync",
    "ltfs.indexGeneration", "ltfs.indexTime", "ltfs.policyExists", "ltfs.policyAllowUpdate",
    "ltfs.volumeFormatTime", "ltfs.volumeBlocksize", "ltfs.volumeCompression",
    "ltfs.indexLocation", "ltfs.indexPrevious", "ltfs.indexCreator", "ltfs.labelCreator",
    "ltfs.partitionMap", "ltfs.volumeSerial", "ltfs.mediaLoads",
    "ltfs.mediaRecoveredWriteErrors", "ltfs.mediaPermanentWriteErrors",
    "ltfs.mediaRecoveredReadErrors", "ltfs.mediaPermanentReadErrors",
    "ltfs.mediaPreviousPermanentWriteErrors", "ltfs.mediaPreviousPermanentReadErrors",
    "ltfs.mediaBeginningMediumPasses", "ltfs.mediaMiddleMediumPasses", "ltfs.mediaEfficiency",
    "ltfs.mediaStorageAlert", "ltfs.mediaDatasetsWritten", "ltfs.mediaDatasetsRead",
    "ltfs.mediaMBWritten", "ltfs.mediaMBRead", "ltfs.mediaDataPartitionTotalCapacity",
    "ltfs.mediaDataPartitionAvailableSpace", "ltfs.mediaIndexPartitionTotalCapacity",
    "ltfs.mediaIndexPartitionAvailableSpace", "ltfs.mediaEncrypted",
    "ltfs.mediaPool.additionalInfo", "ltfs.mediaPool.name", "ltfs.driveEncryptionState",
    "ltfs.driveEncryptionMethod"].map ascii

/-- `_xattr_is_virtual`. -/
def xattrIsVirtual (fs : State) (env : Env) (d : ℕ) (name : Path) : Bool :=
  if name ∈ virtualOnAll then true
  -- Treat WORM related EA as real EA
  else if xattrIsWormEa name then false
  else if !(fs.dentry d).isdir && (fs.dentry d).extentlist ≠ [] &&
      (name == ascii "ltfs.partition" || name == ascii "ltfs.startblock") then true
  else if d = fs.root then
    (env.haveCriteria && name == ascii "ltfs.policyMaxFileSize") ||
      name ∈ virtualOnRoot || (ascii "ltfs.vendor").isPrefixOf name
  else false

/-! ## The list of a dentry -/

/-- Is this the attribute of that name? -/
def XattrInfo.hasName (name : Path) (x : XattrInfo) : Bool := x.key == name

/-- `_xattr_seek`. -/
def xattrSeek (d : Dentry) (name : Path) : Option XattrInfo :=
  d.xattrlist.find? (XattrInfo.hasName name)

/-- A new value for the first attribute of that name. -/
def xattrReplace (name : Path) (value : List UInt8) : List XattrInfo → List XattrInfo
  | [] => []
  | x :: rest =>
    if x.hasName name then { x with value } :: rest else x :: xattrReplace name value rest

/-- The list without the first attribute of that name. -/
def xattrErase (name : Path) (list : List XattrInfo) : List XattrInfo :=
  list.eraseP (XattrInfo.hasName name)

namespace State

/-- `xattr_do_set`. An attribute whose new value finds no memory is removed. -/
def xattrDoSet (fs : State) (d : ℕ) (name : Path) (value : List UInt8) : ℤ × State :=
  if (xattrSeek (fs.dentry d) name).isSome then
    let (stored, fs) := if value = [] then (true, fs) else fs.malloc
    if stored then
      (0, fs.modify d fun b => { b with xattrlist := xattrReplace name value b.xattrlist })
    else
      (-ltfsNoMemory, fs.modify d fun b => { b with xattrlist := xattrErase name b.xattrlist })
  else
    match fs.malloc with
    | (false, fs) => (-ltfsNoMemory, fs)
    | (true, fs) =>
      match fs.malloc with
      | (false, fs) => (-ltfsNoMemory, fs)
      | (true, fs) =>
        let (stored, fs) := if value = [] then (true, fs) else fs.malloc
        if stored then
          (0, fs.modify d fun b => { b with xattrlist := ⟨name, value⟩ :: b.xattrlist })
        else (-ltfsNoMemory, fs)

/-- `strncmp(value, "0", size) == 0` on a value of `size` bytes. -/
def disablesWormEa : List UInt8 → Bool
  | [] => true
  | [b] => b == 0x30
  | b :: c :: _ => b == 0x30 && c == 0

/-- The flags a WORM attribute sets or clears. -/
def setWormFlag (name : Path) (enable : Bool) (b : Dentry) : Dentry :=
  if name = immutableEa then { b with isImmutable := enable }
  else if name = appendonlyEa then { b with isAppendonly := enable }
  else b

/-- `xattr_set`; `create` and `replace` are the bits of `flags`. -/
def xattrSet (fs : State) (env : Env) (d : ℕ) (name : Path) (value : List UInt8)
    (create replace : Bool) : ℤ × State :=
  let b := fs.dentry d
  let isWormCart := env.wormStatus.2
  if ltfsMaxXattrSize < value.length then (-ltfsLargeXattr, fs)
  else if env.wormStatus.1 < 0 then (-ltfsXattrErr, fs)
  else if (isWormCart && (b.isImmutable || (b.isAppendonly && name ≠ immutableEa))) ||
      (!isWormCart && (b.isImmutable || b.isAppendonly) && !xattrIsWormEa name) then
    -- EA cannot be set in case of immutable/appendonly
    (-ltfsRdonlyXattr, fs)
  else if xattrIsVirtual fs env d name then
    (if env.setVirtual = -ltfsNoXattr then -ltfsRdonlyXattr else env.setVirtual, fs)
  else if xattrIsReserved name then (-ltfsRdonlyXattr, fs)
  else if create && (xattrSeek b name).isSome then (-ltfsXattrExists, fs)
  else if replace && (xattrSeek b name).isNone then (-ltfsNoXattr, fs)
  else
    let disable := xattrIsWormEa name && disablesWormEa value
    if isWormCart && disable then (-ltfsXattrErr, fs)
    else
      -- All values other than 0 are treated as 1
      let stored := if xattrIsWormEa name && !disable then ascii "1" else value
      match xattrDoSet fs d name stored with
      | (0, fs) => (0, (fs.modify d (setWormFlag name !disable)).ltfsSetDentryDirty d)
      | (ret, fs) => (ret, fs)

/-- `xattr_remove`, with `xattr_do_remove` in its unforced form. -/
def xattrRemove (fs : State) (env : Env) (d : ℕ) (name : Path) : ℤ × State :=
  let b := fs.dentry d
  if env.wormStatus.1 < 0 then (-ltfsXattrErr, fs)
  else if (b.isImmutable || b.isAppendonly) && (env.wormStatus.2 || !xattrIsWormEa name) then
    -- EA cannot be removed in case of immutable/appendonly
    (-ltfsRdonlyXattr, fs)
  else if xattrIsVirtual fs env d name then
    (if env.removeVirtual = -ltfsNoXattr then -ltfsRdonlyXattr else env.removeVirtual, fs)
  else if (xattrSeek b name).isNone then (-ltfsNoXattr, fs)
  else if xattrIsReserved name then (-ltfsRdonlyXattr, fs)
  else
    let fs := fs.modify d fun b => { b with xattrlist := xattrErase name b.xattrlist }
    (0, (fs.modify d (setWormFlag name false)).ltfsSetDentryDirty d)

section Calls

-- `pathname_normalize`: NFC by ICU, which is not part of the source
variable (normalize : List UInt8 → Except ℤ (List UInt8))

/-- `pathname_format` of a path the caller expects to exist. -/
def formatSource (path : Path) : Except ℤ Path :=
  match NameCodec.pathnameFormat normalize path true with
  | .ok newPath => .ok newPath
  | .error e => .error (if e = -ltfsInvalidPath then -ltfsInvalidSrcPath else e)

/-- The part of the two calls behind the checks: look the path up, work on the
dentry, let it go. -/
def withDentry (fs : State) (path : Path) (work : State → ℕ → ℤ × State) : ℤ × State :=
  match fs.fsPathLookup false path with
  | (.error e, fs) => (e, fs)
  | (.ok d, fs) =>
    let (ret, fs) := work fs d
    (ret, fs.fsReleaseDentry d)

/-- `ltfs_fsops_setxattr`. -/
def ltfsFsopsSetxattr (fs : State) (env : Env) (path name : Path) (value : List UInt8)
    (create replace : Bool) : ℤ × State :=
  if ltfsMaxXattrSize < value.length then (-ltfsLargeXattr, fs)
  else if env.tapeReadonly < 0 ∧ env.tapeReadonly ≠ -ltfsLessSpace ∧
      name ≠ ascii "user.ltfs.volumeLockState" then (env.tapeReadonly, fs)
  else if env.unitReady < 0 then (env.unitReady, fs)
  else
    match formatSource normalize path with
    | .error e => (e, fs)
    | .ok newPath =>
      match NameCodec.xattrKey normalize name with
      | .error e => (e, fs)
      | .ok newName =>
        -- if we are syncing the volume, flush the scheduler buffers before taking locks
        if newName = ascii "ltfs.sync" ∧ path = [slash] ∧ env.flush < 0 then (env.flush, fs)
        else if env.volumeLock < 0 then (env.volumeLock, fs)
        else withDentry fs newPath fun fs d => xattrSet fs env d newName value create replace

/-- `ltfs_fsops_removexattr`. -/
def ltfsFsopsRemovexattr (fs : State) (env : Env) (path name : Path) : ℤ × State :=
  if env.tapeReadonly < 0 ∧ env.tapeReadonly ≠ -ltfsLessSpace then (env.tapeReadonly, fs)
  else if env.unitReady < 0 then (env.unitReady, fs)
  else
    match formatSource normalize path with
    | .error e => (e, fs)
    | .ok newPath =>
      match NameCodec.xattrKey normalize name with
      -- Namespace is not supported (Linux)
      | .error e => (if e = -ltfsXattrNamespace then -ltfsNoXattr else e, fs)
      | .ok newName =>
        if env.volumeLock < 0 then (env.volumeLock, fs)
        else withDentry fs newPath fun fs d => xattrRemove fs env d newName

end Calls

end State

end Ltfs.Fs
