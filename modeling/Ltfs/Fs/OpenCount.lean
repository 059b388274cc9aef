import Ltfs.Fs.DentryPath
import Ltfs.TimeText

/-!
# Open files

`vol->file_open_count` and the calls that change it: open, open_combo, create and close, and the
calls that take a path, open it, work on the dentry and close it again.

`LtfsVolume` is the name tree with the counter. `PathCall` has the calls that should leave no
reference behind; `OpenCall` has the calls that hand a dentry out or take it back.

A call that opens and closes takes the volume lock more than once: `env` is what it meets first,
`env'` what it meets behind the open. `Iosched` is what `iosched_close` does.
-/

namespace Ltfs.Fs

open Function Time

/-- What of `struct ltfs_volume` the calls look at. -/
structure LtfsVolume where
  fs : State
  fileOpenCount : ℕ
  livelink : Bool
  mountpoint : Path
  mountpointLen : ℕ

/-- `iosched_close`: its code, and what it stores before it releases the dentry. -/
structure Iosched where
  ret : ℤ
  log : DataLog

/-- `ltfs_fsraw_close`, which always succeeds. -/
def Iosched.raw : Iosched := ⟨0, []⟩

/-- `sscanf(value, "%d:%d", &num1, &num2) == 1` on the value of the livelink attribute: `num1`.
`value` has 32 bytes. -/
def livelinkPrefix (b : Dentry) : Option ℤ :=
  match xattrSeek b livelinkEa with
  | none => none
  | some xattr =>
    if xattr.value = [] ∨ 32 < xattr.value.length then none
    else
      let text := (xattr.value.takeWhile (· ≠ 0)).map fun c => Char.ofNat c.toNat
      match sscanf [.int none, .char ':', .int none] text with
      | [num1] => some num1
      | _ => none

namespace LtfsVolume

section Calls

-- `pathname_normalize`: NFC by ICU, which is not part of the source
variable (normalize : List UInt8 → Except ℤ (List UInt8)) (blocksize : ℕ)

/-! ## Open and close -/

/-- `ltfs_fsops_close`. -/
def ltfsFsopsClose (vol : LtfsVolume) (env : Env) (io : Iosched) (d : ℕ)
    (openWrite useIosched : Bool) : ℤ × LtfsVolume :=
  let retU := if openWrite then (vol.fs.ltfsFsopsUpdateUsedBlocks env blocksize d).1 else 0
  let io :=
    if useIosched && !(vol.fs.dentry d).isdir && env.ioschedInitialized then io else Iosched.raw
  let fs := vol.fs.ltfsFsopsClose env blocksize d openWrite io.log
  let ret := if io.ret = 0 ∧ retU ≠ 0 then retU else io.ret
  (ret, { vol with
    fs
    fileOpenCount :=
      if ret = 0 ∧ 0 < vol.fileOpenCount then vol.fileOpenCount - 1 else vol.fileOpenCount })

/-- `ltfs_fsops_open`. -/
def ltfsFsopsOpen (vol : LtfsVolume) (env : Env) (io : Iosched) (path : Path)
    (openWrite useIosched : Bool) : Except ℤ ℕ × LtfsVolume :=
  if openWrite = true ∧ env.tapeReadonly < 0 ∧ env.tapeReadonly ≠ -ltfsLessSpace then
    (.error env.tapeReadonly, vol)
  else
    match State.formatSource normalize path with
    | .error e => (.error e, vol)
    | .ok pathNorm =>
      if env.volumeLock < 0 then (.error env.volumeLock, vol)
      else
        match vol.fs.fsPathLookup false pathNorm with
        | (.error e, fs) => (.error e, { vol with fs })
        | (.ok d, fs) =>
          let vol := { vol with fs }
          if openWrite && (fs.dentry d).isslink then
            (.error (-ltfsRdonlyVolume),
              (vol.ltfsFsopsClose blocksize env io d openWrite useIosched).2)
          else (.ok d, { vol with fileOpenCount := vol.fileOpenCount + 1 })

/-- `ltfs_fsops_open_combo`: the dentry and `*is_readonly`. -/
def ltfsFsopsOpenCombo (vol : LtfsVolume) (env : Env) (path : Path)
    (openWrite isopendir : Bool) : Except ℤ (ℕ × Bool) × LtfsVolume :=
  if openWrite = true ∧ env.tapeReadonly < 0 ∧ env.tapeReadonly ≠ -ltfsLessSpace then
    (.error env.tapeReadonly, vol)
  else
    match State.formatSource normalize path with
    | .error e => (.error e, vol)
    | .ok pathNorm =>
      if env.volumeLock < 0 then (.error env.volumeLock, vol)
      else
        match vol.fs.fsPathLookup false pathNorm with
        | (.error e, fs) => (.error e, { vol with fs })
        | (.ok dtmp, fs) =>
          let wrongKind := (fs.dentry dtmp).isdir != isopendir
          let fs := fs.fsReleaseDentry dtmp
          if wrongKind then (.error (-ltfsNoDentry), { vol with fs })
          else
            match fs.fsPathLookup false pathNorm with
            | (.error e, fs) => (.error e, { vol with fs })
            | (.ok d, fs) => (.ok (d, (fs.dentry d).readonly), { vol with fs })

/-- `ltfs_fsops_create`. The counter goes up before the attribute of an append-only directory is
inherited, which can still fail. -/
def ltfsFsopsCreate (vol : LtfsVolume) (env xenv : Env) (path : Path)
    (isdir readonly overwrite : Bool) : Except ℤ ℕ × LtfsVolume :=
  if env.tapeReadonly < 0 then (.error env.tapeReadonly, vol)
  else if env.unitReady < 0 then (.error env.unitReady, vol)
  else
    match NameCodec.pathnameFormat normalize path true with
    | .error e => (.error e, vol)
    | .ok pathNorm =>
      if env.volumeLock < 0 then (.error env.volumeLock, vol)
      else
        match vol.fs.fsPathLookup false (State.fsSplitPath pathNorm).1 with
        | (.error e, fs) => (.error e, { vol with fs })
        | (.ok parent, fs) =>
          match fs.createIn parent (State.fsSplitPath pathNorm).1 (State.fsSplitPath pathNorm).2 isdir readonly
              overwrite with
          | (.error e, fs) => (.error e, { vol with fs := fs.fsReleaseDentry parent })
          | (.ok d, fs) =>
            let (ret, fs) := fs.inheritAppendonly normalize xenv parent d path
            (ret, { vol with
              fs := fs.fsReleaseDentry parent, fileOpenCount := vol.fileOpenCount + 1 })

/-! ## Calls on a path -/

/-- Open a path for reading, work on the dentry, close it: `ltfs_fsops_getattr_path` and
`ltfs_fsops_utimens_path`. -/
def onPath (vol : LtfsVolume) (env env' : Env) (path : Path) (work : State → ℕ → ℤ × State) :
    ℤ × LtfsVolume :=
  match vol.ltfsFsopsOpen normalize blocksize env Iosched.raw path false false with
  | (.error e, vol) => (e, vol)
  | (.ok d, vol) =>
    let (ret, fs) := work vol.fs d
    (ret, ({ vol with fs }.ltfsFsopsClose blocksize env' Iosched.raw d false false).2)

/-- `ltfs_fsops_getattr`, which changes nothing. -/
def ltfsFsopsGetattr (env : Env) (fs : State) (_d : ℕ) : ℤ × State :=
  if env.volumeLock < 0 then (env.volumeLock, fs) else (0, fs)

/-- `ltfs_fsops_utimens`; `accessTime` and `modifyTime` say which of the times are new. -/
def ltfsFsopsUtimens (env : Env) (accessTime modifyTime : Bool) (fs : State) (d : ℕ) : ℤ × State :=
  if env.tapeReadonly < 0 ∧ env.tapeReadonly ≠ -ltfsLessSpace then (env.tapeReadonly, fs)
  else if env.unitReady < 0 then (env.unitReady, fs)
  else if env.volumeLock < 0 then (env.volumeLock, fs)
  else
    let fs := if accessTime then fs.ltfsSetDentryDirty d else fs
    let fs := if modifyTime then fs.ltfsSetDentryDirty d else fs
    (0, fs)

/-- `ltfs_fsops_set_readonly`. -/
def ltfsFsopsSetReadonly (env : Env) (readonly : Bool) (fs : State) (d : ℕ) : ℤ × State :=
  if env.tapeReadonly < 0 ∧ env.tapeReadonly ≠ -ltfsLessSpace then (env.tapeReadonly, fs)
  else if env.unitReady < 0 then (env.unitReady, fs)
  else if env.volumeLock < 0 then (env.volumeLock, fs)
  else if readonly ≠ (fs.dentry d).readonly then
    (0, (fs.modify d fun b => { b with readonly }).ltfsSetDentryDirty d)
  else (0, fs)

/-- `ltfs_fsops_set_readonly_path`. -/
def ltfsFsopsSetReadonlyPath (vol : LtfsVolume) (env env' : Env) (path : Path) (readonly : Bool) :
    ℤ × LtfsVolume :=
  match vol.ltfsFsopsOpen normalize blocksize env Iosched.raw path false false with
  | (.error e, vol) => (e, vol)
  | (.ok d, vol) =>
    if vol.fs.isWorm d then (-ltfsWormEnabled, vol)
    else
      let (ret, fs) := ltfsFsopsSetReadonly env' readonly vol.fs d
      (ret, ({ vol with fs }.ltfsFsopsClose blocksize env' Iosched.raw d false false).2)

/-- `ltfs_fsops_truncate_path`. -/
def ltfsFsopsTruncatePath (vol : LtfsVolume) (env env' : Env) (path : Path) (length : ℤ)
    (log : DataLog) : ℤ × LtfsVolume :=
  match vol.ltfsFsopsOpen normalize blocksize env Iosched.raw path true false with
  | (.error e, vol) => (e, vol)
  | (.ok d, vol) =>
    let (ret, fs) := vol.fs.ltfsFsopsTruncate env' blocksize d length log
    (ret, ({ vol with fs }.ltfsFsopsClose blocksize env' Iosched.raw d true false).2)

/-- What `ltfs_fsops_readlink_path` puts into the buffer; `none` where it is too small. -/
def linkText (vol : LtfsVolume) (b : Dentry) (size : ℕ) : Option Path :=
  if size < b.target.length + 1 then none
  else if vol.livelink then
    match livelinkPrefix b with
    | none => some b.target
    | some num1 =>
      if num1 = 0 then some b.target
      -- the sum is made with `size_t`
      else if (size : ℤ) < (b.target.length - num1 + vol.mountpointLen + 1) % 2 ^ 64 then none
      else some (vol.mountpoint ++ b.target.drop num1.toNat)
  else some b.target

/-- `ltfs_fsops_readlink_path`. Behaviour is undefined for a dentry without a target, which is no
symbolic link. -/
def ltfsFsopsReadlinkPath (vol : LtfsVolume) (env env' : Env) (io : Iosched) (path : Path)
    (size : ℕ) : Option (Except ℤ Path × LtfsVolume) :=
  match vol.ltfsFsopsOpen normalize blocksize env Iosched.raw path false env.ioschedInitialized with
  | (.error e, vol) => some (.error e, vol)
  | (.ok d, vol) =>
    if (vol.fs.dentry d).target = [] then none
    else
      match vol.linkText (vol.fs.dentry d) size with
      | none => some (.error (-ltfsSmallBuffer), vol)
      | some buf =>
        let (ret, vol) :=
          vol.ltfsFsopsClose blocksize env' io d false env.ioschedInitialized
        some (if ret < 0 then .error ret else .ok buf, vol)

end Calls

end LtfsVolume

/-! ## `fs_path_clean` -/

namespace State

/-- The loop of `fs_path_clean` over the names between slashes. -/
def fsPathCleanWalk : State → ℕ → List Path → ℤ × State
  | fs, _, [] => (0, fs)
  | fs, parent, start :: rest =>
    match fsDirectoryLookup fs parent start with
    | (.error e, fs) => (e, fs.fsReleaseDentry parent)
    | (.ok none, fs) => (-ltfsNoDentry, fs.fsReleaseDentry parent)
    | (.ok (some d), fs) =>
      fsPathCleanWalk ((fs.unhold parent).modify d fun b => { b with dirty := false }) d rest

/-- `fs_path_clean`. -/
def fsPathClean (fs : State) (path : Path) : ℤ × State :=
  match fs.malloc with
  | (false, fs) => (-ltfsNoMemory, fs)
  | (true, fs) =>
    let fs := (fs.hold fs.root).modify fs.root fun b => { b with dirty := false }
    if path = [] ∨ path = [slash] then (0, fs)
    else fsPathCleanWalk fs fs.root ((path.drop 1).splitOn slash)

end State

/-! ## The calls that should leave no reference behind -/

/-- A call, with what it meets behind the open. -/
inductive PathCall where
  | unlink (path : Path)
  | rename (src dst : Path)
  | pathClean (path : Path)
  | getattrPath (env' : Env) (path : Path)
  | utimensPath (env' : Env) (path : Path) (accessTime modifyTime : Bool)
  | setReadonlyPath (env' : Env) (path : Path) (readonly : Bool)
  | truncatePath (env' : Env) (path : Path) (length : ℤ) (log : DataLog)
  | readlinkPath (env' : Env) (io : Iosched) (path : Path) (size : ℕ)

section Exec

variable (normalize : List UInt8 → Except ℤ (List UInt8)) (blocksize : ℕ)

/-- One call; `none` where behaviour is undefined. -/
def PathCall.exec (env : Env) (vol : LtfsVolume) : PathCall → Option LtfsVolume
  | .unlink path => some { vol with fs := (vol.fs.ltfsFsopsUnlink normalize env path).2 }
  | .rename src dst => some { vol with fs := (vol.fs.ltfsFsopsRename normalize env src dst).2 }
  | .pathClean path => some { vol with fs := (vol.fs.fsPathClean path).2 }
  | .getattrPath env' path =>
    some (vol.onPath normalize blocksize env env' path (LtfsVolume.ltfsFsopsGetattr env')).2
  | .utimensPath env' path accessTime modifyTime =>
    some (vol.onPath normalize blocksize env env' path
      (LtfsVolume.ltfsFsopsUtimens env' accessTime modifyTime)).2
  | .setReadonlyPath env' path readonly =>
    some (vol.ltfsFsopsSetReadonlyPath normalize blocksize env env' path readonly).2
  | .truncatePath env' path length log =>
    some (vol.ltfsFsopsTruncatePath normalize blocksize env env' path length log).2
  | .readlinkPath env' io path size =>
    (vol.ltfsFsopsReadlinkPath normalize blocksize env env' io path size).map Prod.snd

/-! ## The calls that hand dentries out -/

/-- A call that hands a dentry out, or takes one back. -/
inductive OpenCall where
  | openPath (io : Iosched) (path : Path) (openWrite useIosched : Bool)
  | openCombo (path : Path) (openWrite isopendir : Bool)
  | create (xenv : Env) (path : Path) (isdir readonly overwrite : Bool)
  | close (io : Iosched) (d : ℕ) (openWrite useIosched : Bool)

/-- A volume and the dentries that were handed out and are not closed yet. -/
structure Clients where
  vol : LtfsVolume
  handles : List ℕ

/-- A dentry is handed out. -/
def Clients.handOut (s : Clients) : Except ℤ ℕ × LtfsVolume → Option Clients
  | (.ok d, vol) => some ⟨vol, d :: s.handles⟩
  | (.error _, _) => none

/-- One call that succeeds; only what was handed out is closed. -/
def OpenCall.exec (env : Env) (s : Clients) : OpenCall → Option Clients
  | .openPath io path openWrite useIosched =>
    s.handOut (s.vol.ltfsFsopsOpen normalize blocksize env io path openWrite useIosched)
  | .openCombo path openWrite isopendir =>
    let (ret, vol) := s.vol.ltfsFsopsOpenCombo normalize env path openWrite isopendir
    s.handOut (ret.map Prod.fst, vol)
  | .create xenv path isdir readonly overwrite =>
    s.handOut (s.vol.ltfsFsopsCreate normalize env xenv path isdir readonly overwrite)
  | .close io d openWrite useIosched =>
    let (ret, vol) := s.vol.ltfsFsopsClose blocksize env io d openWrite useIosched
    if d ∈ s.handles ∧ ret = 0 then some ⟨vol, s.handles.erase d⟩ else none

/-- A sequence of calls that all succeed. -/
def runOpen : List (Env × OpenCall) → Clients → Option Clients
  | [], s => some s
  | c :: rest, s => (c.2.exec normalize blocksize c.1 s).bind (runOpen rest)

end Exec

end Ltfs.Fs
