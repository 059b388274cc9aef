import Ltfs.Fs.Xattr

/-!
# File system operations

The calls of `ltfs_fsops.c` that change the name tree or its counters: create,
unlink, rename, symlink, setxattr and removexattr, and write, truncate and close as
far as they change dentries. `Call.exec` is one call on the whole state, `runCalls` a
sequence of them.

Data goes through the I/O scheduler or straight to `ltfs_fsops_raw.c`. What a call
sees of it is a `DataLog`: the extent lists and sizes stored on the way.

Left out: the dentry cache, the placement of data (`matches_name_criteria`,
`iosched_update_data_placement`), times.
-/

namespace Ltfs.Fs

open Function

/-- An extent list and a size that `ltfs_fsops_raw.c` stores in a dentry. -/
structure FileData where
  extentlist : List ExtentInfo
  size : ℕ

/-- What is stored in which dentry during a call, in order. -/
abbrev DataLog := List (ℕ × FileData)

namespace State

/-- The end of `ltfs_fsraw_add_extent` and `ltfs_fsraw_truncate`, for each entry. -/
def storeData (fs : State) (log : DataLog) : State :=
  log.foldl (fun fs x =>
    (fs.modify x.1 fun b =>
      { b with extentlist := x.2.extentlist, size := x.2.size }).ltfsSetDentryDirty x.1) fs

/-- `ltfs_fsops_update_used_blocks`. -/
def ltfsFsopsUpdateUsedBlocks (fs : State) (env : Env) (blocksize d : ℕ) : ℤ × State :=
  let usedSave := (fs.dentry d).usedBlocks
  let usedBlocks := fsGetUsedBlocks blocksize (fs.dentry d).extentlist
  let fs := fs.modify d fun b => { b with usedBlocks }
  if env.countLock < 0 then (env.countLock, fs)
  else (0, { fs with validBlocks := fs.validBlocks + (usedBlocks - usedSave) })

section Calls

-- `pathname_normalize`: NFC by ICU, which is not part of the source
variable (normalize : List UInt8 → Except ℤ (List UInt8))

/-! ## Create -/

/-- Link a new dentry into its parent: the part of `ltfs_fsops_create` from the
reference counters to the increment of `vol->file_open_count`. -/
def linkNew (fs : State) (parent d : ℕ) (pathNorm : Path) (isdir : Bool) : ℤ × State :=
  let fs := fs.modify d fun b =>
    { b with parent := some parent, linkCount := b.linkCount + 1 }
  let fs := fs.hold d
  let fs :=
    if isdir then fs.modify parent fun b => { b with linkCount := b.linkCount + 1 } else fs
  match fs.fsAddKeyToHashTable parent d with
  | (0, fs) =>
    let fs := if isdir then fs else { fs with fileCount := fs.fileCount + 1 }
    let fs := fs.journalize fun j alloc hashAlloc =>
      j.incjCreate alloc hashAlloc pathNorm (fs.journalTarget d)
    (0, fs.modify d fun b => { b with dirty := true })
  | (ret, fs) => (ret, fs)

/-- `ltfs_fsops_create` below a parent that was found. -/
def createIn (fs : State) (parent : ℕ) (pathNorm filename : Path)
    (isdir readonly overwrite : Bool) : Except ℤ ℕ × State :=
  if (fs.dentry parent).isImmutable then (.error (-ltfsWormEnabled), fs)
  else if (fs.dentry parent).isAppendonly && overwrite then (.error (-ltfsWormEnabled), fs)
  else
    -- Make sure target path doesn't exist
    match fs.fsDirectoryLookup parent filename with
    | (.error e, fs) => (.error e, fs)
    | (.ok (some d), fs) => (.error (-ltfsDentryExists), fs.fsReleaseDentry d)
    | (.ok none, fs) =>
      match fs.fsAllocateDentry filename isdir readonly with
      | (none, fs) => (.error (-ltfsNoMemory), fs)
      | (some d, fs) =>
        match fs.linkNew parent d pathNorm isdir with
        | (0, fs) => (.ok d, fs)
        | (ret, fs) => (.error ret, fs)

/-- The end of `ltfs_fsops_create`: a new dentry in an append-only directory becomes
append-only itself. `xenv` is what the inner `ltfs_fsops_setxattr` meets. -/
def inheritAppendonly (fs : State) (xenv : Env) (parent d : ℕ) (path : Path) :
    Except ℤ ℕ × State :=
  if (fs.dentry parent).isAppendonly then
    match fs.ltfsFsopsSetxattr normalize xenv path
        (NameCodec.userPrefix ++ appendonlyEa) (ascii "1") false false with
    | (0, fs) => (.ok d, fs)
    | (ret, fs) => (.error ret, fs.fsReleaseDentry d)
  else (.ok d, fs)

/-- `ltfs_fsops_create`. -/
def ltfsFsopsCreate (fs : State) (env xenv : Env) (path : Path)
    (isdir readonly overwrite : Bool) : Except ℤ ℕ × State :=
  if env.tapeReadonly < 0 then (.error env.tapeReadonly, fs)
  else if env.unitReady < 0 then (.error env.unitReady, fs)
  else
    match NameCodec.pathnameFormat normalize path true with
    | .error e => (.error e, fs)
    | .ok pathNorm =>
      if env.volumeLock < 0 then (.error env.volumeLock, fs)
      else
        let dir := (fsSplitPath pathNorm).1
        let filename := (fsSplitPath pathNorm).2
        -- Lookup the parent dentry
        match fs.fsPathLookup false dir with
        | (.error e, fs) => (.error e, fs)
        | (.ok parent, fs) =>
          match fs.createIn parent dir filename isdir readonly overwrite with
          | (.error e, fs) => (.error e, fs.fsReleaseDentry parent)
          | (.ok d, fs) =>
            let (ret, fs) := fs.inheritAppendonly normalize xenv parent d path
            (ret, fs.fsReleaseDentry parent)

/-! ## Unlink -/

/-- Take a dentry out of its parent: `ltfs_fsops_unlink` from the hash table on. -/
def unlinkFound (fs : State) (parent d : ℕ) (pathNorm : Path) : State :=
  let fs := fs.hashDel parent (fs.dentry d).platformSafeName
  let fs := fs.modify d fun b =>
    { b with deleted := true, parent := none, linkCount := b.linkCount - 1 }
  let isdir := (fs.dentry d).isdir
  let fs :=
    if isdir then fs.modify parent fun b => { b with linkCount := b.linkCount - 1 } else fs
  let fs := fs.unhold d
  let fs :=
    if isdir then
      fs.journalize fun j alloc hashAlloc =>
        j.incjRmdir alloc hashAlloc pathNorm (fs.journalTarget d)
    else
      let fs := fs.journalize fun j alloc hashAlloc =>
        j.incjRmfile alloc hashAlloc pathNorm (fs.journalTarget d)
      { fs with fileCount := fs.fileCount - 1 }
  { fs with validBlocks := fs.validBlocks - (fs.dentry d).usedBlocks }

/-- `ltfs_fsops_unlink` of a dentry that was found in its parent. -/
def unlinkIn (fs : State) (parent d : ℕ) (pathNorm : Path) : ℤ × State :=
  let p := fs.dentry parent
  let b := fs.dentry d
  if p.isImmutable || p.isAppendonly then (-ltfsWormEnabled, fs)
  else if b.isImmutable || b.isAppendonly then (-ltfsWormEnabled, fs)
  -- Can't remove non-empty directories
  else if b.isdir && b.childList.length ≠ 0 then (-ltfsDirnotempty, fs)
  else
    match fs.fsFindKeyFromHashTable p.childList b.platformSafeName with
    | (none, fs) => (0, fs)
    | (some _, fs) => (0, fs.unlinkFound parent d pathNorm)

/-- `ltfs_fsops_unlink`. -/
def ltfsFsopsUnlink (fs : State) (env : Env) (path : Path) : ℤ × State :=
  if env.tapeReadonly < 0 ∧ env.tapeReadonly ≠ -ltfsLessSpace then (env.tapeReadonly, fs)
  else if env.unitReady < 0 then (env.unitReady, fs)
  else
    match formatSource normalize path with
    | .error e => (e, fs)
    | .ok pathNorm =>
      -- Cannot remove the root dentry
      if pathNorm.drop 1 = [] then (-ltfsUnlinkroot, fs)
      else if env.volumeLock < 0 then (env.volumeLock, fs)
      else
        match fs.fsPathLookup true pathNorm with
        | (.error e, fs) => (e, fs)
        | (.ok d, fs) =>
          match (fs.dentry d).parent with
          -- a dentry found by its name has a parent; the source relies on it
          | none => (0, fs)
          | some parent =>
            let (ret, fs) := fs.unlinkIn parent d pathNorm
            (ret, (fs.fsReleaseDentry parent).fsReleaseDentry d)

/-! ## Rename -/

/-- What `ltfs_fsops_rename` holds when it reaches `out_unlock`. -/
structure Renamed where
  ret : ℤ
  fromdentry : Option ℕ
  fs : State

/-- Let a dentry go that may be one of the two directories: these are released
later on, so only the count is decremented. -/
def releaseUnless (fs : State) (dir d : ℕ) : State :=
  if d = dir then fs.unhold d else fs.fsReleaseDentry d

/-- The source and the destination dentry of a rename: `error` where the lookups
end it. -/
def renameLookup (fs : State) (fromdir todir : ℕ) (fromFilename toFilename : Path) :
    Except ℤ (ℕ × Option ℕ) × State :=
  if todir = fromdir ∨ fs.fsIsPredecessor todir fromdir = true then
    match fs.fsDirectoryLookup todir toFilename with
    | (.error e, fs) => (.error e, fs)
    | (.ok todentry, fs) =>
      match fs.fsDirectoryLookup fromdir fromFilename with
      | (.ok (some fromdentry), fs) => (.ok (fromdentry, todentry), fs)
      -- no source, whatever the reason
      | (_, fs) =>
        (.error (-ltfsNoDentry),
          match todentry with
          | none => fs
          | some todentry => fs.releaseUnless fromdir todentry)
  else
    match fs.fsDirectoryLookup fromdir fromFilename with
    | (.error e, fs) => (.error e, fs)
    | (.ok none, fs) => (.error (-ltfsNoDentry), fs)
    | (.ok (some fromdentry), fs) =>
      match fs.fsDirectoryLookup todir toFilename with
      | (.error e, fs) => (.error e, fs.releaseUnless todir fromdentry)
      | (.ok todentry, fs) => (.ok (fromdentry, todentry), fs)

/-- A dentry cannot move below itself, and nothing can replace what lies above it. -/
def renameLoops (fs : State) (fromdir todir fromdentry : ℕ) (todentry : Option ℕ) : ℤ :=
  if fromdentry = todir ∨ fs.fsIsPredecessor fromdentry todir = true then -ltfsRenameloop
  else
    match todentry with
    | none => 0
    | some todentry =>
      if todentry = fromdir ∨ fs.fsIsPredecessor todentry fromdir = true then
        if (fs.dentry fromdentry).isdir then -ltfsDirnotempty else -ltfsIsfile
      else 0

/-- Unlink the destination of a rename; `false` if its entry was not found. -/
def unlinkTarget (fs : State) (todir todentry : ℕ) : Bool × State :=
  let fs :=
    if (fs.dentry todentry).isdir then
      fs.modify todir fun b => { b with linkCount := b.linkCount - 1 }
    else fs
  let fs := fs.unhold todentry
  let fs := fs.modify todentry fun b =>
    { b with linkCount := b.linkCount - 1, parent := none, deleted := true }
  let name := (fs.dentry todentry).platformSafeName
  match fs.fsFindKeyFromHashTable (fs.dentry todir).childList name with
  | (none, fs) => (false, fs)
  | (some _, fs) =>
    let fs := fs.hashDel todir name
    -- the test is on the directory, not on the dentry that goes
    let fs :=
      if !(fs.dentry todir).isdir then { fs with fileCount := fs.fileCount - 1 } else fs
    (true, fs.fsReleaseDentry todentry)

/-- Move the source to its new place: `ltfs_fsops_rename` from the removal from the
old directory to `out_unlock`. -/
def moveDentry (fs : State) (env : Env) (fromdir todir fromdentry : ℕ)
    (fromNorm toDirNorm toFilename : Path) : Renamed :=
  let name := (fs.dentry fromdentry).platformSafeName
  match fs.fsFindKeyFromHashTable (fs.dentry fromdir).childList name with
  | (none, fs) => ⟨0, fromdentry, fs⟩
  | (some _, fs) =>
    let fs := fs.hashDel fromdir name
    let isdir := (fs.dentry fromdentry).isdir
    let fs :=
      if isdir then
        (fs.modify fromdir fun b => { b with linkCount := b.linkCount - 1 }).modify todir
          fun b => { b with linkCount := b.linkCount + 1 }
      else fs
    -- Update fromdentry
    let fs := fs.modify fromdentry fun b =>
      { b with parent := some todir, platformSafeName := toFilename }
    match fs.fsAddKeyToHashTable todir fromdentry with
    | (0, fs) =>
      let fs := fs.modify fromdentry fun b => { b with dirty := true }
      -- Process the incremental journal
      let fs :=
        if isdir then
          fs.journalize fun j alloc hashAlloc =>
            j.incjRmdir alloc hashAlloc fromNorm (fs.journalTarget fromdentry)
        else
          fs.journalize fun j alloc hashAlloc =>
            j.incjRmfile alloc hashAlloc fromNorm (fs.journalTarget fromdentry)
      let fs := fs.journalize fun j alloc hashAlloc =>
        j.incjCreate alloc hashAlloc toDirNorm (fs.journalTarget fromdentry)
      ⟨0, fromdentry,
        if env.ioschedInitialized then fs else fs.fsReleaseDentry fromdentry⟩
    | (ret, fs) => ⟨ret, fromdentry, fs⟩

/-- `ltfs_fsops_rename` between two dentries that may be renamed. -/
def renameChecked (fs : State) (env : Env) (fromdir todir fromdentry : ℕ)
    (todentry : Option ℕ) (fromNorm toDirNorm toFilename : Path) : Renamed :=
  match todentry with
  | none => moveDentry fs env fromdir todir fromdentry fromNorm toDirNorm toFilename
  | some todentry =>
    if todentry ≠ fromdentry then
      if (fs.dentry todentry).isdir && (fs.dentry todentry).childList.length ≠ 0 then
        ⟨-ltfsDirnotempty, fromdentry,
          (fs.fsReleaseDentry fromdentry).fsReleaseDentry todentry⟩
      else
        match fs.unlinkTarget todir todentry with
        | (false, fs) => ⟨0, fromdentry, fs⟩
        | (true, fs) => moveDentry fs env fromdir todir fromdentry fromNorm toDirNorm toFilename
    else
      -- the name could still change
      moveDentry (fs.fsReleaseDentry todentry) env fromdir todir fromdentry fromNorm toDirNorm
        toFilename

/-- Is the dentry protected? -/
def isWorm (fs : State) (d : ℕ) : Bool := (fs.dentry d).isImmutable || (fs.dentry d).isAppendonly

/-- `ltfs_fsops_rename` between two directories that were found. -/
def renameIn (fs : State) (env : Env) (fromdir todir : ℕ)
    (fromNorm fromFilename toDirNorm toFilename : Path) : Renamed :=
  if fs.isWorm fromdir || fs.isWorm todir then ⟨-ltfsWormEnabled, none, fs⟩
  else
    match fs.renameLookup fromdir todir fromFilename toFilename with
    | (.error e, fs) => ⟨e, none, fs⟩
    | (.ok (fromdentry, todentry), fs) =>
      let loops := fs.renameLoops fromdir todir fromdentry todentry
      if loops < 0 then
        let fs := fs.releaseUnless todir fromdentry
        ⟨loops, fromdentry,
          match todentry with
          | none => fs
          | some todentry => fs.releaseUnless fromdir todentry⟩
      else if fs.isWorm fromdentry then
        ⟨-ltfsWormEnabled, fromdentry, fs.fsReleaseDentry fromdentry⟩
      else if todentry.any fs.isWorm then
        let fs' := fs.fsReleaseDentry fromdentry
        ⟨-ltfsWormEnabled, fromdentry,
          match todentry with
          | none => fs'
          | some todentry => fs'.fsReleaseDentry todentry⟩
      else
        fs.renameChecked env fromdir todir fromdentry todentry fromNorm toDirNorm toFilename

/-- The copies of names and paths a rename makes before it starts. -/
def renameCopies (fs : State) : Bool × State :=
  let (from₁, fs) := fs.malloc
  let (to₁, fs) := fs.malloc
  if !from₁ || !to₁ then (false, fs)
  else
    let (to₂, fs) := fs.malloc
    let (to₃, fs) := fs.malloc
    (to₂ && to₃, fs)

/-- `ltfs_fsops_rename`. -/
def ltfsFsopsRename (fs : State) (env : Env) (src dst : Path) : ℤ × State :=
  if env.tapeReadonly < 0 ∧ env.tapeReadonly ≠ -ltfsLessSpace then (env.tapeReadonly, fs)
  else if env.unitReady < 0 then (env.unitReady, fs)
  else
    match formatSource normalize src with
    | .error e => (e, fs)
    | .ok fromNorm =>
      match NameCodec.pathnameFormat normalize dst true with
      | .error e => (e, fs)
      | .ok toNorm =>
        match fs.renameCopies with
        | (false, fs) => (-ltfsNoMemory, fs)
        | (true, fs) =>
          if env.volumeLock < 0 then (env.volumeLock, fs)
          else
            -- Look up directories
            match fs.fsPathLookup false (fsSplitPath fromNorm).1 with
            | (.error e, fs) => (e, fs)
            | (.ok fromdir, fs) =>
              match fs.fsPathLookup false (fsSplitPath toNorm).1 with
              | (.error e, fs) => (e, fs.fsReleaseDentry fromdir)
              | (.ok todir, fs) =>
                let r := fs.renameIn env fromdir todir fromNorm (fsSplitPath fromNorm).2
                  (fsSplitPath toNorm).1 (fsSplitPath toNorm).2
                let fs := (r.fs.fsReleaseDentry fromdir).fsReleaseDentry todir
                match r.fromdentry with
                | none => (r.ret, fs)
                | some fromdentry =>
                  if r.ret = 0 ∧ env.ioschedInitialized = true then
                    (r.ret, fs.fsReleaseDentry fromdentry)
                  else (r.ret, fs)

/-! ## Data -/

/-- `ltfs_fsops_write`, on a dentry the caller has open. -/
def ltfsFsopsWrite (fs : State) (d offset : ℕ) (log : DataLog) : State :=
  let b := fs.dentry d
  if b.isdir then fs
  else if b.isImmutable || (b.isAppendonly && offset ≠ b.size) then fs
  else fs.storeData log

/-- `ltfs_fsops_truncate`, on a dentry the caller has open. -/
def ltfsFsopsTruncate (fs : State) (env : Env) (blocksize d : ℕ) (length : ℤ) (log : DataLog) :
    ℤ × State :=
  let b := fs.dentry d
  if length < 0 then (-ltfsBadArg, fs)
  else if b.isdir then (-ltfsIsdirectory, fs)
  else if env.tapeReadonly < 0 then (env.tapeReadonly, fs)
  else if b.isImmutable || b.isAppendonly then (-ltfsWormEnabled, fs)
  else if env.unitReady < 0 then (env.unitReady, fs)
  -- the code of the truncation itself is overwritten
  else ltfsFsopsUpdateUsedBlocks (fs.storeData log) env blocksize d

/-- `ltfs_fsops_close`. The used blocks are counted before the scheduler flushes. -/
def ltfsFsopsClose (fs : State) (env : Env) (blocksize d : ℕ) (openWrite : Bool)
    (log : DataLog) : State :=
  let fs := if openWrite then (ltfsFsopsUpdateUsedBlocks fs env blocksize d).2 else fs
  (fs.storeData log).fsReleaseDentry d

/-- `ltfs_fsops_open`. A symbolic link cannot be opened for writing. -/
def ltfsFsopsOpen (fs : State) (env : Env) (blocksize : ℕ) (path : Path) (openWrite : Bool) :
    Except ℤ ℕ × State :=
  if openWrite = true ∧ env.tapeReadonly < 0 ∧ env.tapeReadonly ≠ -ltfsLessSpace then
    (.error env.tapeReadonly, fs)
  else
    match formatSource normalize path with
    | .error e => (.error e, fs)
    | .ok pathNorm =>
      if env.volumeLock < 0 then (.error env.volumeLock, fs)
      else
        match fs.fsPathLookup false pathNorm with
        | (.error e, fs) => (.error e, fs)
        | (.ok d, fs) =>
          if openWrite && (fs.dentry d).isslink then
            (.error (-ltfsRdonlyVolume), fs.ltfsFsopsClose env blocksize d openWrite [])
          else (.ok d, fs)

/-- `xattr_set_mountpoint_length`. -/
def xattrSetMountpointLength (fs : State) (d : ℕ) (value : List UInt8) : ℤ × State :=
  xattrDoSet fs d livelinkEa value

/-- `ltfs_fsops_symlink_path`. `length` is the text of the mount point length. -/
def ltfsFsopsSymlinkPath (fs : State) (env xenv : Env) (blocksize : ℕ) (target path : Path)
    (length : List UInt8) : ℤ × State :=
  match fs.ltfsFsopsCreate normalize env xenv path false true false with
  | (.error e, fs) => (e, fs)
  | (.ok d, fs) =>
    let (copied, fs) := fs.malloc
    let fs := fs.modify d fun b =>
      { b with target := if copied then target else [], isslink := true }
    match fs.malloc with
    -- the new dentry stays open
    | (false, fs) => (-ltfsNoMemory, fs)
    | (true, fs) =>
      let (ret, fs) := fs.xattrSetMountpointLength d length
      (ret, fs.ltfsFsopsClose env blocksize d true [])

end Calls

end State

/-! ## The system -/

/-- The name tree and the callers: how often each dentry is open. -/
structure System where
  fs : State
  opens : ℕ → ℕ

/-- A call of a client. Data calls name the dentry they work on. -/
inductive Request where
  | create (xenv : Env) (path : Path) (isdir readonly overwrite : Bool)
  | symlink (xenv : Env) (target path : Path) (length : List UInt8)
  | unlink (path : Path)
  | rename (src dst : Path)
  | setxattr (path name : Path) (value : List UInt8) (xattrCreate xattrReplace : Bool)
  | removexattr (path name : Path)
  | openPath (path : Path) (openWrite : Bool)
  | write (d offset : ℕ) (log : DataLog)
  | truncate (d : ℕ) (length : ℤ) (log : DataLog)
  | close (d : ℕ) (openWrite : Bool) (log : DataLog)

namespace System

/-- A dentry the call returned is open once more. -/
def opened (s : System) : Except ℤ ℕ × State → System
  | (.ok d, fs) => ⟨fs, update s.opens d (s.opens d + 1)⟩
  | (.error _, fs) => ⟨fs, s.opens⟩

/-- Work on a dentry, which only a caller does that has it open. -/
def whenOpen (s : System) (d : ℕ) (work : System → System) : System :=
  if s.opens d = 0 then s else work s

end System

section Calls

-- `pathname_normalize`: NFC by ICU, which is not part of the source
variable (normalize : List UInt8 → Except ℤ (List UInt8)) (blocksize : ℕ)

/-- One call. -/
def Request.exec (env : Env) : Request → System → System
  | .create xenv path isdir readonly overwrite, s =>
    s.opened (s.fs.ltfsFsopsCreate normalize env xenv path isdir readonly overwrite)
  | .symlink xenv target path length, s =>
    { s with fs :=
        (s.fs.ltfsFsopsSymlinkPath normalize env xenv blocksize target path length).2 }
  | .unlink path, s => { s with fs := (s.fs.ltfsFsopsUnlink normalize env path).2 }
  | .rename src dst, s => { s with fs := (s.fs.ltfsFsopsRename normalize env src dst).2 }
  | .setxattr path name value xattrCreate xattrReplace, s =>
    { s with fs :=
        (s.fs.ltfsFsopsSetxattr normalize env path name value xattrCreate xattrReplace).2 }
  | .removexattr path name, s =>
    { s with fs := (s.fs.ltfsFsopsRemovexattr normalize env path name).2 }
  | .openPath path openWrite, s =>
    s.opened (s.fs.ltfsFsopsOpen normalize env blocksize path openWrite)
  | .write d offset log, s =>
    s.whenOpen d fun s => { s with fs := s.fs.ltfsFsopsWrite d offset log }
  | .truncate d length log, s =>
    s.whenOpen d fun s =>
      { s with fs := (s.fs.ltfsFsopsTruncate env blocksize d length log).2 }
  | .close d openWrite log, s =>
    s.whenOpen d fun s =>
      ⟨s.fs.ltfsFsopsClose env blocksize d openWrite log, update s.opens d (s.opens d - 1)⟩

/-- One call with the allocations it gets. -/
def step (c : Env × Request) (s : System) : System :=
  c.2.exec normalize blocksize c.1
    { s with fs := { s.fs with alloc := c.1.alloc, hashAlloc := c.1.hashAlloc } }

/-- A sequence of calls. -/
def run : List (Env × Request) → System → System
  | [], s => s
  | c :: rest, s => run rest (step normalize blocksize c s)

end Calls

end Ltfs.Fs
