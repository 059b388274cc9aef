import Mathlib.Data.BitVec
import Ltfs.Extent
import Ltfs.NameCodec
import Ltfs.Lib.Forest
import Ltfs.Fs.Journal

/-!
# Dentries

The name tree of `fs.c`: dentries with parent pointers, child lists (hash tables
keyed by name) and reference counts, and the functions that look names up, take
and release references and dispose dentries.

A dentry is named by a number, the value of `inode_number` when it was allocated.
`Namespace` holds the dentries and the counters of the index; `State` adds the
reference counts and the allocations still to come. `hashAlloc` is what the hash
table functions get, `alloc` what all others get.

Left out: locks and times.
-/

namespace Ltfs.Fs

open Function

/-- `struct xattr_info`. -/
structure XattrInfo where
  key : Path
  value : List UInt8
deriving DecidableEq, Repr

/-- `struct dentry`. The two names `name.name` and `platform_safe_name` are the same
string on every platform but Windows. Newer entries come first in `childList`, as
in the buckets of the hash table. -/
structure Dentry where
  parent : Option ℕ
  platformSafeName : Path
  uid : ℕ
  isdir : Bool
  isslink : Bool
  target : Path
  readonly : Bool
  isImmutable : Bool
  isAppendonly : Bool
  deleted : Bool
  dirty : Bool
  linkCount : BitVec 32
  usedBlocks : BitVec 64
  size : ℕ
  extentlist : List ExtentInfo
  xattrlist : List XattrInfo
  childList : List (Path × ℕ)

/-- A dentry as `memset` leaves it; what is disposed looks like this too. -/
def Dentry.zero : Dentry where
  parent := none
  platformSafeName := []
  uid := 0
  isdir := false
  isslink := false
  target := []
  readonly := false
  isImmutable := false
  isAppendonly := false
  deleted := false
  dirty := false
  linkCount := 0
  usedBlocks := 0
  size := 0
  extentlist := []
  xattrlist := []
  childList := []

/-- The dentries and the fields of `struct ltfs_index` that describe them. -/
structure Namespace where
  dentry : ℕ → Dentry
  root : ℕ
  inodeNumber : ℕ
  uidNumber : ℕ
  fileCount : BitVec 64
  validBlocks : BitVec 64
  journal : Journal

/-- The namespace with the reference counts. -/
structure State extends Namespace where
  numhandles : ℕ → ℤ
  alloc : Alloc
  hashAlloc : Alloc

namespace State

/-! ## State updates -/

/-- Change one dentry. -/
def modify (fs : State) (d : ℕ) (f : Dentry → Dentry) : State :=
  { fs with dentry := update fs.dentry d (f (fs.dentry d)) }

/-- `++d->numhandles`. -/
def hold (fs : State) (d : ℕ) : State :=
  { fs with numhandles := update fs.numhandles d (fs.numhandles d + 1) }

/-- `--d->numhandles`. -/
def unhold (fs : State) (d : ℕ) : State :=
  { fs with numhandles := update fs.numhandles d (fs.numhandles d - 1) }

/-- `malloc`, `calloc` or `strdup` outside the hash table functions. -/
def malloc (fs : State) : Bool × State :=
  (fs.alloc.next.1, { fs with alloc := fs.alloc.next.2 })

/-- `malloc` or `strdup` in a hash table function. -/
def hashMalloc (fs : State) : Bool × State :=
  (fs.hashAlloc.next.1, { fs with hashAlloc := fs.hashAlloc.next.2 })

/-- What the journal looks at. -/
def journalTarget (fs : State) (d : ℕ) : JournalTarget where
  dentry := d
  uid := (fs.dentry d).uid
  name := (fs.dentry d).platformSafeName
  isdir := (fs.dentry d).isdir

/-- Run a journal function. -/
def journalize (fs : State) (f : Journal → Alloc → Alloc → Journal.Result) : State :=
  let r := f fs.journal fs.alloc fs.hashAlloc
  { fs with journal := r.journal, alloc := r.alloc, hashAlloc := r.hashAlloc }

/-! ## Hash tables of names -/

/-- Does a hash table entry have this key? -/
def hasKey (name : Path) (e : Path × ℕ) : Bool := e.1 == name

/-- `fs_find_key_from_hash_table`. `generate_hash_key_name` copies the name; without
memory for the copy nothing is found, and `rc` is `0`. -/
def fsFindKeyFromHashTable (fs : State) (list : List (Path × ℕ)) (name : Path) :
    Option ℕ × State :=
  match fs.hashMalloc with
  | (false, fs) => (none, fs)
  | (true, fs) => ((list.find? (hasKey name)).map Prod.snd, fs)

/-- `fs_add_key_to_hash_table` on the child list of `p`: the code and the new state. -/
def fsAddKeyToHashTable (fs : State) (p d : ℕ) : ℤ × State :=
  let name := (fs.dentry d).platformSafeName
  match fs.hashMalloc with
  | (false, fs) => (-ltfsNoMemory, fs)
  | (true, fs) =>
    match fs.hashMalloc with
    -- `generate_hash_key_name` reports success without a key
    | (false, fs) => (0, fs)
    | (true, fs) =>
      let added := fs.modify p fun b => { b with childList := (name, d) :: b.childList }
      match fs.hashMalloc with
      | (true, _) => (0, { added with hashAlloc := fs.hashAlloc.next.2 })
      -- no memory for a new table, or for more buckets of an old one
      | (false, fs) =>
        if (fs.dentry p).childList = [] then (-ltfsNoMemory, fs)
        else (-ltfsNoMemory, { added with hashAlloc := fs.hashAlloc })

/-- `HASH_DEL` of the entry that was found under a name. -/
def hashDel (fs : State) (p : ℕ) (name : Path) : State :=
  fs.modify p fun b => { b with childList := b.childList.eraseP (hasKey name) }

/-! ## Disposal -/

/-- `_fs_dispose_dentry_contents`. The recursion follows child lists; `fuel` is the
number of dentries there are. -/
def fsDisposeDentryContents : ℕ → State → ℕ → State
  | 0, fs, _ => fs
  | fuel + 1, fs, d =>
    -- Remove children from the tree first
    let children := (fs.dentry d).childList
    let fs := fs.modify d fun b => { b with childList := [] }
    let fs := children.foldl (fun fs child =>
      let fs := fs.modify child.2 fun b => { b with parent := none }
      if fs.numhandles child.2 ≠ 1 then fs
      else fsDisposeDentryContents fuel (fs.unhold child.2) child.2) fs
    let fs :=
      match (fs.dentry d).parent with
      | none => fs
      | some p =>
        match fsFindKeyFromHashTable fs (fs.dentry p).childList
            (fs.dentry d).platformSafeName with
        | (none, fs) => fs
        | (some _, fs) => fs.hashDel p (fs.dentry d).platformSafeName
    fs.modify d fun _ => Dentry.zero

/-- `fs_release_dentry` and `fs_release_dentry_unlocked`. -/
def fsReleaseDentry (fs : State) (d : ℕ) : State :=
  let fs := fs.unhold d
  if fs.numhandles d ≠ 0 then fs
  else fsDisposeDentryContents (fs.inodeNumber + 1) fs d

/-! ## Allocation -/

/-- `fs_allocate_uid`. -/
def fsAllocateUid (fs : State) : ℕ × State :=
  if fs.uidNumber = 0 then (0, fs)
  else
    let uid := (fs.uidNumber + 1) % 2 ^ 64
    (uid, { fs with uidNumber := uid })

/-- `fs_allocate_dentry(NULL, NULL, platform_safe_name, isdir, readonly, true, idx)`:
a dentry that is not linked to a parent yet. -/
def fsAllocateDentry (fs : State) (platformSafeName : Path) (isdir readonly : Bool) :
    Option ℕ × State :=
  match fs.malloc with
  | (false, fs) => (none, fs)
  | (true, fs) =>
    let (name₁, fs) := fs.malloc
    let (name₂, fs) := fs.malloc
    if !name₁ || !name₂ then (none, fs)
    else
      let d := fs.inodeNumber + 1
      let (uid, fs) := fsAllocateUid { fs with inodeNumber := d }
      -- Refuse to create a new file when the UID space overflowed
      if uid = 0 then (none, fs)
      else
        let fs := fs.modify d fun _ =>
          { Dentry.zero with
            platformSafeName, isdir, readonly, uid, linkCount := if isdir then 1 else 0 }
        (some d, { fs with numhandles := update fs.numhandles d 1 })

/-! ## Lookup -/

/-- `fs_directory_lookup`; a dentry that is found is held. -/
def fsDirectoryLookup (fs : State) (basedir : ℕ) (name : Path) : Except ℤ (Option ℕ) × State :=
  if NameCodec.ltfsFilenameMax < NameCodec.pathnameStrlen name then
    (.error (-ltfsNametoolong), fs)
  else if (fs.dentry basedir).childList.length = 0 then (.ok none, fs)
  else
    match fsFindKeyFromHashTable fs (fs.dentry basedir).childList name with
    | (some d, fs) => (.ok (some d), fs.hold d)
    | (none, fs) => (.ok none, fs)

/-- The loop of `fs_path_lookup` over the names between slashes. With
`keepParent` (a `LOCK_PARENT_…` flag) the last directory stays held. -/
def fsPathWalk (keepParent : Bool) : State → ℕ → List Path → Except ℤ ℕ × State
  | fs, d, [] => (.ok d, fs)
  | fs, parent, start :: rest =>
    match fsDirectoryLookup fs parent start with
    | (.error e, fs) => (.error e, fs.fsReleaseDentry parent)
    | (.ok none, fs) => (.error (-ltfsNoDentry), fs.fsReleaseDentry parent)
    | (.ok (some d), fs) =>
      if rest ≠ [] ∨ keepParent = false then fsPathWalk keepParent (fs.unhold parent) d rest
      else fsPathWalk keepParent fs d rest

/-- `fs_path_lookup`. -/
def fsPathLookup (fs : State) (keepParent : Bool) (path : Path) : Except ℤ ℕ × State :=
  match fs.malloc with
  | (false, fs) => (.error (-ltfsNoMemory), fs)
  | (true, fs) =>
    let fs := fs.hold fs.root
    -- Did the caller ask for the root dentry?
    if path = [] ∨ path = [slash] then (.ok fs.root, fs)
    else fsPathWalk keepParent fs fs.root ((path.drop 1).splitOn slash)

/-- `fs_split_path`: what stands before the last slash, and the name behind it. -/
def fsSplitPath (path : Path) : Path × Path :=
  (((path.reverse.dropWhile (· ≠ slash)).drop 1).reverse,
    (path.reverse.takeWhile (· ≠ slash)).reverse)

/-- `fs_is_predecessor`: the walk from `d2` towards the root meets `d1`. Without a
cycle it meets each dentry at most once. -/
def fsIsPredecessor (fs : State) (d1 d2 : ℕ) : Bool :=
  Lib.Forest.climbsTo (fun d => (fs.dentry d).parent) (fs.inodeNumber + 1) d1 d2

/-- `fs_get_used_blocks`. -/
def fsGetUsedBlocks (blocksize : ℕ) (extentlist : List ExtentInfo) : BitVec 64 :=
  (extentlist.map fun e =>
    BitVec.ofNat 64 ((e.byteoffset + e.bytecount) / blocksize +
      if (e.byteoffset + e.bytecount) % blocksize = 0 then 0 else 1)).sum

/-- `_lay_dirs`: the path of a dentry, from its own name up. `p` is the part behind. -/
def layDirs (fs : State) : ℕ → Option Path → ℕ → Path
  | 0, p, _ => p.getD []
  | fuel + 1, p, d =>
    let name := (fs.dentry d).platformSafeName
    match (fs.dentry d).parent with
    -- the name of the root is "/", so no separator is needed
    | none => name ++ p.getD []
    | some parent =>
      match p with
      | none => layDirs fs fuel (some name) parent
      | some p => layDirs fs fuel (some (name ++ slash :: p)) parent

/-- `ltfs_set_dentry_dirty`. The memory for the path is taken for every dentry on
the way up; one failed allocation is enough for the error flag. -/
def ltfsSetDentryDirty (fs : State) (d : ℕ) : State :=
  let fs :=
    if (fs.dentry d).dirty then fs
    else
      match fs.malloc with
      | (false, fs) => { fs with journal := { fs.journal with journalErr := true } }
      | (true, fs) =>
        let fullPath := layDirs fs (fs.inodeNumber + 1) none d
        fs.journalize fun j alloc hashAlloc =>
          j.incjModify alloc hashAlloc fullPath (fs.journalTarget d)
  fs.modify d fun b => { b with dirty := true }

end State

end Ltfs.Fs
