import Mathlib.Data.List.Basic
import Ltfs.Error

/-!
# The incremental journal

`inc_journal.c` collects what changed since the last index. Created, modified and
removed objects get an entry under their full path; `created_dirs` lists the
directories whose creation covers everything below them.

The hash table of the journal is keyed by the memory of an entry from `id` on,
which starts with the *address* of the path string. Strings therefore have
addresses here (`Jentry.addr`, `Journal.nextAddr`), and `hashFind` compares these.
-/

namespace Ltfs.Fs

/-- The bytes of a C string in front of its terminator. -/
abbrev Path := List UInt8

/-- `'/'`. -/
def slash : UInt8 := 0x2F

/-- The results of the coming memory allocations. -/
abbrev Alloc := List Bool

/-- The result of the next allocation; memory does not run out unannounced. -/
def Alloc.next : Alloc → Bool × Alloc
  | [] => (true, [])
  | b :: rest => (b, rest)

/-- `enum journal_reason`. -/
inductive JournalReason where
  | create
  | modify
  | deleteFile
  | deleteDirectory
deriving DecidableEq, Repr

/-- `struct jentry`. The string `id.full_path` points to lies at `addr`. -/
structure Jentry where
  addr : ℕ
  fullPath : Path
  uid : ℕ
  reason : JournalReason
  dentry : Option ℕ
  /-- name of the entry, for a deletion -/
  name : Path
deriving DecidableEq, Repr

/-- `struct jcreated_entry`. Its path is the string of a journal entry. -/
structure JcreatedEntry where
  addr : ℕ
  path : Path
deriving DecidableEq, Repr

/-- The journal fields of `struct ltfs_volume`. -/
structure Journal where
  journal : List Jentry
  createdDirs : List JcreatedEntry
  journalErr : Bool
  /-- where the next string will lie -/
  nextAddr : ℕ
deriving DecidableEq, Repr

/-- What the journal looks at in a dentry. -/
structure JournalTarget where
  dentry : ℕ
  uid : ℕ
  name : Path
  isdir : Bool

namespace Journal

/-- The first eight bytes of a key: the address of a string in an entry, or what
the caller put there. -/
inductive KeyWord where
  | addr (a : ℕ)
  | uid (n : ℕ)
deriving DecidableEq, Repr

/-- `HASH_FIND(hh, vol->journal, key, sizeof(struct jentry), ent)`, as far as the
first word of the key decides it. -/
def hashFind (j : Journal) (key : KeyWord) : Option Jentry :=
  j.journal.find? fun ent => KeyWord.addr ent.addr == key

/-- `strstr(path, cp) == path`. -/
def startsWith (path cp : Path) : Bool := cp.isPrefixOf path

/-- Is an ancestor already created in this session? -/
def inCreatedDirs (j : Journal) (path : Path) : Bool :=
  j.createdDirs.any fun jd => startsWith path jd.path

/-- `HASH_ADD(hh, vol->journal, id, sizeof(struct jentry), ent)`. Without memory for
the table itself a first entry is lost. -/
def hashAdd (j : Journal) (hashAlloc : Alloc) (ent : Jentry) : Journal × Alloc :=
  match hashAlloc.next with
  | (true, rest) => ({ j with journal := j.journal ++ [ent] }, rest)
  | (false, rest) =>
    if j.journal = [] then (j, rest)
    else ({ j with journal := j.journal ++ [ent] }, rest)

/-- A journal and the allocations still to come. -/
structure Result where
  journal : Journal
  alloc : Alloc
  hashAlloc : Alloc

/-- `incj_create`. -/
def incjCreate (j : Journal) (alloc hashAlloc : Alloc) (ppath : Path) (d : JournalTarget) :
    Result :=
  if j.journalErr then ⟨j, alloc, hashAlloc⟩
  -- Skip if an ancestor is already created in this session
  else if j.inCreatedDirs ppath then ⟨j, alloc, hashAlloc⟩
  else
    match alloc.next with
    | (false, alloc) => ⟨{ j with journalErr := true }, alloc, hashAlloc⟩
    | (true, alloc) =>
      match alloc.next with
      | (false, alloc) => ⟨{ j with journalErr := true }, alloc, hashAlloc⟩
      | (true, alloc) =>
        let fullPath := ppath ++ slash :: d.name
        let ent : Jentry :=
          { addr := j.nextAddr, fullPath, uid := d.uid, reason := .create,
            dentry := some d.dentry, name := [] }
        let (j, hashAlloc) := hashAdd { j with nextAddr := j.nextAddr + 1 } hashAlloc ent
        if d.isdir then
          match alloc.next with
          | (false, alloc) => ⟨j, alloc, hashAlloc⟩
          | (true, alloc) =>
            let jdir : JcreatedEntry := { addr := ent.addr, path := fullPath }
            ⟨{ j with createdDirs := j.createdDirs ++ [jdir] }, alloc, hashAlloc⟩
        else ⟨j, alloc, hashAlloc⟩

/-- `incj_modify`. The entry takes the caller's path. -/
def incjModify (j : Journal) (alloc hashAlloc : Alloc) (path : Path) (d : JournalTarget) :
    Result :=
  if j.journalErr then ⟨j, alloc, hashAlloc⟩
  -- the key starts at `d->uid`
  else if (j.hashFind (.uid d.uid)).isSome then ⟨j, alloc, hashAlloc⟩
  else if j.inCreatedDirs path then ⟨j, alloc, hashAlloc⟩
  else
    match alloc.next with
    | (false, alloc) => ⟨{ j with journalErr := true }, alloc, hashAlloc⟩
    | (true, alloc) =>
      let ent : Jentry :=
        { addr := j.nextAddr, fullPath := path, uid := d.uid, reason := .modify,
          dentry := some d.dentry, name := [] }
      let (j, hashAlloc) := hashAdd { j with nextAddr := j.nextAddr + 1 } hashAlloc ent
      ⟨j, alloc, hashAlloc⟩

/-- A new deletion entry, the common end of `incj_rmfile` and `incj_rmdir`. -/
def addDeletion (j : Journal) (alloc hashAlloc : Alloc) (path : Path) (d : JournalTarget)
    (reason : JournalReason) : Result :=
  match alloc.next with
  | (false, alloc) => ⟨{ j with journalErr := true }, alloc, hashAlloc⟩
  | (true, alloc) =>
    match alloc.next with
    | (false, alloc) => ⟨{ j with journalErr := true }, alloc, hashAlloc⟩
    | (true, alloc) =>
      match alloc.next with
      | (false, alloc) => ⟨{ j with journalErr := true }, alloc, hashAlloc⟩
      | (true, alloc) =>
        let ent : Jentry :=
          { addr := j.nextAddr, fullPath := path, uid := d.uid, reason,
            dentry := none, name := d.name }
        let (j, hashAlloc) := hashAdd { j with nextAddr := j.nextAddr + 1 } hashAlloc ent
        ⟨j, alloc, hashAlloc⟩

/-- `incj_rmfile`. The caller's path is a string of its own, at an address no entry has. -/
def incjRmfile (j : Journal) (alloc hashAlloc : Alloc) (path : Path) (d : JournalTarget) :
    Result :=
  if j.journalErr then ⟨j, alloc, hashAlloc⟩
  else
    let pathAddr := j.nextAddr
    let j := { j with nextAddr := j.nextAddr + 1 }
    let found := (j.hashFind (.addr pathAddr)).filter fun ent => ent.uid == d.uid
    match found with
    | some { reason := .create, .. } =>
      -- newly created and deleted in one incremental index session
      ⟨{ j with journal := j.journal.eraseP fun ent => ent.addr == pathAddr }, alloc, hashAlloc⟩
    | some { reason := .modify, .. } =>
      -- override the existing entry to a DELETE_FILE record
      ⟨{ j with journal := j.journal.map fun ent =>
          if ent.addr = pathAddr then { ent with reason := .deleteFile, dentry := none }
          else ent }, alloc, hashAlloc⟩
    | _ =>
      if j.inCreatedDirs path then ⟨j, alloc, hashAlloc⟩
      else addDeletion j alloc hashAlloc path d .deleteFile

/-- The walk over `created_dirs` in `incj_rmdir`: the directory itself leaves the
list; at an ancestor the walk (and the function) ends. -/
def rmdirScan (path : Path) : List JcreatedEntry → List JcreatedEntry × Bool
  | [] => ([], false)
  | jd :: rest =>
    if startsWith path jd.path then
      if path = jd.path then rmdirScan path rest
      else (jd :: rest, true)
    else
      let (rest, skip) := rmdirScan path rest
      (jd :: rest, skip)

/-- `incj_rmdir`. -/
def incjRmdir (j : Journal) (alloc hashAlloc : Alloc) (path : Path) (d : JournalTarget) :
    Result :=
  if j.journalErr then ⟨j, alloc, hashAlloc⟩
  else
    let (createdDirs, skip) := rmdirScan path j.createdDirs
    let j := { j with createdDirs }
    if skip then ⟨j, alloc, hashAlloc⟩
    else
      -- the entries of existing children under this directory, and their strings, go
      let j := { j with journal := j.journal.filter fun je => !startsWith je.fullPath path }
      addDeletion j alloc hashAlloc path d .deleteDirectory

end Journal

end Ltfs.Fs
