import Ltfs.Lib.Markup
import Ltfs.Lib.MergeSort
import Ltfs.Fs.Dentry

/-!
# Writing the tree into an index

The part of `xml_writer_libltfs.c` that writes dentries: `_xml_write_dirtree` for the tree in
a full index, and `_xml_write_inc_journal` for the journal in an incremental one. What is
written is the sequence of calls to the XML writer; writing clears dirty flags, so the
functions return the name tree as well.

The calls of libxml2 and the allocations succeed here, and names are ones that passed
validation, so `_xml_write_nametype` has no error either. What the calls then depend on is
the tree and the journal.

Left out: times, unrecognized tags, the caches of file offsets and of dirty files.
-/

namespace Ltfs.Fs

open Lib.Markup

/-- The names of elements. -/
inductive Tag where
  | directory
  | file
  | name
  | contents
  | deleted
  | readonly
  | creationtime
  | changetime
  | modifytime
  | accesstime
  | backuptime
  | fileuid
  | extendedattributes
  | xattr
  | key
  | value
  | length
  | symlink
  | extentinfo
  | extent
  | fileoffset
  | partition
  | startblock
  | byteoffset
  | bytecount
deriving DecidableEq, Repr

/-- What a call writes that opens nothing: an element with its text, an element of
`_xml_write_nametype`, or text in base 64. -/
inductive Leaf where
  | flag (tag : Tag) (value : Bool)
  | number (tag : Tag) (value : ℕ)
  | text (tag : Tag) (value : List UInt8)
  | nametype (tag : Tag) (name : Path)
  | partition (value : Option Partition)
  | time (tag : Tag)
  | base64 (value : List UInt8)
deriving DecidableEq, Repr

abbrev XmlCall := Call Tag Leaf

/-! ## Attributes -/

/-- `_chars_valid_in_xml`. -/
def charsValidInXml (c : ℕ) : Bool :=
  !((c ≤ 0x1f && c != 0x09 && c != 0x0a && c != 0x0d) || (0xd800 ≤ c && c ≤ 0xdfff) ||
    c == 0xfffe || c == 0xffff)

/-- `pathname_validate_xattr_value`: `false` for a value that has to be encoded. -/
def pathnameValidateXattrValue : List UInt8 → Bool
  | [] => true
  | b :: rest =>
    match Lib.Utf8.next (b :: rest) with
    | none => false
    | some (c, n) => charsValidInXml c && pathnameValidateXattrValue (rest.drop (n - 1))
termination_by value => value.length
decreasing_by simp only [List.length_drop, List.length_cons]; omega

/-- `_xml_write_dentry_times`. -/
def xmlWriteDentryTimes : List XmlCall :=
  [.leaf (.time .creationtime), .leaf (.time .changetime), .leaf (.time .modifytime),
    .leaf (.time .accesstime), .leaf (.time .backuptime)]

/-- One attribute of `_xml_write_xattr`; an empty value is stored as none. -/
def xmlWriteXattrEntry (xattr : XattrInfo) : List XmlCall :=
  .start .xattr :: ([.leaf (.nametype .key xattr.key)] ++
    (if xattr.value = [] then [.start .value, .stop]
      else if pathnameValidateXattrValue xattr.value then [.leaf (.text .value xattr.value)]
      else [.start .value, .leaf (.base64 xattr.value), .stop])) ++ [.stop]

/-- `_xml_write_xattr`. -/
def xmlWriteXattr (b : Dentry) : List XmlCall :=
  if b.xattrlist = [] then []
  else .start .extendedattributes :: (b.xattrlist.flatMap xmlWriteXattrEntry ++ [.stop])

/-- One extent of `_xml_write_file`. -/
def xmlWriteExtent (extent : ExtentInfo) : List XmlCall :=
  [.start .extent, .leaf (.number .fileoffset extent.fileoffset),
    .leaf (.partition extent.start.partition), .leaf (.number .startblock extent.start.block),
    .leaf (.number .byteoffset extent.byteoffset), .leaf (.number .bytecount extent.bytecount), .stop]

/-! ## The journal -/

/-- `_by_path`: the paths by their bytes, then the uids. -/
def byPath (a b : Jentry) : Bool :=
  if a.fullPath = b.fullPath then decide (a.uid ≤ b.uid) else decide (a.fullPath < b.fullPath)

/-- `incj_sort`. -/
def incjSort (journal : List Jentry) : List Jentry := journal.mergeSort byPath

/-- The calls for one entry: the way to its parent, and its own. -/
structure EntryCalls where
  ent : Jentry
  travel : List XmlCall
  own : List XmlCall

/-- What an incremental index has between its header and its end. -/
structure IncOutput where
  opening : List XmlCall
  entries : List EntryCalls
  closing : List XmlCall

/-- All calls of the output in their order. -/
def IncOutput.calls (out : IncOutput) : List XmlCall :=
  out.opening ++ out.entries.flatMap (fun e => e.travel ++ e.own) ++ out.closing

/-! ## Paths -/

/-- The names that `strtok_r` finds between slashes. -/
def strtokNames (path : Path) : List Path := (path.splitOn slash).filter (· ≠ [])

/-- The path of the directory an entry lies in, as `_xml_goto_increment_parent` makes it. -/
def parentPath (path : Path) : Path :=
  let dir := if slash ∈ path then (State.fsSplitPath path).1 else path
  if dir = [] then [slash] else dir

/-- `incj_compare_path`: how many dentries two path helpers have in common. -/
def incjComparePath : List ℕ → List (Option ℕ) → ℕ
  | d :: rest, some d' :: rest' => if d = d' then incjComparePath rest rest' + 1 else 0
  | _, _ => 0

/-! ## Files and trees -/

namespace State

/-- The dirty flag is cleared. -/
def clean (fs : State) (d : ℕ) : State := fs.modify d fun b => { b with dirty := false }

/-- `_xml_write_file`. -/
def xmlWriteFile (fs : State) (d : ℕ) : List XmlCall × State :=
  let b := fs.dentry d
  let extents :=
    if b.isslink then [.leaf (.nametype .symlink b.target)]
    else if b.extentlist = [] then []
    else .start .extentinfo :: (b.extentlist.flatMap xmlWriteExtent ++ [.stop])
  (.start .file :: ([.leaf (.nametype .name b.platformSafeName), .leaf (.number .length b.size),
    .leaf (.flag .readonly b.readonly)] ++ xmlWriteDentryTimes ++ [.leaf (.number .fileuid b.uid)] ++
    xmlWriteXattr b ++ extents ++ [.stop]), fs.clean d)

/-- `fs_hash_sort_by_uid`. -/
def fsHashSortByUid (a b : ℕ) : ℤ := ((BitVec.ofNat 64 a - BitVec.ofNat 64 b).setWidth 32).toInt

/-- The children in the order they are written in. -/
def childrenByUid (fs : State) (d : ℕ) : List ℕ :=
  Lib.hashSort (fun a b => decide (fsHashSortByUid (fs.dentry a).uid (fs.dentry b).uid ≤ 0))
    ((fs.dentry d).childList.reverse.map Prod.snd)

/-- The name tag of a directory: the volume name for the root. -/
def directoryName (fs : State) (volumeName : Option Path) (dir : ℕ) : List XmlCall :=
  if dir = fs.root then
    match volumeName with
    | some name => [.leaf (.nametype .name name)]
    | none => [.start .name, .stop]
  else [.leaf (.nametype .name (fs.dentry dir).platformSafeName)]

/-- `_xml_write_dirtree`. The recursion follows child lists; the first argument is the number
of dentries there are. The dirty flag of the directory itself stays. -/
def xmlWriteDirtree (volumeName : Option Path) : ℕ → State → ℕ → List XmlCall × State
  | 0, fs, _ => ([], fs)
  | fuel + 1, fs, dir =>
    let b := fs.dentry dir
    let children := (fs.childrenByUid dir).foldl (fun (r : List XmlCall × State) d =>
      let w :=
        if (r.2.dentry d).isdir then xmlWriteDirtree volumeName fuel r.2 d else r.2.xmlWriteFile d
      (r.1 ++ w.1, w.2)) ([], fs)
    (.start .directory :: (fs.directoryName volumeName dir ++ [.leaf (.flag .readonly b.readonly)] ++
      xmlWriteDentryTimes ++ [.leaf (.number .fileuid b.uid)] ++ xmlWriteXattr b ++
      (.start .contents :: (children.1 ++ [.stop])) ++ [.stop]), children.2)

/-! ## Directories of an incremental index -/

/-- What `_xml_write_incremental_dir` writes: attributes, but no element around them. -/
def incrementalAttributes (b : Dentry) : List XmlCall :=
  (if b.dirty then .leaf (.flag .readonly b.readonly) :: xmlWriteDentryTimes else []) ++
    [.leaf (.number .fileuid b.uid)] ++ (if b.dirty then xmlWriteXattr b else [])

/-- `_xml_write_incremental_dir`. -/
def xmlWriteIncrementalDir (fs : State) (dir : ℕ) : List XmlCall × State :=
  (incrementalAttributes (fs.dentry dir), fs.clean dir)

/-- `_xml_open_incremental_dir_ent`. -/
def xmlOpenIncrementalDirEnt (fs : State) (dir : ℕ) : List XmlCall × State :=
  (incrementalAttributes (fs.dentry dir) ++ [.start .contents], fs.clean dir)

/-- `_xml_open_incrental_root`. -/
def xmlOpenIncrementalRoot (fs : State) (volumeName : Option Path) : List XmlCall × State :=
  let r := fs.xmlOpenIncrementalDirEnt fs.root
  (.start .directory :: (fs.directoryName volumeName fs.root ++ r.1), r.2)

/-- `_xml_close_incrental_root`. -/
def xmlCloseIncrementalRoot : List XmlCall := [.stop, .stop]

/-- `_xml_open_incremental_dir`. The directory tag is closed again behind the name. -/
def xmlOpenIncrementalDir (fs : State) (dir : ℕ) : List XmlCall × State :=
  let r := fs.xmlOpenIncrementalDirEnt dir
  (.start .directory :: .leaf (.nametype .name (fs.dentry dir).platformSafeName) :: .stop :: r.1, r.2)

/-- `_xml_open_incremental_dirs`; `none` reads through a null pointer. -/
def xmlOpenIncrementalDirs : State → List (Option ℕ) → Option (List XmlCall × State)
  | fs, [] => some ([], fs)
  | _, none :: _ => none
  | fs, some dir :: rest =>
    let r := fs.xmlOpenIncrementalDir dir
    (xmlOpenIncrementalDirs r.2 rest).map fun r' => (r.1 ++ r'.1, r'.2)

/-- `_xml_close_incremental_dirs`. -/
def xmlCloseIncrementalDirs (pops : ℕ) : List XmlCall := List.replicate pops .stop

/-! ## The way to a parent -/

/-- A name in a directory, found with memory to spare. -/
def lookupName (fs : State) (basedir : ℕ) (name : Path) : Except ℤ (Option ℕ) :=
  (fsDirectoryLookup { fs with hashAlloc := [] } basedir name).1

/-- The pushes of `incj_create_path_helper`: the dentries under the names, each below the one
before it. A name that is not there gives a null pointer. `none` where a lookup fails: the
helper is then destroyed twice. -/
def pushDirectories (fs : State) : Option ℕ → List Path → Option (List (Option ℕ))
  | _, [] => some []
  | none, _ :: _ => none
  | some parent, name :: rest =>
    match fs.lookupName parent name with
    | .error _ => none
    | .ok d => (pushDirectories fs d rest).map (d :: ·)

/-- How `_xml_goto_increment_parent` ends. -/
inductive Goto where
  /-- The calls, the path helper the writer is at now, and the tree. -/
  | arrived (calls : List XmlCall) (cur : List ℕ) (fs : State)
  | failed
  /-- A null pointer or freed memory was used. -/
  | undefined

/-- `_xml_goto_increment_parent`. -/
def xmlGotoIncrementParent (fs : State) (ent : Jentry) (cur : List ℕ) : Goto :=
  let parent := parentPath ent.fullPath
  -- Provided path must be a absolute path
  if parent.head? ≠ some slash then .failed
  else
    match fs.pushDirectories (some fs.root) (strtokNames parent) with
    | none => .undefined
    | some new =>
      let n := incjComparePath cur new
      let closed := xmlCloseIncrementalDirs (cur.length - n)
      if new = cur.map some then .arrived closed cur fs
      else
        match fs.xmlOpenIncrementalDirs (new.drop n) with
        | none => .undefined
        | some r => .arrived (closed ++ r.1) (new.reduceOption) r.2

/-- `_xml_write_incremental_delete`. -/
def xmlWriteIncrementalDelete (tag : Tag) (name : Path) : List XmlCall :=
  [.start tag, .leaf (.nametype .name name), .start .deleted, .stop, .stop]

/-! ## Writing the journal -/

/-- What `_xml_write_inc_journal` writes for an entry once it is at its parent; `none` reads
through a null pointer. -/
def xmlWriteJentry (fs : State) (volumeName : Option Path) (ent : Jentry) :
    Option (List XmlCall × State) :=
  match ent.reason, ent.dentry with
  | .create, some d =>
    if (fs.dentry d).isdir then some (xmlWriteDirtree volumeName (fs.inodeNumber + 1) fs d)
    else some (fs.xmlWriteFile d)
  | .modify, some d =>
    if (fs.dentry d).isdir then some (fs.xmlWriteIncrementalDir d) else some (fs.xmlWriteFile d)
  | .deleteFile, _ => some (xmlWriteIncrementalDelete .file ent.name, fs)
  | .deleteDirectory, _ => some (xmlWriteIncrementalDelete .directory ent.name, fs)
  | _, none => none

/-- The loop of `_xml_write_inc_journal`, with the path helper of the current directory. Behind
an entry that failed nothing is written any more. -/
def xmlWriteEntries (volumeName : Option Path) : State → List ℕ → List Jentry →
    Option (List EntryCalls × State)
  | fs, _, [] => some ([], fs)
  | fs, cur, ent :: rest =>
    match fs.xmlGotoIncrementParent ent cur with
    | .undefined => none
    | .failed => some ([], fs)
    | .arrived travel cur fs =>
      match fs.xmlWriteJentry volumeName ent with
      | none => none
      | some (own, fs) =>
        (xmlWriteEntries volumeName fs cur rest).map fun r => (⟨ent, travel, own⟩ :: r.1, r.2)

/-- `incj_clear`. -/
def incjClear (fs : State) : State :=
  { fs with journal := { fs.journal with journal := [], createdDirs := [] } }

/-- `_xml_write_inc_journal`. The root is closed whatever happened before, and what that
returns is the result of the function: it always succeeds. -/
def xmlWriteIncJournal (fs : State) (volumeName : Option Path) : Option (IncOutput × State) :=
  let root := fs.xmlOpenIncrementalRoot volumeName
  (root.2.xmlWriteEntries volumeName [] (incjSort fs.journal.journal)).map fun r =>
    (⟨root.1, r.1, xmlCloseIncrementalRoot⟩, r.2.incjClear)

end State

end Ltfs.Fs
