import Ltfs.IndexChain
import Ltfs.Revalidate
import Ltfs.SeekIndex

/-!
# The check of the medium

`ltfs_check_medium` looks for the last index of each partition, decides which of the two is the
newer one, and restores consistency by writing indexes. Where there are blocks behind the last
index it needs deep recovery, which keeps those blocks in a lost and found directory or gives them
up.

* `MediumReader` — how records look to the parser, and the directory tree.
* `Finding` — what `ltfs_seek_index` reports of a partition.
* `ltfsCheckMedium` — the check: `lookFor`, `closeIndex`, `chooseIndex`, `placeAppend`, `recover`
  and `restore` in this order.

A search, and the reading of an index by `_ltfs_check_pointers`, count as one command of the drive.
-/

namespace Ltfs.CheckMedium

open XmlTape (Parse IndexReader SoughtIndex)

/-- The blocks of the document of an index. -/
def document {T : Type} (doc : Index T) (n : ℕ) : List (Record T) :=
  (List.range n).map fun k => .idx doc k n

/-- How records look to the parser of an index, and what is done with the directory tree. -/
structure MediumReader (T : Type) where
  blocksize : ℕ+
  volUuid : List Char
  /-- `vol->ignore_wrong_version`. -/
  ignoreWrongVersion : Bool
  image : Record T → XmlTape.Record
  /-- What comes of parsing the records up to the next file mark. -/
  parse : List (Record T) → Parse T
  /-- The extents of all files, in the order of the walk over the tree. -/
  extents : T → List ExtentInfo
  /-- The lost and found directory is there, or is created. -/
  openLostFound : T → Except ErrorCode T
  /-- A file below it with the extent, unless there is one of its name. -/
  addLostFile : ExtentInfo → T → Except ErrorCode T
  image_filemark : ∀ r, image r = .filemark ↔ r = .fm
  image_nonempty : ∀ r, image r ≠ .block []
  /-- All blocks of a document but the last are full. -/
  image_document : ∀ doc k n, k + 1 < n → ∃ bytes,
    image (.idx doc k n) = .block bytes ∧ blocksize ≤ bytes.length
  /-- What is written is read back. -/
  parse_document : ∀ doc n, 0 < n →
    (parse (document doc n)).failure = none ∧ (parse (document doc n)).volUuid = volUuid ∧
    (parse (document doc n)).index = doc
  /-- A document takes all of its blocks. -/
  document_length : ∀ doc n, 0 < n → (n - 1) * blocksize < (parse (document doc n)).documentLength
  parse_nil : (parse []).failure ≠ none
  extents_openLostFound : ∀ t t', openLostFound t = .ok t' → extents t' = extents t
  extents_addLostFile : ∀ e t t', addLostFile e t = .ok t' →
    extents t' = extents t ++ [e] ∨ t' = t

/-- What is found on a partition. -/
structure Finding (T : Type) where
  eod : ℕ
  found : Option (SoughtIndex T)

section Finding

variable {T : Type}

/-- `dp_have_index && dp_blocks_after`, and so on. -/
def Finding.blocksAfter (f : Finding T) : Bool := f.found.any SoughtIndex.blocksAfter

/-- `dp_endofidx`. -/
def Finding.endOfIdx (f : Finding T) : ℕ := f.found.elim 0 SoughtIndex.indexEndPos

/-- Behind the last index, or behind the label if there is none, there are blocks. -/
def Finding.extraBlocks (f : Finding T) : Bool :=
  match f.found with
  | some s => s.blocksAfter
  | none => decide (f.eod ≠ 4)

end Finding

section CheckMedium

variable {T : Type} (M : MediumReader T)

/-! ## Looking for the indexes -/

/-- The records from a block on, up to the next file mark. -/
def region (m : List (Record T)) (start : ℕ) : List (Record T) :=
  (m.drop start).takeWhile fun r => ! r.isFm

/-- A partition for the reader of an index. -/
def MediumReader.reader (recoverSymlink : Bool) (m : List (Record T)) : IndexReader T where
  blocksize := M.blocksize
  volUuid := M.volUuid
  parse start := M.parse (region m start)
  recoverSymlink := recoverSymlink
  ignoreWrongVersion := M.ignoreWrongVersion

/-- `ltfs_seek_index`. It leaves the end of data as the append position. -/
def lookFor (recoverSymlink : Bool) (p : Partition) (v : Volume T) :
    Except ℤ (Finding T) × Volume T :=
  match v.dev.answer with
  | .error code _ => (.error code, { v with dev := v.dev.tick })
  | .ok early programmable =>
    let m := v.dev.medium p
    let dev := (v.dev.tick.noteSpace p early programmable).setAppendPos p (v.dev.eod p)
    match XmlTape.ltfsSeekIndex (M.reader recoverSymlink m) p ⟨m.map M.image, 0, []⟩ with
    | some (.ok (eod, none)) => (.ok ⟨eod, none⟩, { v with dev := dev })
    | some (.ok (eod, some s)) =>
      (.ok ⟨eod, some s⟩,
        { v with
          dev := { dev with position := ⟨p, s.indexEndPos⟩ }
          coherency := Function.update v.coherency p
            { v.coherency p with uuid := v.uuid, count := s.cohCount, setId := s.cohSetId } })
    | some (.error ret) => (.error ret, { v with dev := dev })
    -- the search ends
    | none => (.error (-ltfsNoIndex), { v with dev := dev })

/-- "Fill in missing file marks if necessary". -/
def closeIndex (p : Partition) (f : Finding T) (v : Volume T) : Except ℤ (Finding T) × Volume T :=
  match f.found with
  | none => (.ok f, v)
  | some s =>
    if ! s.blocksAfter && ! s.fmAfter then
      let r := tapeSeekEod p v.dev
      if r.1 < 0 then
        (.error r.1, { v with dev := r.2 })
      else
        let w := tapeWriteFilemark 1 true true r.2
        if w.1 < 0 then
          (.error w.1, { v with dev := w.2 })
        else
          (.ok ⟨f.eod + 1, some { s with fmAfter := true }⟩, { v with dev := w.2 })
    else
      (.ok f, v)

/-! ## References to blocks -/

/-- One past the last block of an extent, as the code counts: it leaves out `byteoffset`. -/
def lastBlock (e : ExtentInfo) : ℕ :=
  e.start.block + e.bytecount / M.blocksize + if 0 < e.bytecount % M.blocksize then 1 else 0

/-- `_ltfs_check_extents`. -/
def checkExtents (ipEod dpEod : ℕ) (root : T) : ℤ :=
  if (M.extents root).any fun e =>
      decide (e.start.block < 4) ||
      decide (e.start.partition = some .ip ∧ ipEod ≤ lastBlock M e) ||
      decide (e.start.partition = some .dp ∧ dpEod ≤ lastBlock M e) then
    -ltfsIndexInvalid
  else 0

/-- `_ltfs_last_ref`, for one partition. -/
def lastRef (p : Partition) (root : T) : ℕ :=
  (M.extents root).foldl (fun last e =>
    if e.start.partition = some p ∧ last < lastBlock M e then lastBlock M e else last) 0

/-! ## Which index to use -/

/-- `ltfs_read_index` of an earlier index of the data partition. -/
def readIndexAt (dev : Device T) (block : ℕ) : Except ℤ (Index T) :=
  match dev.answer with
  | .error code _ => .error code
  | .ok _ _ =>
    let m := dev.medium .dp
    if m.length < block then .error (-edevEodDetected)
    else
      match XmlTape.ltfsReadIndex (M.reader false m) .dp 0 ⟨m.map M.image, block, []⟩ with
      | some (.ok _, _) => .ok (M.parse (region m block)).index
      | some (.error ret, _) => .error ret
      | none => .error (-ltfsIndexInvalid)

/-- "Verify sanity of back/self pointers and Decide which index file to use": the index, and
whether it is set dirty. -/
def chooseIndex (ip dp : Finding T) (dev : Device T) : Except ℤ (Index T × Bool) :=
  let ret := checkPointers (readIndexAt M dev) (ip.found.map SoughtIndex.index)
    (dp.found.map SoughtIndex.index)
  if ret < 0 then .error ret
  else
    match ip.found, dp.found with
    | some i, some d => if ret = 0 then .ok (i.index, false) else .ok (d.index, true)
    -- "one partition is empty. check extent list for bad references"
    | some i, none =>
      if checkExtents M ip.eod dp.eod i.index.root < 0 then .error (-ltfsIndexInvalid)
      else .ok (i.index, true)
    | none, some d =>
      if checkExtents M ip.eod dp.eod d.index.root < 0 then .error (-ltfsIndexInvalid)
      else .ok (d.index, true)
    | none, none => .error (-ltfsNoIndex)

/-! ## Append positions -/

/-- The loop of `_ltfs_find_append_blk_after_idx`: how many file marks there are, and the position
behind the last one. -/
def countFilemarks : ℕ → ℕ → ℕ → Device T → Except ℤ (ℕ × ℕ) × Device T
  | 0, n, final, dev => (.ok (n, final), dev)
  | fuel + 1, n, final, dev =>
    let r := tapeSpacefm 1 dev
    if r.1 = 0 then countFilemarks fuel (n + 1) r.2.position.block r.2
    else if r.1 = -edevEodDetected then (.ok (n, final), r.2)
    else (.error r.1, r.2)

/-- `_ltfs_find_append_blk_after_idx`; block numbers go through an `int`. -/
def findAppendBlkAfterIdx (fix : Bool) (p : Partition) (block : ℕ) (dev : Device T) :
    ℤ × Device T :=
  let s := tapeSeek p (some block) dev
  if s.1 ≠ 0 then s
  else
    match countFilemarks (dev.eod p + 1) 0 0 s.2 with
    | (.error ret, dev) => (ret, dev)
    | (.ok (n, final), dev) =>
      if n ≤ 1 then (0, dev)
      -- "unexpected fm after data, possible incomplete index"
      else if n = 2 ∧ fix then (Int.bmod ((final : ℤ) - 1) (2 ^ 32), dev)
      else (-ltfsOpToInv, dev)

/-- "Set append position for data partition to end of trailing data", and the like for the index
partition, whose own is then set before its index. -/
def placeAppend (fix : Bool) (p : Partition) (f : Finding T) (v : Volume T) :
    Except ℤ (Finding T) × Volume T :=
  match f.found with
  | none => (.ok f, v)
  | some s =>
    if s.blocksAfter then
      let r := findAppendBlkAfterIdx fix p s.index.selfptr.block v.dev
      if r.1 < 0 then
        (.error r.1, { v with dev := r.2 })
      else
        let block := match p with
          | .dp => r.1.toNat
          | .ip => s.index.selfptr.block - 1
        (.ok { f with eod := r.1.toNat }, { v with dev := r.2.setAppendPos p block })
    else
      (.ok f, v)

/-! ## Extra blocks -/

/-- `tape_read`, for its length only. -/
def readLength (dev : Device T) : Except ℤ ℕ × Device T :=
  let here := dev.position
  match dev.answer with
  | .error code _ => (.error code, dev.tick)
  | .ok _ _ =>
    match (dev.medium here.partition)[here.block]? with
    | none => (.error (-edevEodDetected), dev.tick)
    | some rec =>
      (.ok ((M.image rec).bytes M.blocksize).length,
        { dev.tick with position := ⟨here.partition, here.block + 1⟩ })

/-- The loop of `_ltfs_populate_lost_found`: a file for every record from the position on. -/
def populateLoop (p : Partition) (eod : ℕ) : ℕ → ℕ → T → Device T → Except ℤ T × Device T
  | 0, _, root, dev => (.ok root, dev)
  | fuel + 1, block, root, dev =>
    if eod ≤ block then (.ok root, dev)
    else
      match readLength M dev with
      -- "for some errors, it might be possible to skip this block"
      | (.error _, dev) => (.ok root, dev)
      | (.ok nr, dev) =>
        if nr = 0 then populateLoop p eod fuel (block + 1) root dev
        else
          match M.addLostFile ⟨⟨some p, block⟩, 0, nr, 0⟩ root with
          | .error code => (.error code, dev)
          | .ok root => populateLoop p eod fuel (block + 1) root dev

/-- `_ltfs_populate_lost_found`. -/
def populateLostFound (p : Partition) (lastref eod : ℕ) (root : T) (dev : Device T) :
    Except ℤ T × Device T :=
  match M.openLostFound root with
  | .error code => (.error code, dev)
  | .ok root =>
    let block := if 4 < lastref then lastref else 4
    let s := tapeSeek p (some block) dev
    if s.1 < 0 then (.error s.1, s.2)
    else populateLoop M p eod (eod - block) block root s.2

/-- `_ltfs_make_lost_found` for one partition, whose last referenced block is `last`. -/
def makeLostFoundOn (p : Partition) (f : Finding T) (last : ℕ) (root : T) (dev : Device T) :
    Except ℤ T × Device T :=
  if f.endOfIdx < f.eod then
    if f.endOfIdx ≤ last then populateLostFound M p (last + 1) f.eod root dev
    else populateLostFound M p f.endOfIdx f.eod root dev
  else (.ok root, dev)

/-- `_ltfs_make_lost_found`. -/
def makeLostFound (ip dp : Finding T) (root : T) (dev : Device T) : Except ℤ T × Device T :=
  let lastI := lastRef M .ip root
  let lastD := lastRef M .dp root
  match makeLostFoundOn M .ip ip lastI root dev with
  | (.error ret, dev) => (.error ret, dev)
  | (.ok root, dev) => makeLostFoundOn M .dp dp lastD root dev

/-- "Set index partition append position" for extra blocks that are given up. -/
def giveUpIp (f : Finding T) (last : ℕ) (dev : Device T) : Device T :=
  match f.found with
  | some s =>
    if s.blocksAfter then
      if s.indexEndPos ≤ last ∧ last < f.eod then dev.setAppendPos .ip last
      else if last < s.indexEndPos then dev.setAppendPos .ip (s.index.selfptr.block - 1)
      else dev
    else dev
  | none => if 4 < f.eod then dev.setAppendPos .ip 4 else dev

/-- "Set data partition append position". -/
def giveUpDp (f : Finding T) (dev : Device T) : Device T :=
  match f.found with
  | some s => if s.blocksAfter then dev.setAppendPos .dp f.eod else dev
  | none => if 4 < f.eod then dev.setAppendPos .dp f.eod else dev

/-- "Recover extra blocks or schedule them to be erased." -/
def recover (recoverExtra : Bool) (ip dp : Finding T) (v : Volume T) : ℤ × Volume T :=
  if recoverExtra then
    match makeLostFound M ip dp v.index.root v.dev with
    | (.error ret, dev) => (ret, { v with dev := dev })
    | (.ok root, dev) =>
      (0, { v with dev := dev, index := { v.index with root := root }, dirty := true })
  else
    (0, { v with
      dev := giveUpDp dp (giveUpIp ip (lastRef M .ip v.index.root) v.dev)
      dirty := true })

/-! ## Restoring consistency -/

/-- What is left to do: nothing, or to write the index to the index partition, which is the last
step. -/
inductive Outcome (T : Type) where
  | failed (ret : ℤ) (v : Volume T)
  | settled (v : Volume T)
  | writeIp (v : Volume T)

/-- "If necessary, restore consistency by writing index files." -/
def restore (fix : Bool) (dp : Finding T) (v : Volume T) : Outcome T :=
  if ! v.dirty then
    .settled (updateCartCoherency v)
  else if ! fix then
    .failed (-ltfsInconsistent) v
  else if v.dev.appendPos .dp ≠ 0 ∧ v.dev.appendPos .dp < lastRef M .dp v.index.root then
    .failed (-ltfsIndexInvalid) v
  else
    -- "write to data partition if it doesn't end in an index file"
    let d := if dp.found.isNone || dp.blocksAfter then writeIndex .dp false v else (0, v)
    if d.1 = 0 then .writeIp d.2 else .failed d.1 d.2

/-- The flags for what the partitions end in. -/
def noteEnds (ip dp : Finding T) (v : Volume T) : Volume T :=
  let v := if ip.found.isSome && ! ip.blocksAfter then { v with ipIndexFileEnd := true } else v
  if dp.found.isSome && ! dp.blocksAfter then { v with dpIndexFileEnd := true } else v

/-- From the choice of the index on, the partitions being as reported. -/
def repair (fix deep recoverExtra : Bool) (ip dp : Finding T) (v : Volume T) : Outcome T :=
  let extra := ip.extraBlocks || dp.extraBlocks
  if ! deep && extra then .failed (-ltfsInconsistent) v
  else
    match chooseIndex M ip dp v.dev with
    | .error ret => .failed ret { v with dev := v.dev.tick }
    | .ok (index, dirty) =>
      match placeAppend fix .dp dp { v with dev := v.dev.tick, index := index, dirty := dirty } with
      | (.error ret, v) => .failed ret v
      | (.ok dp, v) =>
        match placeAppend fix .ip ip v with
        | (.error ret, v) => .failed ret v
        | (.ok ip, v) =>
          let r := if deep && extra then recover M recoverExtra ip dp v else (0, v)
          if r.1 < 0 then .failed r.1 r.2 else restore M fix dp (noteEnds ip dp r.2)

/-- `ltfs_check_medium` before its last step. -/
def checkMedium (fix deep recoverExtra recoverSymlink : Bool) (v : Volume T) : Outcome T :=
  match lookFor M recoverSymlink .ip v with
  | (.error ret, v) => .failed ret v
  | (.ok ip, v) =>
    match lookFor M recoverSymlink .dp v with
    | (.error ret, v) => .failed ret v
    | (.ok dp, v) =>
      if ip.found.isNone && dp.found.isNone then .failed (-ltfsNoIndex) v
      else
        match closeIndex .dp dp v with
        | (.error ret, v) => .failed ret v
        | (.ok dp, v) =>
          match closeIndex .ip ip v with
          | (.error ret, v) => .failed ret v
          | (.ok ip, v) => repair M fix deep recoverExtra ip dp v

/-- The last step. What comes of the index partition plays no role. -/
def Outcome.finish : Outcome T → Except ℤ Unit × Volume T
  | .failed ret v => (.error ret, v)
  | .settled v => (.ok (), v)
  | .writeIp v => (.ok (), (writeIndex .ip false v).2)

/-- `ltfs_check_medium`. -/
def ltfsCheckMedium (fix deep recoverExtra recoverSymlink : Bool) (v : Volume T) :
    Except ℤ Unit × Volume T :=
  (checkMedium M fix deep recoverExtra recoverSymlink v).finish

end CheckMedium

end Ltfs.CheckMedium
