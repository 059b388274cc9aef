import Ltfs.Tape
import Ltfs.XmlTape
import Mathlib.Data.PNat.Basic

/-!
# Looking for the last index

`ltfs_seek_index` goes back over the file marks of a partition until `ltfs_read_index` accepts
what lies between two of them as an index. The parser is a parameter, `IndexReader`: it says
what comes of parsing the blocks from a position on, and how many bytes are asked for on the
way, which decides where the tape stops.

* `xmlSchemaFromTape`, `ltfsReadIndex` — reading an index from the position of the tape on.
* `ltfsSeekIndex` — the search.
-/

namespace Ltfs.XmlTape

/-- What comes of parsing the blocks from a position on. -/
structure Parse (T : Type) where
  /-- The code `_xml_parse_schema` fails with. -/
  failure : Option ErrorCode
  /-- The bytes asked for by each call of the read callback. -/
  requests : List ℕ
  /-- How long the document is, in bytes from the position on. -/
  documentLength : ℕ
  symerrCount : ℕ
  /-- The code `ltfs_split_symlink` fails with. -/
  splitSymlink : Option ErrorCode
  volUuid : List Char
  index : Index T

/-- What reading an index depends on besides the tape. -/
structure IndexReader (T : Type) where
  /-- From the label. -/
  blocksize : ℕ+
  volUuid : List Char
  /-- By the position where the parser starts. -/
  parse : ℕ → Parse T
  recoverSymlink : Bool
  /-- `vol->ignore_wrong_version`. -/
  ignoreWrongVersion : Bool

/-- What `ltfs_seek_index` reports of the index it found. -/
structure SoughtIndex (T : Type) where
  index : Index T
  indexEndPos : ℕ
  fmAfter : Bool
  blocksAfter : Bool
  /-- What it leaves in the coherency data of the partition. -/
  cohCount : ℕ
  cohSetId : ℕ

/-! ## Positioning -/

/-- The first file mark among the `n` records from `pos` on. -/
def nextFilemark (records : List Record) : ℕ → ℕ → Option ℕ
  | _, 0 => none
  | pos, n + 1 => if records[pos]? = some .filemark then some pos else nextFilemark records (pos + 1) n

/-- `tape_spacefm(dev, 1)`: behind the next file mark. -/
def spaceFmForward (dev : Device) : ℤ × Device :=
  if dev.faults.headD 0 < 0 then
    (dev.faults.headD 0, dev.moved dev.pos)
  else
    match nextFilemark dev.records dev.pos (dev.records.length - dev.pos) with
    | none => (-edevEodDetected, dev.moved dev.records.length)
    | some pos => (0, dev.moved (pos + 1))

/-- `tape_spacefm(dev, -2)`. -/
def spaceFmBackTwo (dev : Device) : ℤ × Device :=
  if dev.faults.headD 0 < 0 then
    (dev.faults.headD 0, dev.moved dev.pos)
  else
    match (lastFilemark dev.records dev.pos).bind (lastFilemark dev.records) with
    | none => (-edevBopDetected, dev.moved 0)
    | some pos => (0, dev.moved pos)

/-- `tape_seek_eod`. -/
def seekEod (dev : Device) : ℤ × Device :=
  if dev.faults.headD 0 < 0 then
    (locateCode (dev.faults.headD 0), dev.moved dev.pos)
  else
    (0, dev.moved dev.records.length)

section Read

variable {T : Type} (R : IndexReader T)

/-! ## Reading an index -/

/-- `struct xml_input_tape` as `xml_schema_from_tape` sets it up, without a cache file. -/
def inputTape (eodPos : ℕ) (dev : Device) : InputTape where
  device := dev
  blocksize := R.blocksize
  bufSize := R.blocksize
  eodPos := eodPos
  currentPos := dev.pos

/-- `xml_schema_from_tape`: whether a file mark was seen. If none was, the code is
`LTFS_NO_TRAIL_FM`. -/
def xmlSchemaFromTape (eodPos : ℕ) (dev : Device) : Option (Except ℤ Bool × Device) :=
  (readAll (R.parse dev.pos).requests (inputTape R eodPos dev)).map fun (_, ctx) =>
    if ctx.errCode < 0 then
      (.error ctx.errCode, ctx.device)
    else
      match (R.parse dev.pos).failure with
      | some code => (.error (if code.1 = -1 then -ltfsIndexInvalid else code.1), ctx.device)
      | none => (.ok ctx.sawFileMark, ctx.device)

/-- The symlink conflicts are resolved if that is asked for. The file mark then counts as seen,
whether it was or not. -/
def recoverConflicts (start : ℕ) (ret : Except ℤ Bool) : Except ℤ Bool :=
  if (R.parse start).symerrCount ≠ 0 ∧ R.recoverSymlink then
    match (R.parse start).splitSymlink with
    | some code => .error code.1
    | none =>
      match ret with
      | .error code => if code = -ltfsSymlinkConflict then .ok true else .error code
      | .ok endFm => .ok endFm
  else ret

/-- The checks of volume UUID, self pointer and back pointer. -/
def checkIndex (p : Partition) (start : ℕ) : Bool :=
  let index := (R.parse start).index
  decide ((R.parse start).volUuid.take 36 = R.volUuid.take 36) &&
  decide (index.selfptr = ⟨some p, start⟩) &&
  -- "basic back pointer checks", the subtraction is one of 64 bits
  ! decide (index.backptr.partition ≠ none ∧ index.backptr.partition ≠ some .dp) &&
  ! decide (index.backptr.partition = index.selfptr.partition ∧ index.selfptr.block ≠ 5 ∧
    index.backptr.block ≠ index.selfptr.block ∧
    (index.selfptr.block + (2 ^ 64 - 2)) % 2 ^ 64 ≤ index.backptr.block) &&
  ! decide (index.backptr.partition ≠ none ∧ index.backptr.block < 5)

/-- `ltfs_read_index`: whether the index is closed by a file mark. -/
def ltfsReadIndex (p : Partition) (eodPos : ℕ) (dev : Device) : Option (Except ℤ Bool × Device) :=
  (xmlSchemaFromTape R eodPos dev).map fun (ret, after) =>
    match recoverConflicts R dev.pos ret with
    | .error ret => (.error ret, after)
    | .ok endFm =>
      if ! checkIndex R p dev.pos then
        (.error (-ltfsIndexInvalid), after)
      else if endFm then
        -- "space forward 1 FM if possible"
        let r := spaceFmForward after
        if r.1 < 0 then (.error r.1, r.2) else (.ok true, r.2)
      else
        (.ok false, after)

/-! ## The search -/

/-- Whether the search goes on after an error. -/
def keepSeeking (ret : ℤ) : Bool :=
  if ret = -ltfsNoMemory ∨ ret = -ltfsIcuError ∨ ret = -ltfsInvalidPath ∨
      ret = -ltfsNametoolong then false
  else if ret = -ltfsUnsupportedIndexVersion then R.ignoreWrongVersion
  else true

/-- The loop of `ltfs_seek_index`; `none` if the fuel runs out. -/
def seekIndexLoop (p : Partition) (eod : ℕ) :
    ℕ → Device → Option (Except ℤ (Option (SoughtIndex T)))
  | 0, _ => none
  | fuel + 1, dev =>
    -- "did we reach the end of the partition label?"
    if dev.pos = 3 then
      some (.ok none)
    else
      let fwd := spaceFmForward dev
      if fwd.1 < 0 then
        some (.error fwd.1)
      else
        match ltfsReadIndex R p eod fwd.2 with
        | none => none
        | some (.error ret, dev) =>
          if keepSeeking R ret then
            -- "go back 2 file marks and try again"
            let back := spaceFmBackTwo dev
            if back.1 < 0 then some (.error back.1) else seekIndexLoop p eod fuel back.2
          else
            some (.error ret)
        | some (.ok fmAfter, dev) =>
          let index := (R.parse fwd.2.pos).index
          if index.selfptr.partition ≠ some p then
            some (.error (-ltfsIndexInvalid))
          else
            some (.ok (some
              { index := index
                indexEndPos := dev.pos
                fmAfter := fmAfter
                blocksAfter := ! decide (dev.pos = eod)
                cohCount := index.generation
                cohSetId := index.selfptr.block }))

/-- `ltfs_seek_index`: the end of data, and the index if one is found. -/
def ltfsSeekIndex (p : Partition) (dev : Device) :
    Option (Except ℤ (ℕ × Option (SoughtIndex T))) :=
  let r := seekEod dev
  if r.1 < 0 then
    some (.error r.1)
  else
    let eod := r.2.pos
    let report := fun r : Except ℤ (Option (SoughtIndex T)) => r.map fun found => (eod, found)
    -- "nothing on the partition except the label"
    if eod ≤ 4 then
      some (.ok (eod, none))
    else
      let back := spaceFmBack r.2
      if back.1 < 0 then
        some (.error back.1)
      else if back.2.pos = 3 then
        some (.ok (eod, none))
      else if back.2.pos = eod - 1 then
        let back := spaceFmBack back.2
        if back.1 < 0 then
          some (.error back.1)
        else
          (seekIndexLoop R p eod eod back.2).map report
      else
        (seekIndexLoop R p eod eod back.2).map report

end Read

end Ltfs.XmlTape
