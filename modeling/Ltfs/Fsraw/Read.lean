import Ltfs.Tape

/-!
# Reading a file from tape

`ltfs_fsraw_read`. The function walks the extent list with two cursors, the next
file byte (`nextOff`) and the number of bytes delivered (`readCount`); it fills
holes with zeros, seeks to the first block it needs of an extent and reads block
by block. The last block read stays in `vol->last_block` and is used again when the
tape still stands right behind it.

* `tapeRead` — the read command of the drive.
* `readBlocks` — the inner loop, over the blocks of one extent.
* `readExtents` — the outer loop, over the extent list.
* `ltfsFsrawRead` — the function.

File offsets are 64-bit numbers here, since the first block of an extent may start
before the beginning of the file: `u64` wraps every sum and difference.
-/

namespace Ltfs

/-- Value of a 64-bit unsigned expression. -/
def u64 (z : ℤ) : ℕ := (z % 2 ^ 64).toNat

/-- `memset(buf + pos, 0, n)`. -/
def memset (pos n : ℕ) (buf : ℕ → UInt8) : ℕ → UInt8 :=
  fun i => if pos ≤ i ∧ i < pos + n then 0 else buf i

/-- `memcpy(buf + pos, src, n)`. -/
def memcpy (pos n : ℕ) (src buf : ℕ → UInt8) : ℕ → UInt8 :=
  fun i => if pos ≤ i ∧ i < pos + n then src (i - pos) else buf i

/-- What a read works on: the device, the block cache of the volume (`last_pos`,
`last_size`, `last_block`), the output buffer and the access time flag of the index. -/
structure ReadState (T : Type) where
  dev : Device T
  lastPos : TapeOffset
  lastSize : ℕ
  lastBlock : ℕ → UInt8
  buf : ℕ → UInt8
  atimeDirty : Bool

/-- `seekpos` and `curpos` of the source, and the bounds of the block at `seekpos`. -/
structure BlockCursor where
  partition : Partition
  block : ℕ
  curpos : Position
  firstbyte : ℕ
  lastbyte : ℕ

section Read

variable {T : Type}

/-- The bytes of a record. `doc index k` is the `k`-th block of the XML document of
an index; a file mark reads as an empty block. -/
def recordBytes (doc : Index T → ℕ → List UInt8) : Record T → List UInt8
  | .fm => []
  | .data bytes => bytes
  | .idx index k _ => doc index k

/-- `tape_read` into `vol->last_block`. A block that is longer than the buffer is cut
off; a drive that refuses to do so answers with an error. -/
def tapeRead (doc : Index T → ℕ → List UInt8) (count : ℕ) (st : ReadState T) :
    Except ℤ ℕ × ReadState T :=
  let pos := st.dev.position
  match st.dev.answer with
  | .error code _ => (.error code, { st with dev := st.dev.tick })
  | .ok _ _ =>
    match (st.dev.medium pos.partition)[pos.block]? with
    | none => (.error (-edevEodDetected), { st with dev := st.dev.tick })
    | some rec =>
      let bytes := (recordBytes doc rec).take count
      (.ok bytes.length,
        { st with
          dev := { st.dev.tick with position := ⟨pos.partition, pos.block + 1⟩ }
          lastBlock := memcpy 0 bytes.length (fun i => bytes.getD i 0) st.lastBlock })

/-- The block at the cursor is in `vol->last_block` and the tape stands behind it. -/
def Buffered (e : ExtentInfo) (c : BlockCursor) (st : ReadState T) : Prop :=
  e.start.partition = st.lastPos.partition ∧ c.block = st.lastPos.block ∧
  c.partition = c.curpos.partition ∧ c.block + 1 = c.curpos.block

instance (e : ExtentInfo) (c : BlockCursor) (st : ReadState T) : Decidable (Buffered e c st) :=
  inferInstanceAs (Decidable (_ ∧ _))

/-- "Read this block into a temp buffer or return the existing contents". -/
def fetchBlock (doc : Index T → ℕ → List UInt8) (bs : ℕ) (e : ExtentInfo) (blockbytes : ℕ)
    (c : BlockCursor) (st : ReadState T) : Except ℤ BlockCursor × ReadState T :=
  if Buffered e c st then
    if st.lastSize < blockbytes then (.error (-ltfsSmallBlock), st) else (.ok c, st)
  else
    match tapeRead doc bs st with
    | (.error ret, st) => (.error ret, st)
    | (.ok nread, st) =>
      if nread < blockbytes then (.error (-ltfsSmallBlock), st)
      else
        (.ok { c with curpos := { c.curpos with block := c.curpos.block + 1 } },
          { st with lastPos := ⟨e.start.partition, c.block⟩, lastSize := nread })

/-- "Read from the extent until end of extent or output buffer full". An iteration
delivers at least one byte, so `count + 1` rounds of fuel are enough. -/
def readBlocks (doc : Index T → ℕ → List UInt8) (bs count lastOff : ℕ) (e : ExtentInfo) :
    ℕ → BlockCursor → ℕ → ℕ → ReadState T → Except ℤ (ℕ × ℕ) × ReadState T
  | 0, _, _, _, st => (.error (-ltfsUnexpectedValue), st)
  | fuel + 1, c, nextOff, readCount, st =>
    let entryEnd := u64 (e.fileoffset + e.bytecount)
    if nextOff < entryEnd ∧ readCount < count then
      let lastbyte := u64 (c.lastbyte + bs)
      let lastbyte := if entryEnd < lastbyte then entryEnd else lastbyte
      let blockbytes := u64 (lastbyte - c.firstbyte)
      match fetchBlock doc bs e blockbytes c st with
      | (.error ret, st) => (.error ret, st)
      | (.ok c, st) =>
        let ncopy := u64 ((if lastOff < lastbyte then lastOff else lastbyte) - nextOff)
        let skip := u64 (nextOff - c.firstbyte)
        let st := { st with
          buf := memcpy readCount ncopy (fun i => st.lastBlock (skip + i)) st.buf }
        let c := { c with
          block := c.block + 1, firstbyte := u64 (c.firstbyte + bs), lastbyte := lastbyte }
        readBlocks doc bs count lastOff e fuel c (u64 (nextOff + ncopy)) (u64 (readCount + ncopy)) st
    else (.ok (nextOff, readCount), st)

/-- First block of the extent that holds the file byte `nextOff`. -/
def seekBlock (bs : ℕ) (e : ExtentInfo) (nextOff : ℕ) : ℕ :=
  e.start.block + u64 (nextOff - e.fileoffset + e.byteoffset) / bs

/-- "Seek if required". -/
def seekIfRequired (e : ExtentInfo) (p : Partition) (block : ℕ) (st : ReadState T) :
    ℤ × ReadState T :=
  let curpos := st.dev.position
  if (curpos.partition ≠ p ∨ curpos.block ≠ block) ∧
      ¬ (curpos.partition = p ∧ curpos.block = block + 1 ∧
        e.start.partition = st.lastPos.partition ∧ block = st.lastPos.block) then
    let r := tapeSeek p (some block) st.dev
    (r.1, { st with dev := r.2 })
  else (0, st)

/-- "Read any needed data from this extent". The position is asked for before the
seek and not again after it. -/
def readExtent (doc : Index T → ℕ → List UInt8) (bs count lastOff : ℕ) (e : ExtentInfo)
    (nextOff readCount : ℕ) (st : ReadState T) : Except ℤ (ℕ × ℕ) × ReadState T :=
  if u64 (e.fileoffset + e.bytecount) > nextOff then
    match e.start.partition with
    | none => (.error (-edevInvalidFieldCdb), st)
    | some p =>
      let block := seekBlock bs e nextOff
      let curpos := st.dev.position
      let r := seekIfRequired e p block st
      if r.1 < 0 then (.error r.1, r.2)
      else
        let firstbyte := u64 (e.fileoffset - e.byteoffset + (block - e.start.block) * bs)
        readBlocks doc bs count lastOff e (count + 1) ⟨p, block, curpos, firstbyte, firstbyte⟩
          nextOff readCount r.2
  else (.ok (nextOff, readCount), st)

/-- The loop over the extent list. -/
def readExtents (doc : Index T → ℕ → List UInt8) (bs count lastOff : ℕ) :
    List ExtentInfo → ℕ → ℕ → ReadState T → Except ℤ (ℕ × ℕ) × ReadState T
  | [], nextOff, readCount, st => (.ok (nextOff, readCount), st)
  | e :: l, nextOff, readCount, st =>
    if readCount = count then (.ok (nextOff, readCount), st)
    else if nextOff < e.fileoffset ∧ e.fileoffset > lastOff then
      -- only the hole before this extent is needed
      (.ok (nextOff, count),
        { st with buf := memset readCount (u64 (lastOff - nextOff)) st.buf })
    else
      let hole := if nextOff < e.fileoffset then u64 (e.fileoffset - nextOff) else 0
      let st := { st with buf := memset readCount hole st.buf }
      let r := readExtent doc bs count lastOff e (max nextOff e.fileoffset) (u64 (readCount + hole)) st
      match r.1 with
      | .error ret => (.error ret, r.2)
      | .ok cursors => readExtents doc bs count lastOff l cursors.1 cursors.2 r.2

/-- `ltfs_fsraw_read` from `start:` to `out_unlock:`. -/
def fsrawReadAttempt (doc : Index T → ℕ → List UInt8) (bs : ℕ) (d : Dentry) (count offset : ℕ)
    (st : ReadState T) : Except ℤ ℕ × ReadState T :=
  let lastOff := u64 (offset + count)
  match readExtents doc bs count lastOff d.extentlist offset 0 st with
  | (.error ret, st) => (.error ret, st)
  | (.ok (nextOff, readCount), st) =>
    -- "Handle sparse end-of-file: fill buffer with zeros"
    let ncopy := if readCount < count ∧ nextOff < d.size then
        (if lastOff < d.size then u64 (lastOff - nextOff) else u64 (d.size - nextOff))
      else 0
    (.ok (u64 (readCount + ncopy)),
      { st with buf := memset readCount ncopy st.buf, atimeDirty := true })

/-- `ltfs_fsraw_read`: the byte count or an error. `again` is what follows an error
that asks for a revalidation: `ltfs_revalidate` and, if that succeeds, another attempt. -/
def ltfsFsrawRead (doc : Index T → ℕ → List UInt8) (again : ReadState T → Except ℤ ℕ × ReadState T)
    (bs : ℕ) (d : Dentry) (count offset : ℕ) (st : ReadState T) : Except ℤ ℕ × ReadState T :=
  if count = 0 then (.ok 0, st)
  else
    match fsrawReadAttempt doc bs d count offset st with
    | (.error ret, st) => if needReval ret then again st else (.error ret, st)
    | (.ok n, st) => (.ok n, st)

end Read

end Ltfs
