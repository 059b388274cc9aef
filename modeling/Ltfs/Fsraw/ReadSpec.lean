import Ltfs.Fsraw.Read
import Ltfs.TapeSpec

/-!
# What a read delivers

`fsraw_read_correct`: on a drive without faults `ltfs_fsraw_read` fills the buffer
with the bytes the extents map to, and with zeros where there is no extent, wherever
the tape stood before and whatever block was buffered.

The loops keep `Reading`: the first `readCount` bytes of the buffer are right, the
others are untouched, and the block cache agrees with the tape. `fetchBlock_spec`,
`readBlocks_spec`, `readExtent_spec` and `readExtents_spec` carry it through.
-/

namespace Ltfs

open Lib Lib.Segment ExtentInfo

/-! ## 64-bit arithmetic -/

theorem u64_eq {z : ℤ} {n : ℕ} (h : z = n) (hn : n < 2 ^ 64) : u64 z = n := by
  unfold u64
  omega

theorem u64_add (z w : ℤ) : u64 (u64 z + w) = u64 (z + w) := by
  unfold u64
  omega

theorem u64_sub (z w : ℤ) : u64 (w - u64 z) = u64 (w - z) := by
  unfold u64
  omega

/-! ## Memory -/

theorem memset_eq_memcpy (pos n : ℕ) (buf : ℕ → UInt8) :
    memset pos n buf = memcpy pos n (fun _ => 0) buf := rfl

theorem memcpy_of_lt {pos n i : ℕ} (src buf : ℕ → UInt8) (h : i < pos) :
    memcpy pos n src buf i = buf i := by
  unfold memcpy
  rw [if_neg (by omega)]

theorem memcpy_of_le {pos n i : ℕ} (src buf : ℕ → UInt8) (h : pos + n ≤ i) :
    memcpy pos n src buf i = buf i := by
  unfold memcpy
  rw [if_neg (by omega)]

theorem memcpy_mid {pos n i : ℕ} (src buf : ℕ → UInt8) (h : pos ≤ i) (h' : i < pos + n) :
    memcpy pos n src buf i = src (i - pos) := by
  unfold memcpy
  rw [if_pos ⟨h, h'⟩]

section Read

variable {T : Type} (doc : Index T → ℕ → List UInt8)

/-! ## The bytes of a file -/

/-- The byte at a tape place, if the block exists and is long enough. -/
def tapeByte (medium : Partition → List (Record T)) :
    Option Partition × ℕ × ℕ → Option UInt8
  | (none, _, _) => none
  | (some p, block, byte) => ((medium p)[block]?).bind fun rec => (recordBytes doc rec)[byte]?

/-- Byte `x` of a file: the tape byte its extent maps it to, zero without an extent. -/
def fileByte (medium : Partition → List (Record T)) (bs : ℕ) (l : List ExtentInfo) (x : ℕ) :
    UInt8 :=
  match extentMap bs l x with
  | none => 0
  | some place => (tapeByte doc medium place).getD 0

/-- Every byte of the extent is on tape. -/
def Backed (medium : Partition → List (Record T)) (bs : ℕ) (e : ExtentInfo) : Prop :=
  ∀ x, Covers e x → (tapeByte doc medium (e.place bs x)).isSome

theorem fileByte_of_uncovered (medium : Partition → List (Record T)) (bs : ℕ)
    {l : List ExtentInfo} {x : ℕ} (h : ∀ e ∈ l, ¬ Covers e x) :
    fileByte doc medium bs l x = 0 := by
  have hmap : extentMap bs l x = none := segMap_eq_none_iff.mpr h
  unfold fileByte
  rw [hmap]

theorem fileByte_of_covers (medium : Partition → List (Record T)) (bs : ℕ)
    {l : List ExtentInfo} (hl : Ordered l) {e : ExtentInfo} (he : e ∈ l) {x : ℕ}
    (hx : Covers e x) :
    fileByte doc medium bs l x = (tapeByte doc medium (e.place bs x)).getD 0 := by
  have hmap : extentMap bs l x = some (e.place bs x) := segMap_eq_some_of_mem hl he hx
  unfold fileByte
  rw [hmap]

/-- A byte of an extent that lies in block `i` of it. -/
theorem place_eq {bs : ℕ} {e : ExtentInfo} {x i : ℕ} (hlo : i * bs ≤ e.byteoffset + (x - e.fileoffset))
    (hhi : e.byteoffset + (x - e.fileoffset) < i * bs + bs) :
    e.place bs x = (e.start.partition, e.start.block + i,
      e.byteoffset + (x - e.fileoffset) - i * bs) := by
  have hdiv : (e.byteoffset + (x - e.fileoffset)) / bs = i := by
    apply Nat.div_eq_of_lt_le hlo
    rw [Nat.succ_mul]
    exact hhi
  have hmod : (e.byteoffset + (x - e.fileoffset)) % bs
      = e.byteoffset + (x - e.fileoffset) - i * bs := by
    have h := Nat.div_add_mod (e.byteoffset + (x - e.fileoffset)) bs
    rw [hdiv, Nat.mul_comm] at h
    omega
  unfold ExtentInfo.place
  rw [hdiv, hmod]

/-! ## The invariant -/

/-- No command fails. -/
def Device.Faultless (dev : Device T) : Prop :=
  ∀ n, ∃ early programmable, dev.answers n = .ok early programmable

/-- The buffered block equals the tape block at `last_pos`. -/
def CacheOk (bs : ℕ) (st : ReadState T) : Prop :=
  ∀ p, st.lastPos.partition = some p →
    ∃ rec, (st.dev.medium p)[st.lastPos.block]? = some rec ∧
      st.lastSize = ((recordBytes doc rec).take bs).length ∧
      ∀ i < st.lastSize, (recordBytes doc rec)[i]? = some (st.lastBlock i)

/-- The drive works, the tape holds `medium`, and the block cache agrees with it. -/
structure DriveOk (medium : Partition → List (Record T)) (bs : ℕ) (st : ReadState T) : Prop where
  faultless : st.dev.Faultless
  medium : st.dev.medium = medium
  cache : CacheOk doc bs st

/-- The first `readCount` bytes have been delivered. -/
structure Delivered (byte : ℕ → UInt8) (size offset : ℕ) (buf₀ : ℕ → UInt8)
    (nextOff readCount : ℕ) (buf : ℕ → UInt8) : Prop where
  cursor : nextOff = offset + readCount
  within : 0 < readCount → nextOff ≤ size
  filled : ∀ i < readCount, buf i = byte (offset + i)
  rest : ∀ i, readCount ≤ i → buf i = buf₀ i

/-- Copying the next `n` bytes of the file to the buffer. -/
theorem Delivered.copy {byte : ℕ → UInt8} {size offset : ℕ} {buf₀ : ℕ → UInt8}
    {nextOff readCount : ℕ} {buf : ℕ → UInt8}
    (h : Delivered byte size offset buf₀ nextOff readCount buf) {n : ℕ}
    (hn : 0 < n → nextOff + n ≤ size) {src : ℕ → UInt8}
    (hsrc : ∀ i < n, src i = byte (nextOff + i)) :
    Delivered byte size offset buf₀ (nextOff + n) (readCount + n) (memcpy readCount n src buf) := by
  have hcur := h.cursor
  have hwithin := h.within
  constructor
  · omega
  · omega
  · intro i hi
    by_cases hold : i < readCount
    · rw [memcpy_of_lt src buf hold]
      exact h.filled i hold
    · rw [memcpy_mid src buf (by omega) hi, hsrc (i - readCount) (by omega)]
      congr 1
      omega
  · intro i hi
    rw [memcpy_of_le src buf hi]
    exact h.rest i (by omega)

/-- Invariant of the loops. -/
structure Reading (medium : Partition → List (Record T)) (bs : ℕ) (d : Dentry)
    (offset : ℕ) (buf₀ : ℕ → UInt8) (nextOff readCount : ℕ) (st : ReadState T) : Prop where
  drive : DriveOk doc medium bs st
  delivered : Delivered (fileByte doc medium bs d.extentlist) d.size offset buf₀ nextOff readCount
    st.buf

/-- A hole is filled with zeros. -/
theorem Reading.hole {medium : Partition → List (Record T)} {bs : ℕ} {d : Dentry}
    {offset : ℕ} {buf₀ : ℕ → UInt8} {nextOff readCount : ℕ} {st : ReadState T}
    (h : Reading doc medium bs d offset buf₀ nextOff readCount st) (n : ℕ)
    (hsize : 0 < n → nextOff + n ≤ d.size)
    (hn : ∀ x, nextOff ≤ x → x < nextOff + n → ∀ e ∈ d.extentlist, ¬ Covers e x) :
    Reading doc medium bs d offset buf₀ (nextOff + n) (readCount + n)
      { st with buf := memset readCount n st.buf } := by
  constructor
  · exact ⟨h.drive.faultless, h.drive.medium, h.drive.cache⟩
  · show Delivered _ _ _ _ _ _ (memset readCount n st.buf)
    rw [memset_eq_memcpy]
    apply h.delivered.copy hsize
    intro i hi
    rw [fileByte_of_uncovered]
    exact hn (nextOff + i) (by omega) (by omega)

/-! ## Reading one block -/

/-- A read of a block that exists. -/
theorem tapeRead_spec {bs : ℕ} {st : ReadState T} (hdrive : st.dev.Faultless) {rec : Record T}
    (hrec : (st.dev.medium st.dev.position.partition)[st.dev.position.block]? = some rec) :
    tapeRead doc bs st = (.ok ((recordBytes doc rec).take bs).length,
      { st with
        dev := { st.dev.tick with
          position := ⟨st.dev.position.partition, st.dev.position.block + 1⟩ }
        lastBlock := memcpy 0 ((recordBytes doc rec).take bs).length
          (fun i => ((recordBytes doc rec).take bs).getD i 0) st.lastBlock }) := by
  obtain ⟨early, programmable, hanswer⟩ := hdrive st.dev.clock
  have hanswer' : st.dev.answer = .ok early programmable := hanswer
  unfold tapeRead
  simp only [hanswer', hrec]

/-- The tape stands where the next block is read from, or behind it if it is buffered. -/
def At (e : ExtentInfo) (c : BlockCursor) (st : ReadState T) : Prop :=
  st.dev.position = ⟨c.partition, if Buffered e c st then c.block + 1 else c.block⟩

/-- What fetching a block does. -/
structure Fetched (medium : Partition → List (Record T)) (bs : ℕ) (rec : Record T)
    (c c' : BlockCursor) (st st' : ReadState T) : Prop where
  drive : DriveOk doc medium bs st'
  partition : c'.partition = c.partition
  block : c'.block = c.block
  firstbyte : c'.firstbyte = c.firstbyte
  position : st'.dev.position = ⟨c.partition, c.block + 1⟩
  lastPos : st'.lastPos.block = c.block
  buf : st'.buf = st.buf
  bytes : ∀ i < ((recordBytes doc rec).take bs).length,
    (recordBytes doc rec)[i]? = some (st'.lastBlock i)

theorem fetchBlock_spec {medium : Partition → List (Record T)} {bs : ℕ} {e : ExtentInfo}
    {c : BlockCursor} {st : ReadState T} (hd : DriveOk doc medium bs st)
    (hpart : e.start.partition = some c.partition) (hat : At e c st) {rec : Record T}
    (hrec : (medium c.partition)[c.block]? = some rec) {blockbytes : ℕ}
    (hlen : blockbytes ≤ ((recordBytes doc rec).take bs).length) :
    ∃ c' st', fetchBlock doc bs e blockbytes c st = (.ok c', st') ∧
      Fetched doc medium bs rec c c' st st' := by
  unfold At at hat
  unfold fetchBlock
  by_cases hb : Buffered e c st
  · -- the block is in the cache, so the cache holds `rec`
    rw [if_pos hb] at hat ⊢
    obtain ⟨hpos, hblock, -, -⟩ := hb
    rw [hpart] at hpos
    obtain ⟨rec', hrec', hsize, hbytes⟩ := hd.cache c.partition hpos.symm
    rw [hd.medium, ← hblock, hrec, Option.some.injEq] at hrec'
    subst hrec'
    rw [if_neg (by omega)]
    refine ⟨c, st, rfl, hd, rfl, rfl, rfl, hat, hblock.symm, rfl, ?_⟩
    rw [← hsize]
    exact hbytes
  · rw [if_neg hb] at hat ⊢
    have hread : (st.dev.medium st.dev.position.partition)[st.dev.position.block]? = some rec := by
      rw [hat, hd.medium]
      exact hrec
    have hbytes : ∀ i < ((recordBytes doc rec).take bs).length, (recordBytes doc rec)[i]?
        = some (memcpy 0 ((recordBytes doc rec).take bs).length
          (fun i => ((recordBytes doc rec).take bs).getD i 0) st.lastBlock i) := by
      intro i hi
      have hi' := hi
      rw [List.length_take, Nat.lt_min] at hi'
      rw [memcpy_mid _ _ (Nat.zero_le i) (by omega), Nat.sub_zero, List.getD_eq_getElem?_getD,
        List.getElem?_take, if_pos hi'.1, List.getElem?_eq_getElem hi'.2, Option.getD_some]
    rw [tapeRead_spec doc hd.faultless hread]
    dsimp only
    rw [if_neg (by omega)]
    refine ⟨_, _, rfl, ⟨hd.faultless, hd.medium, ?_⟩, rfl, rfl, rfl, ?_, rfl, rfl, hbytes⟩
    · intro p hp
      have hp' : some c.partition = some p := by rw [← hpart, ← hp]
      obtain rfl := Option.some.inj hp'
      exact ⟨rec, hd.medium ▸ hrec, rfl, hbytes⟩
    · show (⟨st.dev.position.partition, st.dev.position.block + 1⟩ : Position) = _
      rw [hat]

/-! ## Reading the blocks of an extent -/

/-- The sizes that occur: `offset` is an `off_t`, the output buffer and the block cache
are two objects in memory, and file sizes and byte positions inside an extent are
64-bit numbers. -/
structure ReadArgs (bs : ℕ) (d : Dentry) (count offset : ℕ) : Prop where
  blocksize : 0 < bs
  offset : offset < 2 ^ 63
  buffers : count + bs ≤ 2 ^ 63
  size : d.size < 2 ^ 64
  byteoffset : ∀ e ∈ d.extentlist, e.byteoffsetEnd < 2 ^ 64

/-- The cursor is at block `i` of the extent, which holds the file byte `nextOff`. -/
structure Aligned (bs : ℕ) (e : ExtentInfo) (i : ℕ) (c : BlockCursor) (nextOff : ℕ) : Prop where
  block : c.block = e.start.block + i
  firstbyte : c.firstbyte = u64 ((e.fileoffset : ℤ) - e.byteoffset + (i * bs : ℕ))
  lastbyte : c.lastbyte = c.firstbyte
  start_le : e.fileoffset ≤ nextOff
  le : i * bs ≤ e.byteoffset + (nextOff - e.fileoffset)
  lt : e.byteoffset + (nextOff - e.fileoffset) < i * bs + bs

theorem tapeByte_place {medium : Partition → List (Record T)} {bs : ℕ} {e : ExtentInfo}
    {p : Partition} (hp : e.start.partition = some p) {x i : ℕ}
    (hlo : i * bs ≤ e.byteoffset + (x - e.fileoffset))
    (hhi : e.byteoffset + (x - e.fileoffset) < i * bs + bs) :
    tapeByte doc medium (e.place bs x) = ((medium p)[e.start.block + i]?).bind
      fun rec => (recordBytes doc rec)[e.byteoffset + (x - e.fileoffset) - i * bs]? := by
  rw [place_eq hlo hhi, hp]
  rfl

/-- The block with the file byte `x` exists and reaches up to that byte. -/
theorem Backed.block {medium : Partition → List (Record T)} {bs : ℕ} {e : ExtentInfo}
    (h : Backed doc medium bs e) {p : Partition} (hp : e.start.partition = some p) {x i : ℕ}
    (hx : Covers e x) (hlo : i * bs ≤ e.byteoffset + (x - e.fileoffset))
    (hhi : e.byteoffset + (x - e.fileoffset) < i * bs + bs) :
    ∃ rec, (medium p)[e.start.block + i]? = some rec ∧
      e.byteoffset + (x - e.fileoffset) - i * bs < ((recordBytes doc rec).take bs).length := by
  have hsome := h x hx
  rw [tapeByte_place doc hp hlo hhi] at hsome
  cases hrec : (medium p)[e.start.block + i]? with
  | none =>
    rw [hrec] at hsome
    cases hsome
  | some rec =>
    rw [hrec, Option.bind_some] at hsome
    have hlen : e.byteoffset + (x - e.fileoffset) - i * bs < (recordBytes doc rec).length := by
      simpa using hsome
    refine ⟨rec, rfl, ?_⟩
    rw [List.length_take]
    omega

/-- The partition of an extent with data is one of the tape's. -/
theorem Backed.partition {medium : Partition → List (Record T)} {bs : ℕ} {e : ExtentInfo}
    (h : Backed doc medium bs e) {x : ℕ} (hx : Covers e x) : ∃ p, e.start.partition = some p := by
  have hsome := h x hx
  unfold ExtentInfo.place at hsome
  cases hp : e.start.partition with
  | none =>
    rw [hp] at hsome
    cases hsome
  | some p => exact ⟨p, rfl⟩

/-- One iteration of the inner loop: where the block at the cursor ends, and how far it
is copied. -/
structure Iteration (bs lastOff entryEnd : ℕ) (e : ExtentInfo) (i nextOff : ℕ) (c : BlockCursor)
    (lastbyte blockbytes ncopy skip : ℕ) : Prop where
  lastbyte_le : lastbyte ≤ entryEnd
  lt_lastbyte : nextOff < lastbyte
  /-- The block ends with the extent or is a full one. -/
  lastbyte_eq : lastbyte = entryEnd ∨ lastbyte + e.byteoffset = e.fileoffset + (i * bs + bs)
  blockbytes_eq : blockbytes + i * bs + e.fileoffset = lastbyte + e.byteoffset
  blockbytes_le : blockbytes ≤ bs
  ncopy_eq : nextOff + ncopy = min lastbyte lastOff
  skip_eq : skip + i * bs = e.byteoffset + (nextOff - e.fileoffset)

theorem iteration_spec {bs lastOff : ℕ} {e : ExtentInfo} {i nextOff : ℕ} {c : BlockCursor}
    (hc : Aligned bs e i c nextOff) (hend : e.fileoffset + e.bytecount < 2 ^ 64)
    (hnext : nextOff < e.fileoffset + e.bytecount) (hlast : nextOff < lastOff)
    (hmax : lastOff + bs ≤ 2 ^ 64) {lb : ℕ} (hlb : lb = u64 (c.lastbyte + bs)) {lastbyte : ℕ}
    (hlastbyte : lastbyte = if e.fileoffset + e.bytecount < lb then e.fileoffset + e.bytecount
      else lb) :
    Iteration bs lastOff (e.fileoffset + e.bytecount) e i nextOff c lastbyte
      (u64 (lastbyte - c.firstbyte))
      (u64 ((if lastOff < lastbyte then lastOff else lastbyte) - nextOff))
      (u64 (nextOff - c.firstbyte)) := by
  have hstart := hc.start_le
  have hle := hc.le
  have hlt := hc.lt
  have hfirst := hc.firstbyte
  rw [hc.lastbyte, hfirst, u64_add] at hlb
  rw [hfirst, u64_sub, u64_sub]
  obtain ⟨off, hoff⟩ : ∃ off, off = i * bs := ⟨_, rfl⟩
  rw [← hoff] at hle hlt hlb ⊢
  -- the block starts at `fileoffset - byteoffset + off`, possibly before the file
  have hlb' : lb + e.byteoffset = e.fileoffset + (off + bs) := by
    have h : u64 ((e.fileoffset : ℤ) - e.byteoffset + (off : ℕ) + bs)
        = e.fileoffset + (off + bs) - e.byteoffset := by
      apply u64_eq
      · omega
      · omega
    omega
  have hbb : u64 (lastbyte - ((e.fileoffset : ℤ) - e.byteoffset + (off : ℕ)))
      = lastbyte + e.byteoffset - (e.fileoffset + off) := by
    apply u64_eq
    · split at hlastbyte <;> omega
    · split at hlastbyte <;> omega
  have hskip : u64 (nextOff - ((e.fileoffset : ℤ) - e.byteoffset + (off : ℕ)))
      = e.byteoffset + (nextOff - e.fileoffset) - off := by
    apply u64_eq
    · omega
    · omega
  have hcopy : u64 (((if lastOff < lastbyte then lastOff else lastbyte : ℕ) : ℤ) - nextOff)
      = min lastbyte lastOff - nextOff := by
    apply u64_eq
    · split at hlastbyte <;> split <;> omega
    · split at hlastbyte <;> omega
  rw [hbb, hskip, hcopy]
  constructor
  all_goals split at hlastbyte <;> omega

/-- The cursor after an iteration. -/
def BlockCursor.next (bs lastbyte : ℕ) (c : BlockCursor) : BlockCursor :=
  { c with block := c.block + 1, firstbyte := u64 (c.firstbyte + bs), lastbyte := lastbyte }

theorem Aligned.next {bs : ℕ} {e : ExtentInfo} {i : ℕ} {c c' : BlockCursor} {nextOff : ℕ}
    (h : Aligned bs e i c nextOff) (hblock : c'.block = c.block)
    (hfirst : c'.firstbyte = c.firstbyte) {lastbyte : ℕ}
    (hfull : lastbyte + e.byteoffset = e.fileoffset + (i * bs + bs)) (hlb : lastbyte < 2 ^ 64)
    (hstart : e.fileoffset ≤ lastbyte) (hbs : 0 < bs) :
    Aligned bs e (i + 1) (c'.next bs lastbyte) lastbyte := by
  have hsucc : (i + 1) * bs = i * bs + bs := Nat.succ_mul i bs
  have hnext : u64 ((c'.firstbyte : ℤ) + bs)
      = u64 ((e.fileoffset : ℤ) - e.byteoffset + ((i + 1) * bs : ℕ)) := by
    rw [hfirst, h.firstbyte, u64_add, hsucc]
    congr 1
    omega
  constructor
  · show c'.block + 1 = _
    rw [hblock, h.block]
    omega
  · exact hnext
  · show lastbyte = u64 ((c'.firstbyte : ℤ) + bs)
    rw [hnext, hsucc]
    refine (u64_eq ?_ hlb).symm
    omega
  · exact hstart
  · omega
  · omega

/-- Behind a block that was just fetched, the next one is not buffered. -/
theorem Fetched.at_next {medium : Partition → List (Record T)} {bs : ℕ} {rec : Record T}
    {c c' : BlockCursor} {st st' : ReadState T} (h : Fetched doc medium bs rec c c' st st')
    {e : ExtentInfo} {lastbyte : ℕ} {buf : ℕ → UInt8} :
    At e (c'.next bs lastbyte) { st' with buf := buf } := by
  unfold At
  rw [if_neg]
  · show st'.dev.position = ⟨c'.partition, c'.block + 1⟩
    rw [h.position, h.partition, h.block]
  · rintro ⟨-, hblock, -, -⟩
    have hblock' : c'.block + 1 = st'.lastPos.block := hblock
    rw [h.lastPos, h.block] at hblock'
    omega

/-- The inner loop delivers the rest of the extent, or as much of it as is wanted. -/
theorem readBlocks_spec {medium : Partition → List (Record T)} {bs count offset : ℕ}
    {d : Dentry} (hl : Ordered d.extentlist) {e : ExtentInfo} (he : e ∈ d.extentlist)
    (hend : e.fileoffset + e.bytecount < 2 ^ 64) (hsize : e.fileoffset + e.bytecount ≤ d.size) (hback : Backed doc medium bs e)
    (hmax : offset + count + bs ≤ 2 ^ 64) (buf₀ : ℕ → UInt8) (fuel : ℕ) :
    ∀ (c : BlockCursor) (nextOff readCount : ℕ) (st : ReadState T),
      e.start.partition = some c.partition →
      Reading doc medium bs d offset buf₀ nextOff readCount st →
      readCount ≤ count → count < readCount + fuel →
      (nextOff < e.fileoffset + e.bytecount → readCount < count →
        (∃ i, Aligned bs e i c nextOff) ∧ At e c st) →
      ∃ nextOff' readCount' st',
        readBlocks doc bs count (offset + count) e fuel c nextOff readCount st
          = (.ok (nextOff', readCount'), st') ∧
        Reading doc medium bs d offset buf₀ nextOff' readCount' st' ∧
        readCount' ≤ count ∧ nextOff ≤ nextOff' ∧
        (e.fileoffset + e.bytecount ≤ nextOff' ∨ readCount' = count) := by
  have hendu : u64 ((e.fileoffset : ℤ) + e.bytecount) = e.fileoffset + e.bytecount :=
    u64_eq (by omega) hend
  induction fuel with
  | zero =>
    intro c nextOff readCount st _ _ hle hfuel
    omega
  | succ fuel ih =>
    intro c nextOff readCount st hpart hreading hle hfuel hgo
    have hcur := hreading.delivered.cursor
    rw [readBlocks, hendu]
    by_cases hcond : nextOff < e.fileoffset + e.bytecount ∧ readCount < count
    · rw [if_pos hcond]
      obtain ⟨⟨i, hal⟩, hat⟩ := hgo hcond.1 hcond.2
      dsimp only
      generalize hlb : u64 ((c.lastbyte : ℤ) + bs) = lb
      generalize hlastbyte : (if e.fileoffset + e.bytecount < lb then e.fileoffset + e.bytecount
        else lb) = lastbyte
      have hlast : nextOff < offset + count := by omega
      have hit := iteration_spec hal hend hcond.1 hlast hmax
        hlb.symm hlastbyte.symm
      generalize u64 ((lastbyte : ℤ) - c.firstbyte) = blockbytes at hit ⊢
      generalize u64 (((if offset + count < lastbyte then offset + count else lastbyte : ℕ) : ℤ)
        - nextOff) = ncopy at hit ⊢
      generalize hskipu : u64 ((nextOff : ℤ) - c.firstbyte) = skip at hit
      have hstart := hal.start_le
      have hlo := hal.le
      have hhi := hal.lt
      have hlbnext := hit.lt_lastbyte
      have hlbend := hit.lastbyte_le
      have hbb := hit.blockbytes_eq
      have hbbs := hit.blockbytes_le
      have hncopy := hit.ncopy_eq
      have hskip := hit.skip_eq
      -- the last byte taken from this block decides how long the block must be
      obtain ⟨rec, hrec, hlen⟩ := hback.block doc hpart (x := lastbyte - 1) (i := i)
        (covers_iff.mpr (by omega)) (by omega) (by omega)
      rw [← hal.block] at hrec
      have hlen' : blockbytes ≤ ((recordBytes doc rec).take bs).length := by omega
      obtain ⟨c', st', hfetch, hf⟩ := fetchBlock_spec doc hreading.drive hpart hat hrec hlen'
      rw [hfetch]
      rw [← hf.firstbyte] at hskipu
      dsimp only
      have hnextu : u64 ((nextOff : ℤ) + ncopy) = nextOff + ncopy := u64_eq (by omega) (by omega)
      have hreadu : u64 ((readCount : ℤ) + ncopy) = readCount + ncopy := u64_eq (by omega) (by omega)
      rw [hnextu, hreadu, hskipu]
      have hsrc : ∀ j < ncopy, st'.lastBlock (skip + j) = fileByte doc medium bs d.extentlist (nextOff + j) := by
        intro j hj
        have hbyte := hf.bytes (skip + j) (by omega)
        have hidx : e.byteoffset + (nextOff + j - e.fileoffset) - i * bs = skip + j := by omega
        rw [fileByte_of_covers doc medium bs hl he (covers_iff.mpr (by omega)),
          tapeByte_place doc hpart (i := i) (by omega) (by omega), ← hal.block, hrec,
          Option.bind_some, hidx, hbyte, Option.getD_some]
      have hdel := hreading.delivered.copy (n := ncopy) (by omega) hsrc
      rw [← hf.buf] at hdel
      have hnext : nextOff + ncopy < e.fileoffset + e.bytecount → readCount + ncopy < count →
          (∃ i, Aligned bs e i (c'.next bs lastbyte) (nextOff + ncopy)) ∧
          At e (c'.next bs lastbyte) { st' with
            buf := memcpy readCount ncopy (fun j => st'.lastBlock (skip + j)) st'.buf } := by
        intro hmore hmore'
        -- the block was used up to its end, so the next one starts there
        have hfull : lastbyte + e.byteoffset = e.fileoffset + (i * bs + bs) := by
          have h := hit.lastbyte_eq
          omega
        have hused : nextOff + ncopy = lastbyte := by omega
        constructor
        · rw [hused]
          exact ⟨i + 1, hal.next hf.block hf.firstbyte hfull (by omega) (by omega) (by omega)⟩
        · exact hf.at_next
      obtain ⟨nextOff', readCount', st'', hrun, hread', hle', hge', hdone⟩ :=
        ih (c'.next bs lastbyte) (nextOff + ncopy) (readCount + ncopy) { st' with
            buf := memcpy readCount ncopy (fun j => st'.lastBlock (skip + j)) st'.buf }
          (by rw [hpart, BlockCursor.next, hf.partition])
          ⟨⟨hf.drive.faultless, hf.drive.medium, hf.drive.cache⟩, hdel⟩ (by omega) (by omega) hnext
      exact ⟨nextOff', readCount', st'', hrun, hread', hle', by omega, hdone⟩
    · -- the extent or the buffer is exhausted
      rw [if_neg hcond]
      refine ⟨nextOff, readCount, st, rfl, hreading, hle, le_refl _, ?_⟩
      omega

/-! ## Seeking -/

theorem locate_faultless {dev : Device T} (h : dev.Faultless) {p : Partition} {block : ℕ}
    (hblock : block ≤ dev.eod p) : (locate p (some block) dev).1 = 0 := by
  obtain ⟨early, programmable, hanswer⟩ := h dev.clock
  have hanswer' : dev.answer = .ok early programmable := hanswer
  unfold locate
  rw [hanswer']
  dsimp only
  rw [if_pos]
  exact hblock

/-- A seek to a block that exists. -/
theorem tapeSeek_faultless {dev : Device T} (h : dev.Faultless) {p : Partition} {block : ℕ}
    (hblock : block ≤ dev.eod p) :
    (tapeSeek p (some block) dev).1 = 0 ∧ (tapeSeek p (some block) dev).2.Faultless ∧
    (tapeSeek p (some block) dev).2.medium = dev.medium ∧
    (tapeSeek p (some block) dev).2.position = ⟨p, block⟩ := by
  unfold tapeSeek
  by_cases hthere : some block = some dev.position.block ∧ p = dev.position.partition
  · rw [if_pos hthere]
    refine ⟨rfl, h, rfl, ?_⟩
    rw [Option.some.injEq] at hthere
    rw [hthere.1, hthere.2]
  · rw [if_neg hthere]
    have hret := locate_faultless h hblock
    obtain ⟨hmedium, -, hframe, -, -, hpos⟩ := locate_spec p (some block) dev
    refine ⟨?_, ?_, hmedium, (hpos hret).1⟩
    · dsimp only
      rw [hret]
      decide
    · intro n
      have hn := h n
      rw [← hframe.answers] at hn
      exact hn

/-- After "seek if required" the tape stands at the block, or behind it if it is buffered. -/
theorem seekIfRequired_spec {medium : Partition → List (Record T)} {bs : ℕ} {e : ExtentInfo}
    {p : Partition} {block : ℕ} {st : ReadState T} (hd : DriveOk doc medium bs st)
    (hblock : block ≤ (medium p).length) (firstbyte lastbyte : ℕ) :
    (seekIfRequired e p block st).1 = 0 ∧ DriveOk doc medium bs (seekIfRequired e p block st).2 ∧
    (seekIfRequired e p block st).2.buf = st.buf ∧
    At e ⟨p, block, st.dev.position, firstbyte, lastbyte⟩ (seekIfRequired e p block st).2 := by
  have hblock' : block ≤ st.dev.eod p := by
    unfold Device.eod
    rw [hd.medium]
    exact hblock
  unfold seekIfRequired
  dsimp only
  by_cases hseek : (st.dev.position.partition ≠ p ∨ st.dev.position.block ≠ block) ∧
      ¬ (st.dev.position.partition = p ∧ st.dev.position.block = block + 1 ∧
        e.start.partition = st.lastPos.partition ∧ block = st.lastPos.block)
  · rw [if_pos hseek]
    obtain ⟨hret, hfaultless, hmedium, hpos⟩ := tapeSeek_faultless hd.faultless hblock'
    refine ⟨hret, ⟨hfaultless, ?_, ?_⟩, rfl, ?_⟩
    · rw [hmedium]
      exact hd.medium
    · unfold CacheOk
      rw [hmedium]
      exact hd.cache
    · unfold At
      rw [if_neg]
      · exact hpos
      · -- `curpos` still is the position before the seek
        rintro ⟨hpart, hb, hp, hnext⟩
        exact hseek.2 ⟨hp.symm, hnext.symm, hpart, hb⟩
  · rw [if_neg hseek]
    refine ⟨rfl, hd, rfl, ?_⟩
    unfold At
    by_cases hthere : st.dev.position.partition = p ∧ st.dev.position.block = block
    · rw [if_neg]
      · rw [← hthere.1, ← hthere.2]
      · rintro ⟨-, -, -, hnext⟩
        have hnext' : block + 1 = st.dev.position.block := hnext
        omega
    · have hbuf : st.dev.position.partition = p ∧ st.dev.position.block = block + 1 ∧
          e.start.partition = st.lastPos.partition ∧ block = st.lastPos.block := by
        by_contra hnot
        rw [not_and_or] at hthere
        exact hseek ⟨hthere, hnot⟩
      obtain ⟨hp, hnext, hpart, hb⟩ := hbuf
      rw [if_pos]
      · rw [← hp, ← hnext]
      · exact ⟨hpart, hb, hp.symm, hnext.symm⟩

/-! ## The outer loop -/

theorem readExtent_spec {medium : Partition → List (Record T)} {bs count offset : ℕ}
    {d : Dentry} (hl : Ordered d.extentlist) {e : ExtentInfo} (he : e ∈ d.extentlist) (hbs : 0 < bs)
    (hend : e.fileoffset + e.bytecount < 2 ^ 64) (hsize : e.fileoffset + e.bytecount ≤ d.size) (hbo : e.byteoffsetEnd < 2 ^ 64)
    (hback : Backed doc medium bs e) (hmax : offset + count + bs ≤ 2 ^ 64) (buf₀ : ℕ → UInt8)
    {nextOff readCount : ℕ} {st : ReadState T}
    (h : Reading doc medium bs d offset buf₀ nextOff readCount st) (hle : readCount ≤ count)
    (hstart : e.fileoffset ≤ nextOff) :
    ∃ nextOff' readCount' st',
      readExtent doc bs count (offset + count) e nextOff readCount st
        = (.ok (nextOff', readCount'), st') ∧
      Reading doc medium bs d offset buf₀ nextOff' readCount' st' ∧
      readCount' ≤ count ∧ nextOff ≤ nextOff' ∧
      (e.fileoffset + e.bytecount ≤ nextOff' ∨ readCount' = count) := by
  have hendu : u64 ((e.fileoffset : ℤ) + e.bytecount) = e.fileoffset + e.bytecount :=
    u64_eq (by omega) hend
  unfold readExtent
  rw [hendu]
  by_cases hneed : e.fileoffset + e.bytecount > nextOff
  · rw [if_pos hneed]
    have hcov : Covers e nextOff := covers_iff.mpr ⟨hstart, hneed⟩
    obtain ⟨p, hp⟩ := hback.partition doc hcov
    rw [hp]
    dsimp only
    unfold byteoffsetEnd at hbo
    -- the block with the first byte needed
    set i := (e.byteoffset + (nextOff - e.fileoffset)) / bs with hi
    have hblock : seekBlock bs e nextOff = e.start.block + i := by
      unfold seekBlock
      rw [u64_eq (n := e.byteoffset + (nextOff - e.fileoffset)) (by omega) (by omega), hi]
    have hdm := Nat.div_add_mod (e.byteoffset + (nextOff - e.fileoffset)) bs
    have hmod := Nat.mod_lt (e.byteoffset + (nextOff - e.fileoffset)) hbs
    rw [← hi, Nat.mul_comm] at hdm
    obtain ⟨rec, hrec, -⟩ := hback.block doc hp hcov (i := i) (by omega) (by omega)
    have hexists : e.start.block + i < (medium p).length := (List.getElem?_eq_some_iff.mp hrec).1
    rw [hblock]
    set firstbyte := u64 ((e.fileoffset : ℤ) - e.byteoffset
      + (((e.start.block + i : ℕ) : ℤ) - e.start.block) * bs) with hfirst
    obtain ⟨hret, hdrive, hbuf, hat⟩ := seekIfRequired_spec doc h.drive (e := e)
      (le_of_lt hexists) firstbyte firstbyte
    rw [hret, if_neg (by omega)]
    have hreading : Reading doc medium bs d offset buf₀ nextOff readCount
        (seekIfRequired e p (e.start.block + i) st).2 := by
      constructor
      · exact hdrive
      · rw [hbuf]
        exact h.delivered
    apply readBlocks_spec doc hl he hend hsize hback hmax buf₀ (count + 1) _ nextOff readCount _ hp
      hreading hle (by omega)
    intro _ _
    refine ⟨⟨i, rfl, ?_, rfl, hstart, by omega, by omega⟩, hat⟩
    rw [hfirst]
    push_cast
    rw [add_sub_cancel_left]
  · rw [if_neg hneed]
    exact ⟨nextOff, readCount, st, rfl, h, hle, le_refl _, Or.inl (by omega)⟩

/-- Between the extents that have been passed and the next one there is a hole. -/
theorem not_covers_before {done rest : List ExtentInfo} {e : ExtentInfo}
    (hl : Ordered (done ++ e :: rest)) {nextOff x : ℕ}
    (hdone : ∀ t ∈ done, t.fileoffset + t.bytecount ≤ nextOff) (hlo : nextOff ≤ x)
    (hhi : x < e.fileoffset) : ∀ t ∈ done ++ e :: rest, ¬ Covers t x := by
  intro t ht hc
  rw [covers_iff] at hc
  rcases List.mem_append.mp ht with hmem | hmem
  · have := hdone t hmem
    omega
  · rcases List.mem_cons.mp hmem with rfl | hmem'
    · omega
    · have hord := (ordered_cons.mp (ordered_append.mp hl).2.1).1 t hmem'
      rw [segment_stop, segment_start] at hord
      omega

/-- What the loop over the extent list leaves: the buffer is full, or every extent has
been passed. -/
structure Walked (medium : Partition → List (Record T)) (bs : ℕ) (d : Dentry)
    (count offset : ℕ) (buf₀ : ℕ → UInt8) (nextOff readCount : ℕ) (st : ReadState T) : Prop where
  reading : Reading doc medium bs d offset buf₀ (offset + readCount) readCount st
  le : readCount ≤ count
  passed : readCount < count → nextOff = offset + readCount ∧
    ∀ e ∈ d.extentlist, e.fileoffset + e.bytecount ≤ nextOff

theorem Reading.walked {medium : Partition → List (Record T)} {bs : ℕ} {d : Dentry}
    {count offset : ℕ} {buf₀ : ℕ → UInt8} {nextOff readCount : ℕ} {st : ReadState T}
    (h : Reading doc medium bs d offset buf₀ nextOff readCount st) (hle : readCount ≤ count)
    (hpass : readCount < count → ∀ e ∈ d.extentlist, e.fileoffset + e.bytecount ≤ nextOff) :
    Walked doc medium bs d count offset buf₀ nextOff readCount st := by
  have hcur := h.delivered.cursor
  constructor
  · rw [← hcur]
    exact h
  · exact hle
  · intro hlt
    exact ⟨hcur, hpass hlt⟩

/-- Induction on the extents that are still to come; `done` are the others. -/
theorem readExtents_spec {medium : Partition → List (Record T)} {bs count offset : ℕ}
    {d : Dentry} (hl : Ordered d.extentlist)
    (hsize : ∀ e ∈ d.extentlist, e.fileoffset + e.bytecount ≤ d.size)
    (hback : ∀ e ∈ d.extentlist, Backed doc medium bs e) (harg : ReadArgs bs d count offset)
    (buf₀ : ℕ → UInt8) (rest : List ExtentInfo) :
    ∀ (done : List ExtentInfo) (nextOff readCount : ℕ) (st : ReadState T),
      d.extentlist = done ++ rest →
      Reading doc medium bs d offset buf₀ nextOff readCount st →
      readCount ≤ count →
      (readCount < count → ∀ e ∈ done, e.fileoffset + e.bytecount ≤ nextOff) →
      ∃ nextOff' readCount' st',
        readExtents doc bs count (offset + count) rest nextOff readCount st
          = (.ok (nextOff', readCount'), st') ∧
        Walked doc medium bs d count offset buf₀ nextOff' readCount' st' := by
  have hoff := harg.offset
  have hbuffers := harg.buffers
  have hsize64 := harg.size
  have hmax : offset + count + bs ≤ 2 ^ 64 := by omega
  induction rest with
  | nil =>
    intro done nextOff readCount st hsplit h hle hdone
    rw [List.append_nil] at hsplit
    rw [← hsplit] at hdone
    exact ⟨nextOff, readCount, st, rfl, h.walked doc hle hdone⟩
  | cons e rest ih =>
    intro done nextOff readCount st hsplit h hle hdone
    have hcur := h.delivered.cursor
    have he : e ∈ d.extentlist := by
      rw [hsplit]
      simp
    have hes := hsize e he
    rw [readExtents]
    by_cases hfull : readCount = count
    · rw [if_pos hfull]
      exact ⟨nextOff, readCount, st, rfl, h.walked doc hle (by omega)⟩
    · rw [if_neg hfull]
      have hdone' := hdone (by omega)
      have hhole : ∀ x, nextOff ≤ x → x < e.fileoffset → ∀ t ∈ d.extentlist, ¬ Covers t x := by
        intro x hlo hhi
        rw [hsplit]
        exact not_covers_before (hsplit ▸ hl) hdone' hlo hhi
      by_cases hfar : nextOff < e.fileoffset ∧ e.fileoffset > offset + count
      · -- the hole reaches beyond the end of the buffer
        rw [if_pos hfar]
        have hn : u64 (((offset + count : ℕ) : ℤ) - nextOff) = count - readCount :=
          u64_eq (by omega) (by omega)
        rw [hn]
        have hread := h.hole doc (count - readCount) (by omega)
          (fun x hlo hhi => hhole x hlo (by omega))
        rw [show readCount + (count - readCount) = count by omega,
          show nextOff + (count - readCount) = offset + count by omega] at hread
        refine ⟨nextOff, count, _, rfl, hread, le_refl _, ?_⟩
        omega
      · rw [if_neg hfar]
        have hholeu : (if nextOff < e.fileoffset then u64 ((e.fileoffset : ℤ) - nextOff) else 0)
            = e.fileoffset - nextOff := by
          split
          · exact u64_eq (by omega) (by omega)
          · omega
        dsimp only
        rw [hholeu]
        have hread := h.hole doc (e.fileoffset - nextOff) (by omega)
          (fun x hlo hhi => hhole x hlo (by omega))
        have hreadu : u64 ((readCount : ℤ) + (e.fileoffset - nextOff : ℕ))
            = readCount + (e.fileoffset - nextOff) := u64_eq (by omega) (by omega)
        rw [hreadu]
        rw [show nextOff + (e.fileoffset - nextOff) = max nextOff e.fileoffset by omega] at hread
        obtain ⟨nextOff', readCount', st', hrun, hread', hle', hge', hend'⟩ :=
          readExtent_spec doc hl he harg.blocksize (by omega) hes (harg.byteoffset e he) (hback e he)
            hmax buf₀ hread (by omega) (by omega)
        rw [hrun]
        dsimp only
        apply ih (done ++ [e]) nextOff' readCount' st' (by rw [hsplit]; simp) hread' hle'
        intro hmore t ht
        rcases List.mem_append.mp ht with hmem | hmem
        · have := hdone' t hmem
          omega
        · rw [List.mem_singleton] at hmem
          subst hmem
          omega

/-! ## The result -/

/-- `ltfs_fsraw_read` of a file whose extents are sorted, disjoint and within its size,
with every byte they refer to on tape. The result does not depend on where the tape
stands nor on which block is buffered, and the block cache stays right. -/
theorem fsraw_read_correct (again : ReadState T → Except ℤ ℕ × ReadState T) {bs : ℕ} {d : Dentry}
    (hl : Ordered d.extentlist)
    (hsize : ∀ e ∈ d.extentlist, e.fileoffset + e.bytecount ≤ d.size)
    (st : ReadState T) (hback : ∀ e ∈ d.extentlist, Backed doc st.dev.medium bs e)
    (hdrive : st.dev.Faultless) (hcache : CacheOk doc bs st)
    {count offset : ℕ} (harg : ReadArgs bs d count offset) :
    ∃ st', ltfsFsrawRead doc again bs d count offset st
        = (.ok (min count (d.size - offset)), st') ∧
      (∀ i < min count (d.size - offset),
        st'.buf i = fileByte doc st.dev.medium bs d.extentlist (offset + i)) ∧
      (∀ i, min count (d.size - offset) ≤ i → st'.buf i = st.buf i) ∧
      DriveOk doc st.dev.medium bs st' := by
  have hoff := harg.offset
  have hbuffers := harg.buffers
  have hsize64 := harg.size
  have hdriveOk : DriveOk doc st.dev.medium bs st := ⟨hdrive, rfl, hcache⟩
  unfold ltfsFsrawRead
  by_cases hcount : count = 0
  · rw [if_pos hcount]
    refine ⟨st, ?_, ?_, fun _ _ => rfl, hdriveOk⟩
    · rw [hcount, Nat.zero_min]
    · intro i hi
      omega
  · rw [if_neg hcount]
    have hstart : Reading doc st.dev.medium bs d offset st.buf offset 0 st := by
      constructor
      · exact hdriveOk
      · refine ⟨rfl, ?_, ?_, fun _ _ => rfl⟩
        · omega
        · intro i hi
          omega
    obtain ⟨nextOff, readCount, st', hrun, hw⟩ := readExtents_spec doc hl hsize hback harg st.buf
      d.extentlist [] offset 0 st rfl hstart (Nat.zero_le _) (by simp)
    have hlastu : u64 ((offset : ℤ) + count) = offset + count := u64_eq (by omega) (by omega)
    have hread := hw.reading
    have hle := hw.le
    have hpassed := hw.passed
    have hwithin := hread.delivered.within
    -- what is left behind the last extent
    have htail : (if readCount < count ∧ nextOff < d.size then
        (if offset + count < d.size then u64 (((offset + count : ℕ) : ℤ) - nextOff)
          else u64 ((d.size : ℤ) - nextOff)) else 0)
        = min count (d.size - offset) - readCount := by
      split
      · split
        · rw [u64_eq (n := offset + count - nextOff) (by omega) (by omega)]
          omega
        · rw [u64_eq (n := d.size - nextOff) (by omega) (by omega)]
          omega
      · omega
    have htotal : u64 ((readCount : ℤ) + (min count (d.size - offset) - readCount : ℕ))
        = min count (d.size - offset) := u64_eq (by omega) (by omega)
    have hfinal := hread.hole doc (min count (d.size - offset) - readCount) (by omega) (by
      intro x hlo hhi e he hc
      rw [covers_iff] at hc
      have hpass := (hpassed (by omega)).2 e he
      omega)
    unfold fsrawReadAttempt
    dsimp only
    rw [hlastu, hrun]
    dsimp only
    rw [htail, htotal]
    rw [show readCount + (min count (d.size - offset) - readCount)
      = min count (d.size - offset) by omega] at hfinal
    refine ⟨_, rfl, hfinal.delivered.filled, hfinal.delivered.rest, ?_⟩
    exact ⟨hfinal.drive.faultless, hfinal.drive.medium, hfinal.drive.cache⟩

end Read

/-- A drive that stands behind block 2 of the data partition. -/
def sparseDevice : Device Unit where
  medium := fun p => match p with
    | .ip => [.fm]
    | .dp => [.fm, .data [10, 11, 12, 13], .data [20, 21, 22, 23], .data [30, 31]]
  position := ⟨.dp, 3⟩
  appendPos := fun _ => 0
  partitionSpace := fun _ => .writable
  writeProtected := false
  writeError := false
  readonlyDrive := false
  appendOnlyMode := false
  isWorm := false
  maxBlockSize := 4
  volumeLock := .unlocked
  coherency := fun _ => ⟨0, 0, 0, 0, 0⟩
  volumeChangeRef := 1
  answers := fun _ => .ok false false
  clock := 0

/-- Block 2 is in the cache. -/
def sparseState : ReadState Unit where
  dev := sparseDevice
  lastPos := ⟨some .dp, 2⟩
  lastSize := 4
  lastBlock := fun i => [20, 21, 22, 23].getD i 0
  buf := fun _ => 255
  atimeDirty := false

/-- Two bytes behind a hole, stored from byte 6 of block 1 on, and three more in the last
two blocks. -/
def sparseFile : Dentry where
  extentlist := [⟨⟨some .dp, 1⟩, 6, 2, 1⟩, ⟨⟨some .dp, 2⟩, 3, 3, 5⟩]
  size := 10
  realsize := 5

theorem fsraw_read_correct_sparse :
    ∃ st', ltfsFsrawRead (fun _ _ => []) (fun st => (.ok 0, st)) 4 sparseFile 20 0 sparseState
        = (.ok 10, st') ∧
      (∀ i < 10, st'.buf i = fileByte (fun _ _ => []) sparseDevice.medium 4 sparseFile.extentlist
        (0 + i)) ∧
      (∀ i, 10 ≤ i → st'.buf i = 255) ∧
      DriveOk (fun _ _ => []) sparseDevice.medium 4 st' := by
  have hback : ∀ x < 8, ∀ e ∈ sparseFile.extentlist, Covers e x →
      (tapeByte (fun _ _ => []) sparseDevice.medium (e.place 4 x)).isSome := by decide
  apply fsraw_read_correct (fun _ _ => []) (fun st => (.ok 0, st)) (d := sparseFile)
  · unfold Ordered
    decide
  · decide
  · intro e he x hx
    have hend : ∀ e ∈ sparseFile.extentlist, stop e ≤ 8 := by decide
    exact hback x (lt_of_lt_of_le hx.2 (hend e he)) e he hx
  · exact fun _ => ⟨false, false, rfl⟩
  · intro p hp
    obtain rfl := Option.some.inj hp
    exact ⟨.data [20, 21, 22, 23], rfl, rfl, by decide⟩
  · constructor
    · decide
    · decide
    · decide
    · decide
    · decide

end Ltfs
