import Ltfs.Fsraw.Read

/-!
# The extents of a directory tree

What the recursive walks of libltfs over the in-memory index see of it: directories and, for
every file, its extent list and sizes.

* `checkExtents` — `_ltfs_check_extents`, run on an index that was read from tape. The last
  block of an extent is computed in 64 bits there.
* `checkExtents_readable_iff` — what an accepted tree says about the blocks it references.

A partition id that belongs to neither partition of the label is `none` here. The
check reads the id of an extent as it stands in the document, and any letter may stand there.
-/

namespace Ltfs

open Lib Segment ExtentInfo

/-- `realsize` is the number of stored bytes, and all of them lie within the file. -/
structure SizesOk (d : Dentry) : Prop where
  realsize : d.realsize = byteTotal d.extentlist
  within : ∀ e ∈ d.extentlist, e.fileoffsetEnd ≤ d.size

/-- The `child_list` of a directory. A directory has no extents of its own. -/
inductive DirEntries where
  | nil
  | dir (children rest : DirEntries)
  | file (d : Dentry) (rest : DirEntries)
deriving DecidableEq, Repr

/-- The files below a directory, in the order of the walks. -/
def DirEntries.files : DirEntries → List Dentry
  | nil => []
  | dir children rest => children.files ++ rest.files
  | file d rest => d :: rest.files

@[simp] theorem DirEntries.files_nil : DirEntries.nil.files = [] := rfl

@[simp] theorem DirEntries.files_dir (children rest : DirEntries) :
    (DirEntries.dir children rest).files = children.files ++ rest.files := rfl

@[simp] theorem DirEntries.files_file (d : Dentry) (rest : DirEntries) :
    (DirEntries.file d rest).files = d :: rest.files := rfl

/-! ## The blocks of an extent -/

/-- Some byte of the extent lies in block `b`. -/
def ExtentInfo.Touches (bs : ℕ) (e : ExtentInfo) (b : ℕ) : Prop :=
  ∃ x, Covers e x ∧ (place bs e x).2.1 = b

/-- The last block an extent touches, when it has bytes at all. -/
def ExtentInfo.lastBlock (bs : ℕ) (e : ExtentInfo) : ℕ :=
  e.start.block + (e.byteoffset + e.bytecount - 1) / bs

/-- `bytecount / blocksize`, rounded up: the blocks the extent would fill from the beginning of
one on. -/
def ExtentInfo.blockCount (bs : ℕ) (e : ExtentInfo) : ℕ :=
  e.bytecount / bs + if e.bytecount % bs > 0 then 1 else 0

variable {bs : ℕ} {e : ExtentInfo}

theorem ExtentInfo.touches_start (h : 0 < e.bytecount) (hoff : e.byteoffset < bs) :
    e.Touches bs e.start.block := by
  refine ⟨e.fileoffset, covers_iff.mpr (by omega), ?_⟩
  simp [place, Nat.div_eq_of_lt hoff]

theorem ExtentInfo.touches_lastBlock (h : 0 < e.bytecount) : e.Touches bs (e.lastBlock bs) := by
  refine ⟨e.fileoffset + (e.bytecount - 1), covers_iff.mpr (by omega), ?_⟩
  have hlast : e.byteoffset + (e.fileoffset + (e.bytecount - 1) - e.fileoffset)
      = e.byteoffset + e.bytecount - 1 := by omega
  simp only [place, lastBlock, hlast]

/-- The blocks an extent touches lie between its first and its last block. -/
theorem ExtentInfo.Touches.bounds {b : ℕ} (h : e.Touches bs b) :
    0 < e.bytecount ∧ e.start.block ≤ b ∧ b ≤ e.lastBlock bs := by
  obtain ⟨x, hx, rfl⟩ := h
  rw [covers_iff] at hx
  have hmono : (e.byteoffset + (x - e.fileoffset)) / bs ≤ (e.byteoffset + e.bytecount - 1) / bs :=
    Nat.div_le_div_right (by omega)
  simp only [place, lastBlock]
  exact ⟨by omega, Nat.le_add_right _ _, Nat.add_le_add_left hmono _⟩

theorem ExtentInfo.bytecount_le_blockCount (hbs : 0 < bs) (e : ExtentInfo) :
    e.bytecount ≤ bs * e.blockCount bs ∧ bs * e.blockCount bs < e.bytecount + bs := by
  have hdm := Nat.div_add_mod e.bytecount bs
  have hlt := Nat.mod_lt e.bytecount hbs
  unfold blockCount
  split
  · rw [Nat.mul_add, Nat.mul_one]
    omega
  · rw [Nat.add_zero]
    omega

theorem ExtentInfo.blockCount_pos (hbs : 0 < bs) (h : 0 < e.bytecount) :
    0 < e.blockCount bs := by
  have hle := (e.bytecount_le_blockCount hbs).1
  rcases Nat.eq_zero_or_pos (e.blockCount bs) with hz | hpos
  · rw [hz] at hle
    omega
  · exact hpos

/-- The last block is at most one behind what a count from the beginning of a block gives. -/
theorem ExtentInfo.lastBlock_bounds (hbs : 0 < bs) (hoff : e.byteoffset < bs)
    (h : 0 < e.bytecount) :
    e.start.block + e.blockCount bs ≤ e.lastBlock bs + 1 ∧
      e.lastBlock bs ≤ e.start.block + e.blockCount bs := by
  obtain ⟨hle, hlt⟩ := e.bytecount_le_blockCount hbs
  have hpos := blockCount_pos hbs h
  have hlow : e.blockCount bs - 1 ≤ (e.byteoffset + e.bytecount - 1) / bs := by
    rw [Nat.le_div_iff_mul_le hbs, Nat.mul_comm, Nat.mul_sub, Nat.mul_one]
    omega
  have hhigh : (e.byteoffset + e.bytecount - 1) / bs < e.blockCount bs + 1 := by
    rw [Nat.div_lt_iff_lt_mul hbs, Nat.add_mul, Nat.one_mul, Nat.mul_comm]
    omega
  unfold lastBlock
  omega

/-! ## The check -/

/-- `ext_lastblock` of the check. -/
def extLastblock (bs : ℕ) (ext : ExtentInfo) : ℕ :=
  (ext.start.block + ext.blockCount bs) % 2 ^ 64

/-- One round of the loop of `_ltfs_check_extents`. -/
def checkExtent (bs ipEod dpEod : ℕ) (ext : ExtentInfo) : ℤ :=
  if ext.start.block < 4 then
    -ltfsIndexInvalid
  else if (ext.start.partition = some .ip ∧ extLastblock bs ext ≥ ipEod) ∨
      (ext.start.partition = some .dp ∧ extLastblock bs ext ≥ dpEod) then
    -ltfsIndexInvalid
  else
    0

/-- The loop of `_ltfs_check_extents` over the extents of a file. -/
def checkExtentlist (bs ipEod dpEod : ℕ) : List ExtentInfo → ℤ
  | [] => 0
  | ext :: rest =>
    let ret := checkExtent bs ipEod dpEod ext
    if ret < 0 then ret else checkExtentlist bs ipEod dpEod rest

/-- `_ltfs_check_extents` on a directory. -/
def checkExtents (bs ipEod dpEod : ℕ) : DirEntries → ℤ
  | .nil => 0
  | .dir children rest =>
    let ret := checkExtents bs ipEod dpEod children
    if ret < 0 then ret else checkExtents bs ipEod dpEod rest
  | .file d rest =>
    let ret := checkExtentlist bs ipEod dpEod d.extentlist
    if ret < 0 then ret else checkExtents bs ipEod dpEod rest

/-- The end of data of a partition. -/
def eodOf (ipEod dpEod : ℕ) : Partition → ℕ
  | .ip => ipEod
  | .dp => dpEod

/-- Block `b` of a partition of the volume lies behind the label and before the end of
data. -/
def ReadableBlock (ipEod dpEod : ℕ) (partition : Option Partition) (b : ℕ) : Prop :=
  4 ≤ b ∧ ∃ p, partition = some p ∧ b < eodOf ipEod dpEod p

section Check

variable {ipEod dpEod : ℕ}

theorem checkExtent_eq_zero_iff {ext : ExtentInfo} :
    checkExtent bs ipEod dpEod ext = 0 ↔
      4 ≤ ext.start.block ∧
      ∀ p, ext.start.partition = some p → extLastblock bs ext < eodOf ipEod dpEod p := by
  have hcode : -ltfsIndexInvalid ≠ 0 := by decide
  unfold checkExtent
  split
  · rename_i hlabel
    simp only [hcode, false_iff, not_and]
    omega
  · rename_i hlabel
    have h4 : 4 ≤ ext.start.block := by omega
    split
    · rename_i hpast
      simp only [hcode, false_iff, not_and]
      intro _ hall
      rcases hpast with ⟨hp, hge⟩ | ⟨hp, hge⟩
      · exact absurd (hall .ip hp) (not_lt.mpr hge)
      · exact absurd (hall .dp hp) (not_lt.mpr hge)
    · rename_i hin
      simp only [true_iff]
      refine ⟨h4, ?_⟩
      intro p hp
      by_contra hge
      apply hin
      cases p with
      | ip => exact Or.inl ⟨hp, not_lt.mp hge⟩
      | dp => exact Or.inr ⟨hp, not_lt.mp hge⟩

theorem checkExtent_nonpos (ext : ExtentInfo) : checkExtent bs ipEod dpEod ext ≤ 0 := by
  have hcode : -ltfsIndexInvalid ≤ 0 := by decide
  unfold checkExtent
  split
  · exact hcode
  · split
    · exact hcode
    · exact le_refl 0

/-- A chain of checks that stops at the first error succeeds when both parts do. -/
theorem ret_chain_eq_zero_iff {ret next : ℤ} (h : ret ≤ 0) :
    (if ret < 0 then ret else next) = 0 ↔ ret = 0 ∧ next = 0 := by
  split <;> omega

theorem checkExtentlist_nonpos (l : List ExtentInfo) :
    checkExtentlist bs ipEod dpEod l ≤ 0 := by
  induction l with
  | nil => exact le_refl 0
  | cons ext rest ih =>
    simp only [checkExtentlist]
    split <;> omega

theorem checkExtentlist_eq_zero_iff (l : List ExtentInfo) :
    checkExtentlist bs ipEod dpEod l = 0 ↔ ∀ e ∈ l, checkExtent bs ipEod dpEod e = 0 := by
  induction l with
  | nil => simp [checkExtentlist]
  | cons ext rest ih =>
    simp only [checkExtentlist, ret_chain_eq_zero_iff (checkExtent_nonpos ext), ih,
      List.forall_mem_cons]

theorem checkExtents_nonpos (t : DirEntries) : checkExtents bs ipEod dpEod t ≤ 0 := by
  induction t with
  | nil => exact le_refl 0
  | dir children rest ihc ihr =>
    simp only [checkExtents]
    split <;> omega
  | file d rest ih =>
    simp only [checkExtents]
    split <;> omega

/-- The walk accepts a tree when it accepts every extent of every file. -/
theorem checkExtents_eq_zero_iff (t : DirEntries) :
    checkExtents bs ipEod dpEod t = 0 ↔
      ∀ d ∈ t.files, ∀ e ∈ d.extentlist, checkExtent bs ipEod dpEod e = 0 := by
  induction t with
  | nil => simp [checkExtents]
  | dir children rest ihc ihr =>
    simp only [checkExtents, ret_chain_eq_zero_iff (checkExtents_nonpos children), ihc, ihr,
      DirEntries.files_dir, List.forall_mem_append]
  | file d rest ih =>
    simp only [checkExtents, ret_chain_eq_zero_iff (checkExtentlist_nonpos d.extentlist),
      checkExtentlist_eq_zero_iff, ih, DirEntries.files_file, List.forall_mem_cons]

/-- One accepted extent: the blocks it references can be read when it names a partition
of the volume and its end does not pass the 64-bit range. -/
theorem checkExtent_readable_iff (hbs : 0 < bs) (hip : ipEod < 2 ^ 64) (hdp : dpEod < 2 ^ 64)
    (hoff : e.byteoffset < bs) (hacc : checkExtent bs ipEod dpEod e = 0) :
    (∀ b, e.Touches bs b → ReadableBlock ipEod dpEod e.start.partition b) ↔
      (0 < e.bytecount →
        e.start.partition ≠ none ∧ e.start.block + e.blockCount bs < 2 ^ 64) := by
  obtain ⟨h4, heod⟩ := checkExtent_eq_zero_iff.mp hacc
  constructor
  · intro hread hpos
    obtain ⟨_, p, hp, hlt⟩ := hread _ (touches_lastBlock hpos)
    have hle := (lastBlock_bounds hbs hoff hpos).1
    have hp64 : eodOf ipEod dpEod p < 2 ^ 64 := by cases p <;> assumption
    constructor
    · rw [hp]
      exact Option.some_ne_none p
    · -- the last block is before the end of data, so the end is at most that
      omega
  · intro hgood b hb
    obtain ⟨hpos, hlow, hhigh⟩ := hb.bounds
    obtain ⟨hpart, hsmall⟩ := hgood hpos
    obtain ⟨p, hp⟩ := Option.ne_none_iff_exists'.mp hpart
    have hle := (lastBlock_bounds hbs hoff hpos).2
    have hlast := heod p hp
    -- no wrap: the check compared the block behind the extent itself
    rw [extLastblock, Nat.mod_eq_of_lt hsmall] at hlast
    exact ⟨by omega, p, hp, by omega⟩

/-- Every block referenced by an accepted tree can be read if and only if every extent with bytes
names a partition of the volume and ends within the 64-bit range. -/
theorem checkExtents_readable_iff (hbs : 0 < bs) (hip : ipEod < 2 ^ 64) (hdp : dpEod < 2 ^ 64)
    (t : DirEntries) (hoff : ∀ d ∈ t.files, ∀ e ∈ d.extentlist, e.byteoffset < bs)
    (hacc : checkExtents bs ipEod dpEod t = 0) :
    (∀ d ∈ t.files, ∀ e ∈ d.extentlist, ∀ b, e.Touches bs b →
        ReadableBlock ipEod dpEod e.start.partition b) ↔
      ∀ d ∈ t.files, ∀ e ∈ d.extentlist, 0 < e.bytecount →
        e.start.partition ≠ none ∧ e.start.block + e.blockCount bs < 2 ^ 64 := by
  rw [checkExtents_eq_zero_iff] at hacc
  constructor
  · intro h d hd e he
    exact (checkExtent_readable_iff hbs hip hdp (hoff d hd e he) (hacc d hd e he)).mp (h d hd e he)
  · intro h d hd e he
    exact (checkExtent_readable_iff hbs hip hdp (hoff d hd e he) (hacc d hd e he)).mpr (h d hd e he)

/-- A file of one byte in the last block a 64-bit number can name. -/
def lastBlockTree : DirEntries :=
  .file ⟨[⟨⟨some .dp, 2 ^ 64 - 1⟩, 0, 1, 0⟩], 1, 1⟩ .nil

/-- A file of three blocks and a bit, on a partition with eleven blocks. -/
def smallTree : DirEntries :=
  .dir (.file ⟨[⟨⟨some .dp, 6⟩, 1, 13, 0⟩], 13, 13⟩ .nil) .nil

/-- `checkExtents_readable_iff` at a tree with one file. -/
theorem checkExtents_readable_smallTree :
    (∀ d ∈ smallTree.files, ∀ e ∈ d.extentlist, ∀ b, e.Touches 4 b →
        ReadableBlock 5 11 e.start.partition b) ↔
      ∀ d ∈ smallTree.files, ∀ e ∈ d.extentlist, 0 < e.bytecount →
        e.start.partition ≠ none ∧ e.start.block + e.blockCount 4 < 2 ^ 64 :=
  checkExtents_readable_iff (by decide) (by decide) (by decide) smallTree (by decide) (by decide)

/-- The end of an extent in the last block of the 64-bit range wraps to zero: the check accepts
it on a partition with ten blocks. -/
theorem checkExtents_wraps :
    ¬ ∀ (bs ipEod dpEod : ℕ) (t : DirEntries), 0 < bs → ipEod < 2 ^ 64 → dpEod < 2 ^ 64 →
      (∀ d ∈ t.files, ∀ e ∈ d.extentlist, e.byteoffset < bs) →
      checkExtents bs ipEod dpEod t = 0 →
      ∀ d ∈ t.files, ∀ e ∈ d.extentlist, ∀ b, e.Touches bs b →
        ReadableBlock ipEod dpEod e.start.partition b := by
  intro h
  have hread := h 4096 5 10 lastBlockTree (by decide) (by decide) (by decide) (by decide)
    (by decide) _ (List.mem_singleton_self _) _ (List.mem_singleton_self _) _
    (touches_start (by decide) (by decide))
  obtain ⟨_, p, hp, hlt⟩ := hread
  cases hp
  exact absurd hlt (by decide)

end Check

end Ltfs
