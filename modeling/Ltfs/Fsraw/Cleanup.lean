import Ltfs.Fsraw.FileTree
import Mathlib.Data.List.Forall2

/-!
# Cleaning up after a permanent write error

When a drive reports that it lost its buffer, `ltfs_fsraw_cleanup_extent` walks the whole tree and
drops the extents whose blocks never reached the medium. `errPos` is the first such block.

* `cleanupFile` — the loop over the extents of one file, from the tail.
* `cleanupExtent` — the recursive walk.
* `CleanedFile` — what the walk is for: lost extents go, all other bytes keep their places,
  and the sizes of the file keep their meaning.
* `cleanup_extent_iff` — it achieves that only on a tree in which nothing was lost: a dropped
  extent leaves `realsize` behind, and one whose first block is only partly its own can be missed.

The results of `ltfs_get_volume_lock` come from a script; an exhausted script succeeds.
-/

namespace Ltfs

open Lib Segment ExtentInfo

/-! ## The walk -/

/-- `extent_last`: the last block of an extent, with the partition. -/
def extentLast (bs : ℕ) (ext : ExtentInfo) : Option Partition × ℕ :=
  if ext.start.block ≠ 0 ∧ ext.bytecount ≠ 0 then
    (ext.start.partition,
      u64 ((ext.start.block : ℤ) + (ext.bytecount / bs : ℕ) -
        if ext.bytecount % bs = 0 then 1 else 0))
  else
    (none, 0)

/-- The test of the loop: the extent ends at or behind `err_pos`. -/
def hitsErrPos (bs : ℕ) (errPos : Position) (ext : ExtentInfo) : Bool :=
  (extentLast bs ext).1 = some errPos.partition && errPos.block ≤ (extentLast bs ext).2

/-- Where the walk stands: its return code and the coming results of the volume lock. -/
structure CleanupState where
  ret : ℤ
  locks : List ℤ
deriving DecidableEq, Repr

/-- `ltfs_get_volume_lock`. -/
def CleanupState.lock (s : CleanupState) : CleanupState where
  ret := s.locks.headD 0
  locks := s.locks.tail

/-- The `TAILQ_FOREACH_REVERSE_SAFE` loop over the extents of a file: the ones still to visit,
nearest first, and those already passed. The flag tells whether the function returns at once. -/
def cleanupFile (bs : ℕ) (errPos : Position) :
    List ExtentInfo → List ExtentInfo → ℕ → CleanupState →
      Bool × List ExtentInfo × ℕ × CleanupState
  | [], after, size, s => (false, after, size, s)
  | ext :: before, after, size, s =>
    if hitsErrPos bs errPos ext then
      if s.lock.ret < 0 then
        (true, before.reverse ++ ext :: after, size, s.lock)
      else
        cleanupFile bs errPos before after (u64 ((size : ℤ) - ext.bytecount)) s.lock
    else
      cleanupFile bs errPos before (ext :: after) size s

/-- The loop on a dentry. `realsize` is not touched. -/
def cleanupDentry (bs : ℕ) (errPos : Position) (d : Dentry) (s : CleanupState) :
    Bool × Dentry × CleanupState :=
  let r := cleanupFile bs errPos d.extentlist.reverse [] d.size s
  (r.1, { d with extentlist := r.2.1, size := r.2.2.1 }, r.2.2.2)

/-- `ltfs_fsraw_cleanup_extent` from an entry of `child_list` on. A failed lock leaves the
directory at once; the walk of the directory above goes on. -/
def cleanupEntries (bs : ℕ) (errPos : Position) :
    DirEntries → CleanupState → DirEntries × CleanupState
  | .nil, s => (.nil, s)
  | .dir children rest, s =>
    let c := cleanupEntries bs errPos children { s with ret := 0 }
    let r := cleanupEntries bs errPos rest c.2
    (.dir c.1 r.1, r.2)
  | .file d rest, s =>
    let f := cleanupDentry bs errPos d s
    if f.1 then
      (.file f.2.1 rest, f.2.2)
    else
      let r := cleanupEntries bs errPos rest f.2.2
      (.file f.2.1 r.1, r.2)

/-- `ltfs_fsraw_cleanup_extent`, on the root. -/
def cleanupExtent (bs : ℕ) (errPos : Position) (locks : List ℤ) (t : DirEntries) :
    ℤ × DirEntries :=
  let r := cleanupEntries bs errPos t ⟨0, locks⟩
  (r.2.ret, r.1)

/-! ## What it is for -/

/-- A block of the extent did not reach the medium. -/
def Lost (bs : ℕ) (errPos : Position) (e : ExtentInfo) : Prop :=
  e.start.partition = some errPos.partition ∧ ∃ b, e.Touches bs b ∧ errPos.block ≤ b

/-- `d'` is the file `d` without the data that was lost. -/
structure CleanedFile (bs : ℕ) (errPos : Position) (d d' : Dentry) : Prop where
  noLost : ∀ e ∈ d'.extentlist, ¬ Lost bs errPos e
  kept : ∀ x place, extentMap bs d.extentlist x = some place →
    (place.1 ≠ some errPos.partition ∨ place.2.1 < errPos.block) →
    extentMap bs d'.extentlist x = some place
  sizes : SizesOk d'

/-! ## What it does -/

variable {bs : ℕ} {errPos : Position}

/-- A 64-bit result is at most the number it stands for. -/
theorem u64_le {z : ℤ} {n : ℕ} (h0 : 0 ≤ z) (hn : z ≤ n) : u64 z ≤ n := by
  unfold u64
  omega

/-- The last block of the loop is never behind the true one. -/
theorem extentLast_le {e : ExtentInfo} (hbs : 0 < bs) (hpos : 0 < e.bytecount)
    (hstart : e.start.block ≠ 0) : (extentLast bs e).2 ≤ e.lastBlock bs := by
  have hdm := Nat.div_add_mod e.bytecount bs
  have hlow : e.bytecount / bs + (if e.bytecount % bs = 0 then 0 else 1) ≤
      (e.byteoffset + e.bytecount - 1) / bs + 1 := by
    have hmono : (e.bytecount - 1) / bs ≤ (e.byteoffset + e.bytecount - 1) / bs :=
      Nat.div_le_div_right (by omega)
    split
    · -- a multiple of the block size: the last byte lies one block before
      rename_i hz
      rw [hz, Nat.add_zero] at hdm
      have hq : 0 < e.bytecount / bs := by
        rcases Nat.eq_zero_or_pos (e.bytecount / bs) with h0 | h0
        · rw [h0, Nat.mul_zero] at hdm
          omega
        · exact h0
      have hle : e.bytecount / bs - 1 ≤ (e.bytecount - 1) / bs := by
        rw [Nat.le_div_iff_mul_le hbs, Nat.mul_comm, Nat.mul_sub, Nat.mul_one]
        omega
      omega
    · rename_i hz
      have hle : e.bytecount / bs ≤ (e.bytecount - 1) / bs := by
        rw [Nat.le_div_iff_mul_le hbs, Nat.mul_comm]
        omega
      omega
  rw [extentLast, if_pos ⟨hstart, by omega⟩]
  simp only [lastBlock]
  generalize (e.byteoffset + e.bytecount - 1) / bs = last at hlow ⊢
  generalize e.bytecount / bs = q at hlow ⊢
  apply u64_le
  · split <;> omega
  · split
    · rename_i hz
      rw [if_pos hz] at hlow
      omega
    · rename_i hz
      rw [if_neg hz] at hlow
      omega

/-- Only extents with a lost block are hit. -/
theorem lost_of_hits {e : ExtentInfo} (hbs : 0 < bs) (h : hitsErrPos bs errPos e = true) :
    Lost bs errPos e := by
  simp only [hitsErrPos, Bool.and_eq_true, decide_eq_true_eq] at h
  obtain ⟨hpart, hblock⟩ := h
  by_cases hbytes : e.start.block ≠ 0 ∧ e.bytecount ≠ 0
  · have hpos : 0 < e.bytecount := Nat.pos_of_ne_zero hbytes.2
    have hle := extentLast_le (e := e) hbs hpos hbytes.1
    rw [extentLast, if_pos hbytes] at hpart
    exact ⟨hpart, e.lastBlock bs, touches_lastBlock hpos, hblock.trans hle⟩
  · rw [extentLast, if_neg hbytes] at hpart
    cases hpart

/-- The loop over a file only removes extents, and all removed ones were hit. -/
theorem cleanupFile_sublist (before : List ExtentInfo) :
    ∀ (after : List ExtentInfo) (size : ℕ) (s : CleanupState),
      List.Sublist (cleanupFile bs errPos before after size s).2.1 (before.reverse ++ after) := by
  induction before with
  | nil => exact fun after _ _ => List.Sublist.refl after
  | cons ext before ih =>
    intro after size s
    simp only [cleanupFile, List.reverse_cons, List.append_assoc, List.singleton_append]
    split
    · split
      · exact List.Sublist.refl _
      · -- removed: the result comes from a list without `ext`
        exact (ih after _ _).trans
          (List.Sublist.append_left (List.sublist_cons_self ext after) _)
    · exact ih (ext :: after) size s

/-- A file without a hit extent stays as it is, and takes no lock. -/
theorem cleanupFile_of_no_hit (before : List ExtentInfo) :
    ∀ (after : List ExtentInfo) (size : ℕ) (s : CleanupState),
      (∀ e ∈ before, hitsErrPos bs errPos e = false) →
      cleanupFile bs errPos before after size s = (false, before.reverse ++ after, size, s) := by
  induction before with
  | nil => exact fun _ _ _ _ => rfl
  | cons ext before ih =>
    intro after size s hno
    rw [List.forall_mem_cons] at hno
    rw [cleanupFile, if_neg (by simp [hno.1]), ih (ext :: after) size s hno.2]
    simp

theorem cleanupDentry_of_no_hit {d : Dentry} (s : CleanupState)
    (hno : ∀ e ∈ d.extentlist, hitsErrPos bs errPos e = false) :
    cleanupDentry bs errPos d s = (false, d, s) := by
  rw [cleanupDentry, cleanupFile_of_no_hit _ [] d.size s (by simpa using hno)]
  simp

/-- Dropping an extent with bytes shrinks the sum of the byte counts. -/
theorem byteTotal_lt_of_sublist {l l' : List ExtentInfo} (h : List.Sublist l' l) :
    byteTotal l' ≤ byteTotal l ∧
      ∀ e ∈ l, e ∉ l' → byteTotal l' + e.bytecount ≤ byteTotal l := by
  induction h with
  | slnil => exact ⟨le_refl _, by simp⟩
  | @cons l₁ l₂ a _ ih =>
    simp only [byteTotal_cons, List.mem_cons]
    refine ⟨by omega, ?_⟩
    rintro e (rfl | he) hno
    · omega
    · have := ih.2 e he hno
      omega
  | @cons_cons l₁ l₂ a _ ih =>
    simp only [byteTotal_cons, List.mem_cons]
    refine ⟨by omega, ?_⟩
    rintro e (rfl | he) hno
    · exact absurd (Or.inl rfl) hno
    · have := ih.2 e he (fun h => hno (Or.inr h))
      omega

/-- A file that lost data never comes out clean. Either the lost extent is still there, or it
was dropped and `realsize` still counts its bytes. -/
theorem cleanupDentry_not_cleaned {d : Dentry} (s : CleanupState) (hok : SizesOk d)
    {e : ExtentInfo} (he : e ∈ d.extentlist) (hlost : Lost bs errPos e) :
    ¬ CleanedFile bs errPos d (cleanupDentry bs errPos d s).2.1 := by
  intro hclean
  have hsub : List.Sublist (cleanupDentry bs errPos d s).2.1.extentlist d.extentlist := by
    have h := @cleanupFile_sublist bs errPos d.extentlist.reverse [] d.size s
    rwa [List.reverse_reverse, List.append_nil] at h
  have hgone : e ∉ (cleanupDentry bs errPos d s).2.1.extentlist :=
    fun hmem => hclean.noLost e hmem hlost
  have htotal := (byteTotal_lt_of_sublist hsub).2 e he hgone
  have hreal : (cleanupDentry bs errPos d s).2.1.realsize = d.realsize := rfl
  have hpos : 0 < e.bytecount := by
    obtain ⟨_, b, hb, _⟩ := hlost
    exact hb.bounds.1
  have hnew := hclean.sizes.realsize
  rw [hreal, hok.realsize] at hnew
  omega

/-- On a tree without lost data the walk changes nothing. -/
theorem cleanupEntries_of_no_hit (t : DirEntries) :
    ∀ s : CleanupState,
      (∀ d ∈ t.files, ∀ e ∈ d.extentlist, hitsErrPos bs errPos e = false) →
      (cleanupEntries bs errPos t s).1 = t := by
  induction t with
  | nil => exact fun _ _ => rfl
  | dir children rest ihc ihr =>
    intro s hno
    rw [DirEntries.files_dir, List.forall_mem_append] at hno
    simp only [cleanupEntries]
    rw [ihc _ hno.1, ihr _ hno.2]
  | file d rest ih =>
    intro s hno
    rw [DirEntries.files_file, List.forall_mem_cons] at hno
    simp only [cleanupEntries, cleanupDentry_of_no_hit s hno.1]
    rw [if_neg (by simp), ih s hno.2]

/-- A file of the result comes from the loop over the file of the input, or was not reached. -/
theorem cleanupEntries_files (t : DirEntries) :
    ∀ s : CleanupState,
      List.Forall₂ (fun d d' => d' = d ∨ ∃ s', d' = (cleanupDentry bs errPos d s').2.1)
        t.files (cleanupEntries bs errPos t s).1.files := by
  have hrefl : ∀ l : List Dentry,
      List.Forall₂ (fun d d' => d' = d ∨ ∃ s', d' = (cleanupDentry bs errPos d s').2.1) l l := by
    intro l
    rw [List.forall₂_same]
    exact fun d _ => Or.inl rfl
  induction t with
  | nil => exact fun _ => List.Forall₂.nil
  | dir children rest ihc ihr =>
    intro s
    simp only [cleanupEntries, DirEntries.files_dir]
    exact List.rel_append (ihc _) (ihr _)
  | file d rest ih =>
    intro s
    simp only [cleanupEntries]
    split
    · exact List.Forall₂.cons (Or.inr ⟨s, rfl⟩) (hrefl rest.files)
    · exact List.Forall₂.cons (Or.inr ⟨s, rfl⟩) (ih _)

/-- The walk leaves what it is meant to leave if and only if no extent touches a block that was
lost. -/
theorem cleanup_extent_iff (hbs : 0 < bs) (errPos : Position) (locks : List ℤ) (t : DirEntries)
    (hok : ∀ d ∈ t.files, SizesOk d) :
    List.Forall₂ (CleanedFile bs errPos) t.files (cleanupExtent bs errPos locks t).2.files ↔
      ∀ d ∈ t.files, ∀ e ∈ d.extentlist, ¬ Lost bs errPos e := by
  constructor
  · intro hclean d hd
    -- file by file: a clean file was not rewritten by the loop while it had a lost extent
    have hfiles : List.Forall₂
        (fun d d' => (SizesOk d → ∀ e ∈ d.extentlist, ¬ Lost bs errPos e) ∧
          CleanedFile bs errPos d d') t.files (cleanupExtent bs errPos locks t).2.files := by
      refine List.Forall₂.mp ?_ (cleanupEntries_files t ⟨0, locks⟩) hclean
      rintro d d' (rfl | ⟨s', rfl⟩) hc
      · exact ⟨fun _ => hc.noLost, hc⟩
      · exact ⟨fun hsizes e he hlost => cleanupDentry_not_cleaned s' hsizes he hlost hc, hc⟩
    rw [List.forall₂_and_left] at hfiles
    exact hfiles.1 d hd (hok d hd)
  · intro hnone
    -- nothing is hit, so the tree stays and every file was fine before
    have hno : ∀ d ∈ t.files, ∀ e ∈ d.extentlist, hitsErrPos bs errPos e = false := by
      intro d hd e he
      by_contra hhit
      exact hnone d hd e he (lost_of_hits hbs (Bool.eq_true_of_not_eq_false hhit))
    simp only [cleanupExtent, cleanupEntries_of_no_hit t ⟨0, locks⟩ hno]
    rw [List.forall₂_same]
    exact fun d hd => ⟨hnone d hd, fun _ _ h _ => h, hok d hd⟩

/-- A file of four bytes in block 6 of the data partition. -/
def oneBlockTree : DirEntries :=
  .dir (.file ⟨[⟨⟨some .dp, 6⟩, 0, 4, 0⟩], 4, 4⟩ .nil) .nil

theorem oneBlockTree_sizesOk : ∀ d ∈ oneBlockTree.files, SizesOk d := by
  intro d hd
  rw [List.mem_singleton.mp hd]
  exact ⟨by decide, by decide⟩

/-- `cleanup_extent_iff` at a tree whose block reached the medium. -/
theorem cleanup_extent_oneBlockTree :
    List.Forall₂ (CleanedFile 4 ⟨.dp, 7⟩) oneBlockTree.files
        (cleanupExtent 4 ⟨.dp, 7⟩ [] oneBlockTree).2.files ↔
      ∀ d ∈ oneBlockTree.files, ∀ e ∈ d.extentlist, ¬ Lost 4 ⟨.dp, 7⟩ e :=
  cleanup_extent_iff (by decide) ⟨.dp, 7⟩ [] oneBlockTree oneBlockTree_sizesOk

/-- The block of the file is lost: its extent goes, and `realsize` still counts four bytes. -/
theorem cleanup_extent_leaves_realsize :
    ¬ ∀ (bs : ℕ) (errPos : Position) (locks : List ℤ) (t : DirEntries), 0 < bs →
      (∀ d ∈ t.files, SizesOk d) →
      List.Forall₂ (CleanedFile bs errPos) t.files (cleanupExtent bs errPos locks t).2.files := by
  intro h
  have hclean := h 4 ⟨.dp, 6⟩ [] oneBlockTree (by decide) oneBlockTree_sizesOk
  have hfiles : (cleanupExtent 4 ⟨.dp, 6⟩ [] oneBlockTree).2.files = [⟨[], 0, 4⟩] := by decide
  rw [hfiles] at hclean
  cases hclean with
  | cons hfile _ => exact absurd hfile.sizes.realsize (by decide)

end Ltfs
