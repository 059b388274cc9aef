import Ltfs.Error
import Ltfs.Lib.Segment

/-!
# Extent lists of a file

`ltfs_fsops_raw.c` keeps for every file a list of extents: runs of file bytes
that lie contiguously on one partition. `addExtent` models
`_ltfs_fsraw_add_extent_unlocked`, which walks the list from its tail and
truncates, deletes, splits or extends entries so that the new extent wins.

* `extentMap` sends a file byte to its tape place `(partition, block, offset)`.
* `addExtentLoop_spec` is the loop invariant; `add_extent_overlay` the result:
  the new map is the old one overlaid by the new extent's.

Offsets, lengths and block numbers are unbounded here: the source computes them
in 64 bits and relies on their sums staying below `2^64`.
-/

namespace Ltfs

open Lib Lib.Segment

/-- The two partitions of an LTFS volume. -/
inductive Partition where
  | ip
  | dp
deriving DecidableEq, Repr

/-- `struct tape_offset`. The partition id is a character in the source, with
`0` (here `none`) for "no such block". -/
structure TapeOffset where
  partition : Option Partition
  block : ℕ
deriving DecidableEq, Repr

/-- `struct extent_info`: `bytecount` file bytes from `fileoffset` on, stored from
byte `byteoffset` of block `start` on. -/
structure ExtentInfo where
  start : TapeOffset
  byteoffset : ℕ
  bytecount : ℕ
  fileoffset : ℕ
deriving DecidableEq, Repr

instance : Segment ExtentInfo where
  start := ExtentInfo.fileoffset
  len := ExtentInfo.bytecount

namespace ExtentInfo

@[simp] theorem segment_start (e : ExtentInfo) : Segment.start e = e.fileoffset := rfl

@[simp] theorem segment_stop (e : ExtentInfo) :
    Segment.stop e = e.fileoffset + e.bytecount := rfl

theorem covers_iff {e : ExtentInfo} {x : ℕ} :
    Covers e x ↔ e.fileoffset ≤ x ∧ x < e.fileoffset + e.bytecount := Iff.rfl

/-- End of the extent in the file. -/
def fileoffsetEnd (e : ExtentInfo) : ℕ := e.fileoffset + e.bytecount

/-- End of the extent, counted in bytes from the beginning of its first block. -/
def byteoffsetEnd (e : ExtentInfo) : ℕ := e.byteoffset + e.bytecount

/-- Drop the first `diff` bytes ("truncate entry from its beginning"). -/
def truncateFront (bs diff : ℕ) (e : ExtentInfo) : ExtentInfo where
  start := { e.start with block := e.start.block + (diff + e.byteoffset) / bs }
  byteoffset := (diff + e.byteoffset) % bs
  bytecount := e.bytecount - diff
  fileoffset := e.fileoffset + diff

/-- Tape place of the file byte `x` of the extent. -/
def place (bs : ℕ) (e : ExtentInfo) (x : ℕ) : Option Partition × ℕ × ℕ :=
  (e.start.partition,
    e.start.block + (e.byteoffset + (x - e.fileoffset)) / bs,
    (e.byteoffset + (x - e.fileoffset)) % bs)

/-- `ext` continues `entry` on the tape and in the file, so it can be appended to it. -/
def Continues (bs : ℕ) (entry ext : ExtentInfo) : Prop :=
  ext.fileoffset = entry.fileoffsetEnd ∧
  entry.start.partition = ext.start.partition ∧
  entry.byteoffsetEnd % bs = 0 ∧
  entry.start.block + entry.byteoffsetEnd / bs = ext.start.block ∧
  ext.byteoffset = 0

instance (bs : ℕ) (entry ext : ExtentInfo) : Decidable (Continues bs entry ext) :=
  inferInstanceAs (Decidable (_ ∧ _))

/-- "Add ext's bytes to entry". -/
def extend (entry ext : ExtentInfo) : ExtentInfo :=
  { entry with bytecount := entry.bytecount + ext.bytecount }

end ExtentInfo

open ExtentInfo

/-- Map from file bytes to tape places. -/
def extentMap (bs : ℕ) (l : List ExtentInfo) : ℕ → Option (Option Partition × ℕ × ℕ) :=
  segMap (place bs) l

/-- Sum of the byte counts, what `realsize` records. -/
def byteTotal (l : List ExtentInfo) : ℕ := (l.map ExtentInfo.bytecount).sum

/-- Extent list invariant: sorted, disjoint, no empty extent. -/
structure ExtentsOk (l : List ExtentInfo) : Prop where
  ordered : Ordered l
  pos : ∀ e ∈ l, 0 < e.bytecount

/-- The part of a dentry that the extent functions read and write. -/
structure Dentry where
  extentlist : List ExtentInfo
  size : ℕ
  realsize : ℕ
deriving DecidableEq, Repr

/-! ## Adding an extent -/

/-- What happens to one list entry when `ext` is laid over it. -/
inductive EntryUpdate where
  /-- The entry is removed; the new running `realsize`. -/
  | deleted (realsize : ℕ)
  /-- The entry stays as `entry`, followed by `split` if it was cut in two. -/
  | kept (entry : ExtentInfo) (split : List ExtentInfo) (realsize : ℕ)
  /-- `malloc` of the second half of a split failed. -/
  | noMemory

/-- "Update existing entry by truncating, deleting, or splitting it".
`splitMem` is the result of the `malloc` a split needs. -/
def updateEntry (bs : ℕ) (splitMem : Bool) (ext entry : ExtentInfo) (realsize : ℕ) :
    EntryUpdate :=
  if ext.fileoffset ≤ entry.fileoffset ∧ ext.fileoffsetEnd > entry.fileoffset then
    if entry.fileoffsetEnd ≤ ext.fileoffsetEnd then
      .deleted (realsize - entry.bytecount)
    else
      let diff := ext.fileoffsetEnd - entry.fileoffset
      .kept (entry.truncateFront bs diff) [] (realsize - diff)
  else if ext.fileoffset > entry.fileoffset ∧ ext.fileoffset < entry.fileoffsetEnd then
    if ext.fileoffsetEnd ≥ entry.fileoffsetEnd then
      -- truncate entry from its end
      .kept { entry with bytecount := ext.fileoffset - entry.fileoffset } []
        (realsize - (entry.fileoffsetEnd - ext.fileoffset))
    else if splitMem then
      .kept { entry with bytecount := ext.fileoffset - entry.fileoffset }
        [entry.truncateFront bs (ext.fileoffsetEnd - entry.fileoffset)]
        (realsize - ext.bytecount)
    else
      .noMemory
  else
    .kept entry [] realsize

/-- The `TAILQ_FOREACH_REVERSE_SAFE` loop. The list is split at the cursor: the
entries still to visit, nearest first, and those already passed. Returns the
code, the list and the running `realsize`. -/
def addExtentLoop (bs : ℕ) (splitMem : Bool) (ext : ExtentInfo) :
    List ExtentInfo → List ExtentInfo → ℕ → ℤ × List ExtentInfo × ℕ
  | [], after, realsize => (0, ext :: after, realsize + ext.bytecount)
  | entry :: before, after, realsize =>
    match updateEntry bs splitMem ext entry realsize with
    | .noMemory => (-ltfsNoMemory, before.reverse ++ entry :: after, realsize)
    | .deleted realsize' => addExtentLoop bs splitMem ext before after realsize'
    | .kept entry' split realsize' =>
      if Continues bs entry' ext then
        (0, before.reverse ++ entry'.extend ext :: (split ++ after), realsize' + ext.bytecount)
      else if ext.fileoffset ≥ entry'.fileoffsetEnd then
        (0, before.reverse ++ entry' :: ext :: (split ++ after), realsize' + ext.bytecount)
      else
        addExtentLoop bs splitMem ext before (entry' :: (split ++ after)) realsize'

/-- Results of the two `malloc` calls of `addExtent`. -/
structure ExtentMem where
  extCopy : Bool
  splitEntry : Bool

/-- `_ltfs_fsraw_add_extent_unlocked`. -/
def addExtent (bs : ℕ) (mem : ExtentMem) (ext : ExtentInfo) (d : Dentry) : ℤ × Dentry :=
  if ! mem.extCopy then
    (-ltfsNoMemory, d)
  else
    let r := addExtentLoop bs mem.splitEntry ext d.extentlist.reverse [] d.realsize
    if r.1 < 0 then
      (r.1, { d with extentlist := r.2.1 })
    else
      (r.1, { extentlist := r.2.1, size := max d.size ext.fileoffsetEnd, realsize := r.2.2 })

/-! ## Tape places under the list edits -/

/-- Dropping a prefix does not move the remaining bytes. -/
theorem place_truncateFront {bs diff x : ℕ} (e : ExtentInfo)
    (hx : e.fileoffset + diff ≤ x) : place bs (e.truncateFront bs diff) x = place bs e x := by
  have hsplit : e.byteoffset + (x - e.fileoffset)
      = (diff + e.byteoffset) + (x - (e.fileoffset + diff)) := by omega
  have hdm := Nat.div_add_mod (diff + e.byteoffset) bs
  have hlin : (diff + e.byteoffset) + (x - (e.fileoffset + diff))
      = ((diff + e.byteoffset) % bs + (x - (e.fileoffset + diff)))
        + bs * ((diff + e.byteoffset) / bs) := by omega
  rcases Nat.eq_zero_or_pos bs with rfl | hbs
  · simp [place, truncateFront, hsplit]
  · simp only [place, truncateFront, hsplit]
    rw [hlin, Nat.add_mul_div_left _ _ hbs, Nat.add_mul_mod_self_left]
    congr 2
    omega

/-- Bytes appended to an extent it continues keep their places. -/
theorem place_extend {bs x : ℕ} (hbs : 0 < bs) {entry ext : ExtentInfo}
    (h : Continues bs entry ext) (hx : ext.fileoffset ≤ x) :
    place bs (entry.extend ext) x = place bs ext x := by
  obtain ⟨hfo, hpart, hmod, hblk, hbo⟩ := h
  have hdvd := Nat.div_add_mod entry.byteoffsetEnd bs
  rw [hmod, Nat.add_zero] at hdvd
  simp only [fileoffsetEnd, byteoffsetEnd] at hfo hdvd hblk
  have hlin : entry.byteoffset + (x - entry.fileoffset)
      = (x - ext.fileoffset) + bs * ((entry.byteoffset + entry.bytecount) / bs) := by omega
  simp only [place, extend, hpart, hbo, Nat.zero_add, ← hblk]
  rw [hlin, Nat.add_mul_div_left _ _ hbs, Nat.add_mul_mod_self_left]
  congr 2
  omega

/-- Coalescing never changes the map: the extended entry maps every byte to the
place that the entry and the extent gave it. -/
theorem extentMap_extend {bs : ℕ} (hbs : 0 < bs) {entry ext : ExtentInfo}
    (h : Continues bs entry ext) :
    extentMap bs [entry.extend ext] = extentMap bs [entry, ext] := by
  funext x
  have hfo : ext.fileoffset = entry.fileoffset + entry.bytecount := h.1
  simp only [extentMap, segMap_cons, segMap_nil]
  by_cases hold : Covers entry x
  · -- an old byte: the entry's own place
    have hnew : Covers (entry.extend ext) x :=
      ⟨hold.1, by have := hold.2; simp only [segment_stop, extend] at *; omega⟩
    rw [if_pos hold, if_pos hnew]
    rfl
  · by_cases hext : Covers ext x
    · have hx := hext.1
      have hnew : Covers (entry.extend ext) x := by
        have := hext.2
        simp only [Covers, segment_start, segment_stop, extend] at *
        omega
      rw [if_neg hold, if_pos hnew, if_pos hext, place_extend hbs h hx]
    · have hnew : ¬ Covers (entry.extend ext) x := by
        intro hc
        simp only [Covers, segment_start, segment_stop, extend] at *
        omega
      rw [if_neg hold, if_neg hnew, if_neg hext]

/-! ## One loop iteration

An iteration replaces one entry by at most two pieces of it. `SameOutside`
says that two lists agree wherever the new extent does not decide; it is what
the iterations preserve. -/

/-- The two lists denote the same map outside `ext`. -/
def SameOutside (bs : ℕ) (ext : ExtentInfo) (l l' : List ExtentInfo) : Prop :=
  ∀ x, ¬ Covers ext x → extentMap bs l x = extentMap bs l' x

theorem SameOutside.overlay_eq {bs : ℕ} {ext : ExtentInfo} {l l' : List ExtentInfo}
    (h : SameOutside bs ext l l') :
    overlay (extentMap bs l) (extentMap bs [ext])
      = overlay (extentMap bs l') (extentMap bs [ext]) := by
  funext x
  simp only [overlay_apply, extentMap, segMap_cons, segMap_nil]
  by_cases hx : Covers ext x
  · simp [hx]
  · simpa [hx, extentMap] using h x hx

/-- Replacing the middle of a list. -/
theorem SameOutside.frame {bs : ℕ} {ext : ExtentInfo} {l l' : List ExtentInfo}
    (h : SameOutside bs ext l l') (before after : List ExtentInfo) :
    SameOutside bs ext (before ++ (l ++ after)) (before ++ (l' ++ after)) := by
  intro x hx
  have hm := h x hx
  simp only [extentMap] at hm
  simp only [extentMap, segMap_append, hm]

/-- Pieces of one entry can take its place in an ordered list. -/
theorem ordered_replace {entry : ExtentInfo} {before after pieces : List ExtentInfo}
    (hord : Ordered (before ++ entry :: after)) (hp : Ordered pieces)
    (hin : ∀ e ∈ pieces, entry.fileoffset ≤ e.fileoffset ∧
      e.fileoffsetEnd ≤ entry.fileoffsetEnd) :
    Ordered (before ++ (pieces ++ after)) := by
  rw [ordered_append, ordered_cons] at hord
  obtain ⟨hb, ⟨hea, ha⟩, hx⟩ := hord
  rw [ordered_append, ordered_append]
  refine ⟨hb, ⟨hp, ha, ?_⟩, ?_⟩
  · intro s hs t ht
    have h1 := (hin s hs).2
    have h2 := hea t ht
    simp only [segment_stop, segment_start, fileoffsetEnd] at *
    omega
  · intro s hs t ht
    rcases List.mem_append.mp ht with ht | ht
    · have h1 := (hin t ht).1
      have h2 := hx s hs entry (by simp)
      simp only [segment_stop, segment_start] at *
      omega
    · exact hx s hs t (by simp [ht])

/-- What `updateEntry` leaves of an entry it keeps: pieces inside the entry that agree
with it outside `ext`, of which only the first can lie before `ext`; `realsize` loses
exactly the bytes that are gone. -/
structure KeptSpec (bs : ℕ) (ext entry entry' : ExtentInfo) (split : List ExtentInfo)
    (realsize realsize' : ℕ) : Prop where
  ordered : Ordered (entry' :: split)
  pos : 0 < entry.bytecount → ∀ e ∈ entry' :: split, 0 < e.bytecount
  inside : ∀ e ∈ entry' :: split, entry.fileoffset ≤ e.fileoffset ∧
    e.fileoffsetEnd ≤ entry.fileoffsetEnd
  same : SameOutside bs ext [entry] (entry' :: split)
  split_after : ∀ e ∈ split, ext.fileoffsetEnd ≤ e.fileoffset
  apart : entry'.fileoffsetEnd ≤ ext.fileoffset ∨
    (split = [] ∧ ext.fileoffsetEnd ≤ entry'.fileoffset)
  total : entry.bytecount ≤ realsize →
    realsize' + entry.bytecount = realsize + byteTotal (entry' :: split)

theorem ordered_singleton (e : ExtentInfo) : Ordered [e] := by simp [Ordered]

theorem ExtentsOk.nil : ExtentsOk [] := ⟨ordered_nil, by simp⟩

theorem extentsOk_singleton {e : ExtentInfo} (h : 0 < e.bytecount) : ExtentsOk [e] :=
  ⟨by simp [Ordered], by simpa using h⟩

theorem updateEntry_kept {bs : ℕ} {splitMem : Bool} {ext entry entry' : ExtentInfo}
    {split : List ExtentInfo} {realsize realsize' : ℕ}
    (h : updateEntry bs splitMem ext entry realsize = .kept entry' split realsize') :
    KeptSpec bs ext entry entry' split realsize realsize' := by
  unfold updateEntry at h
  split at h
  · rename_i hov
    split at h
    · cases h
    · -- front of the entry is overwritten
      rename_i hlong
      simp only [EntryUpdate.kept.injEq] at h
      obtain ⟨rfl, rfl, rfl⟩ := h
      simp only [fileoffsetEnd] at hov hlong
      refine ⟨ordered_singleton _, ?_, ?_, ?_, by simp, Or.inr ⟨rfl, ?_⟩, ?_⟩
      · simp only [List.mem_singleton, forall_eq, truncateFront, fileoffsetEnd]
        omega
      · simp only [List.mem_singleton, forall_eq, truncateFront, fileoffsetEnd]
        omega
      · intro x hx
        simp only [extentMap, segMap_cons, segMap_nil]
        simp only [Covers, segment_start, segment_stop] at hx
        by_cases hc : Covers (entry.truncateFront bs (ext.fileoffsetEnd - entry.fileoffset)) x
        · have hle := hc.1
          simp only [segment_start, truncateFront, fileoffsetEnd] at hle
          have hce : Covers entry x := by
            have := hc.2
            simp only [Covers, segment_start, segment_stop, truncateFront, fileoffsetEnd] at *
            omega
          rw [if_pos hc, if_pos hce, place_truncateFront entry (by simp only [fileoffsetEnd]; omega)]
        · have hce : ¬ Covers entry x := by
            simp only [Covers, segment_start, segment_stop, truncateFront, fileoffsetEnd] at *
            omega
          rw [if_neg hc, if_neg hce]
      · simp only [truncateFront, fileoffsetEnd]
        omega
      · simp only [byteTotal, truncateFront, fileoffsetEnd, List.map_cons, List.map_nil,
          List.sum_cons, List.sum_nil]
        omega
  · split at h
    · rename_i hno hov
      simp only [fileoffsetEnd] at hov
      split at h
      · -- back of the entry is overwritten
        rename_i hlong
        simp only [EntryUpdate.kept.injEq] at h
        obtain ⟨rfl, rfl, rfl⟩ := h
        simp only [fileoffsetEnd] at hlong
        refine ⟨ordered_singleton _, ?_, ?_, ?_, by simp, Or.inl ?_, ?_⟩
        · simp only [List.mem_singleton, forall_eq]
          omega
        · simp only [List.mem_singleton, forall_eq, fileoffsetEnd]
          omega
        · intro x hx
          rw [covers_iff] at hx
          by_cases hc : entry.fileoffset ≤ x ∧ x < ext.fileoffset
          · rw [extentMap, segMap_cons_pos (covers_iff.mpr (by omega)), extentMap,
              segMap_cons_pos (covers_iff.mpr (by simp only; omega))]
            rfl
          · rw [extentMap, segMap_cons_neg (by rw [covers_iff]; omega), extentMap,
              segMap_cons_neg (by rw [covers_iff]; simp only; omega)]
        · simp only [fileoffsetEnd]
          omega
        · simp only [byteTotal, fileoffsetEnd, List.map_cons, List.map_nil,
            List.sum_cons, List.sum_nil]
          omega
      · -- the entry is cut in two
        rename_i hshort
        split at h
        · simp only [EntryUpdate.kept.injEq] at h
          obtain ⟨rfl, rfl, rfl⟩ := h
          simp only [fileoffsetEnd] at hshort
          refine ⟨?_, ?_, ?_, ?_, ?_, Or.inl ?_, ?_⟩
          · simp only [Ordered, List.pairwise_cons, List.mem_singleton, forall_eq, segment_stop,
              segment_start, truncateFront, fileoffsetEnd]
            refine ⟨by omega, by simp⟩
          · simp only [List.mem_cons, List.not_mem_nil, or_false, forall_eq_or_imp, forall_eq,
              truncateFront, fileoffsetEnd]
            omega
          · simp only [List.mem_cons, List.not_mem_nil, or_false, forall_eq_or_imp, forall_eq,
              truncateFront, fileoffsetEnd]
            omega
          · intro x hx
            rw [covers_iff] at hx
            by_cases hin : entry.fileoffset ≤ x ∧ x < entry.fileoffset + entry.bytecount
            · rw [extentMap, segMap_cons_pos (covers_iff.mpr hin), extentMap]
              by_cases hlow : x < ext.fileoffset
              · rw [segMap_cons_pos (covers_iff.mpr (by simp only; omega))]
                rfl
              · rw [segMap_cons_neg (by rw [covers_iff]; simp only; omega),
                  segMap_cons_pos (covers_iff.mpr (by simp only [truncateFront, fileoffsetEnd]; omega)),
                  place_truncateFront entry (by simp only [fileoffsetEnd]; omega)]
            · rw [extentMap, segMap_cons_neg (by rw [covers_iff]; omega), extentMap,
                segMap_cons_neg (by rw [covers_iff]; simp only; omega),
                segMap_cons_neg (by rw [covers_iff]; simp only [truncateFront, fileoffsetEnd]; omega)]
          · simp only [List.mem_singleton, forall_eq, truncateFront, fileoffsetEnd]
            omega
          · simp only [fileoffsetEnd]
            omega
          · simp only [byteTotal, truncateFront, fileoffsetEnd, List.map_cons, List.map_nil,
              List.sum_cons, List.sum_nil]
            omega
        · cases h
    · -- no overlap
      rename_i hno hno'
      simp only [EntryUpdate.kept.injEq] at h
      obtain ⟨rfl, rfl, rfl⟩ := h
      simp only [fileoffsetEnd] at hno hno'
      refine ⟨ordered_singleton _, by simp, by simp, fun _ _ => rfl, by simp, ?_, ?_⟩
      · simp only [fileoffsetEnd, true_and]
        omega
      · intro _
        simp [byteTotal]

theorem updateEntry_deleted {bs : ℕ} {splitMem : Bool} {ext entry : ExtentInfo}
    {realsize realsize' : ℕ}
    (h : updateEntry bs splitMem ext entry realsize = .deleted realsize') :
    SameOutside bs ext [entry] [] ∧ realsize' = realsize - entry.bytecount := by
  unfold updateEntry at h
  split at h
  · rename_i hov
    split at h
    · rename_i hin
      simp only [EntryUpdate.deleted.injEq] at h
      refine ⟨?_, h.symm⟩
      intro x hx
      simp only [fileoffsetEnd] at hov hin
      simp only [extentMap, segMap_cons, segMap_nil]
      rw [if_neg]
      intro hc
      simp only [Covers, segment_start, segment_stop] at *
      omega
    · cases h
  · split at h
    · split at h
      · cases h
      · split at h <;> cases h
    · cases h

/-! ## Placing the new extent -/

/-- Putting a segment into an ordered list overlays its map. -/
theorem extentMap_insert (bs : ℕ) {ext : ExtentInfo} (l l' : List ExtentInfo)
    (h : Ordered (l ++ ext :: l')) :
    extentMap bs (l ++ ext :: l') = overlay (extentMap bs (l ++ l')) (extentMap bs [ext]) := by
  funext x
  by_cases hx : Covers ext x
  · rw [overlay_apply, extentMap, segMap_eq_some_of_mem h (by simp) hx, extentMap,
      segMap_cons_pos hx]
    rfl
  · simp only [overlay_apply, extentMap, segMap_append, segMap_cons_neg hx, segMap_nil,
      Option.none_or]

theorem ordered_insert_after {entry ext : ExtentInfo} {before tail : List ExtentInfo}
    (hord : Ordered (before ++ entry :: tail)) (hle : entry.fileoffsetEnd ≤ ext.fileoffset)
    (htail : ∀ e ∈ tail, ext.fileoffsetEnd ≤ e.fileoffset) :
    Ordered (before ++ entry :: ext :: tail) := by
  rw [ordered_append, ordered_cons] at hord
  obtain ⟨hb, ⟨hea, ha⟩, hx⟩ := hord
  simp only [segment_stop, segment_start, fileoffsetEnd] at *
  rw [ordered_append, ordered_cons, ordered_cons]
  simp only [segment_stop, segment_start, List.mem_cons]
  refine ⟨hb, ⟨?_, htail, ha⟩, ?_⟩
  · rintro t (rfl | ht)
    · exact hle
    · exact hea t ht
  · rintro s hs t (rfl | rfl | ht)
    · exact hx s hs t (by simp)
    · have := hx s hs entry (by simp)
      omega
    · exact hx s hs t (by simp [ht])

/-- Appending to the entry instead of inserting after it keeps the list ordered. -/
theorem ordered_extend {bs : ℕ} {entry ext : ExtentInfo} {before tail : List ExtentInfo}
    (hord : Ordered (before ++ entry :: ext :: tail)) (hc : Continues bs entry ext) :
    Ordered (before ++ entry.extend ext :: tail) := by
  rw [ordered_append, ordered_cons, ordered_cons] at hord
  obtain ⟨hb, ⟨_, hea, ha⟩, hx⟩ := hord
  have hfo : ext.fileoffset = entry.fileoffset + entry.bytecount := hc.1
  rw [ordered_append, ordered_cons]
  refine ⟨hb, ⟨?_, ha⟩, ?_⟩
  · intro t ht
    have := hea t ht
    simp only [segment_stop, segment_start, ExtentInfo.extend] at *
    omega
  · intro s hs t ht
    rcases List.mem_cons.mp ht with rfl | ht
    · exact hx s hs entry (by simp)
    · exact hx s hs t (by simp [ht])

theorem extentMap_extend_frame {bs : ℕ} (hbs : 0 < bs) {entry ext : ExtentInfo}
    (hc : Continues bs entry ext) (before tail : List ExtentInfo) :
    extentMap bs (before ++ entry.extend ext :: tail)
      = extentMap bs (before ++ entry :: ext :: tail) := by
  funext x
  have h := congrFun (extentMap_extend hbs hc) x
  rw [← List.singleton_append, ← List.singleton_append (l := ext :: tail),
    ← List.singleton_append (l := tail)]
  simp only [extentMap] at h
  simp only [extentMap, segMap_append, h]
  rw [← List.singleton_append, segMap_append, Option.or_assoc]

theorem byteTotal_append (l l' : List ExtentInfo) :
    byteTotal (l ++ l') = byteTotal l + byteTotal l' := by
  simp [byteTotal]

@[simp] theorem byteTotal_cons (e : ExtentInfo) (l : List ExtentInfo) :
    byteTotal (e :: l) = e.bytecount + byteTotal l := by
  simp [byteTotal]

/-! ## The loop and the function -/

/-- Loop invariant: the list around the cursor is in order, everything behind the
cursor lies past `ext`, and `realsize` is the total. A finished loop has overlaid
`ext`. The induction follows the entries still to visit. -/
theorem addExtentLoop_spec {bs : ℕ} (hbs : 0 < bs) {splitMem : Bool} {ext : ExtentInfo}
    (before : List ExtentInfo) :
    ∀ (after : List ExtentInfo) (realsize : ℕ),
      Ordered (before.reverse ++ after) →
      (∀ e ∈ after, ext.fileoffsetEnd ≤ e.fileoffset) →
      (addExtentLoop bs splitMem ext before after realsize).1 = 0 →
      Ordered (addExtentLoop bs splitMem ext before after realsize).2.1 ∧
      extentMap bs (addExtentLoop bs splitMem ext before after realsize).2.1
        = overlay (extentMap bs (before.reverse ++ after)) (extentMap bs [ext]) ∧
      (realsize = byteTotal (before.reverse ++ after) →
        (addExtentLoop bs splitMem ext before after realsize).2.2
          = byteTotal (addExtentLoop bs splitMem ext before after realsize).2.1) := by
  induction before with
  | nil =>
    intro after realsize hok hafter _
    simp only [List.reverse_nil, List.nil_append] at hok
    have hord : Ordered (ext :: after) := ordered_cons.mpr ⟨hafter, hok⟩
    refine ⟨hord, ?_, ?_⟩
    · simpa [addExtentLoop] using extentMap_insert bs [] after hord
    · intro hrs
      simp only [List.reverse_nil, List.nil_append] at hrs
      simp only [addExtentLoop, byteTotal_cons, hrs]
      omega
  | cons entry before ih =>
    intro after realsize hok hafter hret
    simp only [List.reverse_cons, List.append_assoc, List.singleton_append] at hok ⊢
    unfold addExtentLoop at hret ⊢
    cases hup : updateEntry bs splitMem ext entry realsize with
    | noMemory => simp [hup, ltfsNoMemory] at hret
    | deleted realsize' =>
      obtain ⟨hsame, hrs'⟩ := updateEntry_deleted hup
      simp only [hup] at hret ⊢
      have hok' : Ordered (before.reverse ++ after) := by
        simpa using ordered_replace hok ordered_nil (by simp)
      obtain ⟨h1, h2, h3⟩ := ih after realsize' hok' hafter hret
      refine ⟨h1, ?_, ?_⟩
      · rw [h2]
        exact (hsame.frame before.reverse after).overlay_eq.symm
      · intro hrs
        apply h3
        rw [byteTotal_append, byteTotal_cons] at hrs
        rw [byteTotal_append]
        omega
    | kept entry' split realsize' =>
      have hk := updateEntry_kept hup
      simp only [hup] at hret ⊢
      have hok' : Ordered (before.reverse ++ entry' :: (split ++ after)) := by
        simpa using ordered_replace hok hk.ordered hk.inside
      have hover := (hk.same.frame before.reverse after).overlay_eq
      simp only [List.cons_append, List.nil_append] at hover
      have htail : ∀ e ∈ split ++ after, ext.fileoffsetEnd ≤ e.fileoffset := by
        intro e he
        rcases List.mem_append.mp he with he | he
        · exact hk.split_after e he
        · exact hafter e he
      have htotal : realsize = byteTotal (before.reverse ++ entry :: after) →
          realsize' = byteTotal (before.reverse ++ entry' :: (split ++ after)) := by
        intro hrs
        have := hk.total (by rw [hrs, byteTotal_append, byteTotal_cons]; omega)
        simp only [byteTotal_append, byteTotal_cons] at *
        omega
      by_cases hcont : Continues bs entry' ext
      · -- the extent is appended to the entry
        have hle : entry'.fileoffsetEnd ≤ ext.fileoffset := le_of_eq hcont.1.symm
        have hins := ordered_insert_after hok' hle htail
        simp only [if_pos hcont]
        refine ⟨ordered_extend hins hcont, ?_, ?_⟩
        · rw [extentMap_extend_frame hbs hcont, hover]
          have := extentMap_insert bs (before.reverse ++ [entry']) (split ++ after)
            (by simpa using hins)
          simpa using this
        · intro hrs
          have := htotal hrs
          simp only [byteTotal_append, byteTotal_cons, extend] at *
          omega
      · by_cases hge : ext.fileoffset ≥ entry'.fileoffsetEnd
        · -- the extent is inserted after the entry
          have hins := ordered_insert_after hok' hge htail
          simp only [if_neg hcont, if_pos hge]
          refine ⟨hins, ?_, ?_⟩
          · rw [hover]
            have := extentMap_insert bs (before.reverse ++ [entry']) (split ++ after)
              (by simpa using hins)
            simpa using this
          · intro hrs
            have := htotal hrs
            simp only [byteTotal_append, byteTotal_cons] at *
            omega
        · -- the extent belongs farther up the list
          simp only [if_neg hcont, if_neg hge] at hret ⊢
          rcases hk.apart with hap | ⟨_, hap⟩
          · exact absurd hap hge
          have hafter' : ∀ e ∈ entry' :: (split ++ after), ext.fileoffsetEnd ≤ e.fileoffset := by
            intro e he
            rcases List.mem_cons.mp he with rfl | he
            · exact hap
            · exact htail e he
          obtain ⟨h1, h2, h3⟩ := ih _ realsize' hok' hafter' hret
          refine ⟨h1, ?_, fun hrs => h3 (htotal hrs)⟩
          rw [h2, hover]

/-- A property that passes from an entry to its pieces, and from an entry and the extent to their
union, holds of the whole new list. -/
theorem addExtentLoop_forall {bs : ℕ} {splitMem : Bool} {ext : ExtentInfo}
    {P : ExtentInfo → Prop} (hext : P ext)
    (hpieces : ∀ entry entry' split realsize realsize', P entry →
      updateEntry bs splitMem ext entry realsize = .kept entry' split realsize' →
      ∀ e ∈ entry' :: split, P e)
    (hextend : ∀ entry, P entry → Continues bs entry ext → P (entry.extend ext))
    (before : List ExtentInfo) : ∀ (after : List ExtentInfo) (realsize : ℕ),
      (∀ e ∈ before.reverse ++ after, P e) →
      ∀ e ∈ (addExtentLoop bs splitMem ext before after realsize).2.1, P e := by
  induction before with
  | nil =>
    intro after realsize hall e he
    rcases List.mem_cons.mp he with rfl | he
    · exact hext
    · exact hall e (by simpa using he)
  | cons entry before ih =>
    intro after realsize hall
    simp only [List.reverse_cons, List.append_assoc, List.singleton_append, List.mem_append,
      List.mem_cons] at hall
    have hentry := hall entry (by simp)
    unfold addExtentLoop
    cases hup : updateEntry bs splitMem ext entry realsize with
    | noMemory =>
      intro e he
      simp only [List.mem_append, List.mem_cons] at he
      exact hall e he
    | deleted realsize' =>
      exact ih after realsize' fun e he => hall e (by
        rcases List.mem_append.mp he with he | he
        · exact Or.inl he
        · exact Or.inr (Or.inr he))
    | kept entry' split realsize' =>
      have hk := hpieces entry entry' split realsize realsize' hentry hup
      have hnew : ∀ e, e ∈ before.reverse ∨ e = entry' ∨ e ∈ split ∨ e ∈ after → P e := by
        rintro e (he | rfl | he | he)
        · exact hall e (Or.inl he)
        · exact hk _ (by simp)
        · exact hk e (by simp [he])
        · exact hall e (Or.inr (Or.inr he))
      dsimp only
      split
      · -- appended to the entry
        rename_i hcont
        intro e he
        simp only [List.mem_append, List.mem_cons] at he
        rcases he with he | rfl | he | he
        · exact hnew e (Or.inl he)
        · exact hextend entry' (hnew entry' (Or.inr (Or.inl rfl))) hcont
        · exact hnew e (Or.inr (Or.inr (Or.inl he)))
        · exact hnew e (Or.inr (Or.inr (Or.inr he)))
      · split
        · -- inserted after it
          intro e he
          simp only [List.mem_append, List.mem_cons] at he
          rcases he with he | rfl | rfl | he | he
          · exact hnew e (Or.inl he)
          · exact hnew e (Or.inr (Or.inl rfl))
          · exact hext
          · exact hnew e (Or.inr (Or.inr (Or.inl he)))
          · exact hnew e (Or.inr (Or.inr (Or.inr he)))
        · exact ih _ realsize' fun e he => hnew e (by simpa using he)

/-- No extent becomes empty. -/
theorem addExtentLoop_pos {bs : ℕ} {splitMem : Bool} {ext : ExtentInfo} (hext : 0 < ext.bytecount)
    (before after : List ExtentInfo) (realsize : ℕ)
    (hpos : ∀ e ∈ before.reverse ++ after, 0 < e.bytecount) :
    ∀ e ∈ (addExtentLoop bs splitMem ext before after realsize).2.1, 0 < e.bytecount := by
  refine addExtentLoop_forall hext ?_ ?_ before after realsize hpos
  · intro entry entry' split realsize realsize' hentry hup
    exact (updateEntry_kept hup).pos hentry
  · intro entry hentry _
    simp only [ExtentInfo.extend]
    omega

/-- No extent reaches behind what the list and the new extent reached. -/
theorem addExtentLoop_within {bs n : ℕ} {splitMem : Bool} {ext : ExtentInfo}
    (hext : ext.fileoffsetEnd ≤ n) (before after : List ExtentInfo) (realsize : ℕ)
    (hin : ∀ e ∈ before.reverse ++ after, e.fileoffsetEnd ≤ n) :
    ∀ e ∈ (addExtentLoop bs splitMem ext before after realsize).2.1, e.fileoffsetEnd ≤ n := by
  refine addExtentLoop_forall hext ?_ ?_ before after realsize hin
  · intro entry entry' split realsize realsize' hentry hup e he
    exact ((updateEntry_kept hup).inside e he).2.trans hentry
  · intro entry _ hcont
    have hfo := hcont.1
    simp only [fileoffsetEnd, ExtentInfo.extend] at hfo hext ⊢
    omega

/-- A successful `addExtent` went through the loop. -/
theorem addExtent_eq {bs : ℕ} {mem : ExtentMem} {ext : ExtentInfo} {d : Dentry}
    (hret : (addExtent bs mem ext d).1 = 0) :
    let r := addExtentLoop bs mem.splitEntry ext d.extentlist.reverse [] d.realsize
    r.1 = 0 ∧ (addExtent bs mem ext d).2
      = { extentlist := r.2.1, size := max d.size ext.fileoffsetEnd, realsize := r.2.2 } := by
  intro r
  have hcopy : mem.extCopy = true := by
    by_contra hno
    have hno' : mem.extCopy = false := by simpa using hno
    simp [addExtent, hno', ltfsNoMemory] at hret
  have hadd : addExtent bs mem ext d = if r.1 < 0 then (r.1, { d with extentlist := r.2.1 })
      else (r.1, { extentlist := r.2.1, size := max d.size ext.fileoffsetEnd,
                   realsize := r.2.2 }) := by
    simp [addExtent, hcopy, r]
  have hr0 : r.1 = 0 := by
    rw [hadd] at hret
    split at hret
    · rename_i hneg
      simp only at hret
      omega
    · exact hret
  refine ⟨hr0, ?_⟩
  rw [hadd, if_neg (by omega)]

/-- What a successful `addExtent` does to the list and to `size`. -/
theorem addExtent_ordered {bs : ℕ} (hbs : 0 < bs) {mem : ExtentMem} {ext : ExtentInfo}
    {d : Dentry} (hok : Ordered d.extentlist) (hret : (addExtent bs mem ext d).1 = 0) :
    Ordered (addExtent bs mem ext d).2.extentlist ∧
    extentMap bs (addExtent bs mem ext d).2.extentlist
      = overlay (extentMap bs d.extentlist) (extentMap bs [ext]) ∧
    (addExtent bs mem ext d).2.size = max d.size ext.fileoffsetEnd ∧
    (d.realsize = byteTotal d.extentlist →
      (addExtent bs mem ext d).2.realsize
        = byteTotal (addExtent bs mem ext d).2.extentlist) := by
  obtain ⟨hr0, hd⟩ := addExtent_eq hret
  obtain ⟨h1, h2, h3⟩ := addExtentLoop_spec hbs d.extentlist.reverse [] d.realsize
    (by simpa using hok) (by simp) hr0
  simp only [List.reverse_reverse, List.append_nil] at h2 h3
  rw [hd]
  exact ⟨h1, h2, rfl, h3⟩

/-- The same for lists without empty extents. -/
theorem addExtent_spec {bs : ℕ} (hbs : 0 < bs) {mem : ExtentMem} {ext : ExtentInfo}
    {d : Dentry} (hok : ExtentsOk d.extentlist) (hext : 0 < ext.bytecount)
    (hret : (addExtent bs mem ext d).1 = 0) :
    ExtentsOk (addExtent bs mem ext d).2.extentlist ∧
    extentMap bs (addExtent bs mem ext d).2.extentlist
      = overlay (extentMap bs d.extentlist) (extentMap bs [ext]) ∧
    (addExtent bs mem ext d).2.size = max d.size ext.fileoffsetEnd ∧
    (d.realsize = byteTotal d.extentlist →
      (addExtent bs mem ext d).2.realsize
        = byteTotal (addExtent bs mem ext d).2.extentlist) := by
  obtain ⟨h1, h2, h3, h4⟩ := addExtent_ordered hbs hok.ordered hret
  refine ⟨⟨h1, ?_⟩, h2, h3, h4⟩
  rw [(addExtent_eq hret).2]
  exact addExtentLoop_pos hext d.extentlist.reverse [] d.realsize (by simpa using hok.pos)

/-- Extent-list overlay: a successful `addExtent` yields a list that is again
sorted and disjoint and whose map is the old one overlaid by the new extent's;
`size` grows to the end of the extent, `realsize` stays the sum of the byte
counts if it has been that before, and appending to an adjacent extent does not change the map. -/
theorem add_extent_overlay {bs : ℕ} (hbs : 0 < bs) (mem : ExtentMem) (ext : ExtentInfo)
    (d : Dentry) (hok : ExtentsOk d.extentlist) (hext : 0 < ext.bytecount)
    (hret : (addExtent bs mem ext d).1 = 0) :
    ExtentsOk (addExtent bs mem ext d).2.extentlist ∧
    extentMap bs (addExtent bs mem ext d).2.extentlist
      = overlay (extentMap bs d.extentlist) (extentMap bs [ext]) ∧
    (addExtent bs mem ext d).2.size = max d.size (ext.fileoffset + ext.bytecount) ∧
    (d.realsize = byteTotal d.extentlist →
      (addExtent bs mem ext d).2.realsize = byteTotal (addExtent bs mem ext d).2.extentlist) ∧
    (∀ entry, Continues bs entry ext →
      extentMap bs [entry.extend ext] = extentMap bs [entry, ext]) := by
  obtain ⟨h1, h2, h3, h4⟩ := addExtent_spec hbs hok hext hret
  exact ⟨h1, h2, h3, h4, fun _ hc => extentMap_extend hbs hc⟩

/-- A split: ten bytes from block 7 on, three of them overwritten from block 20 on. -/
theorem add_extent_overlay_split :
    let old : ExtentInfo := ⟨⟨some .dp, 7⟩, 0, 10, 0⟩
    let new : ExtentInfo := ⟨⟨some .dp, 20⟩, 0, 3, 2⟩
    let d : Dentry := ⟨[old], 10, 10⟩
    (addExtent 4 ⟨true, true⟩ new d).2
      = ⟨[⟨⟨some .dp, 7⟩, 0, 2, 0⟩, new, ⟨⟨some .dp, 8⟩, 1, 5, 5⟩], 10, 10⟩ ∧
    extentMap 4 (addExtent 4 ⟨true, true⟩ new d).2.extentlist
      = overlay (extentMap 4 [old]) (extentMap 4 [new]) :=
  ⟨by decide, (add_extent_overlay (by decide) ⟨true, true⟩ ⟨⟨some .dp, 20⟩, 0, 3, 2⟩
    ⟨[⟨⟨some .dp, 7⟩, 0, 10, 0⟩], 10, 10⟩ (extentsOk_singleton (by decide)) (by decide)
    (by decide)).2.1⟩

/-- The first extent of a file whose `realsize` is five bytes too high, as it is after
`ltfs_fsraw_cleanup_extent` has removed five bytes from the list. -/
theorem add_extent_realsize_stale : ¬ ∀ (bs : ℕ) (mem : ExtentMem) (ext : ExtentInfo) (d : Dentry),
    0 < bs → ExtentsOk d.extentlist → 0 < ext.bytecount → (addExtent bs mem ext d).1 = 0 →
    (addExtent bs mem ext d).2.realsize = byteTotal (addExtent bs mem ext d).2.extentlist := by
  intro h
  have hoff := h 4 ⟨true, true⟩ ⟨⟨some .dp, 20⟩, 0, 3, 0⟩ ⟨[], 5, 5⟩ (by decide)
    ⟨by simp [Ordered], by simp⟩ (by decide) (by decide)
  exact absurd hoff (by decide)

end Ltfs
