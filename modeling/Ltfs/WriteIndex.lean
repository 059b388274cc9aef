import Ltfs.TimeText
import Ltfs.Volume

/-!
# The index in memory while it is written

`ltfs_write_index` with all that it changes of the index in memory: generation and
modification time, the pointers of full and of incremental indexes, the counter of
incremental indexes and the dirty flags. It changes them before it writes and undoes the
changes where the write fails. Everything below is the interface `IndexDevice` over an
arbitrary state: whatever can fail there may fail in any way.

* `ltfsWriteIndex` — the function, with the nested write to the data partition.
* `Restored` — the index in memory is as the last successful write left it, and is still
  dirty if it was.
* `write_index_restored_iff` — when a failed call leaves it so.
-/

namespace Ltfs.IndexWrite

open Time (LtfsTimespec)

/-- `enum ltfs_index_type`. -/
inductive IndexType where
  /-- Full or incremental, whichever is due. -/
  | auto
  | full
  | incremental
deriving DecidableEq, Repr

/-- What `ltfs_write_index` reads and sets of `struct ltfs_index`. -/
structure IndexHeader where
  generation : UInt32
  modTime : LtfsTimespec
  selfptr : TapeOffset
  backptr : TapeOffset
  selfptrInc : TapeOffset
  backptrInc : TapeOffset
  /-- `0` for full indexes only. -/
  fullIndexInterval : ℕ
  fullIndexToGo : ℕ
  dirty : Bool
  useAtime : Bool
  atimeDirty : Bool
  version : ℕ
deriving DecidableEq

/-- What it needs of `struct ltfs_volume`. `written` is no data of the program: the index as
it was after each write that succeeded. -/
structure IndexVolume (D : Type) where
  dev : D
  index : IndexHeader
  ipIndexFileEnd : Bool
  dpIndexFileEnd : Bool
  reval : ℤ
  written : List IndexHeader

/-- What it calls: the tape device, the cartridge memory, the XML writer, the incremental
journal and the clock. -/
structure IndexDevice (D : Type) where
  /-- `tape_get_cart_volume_lock_status`, `tape_set_cart_volume_lock_status`. -/
  getCartVolumeLockStatus : D → Except ℤ VolumeLock × D
  setCartVolumeLockStatus : VolumeLock → D → ℤ × D
  /-- `ltfs_get_partition_readonly`. -/
  partitionReadonly : Partition → D → ℤ
  /-- `device->write_error`, and `device->append_pos` set to `0`. -/
  setWriteError : Bool → D → D
  clearAppendPos : Partition → D → D
  /-- `tape_seek_append_position`, the flag says whether it is the index partition. -/
  seekAppendPosition : Partition → Bool → D → ℤ × D
  /-- `tape_get_position`. -/
  getPosition : D → Except ℤ Position
  /-- `tape_write_filemark`; none only flushes. -/
  writeFilemark : ℕ → D → ℤ × D
  /-- `xml_schema_to_tape`. -/
  xmlSchemaToTape : String → IndexType → IndexVolume D → ℤ × D
  /-- `ltfs_update_cart_coherency`. -/
  updateCartCoherency : IndexVolume D → D
  /-- `tape_set_ip_append_position`. -/
  setIpAppendPosition : ℕ → D → D
  /-- `incj_clear`. -/
  incjClear : D → D
  /-- `ltfs_set_commit_message_reason`. -/
  setCommitMessageReason : String → D → D
  /-- `get_current_timespec`. -/
  currentTimespec : D → LtfsTimespec
  /-- `LTFS_INDEX_VERSION`, which depends on the format the program was built for. -/
  ltfsIndexVersion : ℕ

/-- `SYNC_WRITE_PERM`. -/
def syncWritePerm : String := "Write perm"

/-! ## The index in memory -/

namespace IndexHeader

/-- `ltfs_is_dirty`. -/
def isDirty (x : IndexHeader) : Bool := x.dirty || (x.useAtime && x.atimeDirty)

/-- The type that `LTFS_INDEX_AUTO` stands for. -/
def resolve (x : IndexHeader) : IndexType → IndexType
  | .auto =>
    if x.fullIndexInterval ≠ 0 then
      (if x.fullIndexToGo ≠ 0 then .incremental else .full)
    else .full
  | type => type

/-- The counter, for an index of the type. -/
def count (type : IndexType) (x : IndexHeader) : IndexHeader :=
  match type with
  | .full => if x.fullIndexInterval ≠ 0 then { x with fullIndexToGo := x.fullIndexInterval } else x
  | .incremental =>
    if x.fullIndexInterval ≠ 0 ∧ x.fullIndexToGo ≠ 0 then
      { x with fullIndexToGo := x.fullIndexToGo - 1 }
    else x
  | .auto => x

/-- "Update index generation". -/
def nextGeneration (now : LtfsTimespec) (x : IndexHeader) : IndexHeader :=
  if x.isDirty then { x with generation := x.generation + 1, modTime := now } else x

/-- Undo it. -/
def undoGeneration (generationInc : Bool) (modtimeOld : LtfsTimespec) (x : IndexHeader) :
    IndexHeader :=
  if generationInc then { x with modTime := modtimeOld, generation := x.generation - 1 } else x

/-- "Update back pointer". -/
def nextBackptr (type : IndexType) (x : IndexHeader) : IndexHeader :=
  if type = .full then
    (if x.selfptr.partition = some .dp then { x with backptr := x.selfptr } else x)
  else { x with backptrInc := x.selfptrInc }

/-- "Update self pointer": to the first data block, not the preceding file mark. -/
def nextSelfptr (type : IndexType) (pos : Position) (x : IndexHeader) : IndexHeader :=
  if type = .full then { x with selfptr := ⟨some pos.partition, pos.block + 1⟩ }
  else { x with selfptrInc := ⟨some pos.partition, pos.block + 1⟩ }

/-- Undo the pointers as they were in `old`, and for a full index the generation. -/
def undo (type : IndexType) (generationInc : Bool) (x old : IndexHeader) : IndexHeader :=
  if type = .full then
    { undoGeneration generationInc old.modTime x with backptr := old.backptr, selfptr := old.selfptr }
  else { x with backptrInc := old.backptrInc, selfptrInc := old.selfptrInc }

/-- A full index is written: "Clear incremental index metrix", `ltfs_unset_index_dirty`. -/
def fullWritten (version : ℕ) (x : IndexHeader) : IndexHeader :=
  { x with
    backptrInc := ⟨none, 0⟩
    selfptrInc := ⟨none, 0⟩
    dirty := false
    atimeDirty := false
    version := version }

end IndexHeader

/-! ## The function -/

section Function

variable {D : Type} (I : IndexDevice D)

/-- "Check read-only status. Ignore the out-of-space condition". -/
def refusal (dev : D) : ℤ :=
  let soft := fun ret : ℤ => ret = -ltfsNoSpace ∨ ret = -ltfsLessSpace
  let ip := I.partitionReadonly .ip dev
  let ret := if ip = 0 ∨ soft ip then I.partitionReadonly .dp dev else ip
  if ret < 0 ∧ ¬ soft ret then ret else 0

/-- Writing is allowed once more after a permanent write error, at the end of the partition. -/
def allowWrite (p : Partition) (dev : D) : D := I.clearAppendPos p (I.setWriteError false dev)

/-- "Write to data partition first if required". -/
def needsDpIndex (v : IndexVolume D) : Bool :=
  ! v.dpIndexFileEnd || (v.ipIndexFileEnd && decide (v.index.selfptr.partition = some .ip))

/-- From the label `out_write_perm` on. -/
def outWritePerm (p : Partition) (writePerm updateVollock : Bool) (volstat : VolumeLock) (ret : ℤ)
    (v : IndexVolume D) : ℤ × IndexVolume D :=
  let v := if writePerm then { v with dev := I.setWriteError true v.dev } else v
  match if updateVollock then newVolumeLock volstat p else none with
  | none => (ret, v)
  | some status =>
    let m := I.setCartVolumeLockStatus status v.dev
    (if m.1 ≠ 0 then m.1 else ret, { v with dev := m.2 })

/-- "Write the Index": the data before it is flushed if asked to, then come the file mark and
the document. -/
def writeRecords (flush : Bool) (reason : String) (type : IndexType) (v : IndexVolume D) : ℤ × D :=
  let f := if flush then I.writeFilemark 0 v.dev else (0, v.dev)
  if f.1 < 0 then f
  else
    let m := I.writeFilemark 1 f.2
    if m.1 < 0 then m else I.xmlSchemaToTape reason type { v with dev := m.2 }

/-- The index is on tape. After an incremental one nothing but the pointers has changed. -/
def indexWritten (p : Partition) (type : IndexType) (v : IndexVolume D) : IndexVolume D :=
  if type = .full then
    let v := match p with
      | .ip => { v with ipIndexFileEnd := true }
      | .dp => { v with dpIndexFileEnd := true }
    let v := { v with dev := I.updateCartCoherency v }
    let v := if p = .ip then
        { v with dev := I.setIpAppendPosition (v.index.selfptr.block - 1) v.dev }
      else v
    { v with
      dev := I.incjClear v.dev
      index := v.index.fullWritten I.ltfsIndexVersion
      written := v.written ++ [v.index.fullWritten I.ltfsIndexVersion] }
  else
    { v with written := v.written ++ [v.index] }

/-- From "update index generation" on. -/
def writeHere (p : Partition) (reason : String) (type : IndexType) (writePerm : Bool)
    (volstat : VolumeLock) (v : IndexVolume D) : ℤ × IndexVolume D :=
  let old := v.index
  let inc := old.isDirty
  let x := old.nextGeneration (I.currentTimespec v.dev)
  let s := I.seekAppendPosition p (decide (p = .ip)) v.dev
  if s.1 < 0 then
    outWritePerm I p writePerm false volstat s.1
      { v with dev := s.2, index := x.undoGeneration inc old.modTime }
  else
    let x := x.nextBackptr type
    match I.getPosition s.2 with
    | .error ret =>
      outWritePerm I p writePerm false volstat ret { v with dev := s.2, index := x.undo type inc old }
    | .ok pos =>
      let x := x.nextSelfptr type pos
      let w := writeRecords I (decide (p = .ip) && ! v.ipIndexFileEnd) reason type
        { v with dev := s.2, index := x }
      if w.1 < 0 then
        outWritePerm I p writePerm (isWritePerm (-w.1)) volstat w.1
          { v with dev := w.2, index := x.undo type inc old }
      else
        outWritePerm I p writePerm false volstat w.1
          (indexWritten I p type { v with dev := w.2, index := x })

/-- After the nested write to the data partition, which returned `d`. -/
def afterDp (p : Partition) (reason : String) (volstat : VolumeLock) (d : ℤ × IndexVolume D) :
    ℤ × IndexVolume D :=
  if needReval d.1 then
    d
  else if isUnexpectedMove d.1 then
    (d.1, { d.2 with reval := -ltfsRevalFailed })
  else if isWritePerm (-d.1) then
    match I.getCartVolumeLockStatus d.2.dev with
    | (.error ret, dev) => (ret, { d.2 with dev := dev })
    | (.ok volstat, dev) =>
      writeHere I p syncWritePerm .full true volstat
        { d.2 with dev := I.setCommitMessageReason syncWritePerm (allowWrite I p dev) }
  else
    -- "we want to keep trying even if, e.g., the DP fills up"
    writeHere I p reason .full false volstat d.2

/-- `ltfs_write_index`; `nested` is the recursive call for the data partition. -/
def writeIndexOn (nested : IndexVolume D → ℤ × IndexVolume D) (p : Partition) (reason : String)
    (type : IndexType) (v : IndexVolume D) : ℤ × IndexVolume D :=
  match I.getCartVolumeLockStatus v.dev with
  | (.error ret, dev) => (ret, { v with dev := dev })
  | (.ok volstat, dev) =>
    let type := v.index.resolve type
    let v := { v with dev := dev, index := v.index.count type }
    if reason = syncWritePerm then
      writeHere I p reason type true volstat { v with dev := allowWrite I p v.dev }
    else if refusal I v.dev < 0 then
      (refusal I v.dev, v)
    else if p = .ip ∧ needsDpIndex v then
      afterDp I p reason volstat (nested { v with dev := I.incjClear v.dev })
    else
      writeHere I p reason type false volstat v

/-- The write to the data partition, which needs no other index first. -/
def writeDp (reason : String) (type : IndexType) (v : IndexVolume D) : ℤ × IndexVolume D :=
  writeIndexOn I (fun v => (0, v)) .dp reason type v

/-- `ltfs_write_index`. -/
def ltfsWriteIndex (p : Partition) (reason : String) (type : IndexType) (v : IndexVolume D) :
    ℤ × IndexVolume D :=
  match p with
  | .dp => writeDp I reason type v
  | .ip => writeIndexOn I (writeDp I reason .full) .ip reason type v

end Function

/-! ## What a failed call leaves -/

namespace IndexHeader

/-- Generation, modification time, pointers and counter are the same. -/
structure SameNumbers (x y : IndexHeader) : Prop where
  generation : y.generation = x.generation
  modTime : y.modTime = x.modTime
  selfptr : y.selfptr = x.selfptr
  backptr : y.backptr = x.backptr
  selfptrInc : y.selfptrInc = x.selfptrInc
  backptrInc : y.backptrInc = x.backptrInc
  fullIndexToGo : y.fullIndexToGo = x.fullIndexToGo

theorem SameNumbers.refl (x : IndexHeader) : SameNumbers x x := ⟨rfl, rfl, rfl, rfl, rfl, rfl, rfl⟩

/-- The switch only sets the counter. -/
theorem count_eq (type : IndexType) (x : IndexHeader) :
    x.count type = { x with fullIndexToGo := (x.count type).fullIndexToGo } := by
  unfold count
  cases type with
  | auto => rfl
  | full =>
    dsimp only
    split
    · rfl
    · rfl
  | incremental =>
    dsimp only
    split
    · rfl
    · rfl

/-- The counter is not changed by an index of the type. -/
def KeepsCount (type : IndexType) (x : IndexHeader) : Prop :=
  (x.count type).fullIndexToGo = x.fullIndexToGo

theorem isDirty_count (type : IndexType) (x : IndexHeader) : (x.count type).isDirty = x.isDirty := by
  rw [count_eq]
  rfl

/-- A dirty index gets a new generation, which is not the old one. -/
theorem not_sameNumbers_nextGeneration {x y : IndexHeader} {now : LtfsTimespec}
    (hdirty : y.isDirty = true) (hgen : y.generation = x.generation) :
    ¬ SameNumbers x (y.nextGeneration now) := by
  intro h
  have hnext := h.generation
  unfold nextGeneration at hnext
  rw [if_pos hdirty] at hnext
  dsimp only at hnext
  rw [hgen] at hnext
  exact absurd hnext (by simp)

theorem undoGeneration_nextGeneration (x : IndexHeader) (now : LtfsTimespec) :
    (x.nextGeneration now).undoGeneration x.isDirty x.modTime = x := by
  unfold nextGeneration undoGeneration
  by_cases hdirty : x.isDirty = true
  · simp [hdirty]
  · simp [hdirty]

theorem nextGeneration_clean {x : IndexHeader} (hclean : x.isDirty = false) (now : LtfsTimespec) :
    x.nextGeneration now = x := by
  unfold nextGeneration
  rw [if_neg (by rw [hclean]; exact Bool.false_ne_true)]

theorem nextGeneration_dirty {x : IndexHeader} (hdirty : x.isDirty = true) (now : LtfsTimespec) :
    x.nextGeneration now = { x with generation := x.generation + 1, modTime := now } := by
  unfold nextGeneration
  rw [if_pos hdirty]

/-- For a full index everything is undone. -/
theorem undo_full (x : IndexHeader) (now : LtfsTimespec) (pos : Position) :
    ((x.nextGeneration now).nextBackptr .full).undo .full x.isDirty x = x ∧
      (((x.nextGeneration now).nextBackptr .full).nextSelfptr .full pos).undo .full x.isDirty x = x := by
  unfold undo nextSelfptr nextBackptr undoGeneration
  cases hdirty : x.isDirty with
  | false =>
    rw [nextGeneration_clean hdirty]
    by_cases hdp : x.selfptr.partition = some .dp
    · simp [hdp]
    · simp [hdp]
  | true =>
    rw [nextGeneration_dirty hdirty]
    by_cases hdp : x.selfptr.partition = some .dp
    · simp [hdp]
    · simp [hdp]

/-- For an incremental one the pointers are, the generation is not. -/
theorem undo_incremental (x : IndexHeader) {type : IndexType} (htype : type ≠ .full)
    (now : LtfsTimespec) (pos : Position) :
    ((x.nextGeneration now).nextBackptr type).undo type x.isDirty x = x.nextGeneration now ∧
      (((x.nextGeneration now).nextBackptr type).nextSelfptr type pos).undo type x.isDirty x
        = x.nextGeneration now := by
  unfold undo nextSelfptr nextBackptr
  cases hdirty : x.isDirty with
  | false =>
    rw [nextGeneration_clean hdirty]
    simp [htype]
  | true =>
    rw [nextGeneration_dirty hdirty]
    simp [htype]

theorem isDirty_fullWritten (x : IndexHeader) (version : ℕ) :
    (x.fullWritten version).isDirty = false := by
  simp [fullWritten, isDirty]

end IndexHeader

section Failure

variable {D : Type} (I : IndexDevice D)

/-- The index as the last successful write has left it, before the call (`v`) or in it. -/
def lastWritten (v v' : IndexVolume D) : IndexHeader :=
  if v'.written = v.written then v.index else v'.written.getLastD v.index

/-- The numbers of the index are those of the last successful write, and it is still dirty if
it was. -/
def Restored (v v' : IndexVolume D) : Prop :=
  IndexHeader.SameNumbers (lastWritten v v') v'.index ∧
    (v.index.isDirty = true → v'.index.isDirty = true)

/-- `tape_seek_append_position` fails. -/
def SeekFails (p : Partition) (dev : D) : Prop := (I.seekAppendPosition p (decide (p = .ip)) dev).1 < 0

/-- Everything `writeHere` asks of the device succeeds. -/
def Succeeds (p : Partition) (reason : String) (type : IndexType) (v : IndexVolume D) : Prop :=
  let s := I.seekAppendPosition p (decide (p = .ip)) v.dev
  ¬ SeekFails I p v.dev ∧ ∃ pos, I.getPosition s.2 = .ok pos ∧
    0 ≤ (writeRecords I (decide (p = .ip) && ! v.ipIndexFileEnd) reason type
      { v with
        dev := s.2
        index := ((v.index.nextGeneration (I.currentTimespec v.dev)).nextBackptr type).nextSelfptr
          type pos }).1

/-- When a failed call restores the index: the counter keeps its value; the failure is not that
of an incremental index behind the append position, with the index dirty; and if the data
partition gets an index first, there was nothing dirty. -/
def Restores (p : Partition) (reason : String) (type : IndexType) (v : IndexVolume D) : Prop :=
  match I.getCartVolumeLockStatus v.dev with
  | (.error _, _) => True
  | (.ok _, dev) =>
    let t := v.index.resolve type
    let here := fun dev => v.index.KeepsCount t ∧
      (t = .full ∨ v.index.isDirty = false ∨ SeekFails I p dev)
    if reason = syncWritePerm then
      here (allowWrite I p dev)
    else if refusal I dev < 0 then
      v.index.KeepsCount t
    else if p = .ip ∧ needsDpIndex v then
      match I.getCartVolumeLockStatus (I.incjClear dev) with
      | (.error _, _) => v.index.KeepsCount t
      | (.ok _, dev) =>
        -- the nested write is a full one and sets the counter again
        let index := (v.index.count t).count .full
        let lands := ¬ refusal I dev < 0 ∧
          Succeeds I .dp reason .full { v with dev := dev, index := index }
        (lands → v.index.isDirty = false) ∧
          (¬ lands → index.fullIndexToGo = v.index.fullIndexToGo)
    else
      here dev

variable {I}

theorem outWritePerm_index (p : Partition) (writePerm updateVollock : Bool) (volstat : VolumeLock)
    (ret : ℤ) (v : IndexVolume D) :
    (outWritePerm I p writePerm updateVollock volstat ret v).2.index = v.index ∧
      (outWritePerm I p writePerm updateVollock volstat ret v).2.written = v.written := by
  unfold outWritePerm
  dsimp only
  split
  · constructor
    · split <;> rfl
    · split <;> rfl
  · constructor
    · split <;> rfl
    · split <;> rfl

theorem outWritePerm_ret (p : Partition) (writePerm : Bool) (volstat : VolumeLock) (ret : ℤ)
    (v : IndexVolume D) : (outWritePerm I p writePerm false volstat ret v).1 = ret := rfl

variable (I) in
/-- The three ways an attempt to write an index ends. -/
inductive Wrote (p : Partition) (reason : String) (type : IndexType) (v : IndexVolume D) :
    ℤ × IndexVolume D → Prop where
  /-- The append position is not found: nothing has changed. -/
  | notFound (r : ℤ × IndexVolume D) (hseek : SeekFails I p v.dev) (hindex : r.2.index = v.index)
    (hwritten : r.2.written = v.written) : Wrote p reason type v r
  /-- The write fails: nothing has changed for a full index. -/
  | failed (r : ℤ × IndexVolume D) (hseek : ¬ SeekFails I p v.dev)
    (hfail : ¬ Succeeds I p reason type v)
    (hindex : r.2.index = if type = .full then v.index
      else v.index.nextGeneration (I.currentTimespec v.dev))
    (hwritten : r.2.written = v.written) : Wrote p reason type v r
  | done (r : ℤ × IndexVolume D) (hsucc : Succeeds I p reason type v) (hret : 0 ≤ r.1)
    (hwritten : r.2.written = v.written ++ [r.2.index])
    (hclean : type = .full → r.2.index.isDirty = false) : Wrote p reason type v r

theorem indexWritten_written (p : Partition) (type : IndexType) (v : IndexVolume D) :
    (indexWritten I p type v).written = v.written ++ [(indexWritten I p type v).index] ∧
      (type = .full → (indexWritten I p type v).index.isDirty = false) := by
  unfold indexWritten
  split
  · constructor
    · cases p with
      | ip => rfl
      | dp => rfl
    · intro _
      dsimp only
      exact IndexHeader.isDirty_fullWritten _ _
  · rename_i htype
    exact ⟨rfl, fun h => absurd h htype⟩

theorem writeHere_wrote (p : Partition) (reason : String) (type : IndexType) (writePerm : Bool)
    (volstat : VolumeLock) (v : IndexVolume D) :
    Wrote I p reason type v (writeHere I p reason type writePerm volstat v) := by
  -- what the undoing leaves, with or without the new self pointer
  have hundo : ∀ pos : Position,
      ((v.index.nextGeneration (I.currentTimespec v.dev)).nextBackptr type).undo type
          v.index.isDirty v.index
        = (if type = .full then v.index else v.index.nextGeneration (I.currentTimespec v.dev)) ∧
      (((v.index.nextGeneration (I.currentTimespec v.dev)).nextBackptr type).nextSelfptr type
          pos).undo type v.index.isDirty v.index
        = (if type = .full then v.index else v.index.nextGeneration (I.currentTimespec v.dev)) := by
    intro pos
    by_cases htype : type = .full
    · rw [if_pos htype, htype]
      exact IndexHeader.undo_full _ _ pos
    · rw [if_neg htype]
      exact IndexHeader.undo_incremental _ htype _ pos
  unfold writeHere
  dsimp only
  by_cases hseek : (I.seekAppendPosition p (decide (p = .ip)) v.dev).1 < 0
  · rw [if_pos hseek]
    refine .notFound _ hseek ?_ ?_
    · rw [(outWritePerm_index ..).1]
      exact IndexHeader.undoGeneration_nextGeneration _ _
    · rw [(outWritePerm_index ..).2]
  · rw [if_neg hseek]
    cases hpos : I.getPosition (I.seekAppendPosition p (decide (p = .ip)) v.dev).2 with
    | error ret =>
      refine .failed _ hseek ?_ ?_ ?_
      · rintro ⟨-, pos, hok, -⟩
        rw [hpos] at hok
        cases hok
      · rw [(outWritePerm_index ..).1]
        exact (hundo ⟨p, 0⟩).1
      · rw [(outWritePerm_index ..).2]
    | ok pos =>
      dsimp only
      split
      · rename_i hret
        refine .failed _ hseek ?_ ?_ ?_
        · rintro ⟨-, pos', hok, hnonneg⟩
          rw [hpos] at hok
          cases hok
          exact absurd hret (not_lt.mpr hnonneg)
        · rw [(outWritePerm_index ..).1]
          exact (hundo pos).2
        · rw [(outWritePerm_index ..).2]
      · rename_i hret
        refine .done _ ⟨hseek, pos, hpos, not_lt.mp hret⟩ ?_ ?_ ?_
        · rw [outWritePerm_ret]
          omega
        · rw [(outWritePerm_index ..).1, (outWritePerm_index ..).2]
          exact (indexWritten_written p type _).1
        · rw [(outWritePerm_index ..).1]
          exact (indexWritten_written p type _).2

/-- With nothing written and only the counter changed, the counter decides. -/
theorem restored_counter {v v' : IndexVolume D} {n : ℕ} (hwritten : v'.written = v.written)
    (hindex : v'.index = { v.index with fullIndexToGo := n }) :
    Restored v v' ↔ n = v.index.fullIndexToGo := by
  unfold Restored lastWritten
  rw [if_pos hwritten, hindex]
  constructor
  · exact fun h => h.1.fullIndexToGo
  · intro h
    subst h
    exact ⟨IndexHeader.SameNumbers.refl _, id⟩

theorem restored_count {v v' : IndexVolume D} {type : IndexType} (hwritten : v'.written = v.written)
    (hindex : v'.index = v.index.count type) : Restored v v' ↔ v.index.KeepsCount type := by
  rw [IndexHeader.count_eq] at hindex
  exact restored_counter hwritten hindex

/-- After a write that succeeded inside the call the numbers are right, and the index is clean. -/
theorem restored_written {v v' : IndexVolume D} (hwritten : v'.written = v.written ++ [v'.index])
    (hclean : v'.index.isDirty = false) : Restored v v' ↔ v.index.isDirty = false := by
  have hne : v'.written ≠ v.written := by
    intro h
    rw [hwritten] at h
    simp at h
  have hlast : lastWritten v v' = v'.index := by
    unfold lastWritten
    rw [if_neg hne, hwritten, List.getLastD_concat]
  unfold Restored
  rw [hlast, hclean]
  constructor
  · intro h
    cases hdirty : v.index.isDirty with
    | false => rfl
    | true => exact absurd (h.2 hdirty) Bool.false_ne_true
  · intro h
    refine ⟨IndexHeader.SameNumbers.refl _, fun hdirty => ?_⟩
    rw [h] at hdirty
    exact absurd hdirty Bool.false_ne_true

/-- A failed attempt, the counter having been set for the type before it. -/
theorem writeHere_restored_iff {p : Partition} {reason : String} {type : IndexType}
    {writePerm : Bool} {volstat : VolumeLock} {v v₁ : IndexVolume D}
    (hindex : v₁.index = v.index.count type) (hwritten : v₁.written = v.written)
    (hfail : (writeHere I p reason type writePerm volstat v₁).1 < 0) :
    Restored v (writeHere I p reason type writePerm volstat v₁).2 ↔
      v.index.KeepsCount type ∧
        (type = .full ∨ v.index.isDirty = false ∨ SeekFails I p v₁.dev) := by
  cases writeHere_wrote (I := I) p reason type writePerm volstat v₁ with
  | notFound hseek hsame hnone =>
    rw [restored_count (hnone.trans hwritten) (hsame.trans hindex)]
    exact ⟨fun h => ⟨h, .inr (.inr hseek)⟩, fun h => h.1⟩
  | failed hseek hnot hsame hnone =>
    by_cases htype : type = .full
    · rw [if_pos htype] at hsame
      rw [restored_count (hnone.trans hwritten) (hsame.trans hindex)]
      exact ⟨fun h => ⟨h, .inl htype⟩, fun h => h.1⟩
    · rw [if_neg htype] at hsame
      have hdirty : v₁.index.isDirty = v.index.isDirty := by
        rw [hindex]
        exact IndexHeader.isDirty_count type v.index
      cases hclean : v.index.isDirty with
      | false =>
        rw [IndexHeader.nextGeneration_clean (hdirty.trans hclean)] at hsame
        rw [restored_count (hnone.trans hwritten) (hsame.trans hindex)]
        exact ⟨fun h => ⟨h, .inr (.inl rfl)⟩, fun h => h.1⟩
      | true =>
        -- the generation has been counted up and is not taken back
        constructor
        · intro h
          have hlast := h.1
          unfold lastWritten at hlast
          rw [if_pos (hnone.trans hwritten), hsame] at hlast
          refine absurd hlast (IndexHeader.not_sameNumbers_nextGeneration (hdirty.trans hclean) ?_)
          rw [hindex, IndexHeader.count_eq]
        · rintro ⟨-, hfull | hfalse | hseek'⟩
          · exact absurd hfull htype
          · exact absurd hfalse (by simp)
          · exact absurd hseek' hseek
  | done hsucc hret hlast hclean => exact absurd hfail (not_lt.mpr hret)

/-- A failed call leaves the index as the nested write has left it. -/
theorem afterDp_failed {p : Partition} {reason : String} {volstat : VolumeLock}
    {d : ℤ × IndexVolume D} (hfail : (afterDp I p reason volstat d).1 < 0) :
    (afterDp I p reason volstat d).2.index = d.2.index ∧
      (afterDp I p reason volstat d).2.written = d.2.written := by
  -- an attempt at a full index that fails undoes everything
  have hfull : ∀ {reason : String} {writePerm : Bool} {volstat : VolumeLock} {v : IndexVolume D},
      (writeHere I p reason .full writePerm volstat v).1 < 0 →
      (writeHere I p reason .full writePerm volstat v).2.index = v.index ∧
        (writeHere I p reason .full writePerm volstat v).2.written = v.written := by
    intro reason writePerm volstat v hneg
    cases writeHere_wrote (I := I) p reason .full writePerm volstat v with
    | notFound hseek hsame hnone => exact ⟨hsame, hnone⟩
    | failed hseek hnot hsame hnone =>
      rw [if_pos rfl] at hsame
      exact ⟨hsame, hnone⟩
    | done hsucc hret hlast hclean => exact absurd hneg (not_lt.mpr hret)
  unfold afterDp at hfail ⊢
  split
  · exact ⟨rfl, rfl⟩
  · rename_i hreval
    rw [if_neg hreval] at hfail
    split
    · exact ⟨rfl, rfl⟩
    · rename_i hmove
      rw [if_neg hmove] at hfail
      split
      · rename_i hperm
        rw [if_pos hperm] at hfail
        split
        · exact ⟨rfl, rfl⟩
        · rename_i volstat' dev hlock
          rw [hlock] at hfail
          exact hfull hfail
      · rename_i hperm
        rw [if_neg hperm] at hfail
        exact hfull hfail

/-- The index after the nested write to the data partition. -/
theorem writeDp_full {reason : String} {v : IndexVolume D} {volstat : VolumeLock} {dev : D}
    (hlock : I.getCartVolumeLockStatus v.dev = (.ok volstat, dev)) (hreason : reason ≠ syncWritePerm) :
    let lands := ¬ refusal I dev < 0 ∧
      Succeeds I .dp reason .full { v with dev := dev, index := v.index.count .full }
    let d := writeDp I reason .full v
    (lands → d.2.written = v.written ++ [d.2.index] ∧ d.2.index.isDirty = false) ∧
      (¬ lands → d.2.index = v.index.count .full ∧ d.2.written = v.written) := by
  have hresolve : v.index.resolve .full = .full := rfl
  have hdp : ¬ (Partition.dp = Partition.ip ∧ needsDpIndex
      { v with dev := dev, index := v.index.count .full } = true) := fun h => Partition.noConfusion h.1
  intro lands d
  have heq : d = if refusal I dev < 0 then
      (refusal I dev, { v with dev := dev, index := v.index.count .full })
    else writeHere I .dp reason .full false volstat
      { v with dev := dev, index := v.index.count .full } := by
    show writeIndexOn I _ .dp reason .full v = _
    unfold writeIndexOn
    rw [hlock]
    dsimp only
    rw [hresolve, if_neg hreason, if_neg hdp]
  by_cases hrefused : refusal I dev < 0
  · rw [if_pos hrefused] at heq
    rw [heq]
    exact ⟨fun h => absurd hrefused h.1, fun _ => ⟨rfl, rfl⟩⟩
  · rw [if_neg hrefused] at heq
    rw [heq]
    cases writeHere_wrote (I := I) .dp reason .full false volstat
        { v with dev := dev, index := v.index.count .full } with
    | notFound hseek hsame hnone =>
      exact ⟨fun h => absurd hseek h.2.1, fun _ => ⟨hsame, hnone⟩⟩
    | failed hseek hnot hsame hnone =>
      rw [if_pos rfl] at hsame
      exact ⟨fun h => absurd h.2 hnot, fun _ => ⟨hsame, hnone⟩⟩
    | done hsucc hret hlast hclean =>
      exact ⟨fun _ => ⟨hlast, hclean rfl⟩, fun h => absurd ⟨hrefused, hsucc⟩ h⟩

/-- `writeIndexOn` for either partition restores the index of a failed call in exactly the
states of `Restores`. -/
theorem writeIndexOn_restored_iff {p : Partition} {reason : String} {type : IndexType}
    {nested : IndexVolume D → ℤ × IndexVolume D} {v : IndexVolume D}
    (hnested : p = .ip → nested = writeDp I reason .full)
    (hfail : (writeIndexOn I nested p reason type v).1 < 0) :
    Restored v (writeIndexOn I nested p reason type v).2 ↔ Restores I p reason type v := by
  unfold writeIndexOn at hfail ⊢
  unfold Restores
  rcases hlock : I.getCartVolumeLockStatus v.dev with ⟨_ | volstat, dev⟩
  · -- nothing has been touched
    have hsame : v.index = v.index.count .auto := rfl
    exact iff_of_true ((restored_count rfl hsame).mpr rfl) trivial
  · rw [hlock] at hfail
    dsimp only at hfail ⊢
    have hneeds : ∀ n, needsDpIndex { v with dev := dev, index := v.index.count n } = needsDpIndex v := by
      intro n
      unfold needsDpIndex
      rw [IndexHeader.count_eq]
    by_cases hreason : reason = syncWritePerm
    · rw [if_pos hreason] at hfail
      rw [if_pos hreason, if_pos hreason]
      exact writeHere_restored_iff rfl rfl hfail
    · rw [if_neg hreason] at hfail
      rw [if_neg hreason, if_neg hreason]
      by_cases hrefused : refusal I dev < 0
      · rw [if_pos hrefused, if_pos hrefused]
        exact restored_count rfl rfl
      · rw [if_neg hrefused, hneeds] at hfail
        rw [if_neg hrefused, if_neg hrefused, hneeds]
        by_cases hdp : p = .ip ∧ needsDpIndex v = true
        · rw [if_pos hdp] at hfail
          rw [if_pos hdp, if_pos hdp]
          rw [hnested hdp.1] at hfail ⊢
          -- the attempt on this partition adds nothing: the nested write decides
          obtain ⟨hindex, hwritten⟩ := afterDp_failed hfail
          rcases hlock' : I.getCartVolumeLockStatus (I.incjClear dev) with ⟨ret | volstat', dev'⟩
          · have hkept : (writeDp I reason .full
                { v with dev := I.incjClear dev, index := v.index.count (v.index.resolve type) }).2
                = { v with dev := dev', index := v.index.count (v.index.resolve type) } := by
              unfold writeDp writeIndexOn
              rw [hlock']
            rw [hkept] at hindex hwritten
            exact restored_count hwritten hindex
          · dsimp only
            have hnestedWrite := @writeDp_full D I reason
              { v with dev := I.incjClear dev, index := v.index.count (v.index.resolve type) }
              volstat' dev' hlock' hreason
            dsimp only at hnestedWrite
            by_cases hlands : ¬ refusal I dev' < 0 ∧ Succeeds I .dp reason .full
                { v with
                  dev := dev'
                  index := (v.index.count (v.index.resolve type)).count .full }
            · obtain ⟨hlast, hclean⟩ := hnestedWrite.1 hlands
              rw [restored_written (by rw [hwritten, hindex]; exact hlast) (by rw [hindex]; exact hclean)]
              exact ⟨fun h => ⟨fun _ => h, fun hnot => absurd hlands hnot⟩, fun h => h.1 hlands⟩
            · obtain ⟨hsame, hnone⟩ := hnestedWrite.2 hlands
              have htwice : (afterDp I p reason volstat (writeDp I reason .full
                  { v with
                    dev := I.incjClear dev
                    index := v.index.count (v.index.resolve type) })).2.index
                  = { v.index with
                      fullIndexToGo :=
                        ((v.index.count (v.index.resolve type)).count .full).fullIndexToGo } := by
                rw [hindex, hsame, IndexHeader.count_eq .full]
                rw [IndexHeader.count_eq (v.index.resolve type) v.index]
              rw [restored_counter (hwritten.trans hnone) htwice]
              exact ⟨fun h => ⟨fun hyes => absurd hyes hlands, fun _ => h⟩, fun h => h.2 hlands⟩
        · rw [if_neg hdp] at hfail
          rw [if_neg hdp, if_neg hdp]
          exact writeHere_restored_iff rfl rfl hfail

/-- A failed `ltfs_write_index`, whatever failed, leaves the numbers of the last index that was
written, and the index dirty, in exactly the states of `Restores`. -/
theorem write_index_restored_iff {D : Type} (I : IndexDevice D) (p : Partition) (reason : String)
    (type : IndexType) (v : IndexVolume D) (hfail : (ltfsWriteIndex I p reason type v).1 < 0) :
    Restored v (ltfsWriteIndex I p reason type v).2 ↔ Restores I p reason type v := by
  cases p with
  | ip => exact writeIndexOn_restored_iff (fun _ => rfl) hfail
  | dp => exact writeIndexOn_restored_iff (fun h => Partition.noConfusion h) hfail

end Failure

/-- A drive that finds the append position of the data partition behind block 6, and fails to
write a file mark there. -/
def noFilemark : IndexDevice Unit where
  getCartVolumeLockStatus _ := (.ok .unlocked, ())
  setCartVolumeLockStatus _ _ := (0, ())
  partitionReadonly _ _ := 0
  setWriteError _ _ := ()
  clearAppendPos _ _ := ()
  seekAppendPosition _ _ _ := (0, ())
  getPosition _ := .ok ⟨.dp, 7⟩
  writeFilemark _ _ := (-edevWritePerm, ())
  xmlSchemaToTape _ _ _ := (0, ())
  updateCartCoherency _ := ()
  setIpAppendPosition _ _ := ()
  incjClear _ := ()
  setCommitMessageReason _ _ := ()
  currentTimespec _ := ⟨200, 0⟩
  ltfsIndexVersion := 20400

/-- A mounted volume with changes, its last index at block 5 of the data partition. -/
def changedVolume : IndexVolume Unit where
  dev := ()
  index :=
    { generation := 3, modTime := ⟨100, 0⟩, selfptr := ⟨some .dp, 5⟩, backptr := ⟨none, 0⟩,
      selfptrInc := ⟨none, 0⟩, backptrInc := ⟨none, 0⟩, fullIndexInterval := 0,
      fullIndexToGo := 0, dirty := true, useAtime := false, atimeDirty := false, version := 20400 }
  ipIndexFileEnd := true
  dpIndexFileEnd := false
  reval := 0
  written := []

theorem restored_full_index :
    Restored changedVolume (ltfsWriteIndex noFilemark .dp "" .full changedVolume).2 :=
  (write_index_restored_iff noFilemark .dp "" .full changedVolume (by decide)).mpr
    ⟨rfl, .inl rfl⟩

/-- The incremental index gets generation 4 and is not written, and 4 it stays. -/
theorem incremental_index_not_restored :
    (ltfsWriteIndex noFilemark .dp "" .incremental changedVolume).1 = -edevWritePerm ∧
      (ltfsWriteIndex noFilemark .dp "" .incremental changedVolume).2.index.generation = 4 ∧
      (ltfsWriteIndex noFilemark .dp "" .incremental changedVolume).2.written = [] ∧
      ¬ Restored changedVolume (ltfsWriteIndex noFilemark .dp "" .incremental changedVolume).2 := by
  refine ⟨by decide, by decide, by decide, fun h => ?_⟩
  have hgen := h.1.generation
  revert hgen
  decide

end Ltfs.IndexWrite
