import Ltfs.TapeSpec

/-!
# What index and data writes can do

`writeIndexHere_result` and `writeDataHere_result` list the outcomes of writing an
index and of writing data, whatever the drive answers. `writeIndex_rule` reduces
`ltfs_write_index` with its nested write to these: a property that survives quiet
steps, the reset of the append position and `writeIndexHere` survives
`writeIndex`.
-/

namespace Ltfs

section Volume

variable {T : Type}

/-! ## Quiet steps -/

/-- Nothing has changed on the tape. -/
structure SameTape (dev dev' : Device T) : Prop where
  medium : dev'.medium = dev.medium
  appendPos : dev'.appendPos = dev.appendPos
  position : dev'.position = dev.position
  isWorm : dev'.isWorm = dev.isWorm
  answers : dev'.answers = dev.answers
  clock : dev.clock ≤ dev'.clock
  writeProtected : dev'.writeProtected = dev.writeProtected
  maxBlockSize : dev'.maxBlockSize = dev.maxBlockSize

/-- The index in memory and what the volume knows about the tape are the same. -/
structure SameIndex (v v' : Volume T) : Prop where
  index : v'.index = v.index
  dirty : v'.dirty = v.dirty
  endsInIndex : v'.endsInIndex = v.endsInIndex
  written : v'.written = v.written
  moreBlocks : v'.moreBlocks = v.moreBlocks
  blocksize : v'.blocksize = v.blocksize

/-- Nothing has changed but flags, cartridge memory and clock. -/
structure Quiet (v v' : Volume T) : Prop extends SameIndex v v' where
  tape : SameTape v.dev v'.dev

theorem SameTape.refl (dev : Device T) : SameTape dev dev :=
  ⟨rfl, rfl, rfl, rfl, rfl, le_refl _, rfl, rfl⟩

theorem SameTape.trans {dev₁ dev₂ dev₃ : Device T} (h : SameTape dev₁ dev₂)
    (h' : SameTape dev₂ dev₃) : SameTape dev₁ dev₃ :=
  ⟨h'.medium.trans h.medium, h'.appendPos.trans h.appendPos, h'.position.trans h.position,
    h'.isWorm.trans h.isWorm, h'.answers.trans h.answers, h.clock.trans h'.clock,
    h'.writeProtected.trans h.writeProtected, h'.maxBlockSize.trans h.maxBlockSize⟩

theorem SameIndex.refl (v : Volume T) : SameIndex v v := ⟨rfl, rfl, rfl, rfl, rfl, rfl⟩

theorem SameIndex.trans {v₁ v₂ v₃ : Volume T} (h : SameIndex v₁ v₂) (h' : SameIndex v₂ v₃) :
    SameIndex v₁ v₃ :=
  ⟨h'.index.trans h.index, h'.dirty.trans h.dirty, h'.endsInIndex.trans h.endsInIndex,
    h'.written.trans h.written, h'.moreBlocks.trans h.moreBlocks, h'.blocksize.trans h.blocksize⟩

theorem Quiet.refl (v : Volume T) : Quiet v v := ⟨SameIndex.refl v, SameTape.refl v.dev⟩

theorem Quiet.trans {v₁ v₂ v₃ : Volume T} (h : Quiet v₁ v₂) (h' : Quiet v₂ v₃) : Quiet v₁ v₃ :=
  ⟨h.toSameIndex.trans h'.toSameIndex, h.tape.trans h'.tape⟩

theorem SameTape.eod {dev dev' : Device T} (h : SameTape dev dev') (p : Partition) :
    dev'.eod p = dev.eod p := by
  unfold Device.eod
  rw [h.medium]

theorem SameTape.appendBlock {dev dev' : Device T} (h : SameTape dev dev') (p : Partition) :
    dev'.appendBlock p = dev.appendBlock p := by
  unfold Device.appendBlock
  rw [h.appendPos, h.eod]

theorem SameTape.posOk {dev dev' : Device T} (h : SameTape dev dev') (hok : dev.PosOk) :
    dev'.PosOk := by
  unfold Device.PosOk at hok ⊢
  rw [h.position, h.eod]
  exact hok

theorem SameTape.ok {dev dev' : Device T} (h : SameTape dev dev') (hok : dev.Ok) : dev'.Ok := by
  constructor
  · exact h.posOk hok.posOk
  · intro p
    rw [h.appendPos, h.eod]
    exact hok.appendPos_le p

theorem tick_same (dev : Device T) : SameTape dev dev.tick :=
  ⟨rfl, rfl, rfl, rfl, rfl, Nat.le_succ _, rfl, rfl⟩

/-- A quiet step of the device. -/
theorem SameTape.quiet {v : Volume T} {dev : Device T} (h : SameTape v.dev dev) :
    Quiet v { v with dev := dev } :=
  ⟨⟨rfl, rfl, rfl, rfl, rfl, rfl⟩, h⟩

@[simp] theorem getCartVolumeLockStatus_dev (dev : Device T) :
    (getCartVolumeLockStatus dev).2 = dev.tick := by
  unfold getCartVolumeLockStatus
  cases dev.answer with
  | ok early programmable => rfl
  | error code junk =>
    dsimp only
    split
    · rfl
    · rfl

theorem getCartVolumeLockStatus_error {dev dev' : Device T} {ret : ℤ}
    (h : getCartVolumeLockStatus dev = (.error ret, dev')) : ret < 0 := by
  unfold getCartVolumeLockStatus at h
  cases hans : dev.answer with
  | ok early programmable =>
    rw [hans] at h
    cases h
  | error code junk =>
    rw [hans] at h
    dsimp only at h
    split at h
    · cases h
    · cases h
      exact code.2

theorem setCartVolumeLockStatus_quiet (status : VolumeLock) (v : Volume T) :
    Quiet v (setCartVolumeLockStatus status v).2 := by
  have htick : Quiet v { v with dev := v.dev.tick } := (tick_same v.dev).quiet
  unfold setCartVolumeLockStatus
  dsimp only
  rw [getCartVolumeLockStatus_dev]
  split
  · exact htick
  · split
    · exact htick
    · cases v.dev.tick.answer with
      | error code junk => exact htick.trans (tick_same v.dev.tick).quiet
      | ok early programmable =>
        exact ⟨⟨rfl, rfl, rfl, rfl, rfl, rfl⟩, (tick_same v.dev).trans
          ⟨rfl, rfl, rfl, rfl, rfl, Nat.le_succ _, rfl, rfl⟩⟩

theorem ltfsUnexpectedValue_le : -ltfsUnexpectedValue ≤ 0 := by decide

theorem setCartVolumeLockStatus_le (status : VolumeLock) (v : Volume T) :
    (setCartVolumeLockStatus status v).1 ≤ 0 := by
  unfold setCartVolumeLockStatus
  dsimp only
  split
  · exact le_refl 0
  · split
    · exact ltfsUnexpectedValue_le
    · split
      · rename_i code _ _
        exact code.2.le
      · exact le_refl 0

theorem outWritePerm_quiet (p : Partition) (writePerm updateVollock : Bool) (volstat : VolumeLock)
    (ret : ℤ) (v : Volume T) : Quiet v (outWritePerm p writePerm updateVollock volstat ret v).2 := by
  have herr : Quiet v (if writePerm then { v with dev := { v.dev with writeError := true } } else v) := by
    split
    · exact SameTape.quiet ⟨rfl, rfl, rfl, rfl, rfl, le_refl _, rfl, rfl⟩
    · exact Quiet.refl v
  unfold outWritePerm
  dsimp only
  generalize (if updateVollock then newVolumeLock volstat p else none) = status
  cases status with
  | none => exact herr
  | some status => exact herr.trans (setCartVolumeLockStatus_quiet status _)

theorem outWritePerm_neg (p : Partition) (writePerm updateVollock : Bool) (volstat : VolumeLock)
    {ret : ℤ} (hret : ret < 0) (v : Volume T) :
    (outWritePerm p writePerm updateVollock volstat ret v).1 < 0 := by
  unfold outWritePerm
  dsimp only
  generalize (if updateVollock then newVolumeLock volstat p else none) = status
  cases status with
  | none => exact hret
  | some status =>
    dsimp only
    generalize (if writePerm = true then { v with dev := { v.dev with writeError := true } } else v) = v'
    have hle := setCartVolumeLockStatus_le status v'
    split
    · omega
    · exact hret

theorem outWritePerm_false (p : Partition) (writePerm : Bool) (volstat : VolumeLock)
    (ret : ℤ) (v : Volume T) : (outWritePerm p writePerm false volstat ret v).1 = ret := rfl

theorem updateCoherencyOf_quiet (p : Partition) (vcr : ℕ) (v : Volume T) :
    Quiet v (updateCoherencyOf p vcr v) := by
  unfold updateCoherencyOf
  dsimp only
  split
  · exact Quiet.refl v
  · refine ⟨⟨rfl, rfl, rfl, rfl, rfl, rfl⟩, ?_⟩
    cases v.dev.answer with
    | ok early programmable => exact ⟨rfl, rfl, rfl, rfl, rfl, Nat.le_succ _, rfl, rfl⟩
    | error code junk => exact tick_same v.dev

theorem updateCartCoherency_quiet (v : Volume T) : Quiet v (updateCartCoherency v) := by
  have htick : Quiet v { v with dev := v.dev.tick } := (tick_same v.dev).quiet
  unfold updateCartCoherency
  dsimp only
  split
  · exact htick
  · exact (htick.trans (updateCoherencyOf_quiet .ip _ _)).trans (updateCoherencyOf_quiet .dp _ _)

theorem needReval_neg {ret : ℤ} (h : needReval ret = true) : ret < 0 := by
  unfold needReval at h
  simp only [Bool.or_eq_true, beq_iff_eq] at h
  rcases h with ((((rfl | rfl) | rfl) | rfl) | rfl) | rfl
  all_goals decide

theorem isUnexpectedMove_neg {ret : ℤ} (h : isUnexpectedMove ret = true) : ret < 0 := by
  unfold isUnexpectedMove at h
  rw [eq_of_beq h]
  decide

/-! ## Writing an index -/

/-- What a write to `p` leaves alone. -/
structure Beside (p : Partition) (dev dev' : Device T) : Prop where
  medium : ∀ q, q ≠ p → dev'.medium q = dev.medium q
  appendPos : ∀ q, q ≠ p → dev'.appendPos q = dev.appendPos q
  isWorm : dev'.isWorm = dev.isWorm
  answers : dev'.answers = dev.answers
  clock : dev.clock ≤ dev'.clock
  writeProtected : dev'.writeProtected = dev.writeProtected
  maxBlockSize : dev'.maxBlockSize = dev.maxBlockSize

theorem Frame.beside {p : Partition} {dev dev' : Device T} (h : Frame p dev dev') :
    Beside p dev dev' :=
  ⟨h.medium, h.appendPos, h.isWorm, h.answers, h.clock, h.writeProtected, h.maxBlockSize⟩

theorem SameTape.beside {dev dev' : Device T} (h : SameTape dev dev') (p : Partition) :
    Beside p dev dev' :=
  ⟨fun _ _ => by rw [h.medium], fun _ _ => by rw [h.appendPos], h.isWorm, h.answers, h.clock,
    h.writeProtected, h.maxBlockSize⟩

theorem Beside.trans {p : Partition} {dev₁ dev₂ dev₃ : Device T} (h : Beside p dev₁ dev₂)
    (h' : Beside p dev₂ dev₃) : Beside p dev₁ dev₃ :=
  ⟨fun q hq => (h'.medium q hq).trans (h.medium q hq),
    fun q hq => (h'.appendPos q hq).trans (h.appendPos q hq), h'.isWorm.trans h.isWorm,
    h'.answers.trans h.answers, h.clock.trans h'.clock,
    h'.writeProtected.trans h.writeProtected, h'.maxBlockSize.trans h.maxBlockSize⟩

theorem Beside.eod {p q : Partition} {dev dev' : Device T} (h : Beside p dev dev') (hq : q ≠ p) :
    dev'.eod q = dev.eod q := by
  unfold Device.eod
  rw [h.medium q hq]

theorem Beside.appendBlock {p q : Partition} {dev dev' : Device T} (h : Beside p dev dev')
    (hq : q ≠ p) : dev'.appendBlock q = dev.appendBlock q := by
  unfold Device.appendBlock
  rw [h.appendPos q hq, h.eod hq]

/-- Generation of the next index. -/
def Volume.nextGeneration (v : Volume T) : ℕ :=
  if v.dirty then incGeneration v.index.generation else v.index.generation

/-- Back pointer of the next index. -/
def Volume.nextBackptr (v : Volume T) : TapeOffset :=
  if v.index.selfptr.partition = some .dp then v.index.selfptr else v.index.backptr

/-- The index to be written next to `p`. -/
def Volume.newIndex (v : Volume T) (p : Partition) : Index T :=
  { v.index with
    generation := v.nextGeneration
    backptr := v.nextBackptr
    selfptr := ⟨some p, v.dev.appendBlock p + 1⟩ }

/-- What the next index looks like on tape. -/
def Volume.newImage (v : Volume T) (p : Partition) : List (Record T) :=
  indexImage (v.blocksOf (v.newIndex p)) (v.newIndex p)

/-- The append position after the next index: the index partition's is overwritten
by the one after it. -/
def Volume.appendAfterIndex (v : Volume T) : Partition → ℕ
  | .dp => v.dev.appendBlock .dp + (v.newImage .dp).length
  | .ip => if v.dev.isWorm then 0 else v.dev.appendBlock .ip

/-- An index write that failed, anywhere. -/
structure IndexFailed (p : Partition) (v v' : Volume T) : Prop extends SameIndex v v' where
  beside : Beside p v.dev v'.dev
  tape : Partly p (v.dev.appendBlock p) (v.dev.medium p) (v.newImage p) v'.dev

/-- An index write that succeeded. -/
structure IndexDone (p : Partition) (v v' : Volume T) : Prop where
  index : v'.index = v.newIndex p
  dirty : v'.dirty = false
  endsInIndex : v'.endsInIndex = Function.update v.endsInIndex p true
  written : v'.written = v.written ++ [v.newIndex p]
  moreBlocks : v'.moreBlocks = v.moreBlocks
  blocksize : v'.blocksize = v.blocksize
  beside : Beside p v.dev v'.dev
  medium : v'.dev.medium p = (v.dev.medium p).take (v.dev.appendBlock p) ++ v.newImage p
  appendPos : v'.dev.appendPos p = v.appendAfterIndex p
  posOk : v'.dev.PosOk
  start_le : v.dev.appendBlock p ≤ v.dev.eod p

theorem setEndsInIndex_endsInIndex (v : Volume T) (p : Partition) (b : Bool) :
    (v.setEndsInIndex p b).endsInIndex = Function.update v.endsInIndex p b := by
  funext q
  cases p <;> cases q <;> rfl

theorem setEndsInIndex_dev (v : Volume T) (p : Partition) (b : Bool) :
    (v.setEndsInIndex p b).dev = v.dev := by
  cases p <;> rfl

/-- Seeking the append position without writing. -/
theorem SeekSpec.partly {p : Partition} {dev : Device T} {r : ℤ × Device T} (h : SeekSpec p dev r)
    (hle : dev.appendPos p ≤ dev.eod p) (all : List (Record T)) :
    Partly p (dev.appendBlock p) (dev.medium p) all r.2 := by
  have heod : r.2.eod p = dev.eod p := by
    unfold Device.eod
    rw [h.medium]
  have hblock : r.2.appendBlock p = dev.appendBlock p := by
    unfold Device.appendBlock
    rw [heod]
    rcases h.appendPos with ha | ha
    · rw [ha]
    · rw [ha]
      unfold Device.appendBlock
      split
      · split
        · rfl
        · rfl
      · rfl
  constructor
  · exact Or.inl (by rw [h.medium])
  · rw [hblock]
  · exact h.posOk
  · rw [heod]
    rcases h.appendPos with ha | ha
    · rw [ha]
      exact hle
    · rw [ha]
      exact appendBlock_le_eod hle

/-- The end of a successful index write: nothing of importance happens after the
closing file mark, except for the append position of the index partition. -/
theorem indexDone (p : Partition) (writePerm : Bool) (volstat : VolumeLock) (ret : ℤ)
    {v : Volume T} {dev : Device T}
    (hall : Writing p (v.dev.appendBlock p) (v.dev.medium p) (v.newImage p) dev)
    (hbeside : Beside p v.dev dev) :
    IndexDone p v (outWritePerm p writePerm false volstat ret
      (indexWritten p (v.newIndex p) { v with dev := dev })).2 := by
  unfold indexWritten
  dsimp only
  set v₀ := Volume.setEndsInIndex { v with
    dev := dev, index := v.newIndex p, dirty := false
    written := v.written ++ [v.newIndex p] } p true with hv₀
  have hdev₀ : v₀.dev = dev := setEndsInIndex_dev _ p true
  have hq := updateCartCoherency_quiet v₀
  set v₁ := updateCartCoherency v₀
  have hmedium : v₁.dev.medium p = (v.dev.medium p).take (v.dev.appendBlock p) ++ v.newImage p := by
    rw [hq.tape.medium, hdev₀, hall.medium, if_neg]
    exact List.cons_ne_nil _ _
  have hlen : v.dev.appendBlock p + (v.newImage p).length ≤ v₁.dev.eod p := by
    unfold Device.eod
    rw [hq.tape.medium, hdev₀]
    exact hall.length
  -- the common part of both partitions
  have hcommon : ∀ v₂ : Volume T, SameIndex v₁ v₂ → v₂.dev.medium = v₁.dev.medium →
      v₂.dev.position = v₁.dev.position → Beside p v₁.dev v₂.dev →
      v₂.dev.appendPos p = v.appendAfterIndex p → IndexDone p v v₂ := by
    intro v₂ hsame hm hp hb ha
    have hindex := hq.toSameIndex.trans hsame
    refine ⟨?_, ?_, ?_, ?_, ?_, ?_, ?_, ?_, ha, ?_, hall.start_le⟩
    · rw [hindex.index, hv₀]
      cases p <;> rfl
    · rw [hindex.dirty, hv₀]
      cases p <;> rfl
    · rw [hindex.endsInIndex, hv₀, setEndsInIndex_endsInIndex]
      rfl
    · rw [hindex.written, hv₀]
      cases p <;> rfl
    · rw [hindex.moreBlocks, hv₀]
      cases p <;> rfl
    · rw [hindex.blocksize, hv₀]
      cases p <;> rfl
    · have := hq.tape.beside p
      rw [hdev₀] at this
      exact (hbeside.trans this).trans hb
    · rw [hm]
      exact hmedium
    · unfold Device.PosOk Device.eod
      rw [hp, hm, hq.tape.position, hdev₀, hall.position]
      exact hlen
  have hout := fun v₂ : Volume T => outWritePerm_quiet p writePerm false volstat ret v₂
  cases p with
  | dp =>
    rw [if_neg (by decide)]
    have hv := hout v₁
    refine hcommon _ hv.toSameIndex hv.tape.medium hv.tape.position (hv.tape.beside _) ?_
    rw [hv.tape.appendPos, hq.tape.appendPos, hdev₀]
    exact hall.appendPos
  | ip =>
    rw [if_pos rfl]
    set v₂ : Volume T :=
      { v₁ with dev := setIpAppendPosition ((v.newIndex .ip).selfptr.block - 1) v₁.dev }
    have hv := hout v₂
    have hstep : Beside .ip v₁.dev v₂.dev :=
      ⟨fun _ _ => rfl, fun q hqne => setAppendPos_ne _ _ hqne, rfl, rfl, le_refl _, rfl, rfl⟩
    have hsame : SameIndex v₁ v₂ := ⟨rfl, rfl, rfl, rfl, rfl, rfl⟩
    refine hcommon _ (hsame.trans hv.toSameIndex) hv.tape.medium hv.tape.position
      (hstep.trans (hv.tape.beside _)) ?_
    have hworm : v₁.dev.isWorm = v.dev.isWorm := by
      rw [hq.tape.isWorm, hdev₀, hbeside.isWorm]
    rw [hv.tape.appendPos]
    show (v₁.dev.setAppendPos .ip _).appendPos .ip = _
    rw [setAppendPos_self, hworm]
    rfl

theorem writeIndexHere_outcome (p : Partition) (writePerm : Bool) (volstat : VolumeLock)
    {v : Volume T} (hpos : v.dev.PosOk) (hle : v.dev.appendPos p ≤ v.dev.eod p) :
    ((writeIndexHere p writePerm volstat v).1 < 0 ∧
      IndexFailed p v (writeIndexHere p writePerm volstat v).2) ∨
    ((writeIndexHere p writePerm volstat v).1 = 0 ∧
      IndexDone p v (writeIndexHere p writePerm volstat v).2) := by
  have hseek := seekAppendPosition_spec p (decide (p = .ip)) hpos
  unfold writeIndexHere
  dsimp only
  generalize seekAppendPosition p (decide (p = .ip)) v.dev = s at hseek ⊢
  by_cases hsneg : s.1 < 0
  · -- not positioned
    rw [if_pos hsneg]
    refine Or.inl ⟨outWritePerm_neg _ _ _ _ hsneg _, ?_⟩
    have hq := outWritePerm_quiet p writePerm false volstat s.1 { v with dev := s.2 }
    exact ⟨(SameIndex.mk rfl rfl rfl rfl rfl rfl : SameIndex v { v with dev := s.2 }).trans
        hq.toSameIndex, hseek.frame.beside.trans (hq.tape.beside p),
      (hseek.partly hle _).congr hq.tape.medium hq.tape.appendPos hq.tape.position⟩
  · rw [if_neg hsneg]
    have hszero : s.1 = 0 := le_antisymm hseek.ret_le (not_lt.mp hsneg)
    have hwriting := hseek.found hszero
    have hposition : s.2.position = ⟨p, v.dev.appendBlock p⟩ := hwriting.position
    have hindex : v.indexFor s.2.position = v.newIndex p := by
      rw [hposition]
      rfl
    rw [hindex]
    have hwrote := writeIndexRecords_wrote hwriting (decide (p = .ip) && ! v.ipIndexFileEnd)
      v.blocksize (v.blocksOf (v.newIndex p)) (v.newIndex p)
    generalize writeIndexRecords (decide (p = .ip) && ! v.ipIndexFileEnd) v.blocksize
      (v.blocksOf (v.newIndex p)) (v.newIndex p) s.2 = w at hwrote ⊢
    have hbeside := hseek.frame.beside.trans hwrote.frame.beside
    by_cases hwneg : w.1 < 0
    · -- a part of the index may be on tape
      rw [if_pos hwneg]
      refine Or.inl ⟨outWritePerm_neg _ _ _ _ hwneg _, ?_⟩
      have hq := outWritePerm_quiet p writePerm (isWritePerm (-w.1)) volstat w.1
        { v with dev := w.2 }
      exact ⟨(SameIndex.mk rfl rfl rfl rfl rfl rfl : SameIndex v { v with dev := w.2 }).trans
          hq.toSameIndex, hbeside.trans (hq.tape.beside p),
        hwrote.partly.congr hq.tape.medium hq.tape.appendPos hq.tape.position⟩
    · rw [if_neg hwneg]
      have hwzero : w.1 = 0 := le_antisymm hwrote.ret_le (not_lt.mp hwneg)
      have hall := hwrote.all hwzero
      rw [List.nil_append] at hall
      exact Or.inr ⟨hwzero, indexDone p writePerm volstat w.1 hall hbeside⟩

theorem writeIndexHere_result (p : Partition) (writePerm : Bool) (volstat : VolumeLock)
    {v : Volume T} (hok : v.dev.Ok) :
    ((writeIndexHere p writePerm volstat v).1 < 0 ∧
      IndexFailed p v (writeIndexHere p writePerm volstat v).2) ∨
    ((writeIndexHere p writePerm volstat v).1 = 0 ∧
      IndexDone p v (writeIndexHere p writePerm volstat v).2) :=
  writeIndexHere_outcome p writePerm volstat hok.posOk (hok.appendPos_le p)

/-! ## A failed index write that allows others -/

theorem needReval_not_writePerm {ret : ℤ} (h : needReval ret = true) : isWritePerm (-ret) = false := by
  unfold needReval at h
  simp only [Bool.or_eq_true, beq_iff_eq] at h
  rcases h with ((((rfl | rfl) | rfl) | rfl) | rfl) | rfl
  all_goals decide

theorem setCartVolumeLockStatus_writeError (status : VolumeLock) (v : Volume T) :
    (setCartVolumeLockStatus status v).2.dev.writeError = v.dev.writeError := by
  unfold setCartVolumeLockStatus
  dsimp only
  rw [getCartVolumeLockStatus_dev]
  split
  · rfl
  · split
    · rfl
    · split
      · rfl
      · rfl

theorem outWritePerm_writeError (p : Partition) (writePerm updateVollock : Bool)
    (volstat : VolumeLock) (ret : ℤ) (v : Volume T) :
    (outWritePerm p writePerm updateVollock volstat ret v).2.dev.writeError
      = (writePerm || v.dev.writeError) := by
  have hset : (if writePerm = true then { v with dev := { v.dev with writeError := true } }
      else v).dev.writeError = (writePerm || v.dev.writeError) := by
    cases writePerm
    · rfl
    · rfl
  unfold outWritePerm
  dsimp only
  generalize (if updateVollock then newVolumeLock volstat p else none) = status
  cases status with
  | none => exact hset
  | some status => exact (setCartVolumeLockStatus_writeError status _).trans hset

/-- The index of the data partition is not on tape as a whole. Either the drive has to be looked at
again, or no more writes are allowed, or there is a beginning of it. -/
theorem writeIndexHere_halted {v : Volume T} (hok : v.dev.Ok) (volstat : VolumeLock)
    (hneg : (writeIndexHere .dp false volstat v).1 < 0) :
    needReval (writeIndexHere .dp false volstat v).1 = true ∨
    (writeIndexHere .dp false volstat v).2.dev.writeError = true ∨
    ∃ n, (writeIndexHere .dp false volstat v).2.dev.medium .dp
      = if (v.newImage .dp).take n = [] then v.dev.medium .dp
        else (v.dev.medium .dp).take (v.dev.appendBlock .dp) ++ (v.newImage .dp).take n := by
  have hseek := seekAppendPosition_spec .dp (decide (Partition.dp = .ip)) hok.posOk
  have hseekErr : (seekAppendPosition .dp (decide (Partition.dp = .ip)) v.dev).1 < 0 →
      (seekAppendPosition .dp (decide (Partition.dp = .ip)) v.dev).2.writeError = true := by
    unfold seekAppendPosition
    dsimp only
    generalize tapeSeek .dp (if v.dev.appendPos .dp = 0 then none else some (v.dev.appendPos .dp))
      v.dev = r
    intro h
    by_cases hr : r.1 < 0
    · rw [if_pos hr]
    · rw [if_neg hr, if_neg (by simp)] at h
      exact absurd h hr
  unfold writeIndexHere at hneg ⊢
  dsimp only at hneg ⊢
  generalize seekAppendPosition .dp (decide (Partition.dp = .ip)) v.dev = s at hneg hseek hseekErr ⊢
  by_cases hsneg : s.1 < 0
  · rw [if_pos hsneg]
    refine .inr (.inl ?_)
    rw [outWritePerm_writeError]
    exact hseekErr hsneg
  · rw [if_neg hsneg] at hneg ⊢
    have hwriting := hseek.found (le_antisymm hseek.ret_le (not_lt.mp hsneg))
    have hindex : v.indexFor s.2.position = v.newIndex .dp := by
      rw [hwriting.position]
      rfl
    rw [hindex] at hneg ⊢
    have hhalted := writeIndexRecords_halted hwriting
      (decide (Partition.dp = .ip) && ! v.ipIndexFileEnd) v.blocksize (v.blocksOf (v.newIndex .dp))
      (v.newIndex .dp)
    generalize writeIndexRecords (decide (Partition.dp = .ip) && ! v.ipIndexFileEnd) v.blocksize
      (v.blocksOf (v.newIndex .dp)) (v.newIndex .dp) s.2 = w at hneg hhalted ⊢
    by_cases hwneg : w.1 < 0
    · rw [if_pos hwneg]
      have hquiet := outWritePerm_quiet .dp false (isWritePerm (-w.1)) volstat w.1
        { v with dev := w.2 }
      rcases hhalted hwneg with hreval | herr | ⟨n, hw⟩
      · -- such a code is no permanent write error, so it is the result
        rw [needReval_not_writePerm hreval]
        exact .inl hreval
      · refine .inr (.inl ?_)
        rw [outWritePerm_writeError]
        exact herr
      · refine .inr (.inr ⟨n, ?_⟩)
        rw [hquiet.tape.medium]
        exact hw.medium
    · rw [if_neg hwneg, outWritePerm_false] at hneg
      exact absurd hneg hwneg

theorem Beside.ok {p : Partition} {dev dev' : Device T} (h : Beside p dev dev') (hok : dev.Ok)
    (hpos : dev'.PosOk) (happend : dev'.appendPos p ≤ dev'.eod p) : dev'.Ok := by
  constructor
  · exact hpos
  · intro q
    by_cases hq : q = p
    · rw [hq]
      exact happend
    · rw [h.appendPos q hq, h.eod hq]
      exact hok.appendPos_le q

theorem IndexFailed.ok {p : Partition} {v v' : Volume T} (h : IndexFailed p v v')
    (hok : v.dev.Ok) : v'.dev.Ok :=
  h.beside.ok hok h.tape.posOk h.tape.appendPos_le

theorem IndexDone.eod {p : Partition} {v v' : Volume T} (h : IndexDone p v v') :
    v'.dev.eod p = v.dev.appendBlock p + (v.newImage p).length := by
  have := h.start_le
  unfold Device.eod at this ⊢
  rw [h.medium, List.length_append, List.length_take]
  omega

theorem IndexDone.appendPos_le {p : Partition} {v v' : Volume T} (h : IndexDone p v v') :
    v'.dev.appendPos p ≤ v'.dev.eod p := by
  rw [h.appendPos, h.eod]
  cases p with
  | dp => exact le_refl _
  | ip =>
    unfold Volume.appendAfterIndex
    dsimp only
    split
    · exact Nat.zero_le _
    · exact Nat.le_add_right _ _

theorem IndexDone.ok {p : Partition} {v v' : Volume T} (h : IndexDone p v v')
    (hok : v.dev.Ok) : v'.dev.Ok :=
  h.beside.ok hok h.posOk h.appendPos_le

/-! ## The nested write -/

section Rule

variable {P : Volume T → Prop} (hquiet : ∀ v v', Quiet v v' → P v → P v')
  (hclear : ∀ q v, P v → P (clearWritePerm q v))
  (hhere : ∀ q writePerm volstat v, P v → P (writeIndexHere q writePerm volstat v).2)

include hquiet hclear

/-- A property that survives quiet steps and `clearWritePerm` holds wherever
`writeIndexFlat` calls `writeIndexHere`. -/
theorem writeIndexFlat_rule (p : Partition) (writePerm : Bool) {v : Volume T} (h : P v) :
    ((writeIndexFlat p writePerm v).1 < 0 ∧ P (writeIndexFlat p writePerm v).2) ∨
    ∃ writePerm' volstat v₁, P v₁ ∧
      writeIndexFlat p writePerm v = writeIndexHere p writePerm' volstat v₁ := by
  have htick : P { v with dev := v.dev.tick } := hquiet _ _ (tick_same v.dev).quiet h
  have hdev := getCartVolumeLockStatus_dev v.dev
  unfold writeIndexFlat
  rcases hcart : getCartVolumeLockStatus v.dev with ⟨ret | volstat, dev⟩
  · rw [hcart] at hdev
    subst hdev
    exact Or.inl ⟨getCartVolumeLockStatus_error hcart, htick⟩
  · rw [hcart] at hdev
    subst hdev
    dsimp only
    split
    · exact Or.inr ⟨true, volstat, _, hclear _ _ htick, rfl⟩
    · split
      · rename_i hrefused
        exact Or.inl ⟨hrefused, htick⟩
      · exact Or.inr ⟨false, volstat, _, htick, rfl⟩

theorem writeIndexAfterDp_rule (p : Partition) (volstat : VolumeLock) {d : ℤ × Volume T}
    (h : P d.2) :
    ((writeIndexAfterDp p volstat d).1 < 0 ∧ P (writeIndexAfterDp p volstat d).2) ∨
    ∃ writePerm volstat' v₁, P v₁ ∧
      writeIndexAfterDp p volstat d = writeIndexHere p writePerm volstat' v₁ := by
  have htick : P { d.2 with dev := d.2.dev.tick } := hquiet _ _ (tick_same d.2.dev).quiet h
  unfold writeIndexAfterDp
  split
  · rename_i hreval
    exact Or.inl ⟨needReval_neg hreval, h⟩
  · split
    · rename_i hmove
      exact Or.inl ⟨isUnexpectedMove_neg hmove,
        hquiet d.2 _ ⟨⟨rfl, rfl, rfl, rfl, rfl, rfl⟩, SameTape.refl _⟩ h⟩
    · split
      · have hdev := getCartVolumeLockStatus_dev d.2.dev
        rcases hcart : getCartVolumeLockStatus d.2.dev with ⟨ret | volstat', dev⟩
        · rw [hcart] at hdev
          subst hdev
          exact Or.inl ⟨getCartVolumeLockStatus_error hcart, htick⟩
        · rw [hcart] at hdev
          subst hdev
          exact Or.inr ⟨true, volstat', _, hclear _ _ htick, rfl⟩
      · exact Or.inr ⟨false, volstat, _, h, rfl⟩

include hhere

theorem writeIndex_rule (p : Partition) (writePerm : Bool) {v : Volume T} (h : P v) :
    ((writeIndex p writePerm v).1 < 0 ∧ P (writeIndex p writePerm v).2) ∨
    ∃ writePerm' volstat v₁, P v₁ ∧
      writeIndex p writePerm v = writeIndexHere p writePerm' volstat v₁ := by
  have htick : P { v with dev := v.dev.tick } := hquiet _ _ (tick_same v.dev).quiet h
  have hdev := getCartVolumeLockStatus_dev v.dev
  unfold writeIndex
  split
  · exact writeIndexFlat_rule hquiet hclear p writePerm h
  · rcases hcart : getCartVolumeLockStatus v.dev with ⟨ret | volstat, dev⟩
    · rw [hcart] at hdev
      subst hdev
      exact Or.inl ⟨getCartVolumeLockStatus_error hcart, htick⟩
    · rw [hcart] at hdev
      subst hdev
      dsimp only
      split
      · rename_i hrefused
        exact Or.inl ⟨hrefused, htick⟩
      · split
        · exact Or.inr ⟨false, volstat, _, htick, rfl⟩
        · -- the nested write, which may fail
          apply writeIndexAfterDp_rule hquiet hclear
          rcases writeIndexFlat_rule hquiet hclear .dp false htick with
            ⟨-, hp⟩ | ⟨writePerm', volstat', v₁, hp, heq⟩
          · exact hp
          · rw [heq]
            exact hhere _ _ _ _ hp

/-- An invariant of `writeIndexHere` is one of `writeIndex`. -/
theorem writeIndex_invariant (p : Partition) (writePerm : Bool) {v : Volume T} (h : P v) :
    P (writeIndex p writePerm v).2 := by
  rcases writeIndex_rule hquiet hclear hhere p writePerm h with ⟨-, hp⟩ | ⟨w, volstat, v₁, hp, heq⟩
  · exact hp
  · rw [heq]
    exact hhere _ _ _ _ hp

theorem writeIndexConditional_invariant (p : Partition) {v : Volume T} (h : P v) :
    P (writeIndexConditional p v).2 := by
  have hwrite := fun q => writeIndex_invariant hquiet hclear hhere q false h
  unfold writeIndexConditional
  cases p with
  | ip =>
    dsimp only
    split
    · exact h
    · exact hwrite .ip
  | dp =>
    dsimp only
    split
    · exact hwrite .dp
    · exact h

end Rule

/-! ## Writing data -/

/-- A data write to `p`, from the seek on, successful or not. -/
structure DataPut (p : Partition) (v v' : Volume T) (recs : List (Record T)) : Prop where
  index : v'.index = v.index
  dirty : v'.dirty = v.dirty
  endsInIndex : v'.endsInIndex = Function.update v.endsInIndex p false
  written : v'.written = v.written
  moreBlocks : v'.moreBlocks = v.moreBlocks
  blocksize : v'.blocksize = v.blocksize
  beside : Beside p v.dev v'.dev
  tape : Partly p (v.dev.appendBlock p) (v.dev.medium p) recs v'.dev

/-- The records of a data write. -/
def dataRecords (blocksize : ℕ) (buf : List UInt8) (repetitions : ℕ) : List (Record T) :=
  (List.replicate repetitions
    ((chunks blocksize buf.length buf).map fun bytes => Record.data bytes)).flatten

theorem map_fst_dataBlocks (blocksize : ℕ) (buf : List UInt8) (repetitions : ℕ) :
    (List.replicate repetitions (dataBlocks blocksize buf)).flatten.map Prod.fst
      = (dataRecords blocksize buf repetitions : List (Record T)) := by
  unfold dataRecords dataBlocks
  rw [List.map_flatten, List.map_replicate, List.map_map]
  rfl

theorem DataPut.ok {p : Partition} {v v' : Volume T} {recs : List (Record T)}
    (h : DataPut p v v' recs) (hok : v.dev.Ok) : v'.dev.Ok :=
  h.beside.ok hok h.tape.posOk h.tape.appendPos_le

theorem outUnlock_quiet (ret : ℤ) (v : Volume T) : Quiet v (outUnlock ret v).2 := by
  unfold outUnlock
  dsimp only
  split
  · exact ⟨⟨rfl, rfl, rfl, rfl, rfl, rfl⟩, SameTape.refl _⟩
  · exact Quiet.refl v

theorem writeDataHere_outcome (p : Partition) (buf : List UInt8) (repetitions : ℕ) {v : Volume T}
    (hpos : v.dev.PosOk) (hle : v.dev.appendPos p ≤ v.dev.eod p) :
    DataPut p v (writeDataHere p buf repetitions v).2 (dataRecords v.blocksize buf repetitions) := by
  -- the device of the outcome is what counts, the rest is set before the seek
  have hput : ∀ dev ret, Beside p v.dev dev →
      Partly p (v.dev.appendBlock p) (v.dev.medium p)
        (dataRecords v.blocksize buf repetitions) dev →
      DataPut p v (outUnlock ret { v.setEndsInIndex p false with dev := dev }).2
        (dataRecords v.blocksize buf repetitions) ∧
      DataPut p v { v.setEndsInIndex p false with dev := dev }
        (dataRecords v.blocksize buf repetitions) := by
    intro dev ret hb ht
    have hset : DataPut p v { v.setEndsInIndex p false with dev := dev }
        (dataRecords v.blocksize buf repetitions) := by
      refine ⟨?_, ?_, ?_, ?_, ?_, ?_, hb, ht⟩
      · cases p <;> rfl
      · cases p <;> rfl
      · rw [← setEndsInIndex_endsInIndex]
        rfl
      · cases p <;> rfl
      · cases p <;> rfl
      · cases p <;> rfl
    have hq := outUnlock_quiet ret { v.setEndsInIndex p false with dev := dev }
    refine ⟨?_, hset⟩
    exact ⟨hq.index.trans hset.index, hq.dirty.trans hset.dirty,
      hq.endsInIndex.trans hset.endsInIndex, hq.written.trans hset.written,
      hq.moreBlocks.trans hset.moreBlocks, hq.blocksize.trans hset.blocksize,
      hb.trans (hq.tape.beside p), ht.congr hq.tape.medium hq.tape.appendPos hq.tape.position⟩
  have hbs : (v.setEndsInIndex p false).blocksize = v.blocksize := by cases p <;> rfl
  have hseek := seekAppendPosition_spec p (decide (p = .ip)) hpos
  unfold writeDataHere
  dsimp only
  rw [setEndsInIndex_dev]
  generalize seekAppendPosition p (decide (p = .ip)) v.dev = s at hseek ⊢
  split
  · exact (hput s.2 s.1 hseek.frame.beside (hseek.partly hle _)).1
  · rename_i hsneg
    have hszero : s.1 = 0 := le_antisymm hseek.ret_le (not_lt.mp hsneg)
    have hwrote := writeBlocks_wrote false false (List.replicate repetitions
      (dataBlocks (v.setEndsInIndex p false).blocksize buf)).flatten (hseek.found hszero)
    generalize writeBlocks false false (List.replicate repetitions
      (dataBlocks (v.setEndsInIndex p false).blocksize buf)).flatten s.2 = w at hwrote ⊢
    rw [map_fst_dataBlocks, hbs] at hwrote
    have hb := hseek.frame.beside.trans hwrote.frame.beside
    split
    · exact (hput w.2 w.1 hb hwrote.partly).1
    · exact (hput w.2 w.1 hb hwrote.partly).2

theorem writeDataHere_result (p : Partition) (buf : List UInt8) (repetitions : ℕ) {v : Volume T}
    (hok : v.dev.Ok) :
    DataPut p v (writeDataHere p buf repetitions v).2 (dataRecords v.blocksize buf repetitions) :=
  writeDataHere_outcome p buf repetitions hok.posOk (hok.appendPos_le p)

/-- `writeDataUnlocked` either does not get to writing data, or it continues where
the index write for the other partition left off. -/
theorem writeDataUnlocked_cases (p : Partition) (buf : List UInt8) (repetitions : ℕ)
    (v : Volume T) :
    Quiet v (writeDataUnlocked p buf repetitions v).2 ∨
    Quiet (writeIndexConditional p.other v).2 (writeDataUnlocked p buf repetitions v).2 ∨
    (0 ≤ (writeIndexConditional p.other v).1 ∧ writeDataUnlocked p buf repetitions v
      = writeDataHere p buf repetitions (writeIndexConditional p.other v).2) := by
  unfold writeDataUnlocked
  split
  · exact Or.inl (Quiet.refl v)
  · split
    · exact Or.inl (Quiet.refl v)
    · split
      · exact Or.inl (outUnlock_quiet _ v)
      · dsimp only
        split
        · exact Or.inr (Or.inl (outUnlock_quiet _ _))
        · rename_i hneg
          exact Or.inr (Or.inr ⟨not_lt.mp hneg, rfl⟩)

end Volume

end Ltfs
