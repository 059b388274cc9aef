import Ltfs.IndexChain

/-!
# Crash safety

A power failure cuts the sequence of tape commands off anywhere, in the middle of
an index as well. `crash_safety` shows that the tape still holds a complete index
of the last generation written: an index on the index partition is only
overwritten when the data partition holds one that is at least as new.

The drive is the one of `Device.cutAfter`: every command succeeds until the cut,
and none does anything afterwards. `CrashOk` is the invariant. The only place
where it depends on the cut is an index write to the index partition after the
nested write to the data partition failed; `writeIndexFlat_alive` shows that in
this case the drive is dead and the tape does not change any more.
-/

namespace Ltfs

section Crash

variable {T : Type}

/-! ## The cut -/

/-- The power fails after `k` more commands. -/
def Device.cutAfter (dev : Device T) (k : ℕ) (warnings : ℕ → Bool × Bool) (code : ErrorCode) :
    Device T :=
  { dev with answers := fun i =>
      if i < dev.clock + k then .ok (warnings i).1 (warnings i).2 else .error code none }

/-- Once a command has failed, no command does anything any more. -/
def FailStop (answers : ℕ → Answer) : Prop :=
  ∀ i code junk, answers i = .error code junk →
    ∀ j, i ≤ j → ∃ code', answers j = .error code' none

/-- No command does anything any more. -/
def Dead (dev : Device T) : Prop := ∀ i, dev.clock ≤ i → ∃ code, dev.answers i = .error code none

theorem cutAfter_failStop (dev : Device T) (k : ℕ) (warnings : ℕ → Bool × Bool)
    (code : ErrorCode) : FailStop (dev.cutAfter k warnings code).answers := by
  intro i code' junk h j hij
  unfold Device.cutAfter at h ⊢
  dsimp only at h ⊢
  by_cases hi : i < dev.clock + k
  · rw [if_pos hi] at h
    cases h
  · exact ⟨code, if_neg (by omega)⟩

theorem Dead.mono {dev dev' : Device T} (h : Dead dev) (hanswers : dev'.answers = dev.answers)
    (hclock : dev.clock ≤ dev'.clock) : Dead dev' := by
  intro i hi
  rw [hanswers]
  exact h i (hclock.trans hi)

/-- The drive is dead after a command that fails. -/
theorem FailStop.dead_of_error {dev : Device T} (h : FailStop dev.answers) {code : ErrorCode}
    {junk : Option (List (List UInt8))} (herr : dev.answer = .error code junk) : Dead dev :=
  h dev.clock code junk herr

/-! ## A dead drive -/

theorem put_dead {dev : Device T} (h : Dead dev) (recs : List (Record T)) (size : ℕ)
    (il ins : Bool) :
    (put recs size il ins dev).1 < 0 ∧ (put recs size il ins dev).2.medium = dev.medium := by
  have hr := put_result recs size il ins dev
  generalize put recs size il ins dev = r at hr ⊢
  rcases h dev.clock (le_refl _) with ⟨code, hcode⟩
  have hanswer : dev.answer = .error code none := hcode
  cases hr with
  | refused ret hneg => exact ⟨hneg, rfl⟩
  | failed code' junk err hans =>
    rw [hanswer] at hans
    cases hans
    exact ⟨code.2, rfl⟩
  | written ret space early programmable hle hans =>
    rw [hanswer] at hans
    cases hans

theorem writeIndexRecords_dead {dev : Device T} (h : Dead dev) (flush : Bool) (bs n : ℕ)
    (index : Index T) :
    (writeIndexRecords flush bs n index dev).1 < 0 ∧
    (writeIndexRecords flush bs n index dev).2.medium = dev.medium := by
  unfold writeIndexRecords
  cases flush with
  | true =>
    -- the flush fails already
    rcases put_dead h (List.replicate 0 .fm) 0 true true with ⟨hneg, hm⟩
    unfold tapeWriteFilemark
    rw [if_pos rfl, if_pos hneg]
    exact ⟨hneg, hm⟩
  | false =>
    rcases put_dead h (List.replicate 1 .fm) 0 true true with ⟨hneg, hm⟩
    unfold tapeWriteFilemark
    rw [if_neg Bool.false_ne_true]
    dsimp only
    rw [if_neg (lt_irrefl (0 : ℤ)), if_pos hneg]
    exact ⟨hneg, hm⟩

/-- On a dead drive an index write leaves the tape alone. -/
theorem writeIndexHere_dead (p : Partition) (writePerm : Bool) (volstat : VolumeLock)
    {v : Volume T} (hok : v.dev.Ok) (h : Dead v.dev) :
    IndexFailed p v (writeIndexHere p writePerm volstat v).2 ∧
    (writeIndexHere p writePerm volstat v).2.dev.medium = v.dev.medium := by
  have hseek := seekAppendPosition_spec p (decide (p = .ip)) hok.posOk
  have hdead : Dead (seekAppendPosition p (decide (p = .ip)) v.dev).2 :=
    h.mono hseek.frame.answers hseek.frame.clock
  have hmedium : (writeIndexHere p writePerm volstat v).1 < 0 ∧
      (writeIndexHere p writePerm volstat v).2.dev.medium = v.dev.medium := by
    unfold writeIndexHere
    dsimp only
    split
    · rename_i hneg
      refine ⟨outWritePerm_neg _ _ _ _ hneg _, ?_⟩
      rw [(outWritePerm_quiet _ _ _ _ _ _).tape.medium]
      exact hseek.medium
    · rcases writeIndexRecords_dead hdead (decide (p = .ip) && ! v.ipIndexFileEnd) v.blocksize
        (v.blocksOf (v.indexFor (seekAppendPosition p (decide (p = .ip)) v.dev).2.position))
        (v.indexFor (seekAppendPosition p (decide (p = .ip)) v.dev).2.position) with ⟨hneg, hm⟩
      rw [if_pos hneg]
      refine ⟨outWritePerm_neg _ _ _ _ hneg _, ?_⟩
      rw [(outWritePerm_quiet _ _ _ _ _ _).tape.medium]
      exact hm.trans hseek.medium
  rcases writeIndexHere_result p writePerm volstat hok with ⟨-, hf⟩ | ⟨hz, -⟩
  · exact ⟨hf, hmedium.2⟩
  · omega

/-! ## A drive that is not dead -/

/-- The drive accepts index blocks of `size` bytes. -/
structure Accepts (size : ℕ) (dev : Device T) : Prop where
  cut : FailStop dev.answers
  writeProtected : dev.writeProtected = false
  writeError : dev.writeError = false
  size_le : size ≤ dev.maxBlockSize

/-- A command of an index write succeeded, or the drive is dead. -/
def Fine (size : ℕ) (r : ℤ × Device T) : Prop :=
  (r.1 = 0 ∧ Accepts size r.2) ∨ (r.1 < 0 ∧ Dead r.2)

theorem Fine.andThen {size : ℕ} {r next : ℤ × Device T} (h : Fine size r)
    (hnext : Accepts size r.2 → Fine size next) : Fine size (if r.1 < 0 then r else next) := by
  rcases h with ⟨hz, hacc⟩ | ⟨hneg, hdead⟩
  · rw [if_neg (by omega)]
    exact hnext hacc
  · rw [if_pos hneg]
    exact Or.inr ⟨hneg, hdead⟩

/-- The flags of a device that has executed a command without a fault. -/
theorem Accepts.of_frame {size : ℕ} {dev dev' : Device T} (h : Accepts size dev)
    {p : Partition} (hf : Frame p dev dev') (he : dev'.writeError = dev.writeError) :
    Accepts size dev' := by
  constructor
  · rw [hf.answers]
    exact h.cut
  · rw [hf.writeProtected]
    exact h.writeProtected
  · rw [he]
    exact h.writeError
  · rw [hf.maxBlockSize]
    exact h.size_le

theorem put_fine {size : ℕ} {dev : Device T} (h : Accepts size dev) (recs : List (Record T))
    {n : ℕ} (hn : n ≤ size) : Fine size (put recs n true true dev) := by
  have hframe := put_frame recs n true true dev
  have hrefusal : writeRefusal n true true dev = 0 := by
    have := hn.trans h.size_le
    unfold writeRefusal
    simp [h.writeProtected, h.writeError, this]
  have happend : (dev.tick.append recs).writeError = dev.writeError := by
    unfold Device.append
    dsimp only
    split
    · rfl
    · rfl
  cases hans : dev.answer with
  | error code junk =>
    have hcode : (put recs n true true dev).1 = code := by
      unfold put
      dsimp only
      rw [hrefusal, if_neg (lt_irrefl (0 : ℤ)), hans]
    right
    constructor
    · rw [hcode]
      exact code.2
    · exact (h.cut.dead_of_error hans).mono hframe.answers hframe.clock
  | ok early programmable =>
    have hput : (put recs n true true dev).1 = 0 ∧
        (put recs n true true dev).2.writeError = dev.writeError := by
      unfold put
      dsimp only
      rw [hrefusal, if_neg (lt_irrefl (0 : ℤ)), hans]
      cases early with
      | true => exact ⟨rfl, happend⟩
      | false =>
        cases programmable with
        | true => exact ⟨rfl, happend⟩
        | false => exact ⟨rfl, happend⟩
    exact Or.inl ⟨hput.1, h.of_frame hframe hput.2⟩

theorem writeBlocks_fine {size : ℕ} (l : List (Record T × ℕ)) : ∀ {dev : Device T},
    Accepts size dev → (∀ x ∈ l, x.2 ≤ size) → Fine size (writeBlocks true true l dev) := by
  induction l with
  | nil => exact fun h _ => Or.inl ⟨rfl, h⟩
  | cons x l ih =>
    intro dev h hl
    exact (put_fine h [x.1] (hl x List.mem_cons_self)).andThen
      fun h' => ih h' fun y hy => hl y (List.mem_cons_of_mem _ hy)

theorem writeIndexRecords_fine {size : ℕ} {dev : Device T} (h : Accepts size dev) (flush : Bool)
    (n : ℕ) (index : Index T) : Fine size (writeIndexRecords flush size n index dev) := by
  have hflush : Fine size
      (if flush = true then tapeWriteFilemark 0 true true dev else (0, dev)) := by
    split
    · exact put_fine h _ (Nat.zero_le _)
    · exact Or.inl ⟨rfl, h⟩
  unfold writeIndexRecords xmlSchemaToTape
  refine hflush.andThen fun h₁ => (put_fine h₁ _ (Nat.zero_le _)).andThen fun h₂ => ?_
  refine (writeBlocks_fine _ h₂ ?_).andThen fun h₃ => put_fine h₃ _ (Nat.zero_le _)
  intro x hx
  rcases List.mem_map.mp hx with ⟨k, -, rfl⟩
  exact le_refl _

theorem locateCode_neg {ret : ℤ} (h : ret < 0) : locateCode ret < 0 := by
  unfold locateCode
  split
  · exact (by decide : -ltfsLocateError < 0)
  · exact h

theorem tapeSeek_fine {size : ℕ} {dev : Device T} (h : Accepts size dev) (p : Partition)
    {block : Option ℕ} (hblock : block.getD (dev.eod p) ≤ dev.eod p) :
    Fine size (tapeSeek p block dev) := by
  unfold tapeSeek
  split
  · exact Or.inl ⟨rfl, h⟩
  · rcases locate_spec p block dev with ⟨-, -, hframe, -, -, -⟩
    cases hans : dev.answer with
    | error code junk =>
      have hcode : (locate p block dev).1 = code := by
        unfold locate
        rw [hans]
      right
      constructor
      · dsimp only
        rw [hcode]
        exact locateCode_neg code.2
      · exact (h.cut.dead_of_error hans).mono hframe.answers hframe.clock
    | ok early programmable =>
      have hlocate : (locate p block dev).1 = 0 ∧
          (locate p block dev).2.writeError = dev.writeError := by
        unfold locate
        rw [hans]
        dsimp only
        rw [if_pos hblock]
        refine ⟨rfl, ?_⟩
        unfold Device.noteSpace
        dsimp only
        split
        · rfl
        · split
          · rfl
          · rfl
      left
      dsimp only
      rw [hlocate.1]
      exact ⟨rfl, h.of_frame hframe hlocate.2⟩

theorem seekAppendPosition_fine {size : ℕ} {dev : Device T} (h : Accepts size dev) (hok : dev.Ok)
    (p : Partition) (unlock : Bool) : Fine size (seekAppendPosition p unlock dev) := by
  have hblock : (if dev.appendPos p = 0 then none else some (dev.appendPos p)).getD (dev.eod p)
      ≤ dev.eod p := by
    split
    · exact le_refl _
    · exact hok.appendPos_le p
  unfold seekAppendPosition
  dsimp only
  generalize (if dev.appendPos p = 0 then none else some (dev.appendPos p)) = block at hblock ⊢
  have hseek := tapeSeek_fine h p hblock
  generalize tapeSeek p block dev = r at hseek ⊢
  -- remembering the append position changes no flag
  have hset : ∀ r' : ℤ × Device T, Fine size r' → Fine size (r'.1,
      if r'.2.appendPos p = 0 then r'.2.setAppendPos p r'.2.position.block else r'.2) := by
    intro r' hr'
    split
    · rcases hr' with ⟨hz, hacc⟩ | ⟨hneg, hdead⟩
      · exact Or.inl ⟨hz, hacc.cut, hacc.writeProtected, hacc.writeError, hacc.size_le⟩
      · exact Or.inr ⟨hneg, hdead.mono rfl (le_refl _)⟩
    · exact hr'
  rcases hseek with ⟨hz, hacc⟩ | ⟨hneg, hdead⟩
  · rw [if_neg (by omega)]
    apply hset
    split
    · cases hans : r.2.answer with
      | error code junk =>
        exact Or.inr ⟨code.2, (hacc.cut.dead_of_error hans).mono rfl (Nat.le_succ _)⟩
      | ok early programmable =>
        exact Or.inl ⟨rfl, hacc.cut, hacc.writeProtected, hacc.writeError, hacc.size_le⟩
    · exact Or.inl ⟨hz, hacc⟩
  · rw [if_pos hneg]
    exact Or.inr ⟨hneg, hdead⟩

/-- An index write succeeds, or the drive is dead. -/
theorem writeIndexHere_alive (p : Partition) (writePerm : Bool) (volstat : VolumeLock)
    {v : Volume T} (hok : v.dev.Ok) (h : Accepts v.blocksize v.dev) :
    (writeIndexHere p writePerm volstat v).1 = 0 ∨
    Dead (writeIndexHere p writePerm volstat v).2.dev := by
  have hseek := seekAppendPosition_fine h hok p (decide (p = .ip))
  unfold writeIndexHere
  dsimp only
  generalize seekAppendPosition p (decide (p = .ip)) v.dev = s at hseek ⊢
  have hout : ∀ (updateVollock : Bool) ret (dev : Device T), Dead dev →
      Dead (outWritePerm p writePerm updateVollock volstat ret { v with dev := dev }).2.dev := by
    intro updateVollock ret dev hdead
    have hq := outWritePerm_quiet p writePerm updateVollock volstat ret { v with dev := dev }
    exact hdead.mono hq.tape.answers hq.tape.clock
  rcases hseek with ⟨hz, hacc⟩ | ⟨hneg, hdead⟩
  · rw [if_neg (by omega)]
    rcases writeIndexRecords_fine hacc (decide (p = .ip) && ! v.ipIndexFileEnd)
      (v.blocksOf (v.indexFor s.2.position)) (v.indexFor s.2.position) with
      ⟨hz', -⟩ | ⟨hneg', hdead⟩
    · rw [if_neg (by omega)]
      exact Or.inl hz'
    · rw [if_pos hneg']
      exact Or.inr (hout _ _ _ hdead)
  · rw [if_pos hneg]
    exact Or.inr (hout _ _ _ hdead)

theorem accepts_of_not_refused {v : Volume T} (h : ¬ indexRefusal v < 0)
    (hcut : FailStop v.dev.answers) (hsize : v.blocksize ≤ v.dev.maxBlockSize) :
    Accepts v.blocksize v.dev := by
  have hip : ∀ ret : ℤ, ret < 0 → ret ≠ -ltfsNoSpace → ret ≠ -ltfsLessSpace →
      tapeReadOnly .ip v.dev ≠ ret := by
    intro ret hneg hno hless heq
    have hsoft : ¬ (ret = -ltfsNoSpace ∨ ret = -ltfsLessSpace) := not_or.mpr ⟨hno, hless⟩
    have hret : indexRefusal v = ret := by
      unfold indexRefusal
      dsimp only
      rw [heq, if_neg (not_or.mpr ⟨ne_of_lt hneg, hsoft⟩), if_pos ⟨hneg, hsoft⟩]
    exact h (by rw [hret]; exact hneg)
  refine ⟨hcut, ?_, ?_, hsize⟩
  · by_contra hwp
    rw [Bool.not_eq_false] at hwp
    refine hip (-ltfsWriteProtect) (by decide) (by decide) (by decide) ?_
    unfold tapeReadOnly
    rw [if_pos hwp]
  · by_contra hwe
    rw [Bool.not_eq_false] at hwe
    by_cases hwp : v.dev.writeProtected = true
    · refine hip (-ltfsWriteProtect) (by decide) (by decide) (by decide) ?_
      unfold tapeReadOnly
      rw [if_pos hwp]
    · refine hip (-ltfsWriteError) (by decide) (by decide) (by decide) ?_
      unfold tapeReadOnly
      rw [if_neg hwp, if_pos hwe]

/-- The nested write of the data partition's index succeeds, or the drive is dead. -/
theorem writeIndexFlat_alive {v : Volume T} (hok : v.dev.Ok) (hcut : FailStop v.dev.answers)
    (hsize : v.blocksize ≤ v.dev.maxBlockSize) (hrefused : ¬ indexRefusal v < 0) :
    (writeIndexFlat .dp false v).1 = 0 ∨ Dead (writeIndexFlat .dp false v).2.dev := by
  have hdev := getCartVolumeLockStatus_dev v.dev
  have hok' : v.dev.tick.Ok := (tick_same v.dev).ok hok
  have hdead : ∀ {code junk}, v.dev.answer = .error code junk → Dead v.dev.tick :=
    fun herr => (hcut.dead_of_error herr).mono rfl (Nat.le_succ _)
  unfold writeIndexFlat
  rcases hcart : getCartVolumeLockStatus v.dev with ⟨ret | volstat, dev⟩
  · rw [hcart] at hdev
    subst hdev
    right
    cases hans : v.dev.answer with
    | error code junk => exact hdead hans
    | ok early programmable =>
      unfold getCartVolumeLockStatus at hcart
      rw [hans] at hcart
      cases hcart
  · rw [hcart] at hdev
    subst hdev
    dsimp only
    set v₁ : Volume T := { v with dev := v.dev.tick }
    have hrefused₁ : ¬ indexRefusal v₁ < 0 := hrefused
    have hok₁ : v₁.dev.Ok := hok'
    rw [if_neg Bool.false_ne_true, if_neg hrefused₁]
    cases hans : v.dev.answer with
    | error code junk =>
      -- the lock status is not supported, which a dead drive may say as well
      rcases writeIndexHere_dead .dp false volstat hok₁ (hdead hans) with ⟨hf, -⟩
      exact Or.inr ((hdead hans).mono hf.beside.answers hf.beside.clock)
    | ok early programmable =>
      exact writeIndexHere_alive .dp false volstat hok₁
        (accepts_of_not_refused hrefused₁ hcut hsize)

/-! ## The invariant -/

/-- The data partition holds a complete index of generation `g` or newer below its
append position. -/
def HeldDp (dev : Device T) (g : ℕ) : Prop :=
  ∃ b n doc, IndexIn (dev.medium .dp) b n doc ∧ b + n + 2 ≤ dev.appendBlock .dp ∧
    g ≤ doc.generation

/-- The index is where it was written on the index partition. -/
def OnIp (dev : Device T) (doc : Index T) : Prop :=
  ∃ b, doc.selfptr = ⟨some .ip, b + 1⟩ ∧ IndexAt (dev.medium .ip) b doc

/-- Whatever is overwritten next, an index of the last generation remains. -/
structure CrashOk (v : Volume T) : Prop where
  ok : v.dev.Ok
  canCount : v.CanCount
  size_le : v.blocksize ≤ v.dev.maxBlockSize
  /-- No index has been written before the first pointer is set. -/
  none : v.index.selfptr.partition = none → v.written = []
  dp : v.index.selfptr.partition = some .dp → HeldDp v.dev v.index.generation
  /-- As long as the last index is on the index partition, that partition ends in it. -/
  ip : v.index.selfptr.partition = some .ip → v.endsInIndex .ip = true ∧
    ∃ b doc, IndexAt (v.dev.medium .ip) b doc ∧ v.index.generation ≤ doc.generation
  generation_le : ∀ doc ∈ v.written, doc.generation ≤ v.index.generation
  kept : ∀ doc ∈ v.written, doc.selfptr.partition = some .ip →
    OnIp v.dev doc ∨ HeldDp v.dev doc.generation

theorem HeldDp.mono {dev : Device T} {g g' : ℕ} (h : HeldDp dev g) (hle : g' ≤ g) :
    HeldDp dev g' := by
  rcases h with ⟨b, n, doc, hin, hend, hgen⟩
  exact ⟨b, n, doc, hin, hend, hle.trans hgen⟩

/-- Indexes of the data partition are never overwritten. -/
theorem HeldDp.of_write {dev dev' : Device T} {g : ℕ} (h : HeldDp dev g) (hok : dev.Ok)
    {p : Partition} {all : List (Record T)} (hbeside : Beside p dev dev')
    (htape : Partly p (dev.appendBlock p) (dev.medium p) all dev') : HeldDp dev' g := by
  rcases h with ⟨b, n, doc, hin, hend, hgen⟩
  refine ⟨b, n, doc, ?_⟩
  by_cases hp : p = .dp
  · subst hp
    exact ⟨hin.congr hend (htape.take (hok.appendBlock_le _)), hend.trans htape.start_le, hgen⟩
  · rw [hbeside.medium .dp (Ne.symm hp), hbeside.appendBlock (Ne.symm hp)]
    exact ⟨hin, hend, hgen⟩

/-- The next write to the index partition destroys no index that is needed. -/
def SafeIp (v : Volume T) : Prop :=
  v.index.selfptr.partition ≠ some .ip ∨ v.dev.appendBlock .ip = v.dev.eod .ip

/-- An index of the index partition survives a write that only appends to it. -/
theorem IndexIn.of_write {dev dev' : Device T} {b n : ℕ} {doc : Index T}
    (h : IndexIn (dev.medium .ip) b n doc) {p : Partition} {all : List (Record T)}
    (hbeside : Beside p dev dev')
    (htape : Partly p (dev.appendBlock p) (dev.medium p) all dev')
    (heod : p = .ip → dev.appendBlock .ip = dev.eod .ip) : IndexIn (dev'.medium .ip) b n doc := by
  by_cases hp : p = .ip
  · subst hp
    have hlen : b + n + 2 ≤ dev.appendBlock .ip := by
      rw [heod rfl]
      exact h.length_le
    refine h.congr hlen (htape.take ?_)
    rw [heod rfl]
    exact le_refl _
  · rw [hbeside.medium .ip (Ne.symm hp)]
    exact h

/-- The indexes that were written to the index partition, after a safe write. -/
theorem CrashOk.kept_write {v v' : Volume T} (h : CrashOk v) {p : Partition}
    {all : List (Record T)} (hbeside : Beside p v.dev v'.dev)
    (htape : Partly p (v.dev.appendBlock p) (v.dev.medium p) all v'.dev)
    (hsafe : v'.dev.medium .ip = v.dev.medium .ip ∨ SafeIp v) :
    ∀ doc ∈ v.written, doc.selfptr.partition = some .ip →
      OnIp v'.dev doc ∨ HeldDp v'.dev doc.generation := by
  intro doc hdoc hpart
  -- if the index is lost, the data partition has a newer one
  have hcases : (∀ b n, IndexIn (v.dev.medium .ip) b n doc → IndexIn (v'.dev.medium .ip) b n doc) ∨
      HeldDp v.dev v.index.generation := by
    rcases hsafe with hm | hself | heod
    · rw [hm]
      exact Or.inl fun _ _ hin => hin
    · right
      cases hptr : v.index.selfptr.partition with
      | none =>
        rw [h.none hptr] at hdoc
        cases hdoc
      | some q =>
        cases q with
        | ip => exact absurd hptr hself
        | dp => exact h.dp hptr
    · exact Or.inl fun _ _ hin => hin.of_write hbeside htape fun _ => heod
  rcases hcases with hin | hheld
  · rcases h.kept doc hdoc hpart with ⟨b, hself, n, hat⟩ | hheld
    · exact Or.inl ⟨b, hself, n, hin b n hat⟩
    · exact Or.inr (hheld.of_write h.ok hbeside htape)
  · exact Or.inr ((hheld.of_write h.ok hbeside htape).mono (h.generation_le doc hdoc))

/-- A safe write that does not complete an index. -/
theorem CrashOk.of_write {v v' : Volume T} (h : CrashOk v) {p : Partition}
    {all : List (Record T)} (hbeside : Beside p v.dev v'.dev)
    (htape : Partly p (v.dev.appendBlock p) (v.dev.medium p) all v'.dev)
    (hsafe : v'.dev.medium .ip = v.dev.medium .ip ∨ SafeIp v) (hindex : v'.index = v.index)
    (hdirty : v'.dirty = v.dirty) (hwritten : v'.written = v.written)
    (hblocksize : v'.blocksize = v.blocksize)
    (hend : v.index.selfptr.partition = some .ip → v'.endsInIndex .ip = v.endsInIndex .ip) :
    CrashOk v' := by
  constructor
  · exact hbeside.ok h.ok htape.posOk htape.appendPos_le
  · unfold Volume.CanCount
    rw [hindex, hdirty]
    exact h.canCount
  · rw [hblocksize, hbeside.maxBlockSize]
    exact h.size_le
  · rw [hindex, hwritten]
    exact h.none
  · rw [hindex]
    exact fun hptr => (h.dp hptr).of_write h.ok hbeside htape
  · rw [hindex]
    intro hptr
    rcases h.ip hptr with ⟨hends, b, doc, ⟨n, hin⟩, hgen⟩
    rw [hend hptr]
    refine ⟨hends, b, doc, ⟨n, ?_⟩, hgen⟩
    rcases hsafe with hm | hself | heod
    · rw [hm]
      exact hin
    · exact absurd hptr hself
    · exact hin.of_write hbeside htape fun _ => heod
  · rw [hindex, hwritten]
    exact h.generation_le
  · rw [hwritten]
    exact h.kept_write hbeside htape hsafe

theorem IndexDone.partly {p : Partition} {v v' : Volume T} (h : IndexDone p v v') :
    Partly p (v.dev.appendBlock p) (v.dev.medium p) (v.newImage p) v'.dev := by
  constructor
  · exact Or.inr ⟨(v.newImage p).length, [], le_refl _, by rw [h.medium]; simp⟩
  · by_cases hz : v'.dev.appendPos p = 0
    · have happ : v'.dev.appendBlock p = v'.dev.eod p := if_pos hz
      rw [happ, h.eod]
      exact Nat.le_add_right _ _
    · have happ : v'.dev.appendBlock p = v'.dev.appendPos p := if_neg hz
      rw [h.appendPos] at hz
      rw [happ, h.appendPos]
      cases p with
      | dp => exact Nat.le_add_right _ _
      | ip =>
        unfold Volume.appendAfterIndex at hz ⊢
        dsimp only at hz ⊢
        by_cases hworm : v.dev.isWorm = true
        · rw [if_pos hworm] at hz
          exact absurd rfl hz
        · rw [if_neg hworm]
  · exact h.posOk
  · exact h.appendPos_le

/-- Completing an index. -/
theorem CrashOk.of_done {v v' : Volume T} (h : CrashOk v) {p : Partition}
    (hd : IndexDone p v v') (hsafe : p = .dp ∨ SafeIp v) : CrashOk v' := by
  have htape := hd.partly
  have hmedium : v'.dev.medium .ip = v.dev.medium .ip ∨ SafeIp v := by
    rcases hsafe with rfl | hsafe
    · exact Or.inl (hd.beside.medium .ip (by decide))
    · exact Or.inr hsafe
  have hkept := h.kept_write hd.beside htape hmedium
  have hptr : v'.index.selfptr.partition = some p := by
    rw [hd.index]
    rfl
  have hblocks : 0 < v.blocksOf (v.newIndex p) := Nat.succ_pos _
  have hin : IndexIn (v'.dev.medium p) (v.dev.appendBlock p) (v.blocksOf (v.newIndex p))
      (v.newIndex p) := by
    rw [hd.medium]
    exact indexIn_append _ _ hd.start_le hblocks
  have hnew : ∀ doc ∈ v'.written, doc ∈ v.written ∨ doc = v.newIndex p := by
    intro doc hdoc
    rw [hd.written] at hdoc
    simpa using hdoc
  constructor
  · exact hd.ok h.ok
  · intro hdirty
    rw [hd.dirty] at hdirty
    cases hdirty
  · rw [hd.blocksize, hd.beside.maxBlockSize]
    exact h.size_le
  · intro hnone
    rw [hptr] at hnone
    cases hnone
  · intro hdp
    rw [hptr] at hdp
    cases hdp
    refine ⟨_, _, _, hin, ?_, by rw [hd.index]⟩
    have hlen : (v.newImage .dp).length = v.blocksOf (v.newIndex .dp) + 2 := length_indexImage _ _
    have hap : v'.dev.appendPos .dp = v.dev.appendBlock .dp + (v.newImage .dp).length :=
      hd.appendPos
    have happ : v'.dev.appendBlock .dp = v'.dev.appendPos .dp := if_neg (by omega)
    omega
  · intro hip
    rw [hptr] at hip
    cases hip
    constructor
    · rw [hd.endsInIndex]
      rfl
    · exact ⟨_, _, ⟨_, hin⟩, by rw [hd.index]⟩
  · intro doc hdoc
    rw [hd.index]
    rcases hnew doc hdoc with hold | rfl
    · exact (h.generation_le doc hold).trans h.canCount.le_next
    · exact le_refl _
  · intro doc hdoc hpart
    rcases hnew doc hdoc with hold | rfl
    · exact hkept doc hold hpart
    · cases hpart
      exact Or.inl ⟨_, rfl, _, hin⟩

/-! ## Steps and runs -/

theorem CrashOk.of_quiet {v v' : Volume T} (h : CrashOk v) (hq : Quiet v v') : CrashOk v' := by
  refine h.of_write (hq.tape.beside .dp) (hq.partly h.ok .dp) (Or.inl ?_) hq.index hq.dirty hq.written
    hq.blocksize fun _ => ?_
  · rw [hq.tape.medium]
  · rw [hq.endsInIndex]

theorem CrashOk.clearWritePerm {v : Volume T} (h : CrashOk v) (p : Partition) :
    CrashOk (clearWritePerm p v) := by
  rcases clearWritePerm_partly h.ok p with ⟨hb, ht⟩
  exact h.of_write hb ht (Or.inl rfl) rfl rfl rfl rfl fun _ => rfl

theorem safeIp_clearWritePerm (v : Volume T) : SafeIp (clearWritePerm .ip v) :=
  Or.inr (if_pos (setAppendPos_self v.dev .ip 0))

theorem writeIndexHere_crashOk (p : Partition) (writePerm : Bool) (volstat : VolumeLock)
    {v : Volume T} (h : CrashOk v) (hsafe : p = .dp ∨ SafeIp v) :
    CrashOk (writeIndexHere p writePerm volstat v).2 := by
  rcases writeIndexHere_result p writePerm volstat h.ok with ⟨-, hf⟩ | ⟨-, hd⟩
  · refine h.of_write hf.beside hf.tape ?_ hf.index hf.dirty hf.written hf.blocksize fun _ => ?_
    · rcases hsafe with rfl | hsafe
      · exact Or.inl (hf.beside.medium .ip (by decide))
      · exact Or.inr hsafe
    · rw [hf.endsInIndex]
  · exact h.of_done hd hsafe

/-- A write to the data partition, or one that goes to the end of the tape. -/
theorem writeIndexFlat_crashOk (p : Partition) (writePerm : Bool) {v : Volume T} (h : CrashOk v)
    (hp : p = .dp ∨ writePerm = true) : CrashOk (writeIndexFlat p writePerm v).2 := by
  have htick : CrashOk { v with dev := v.dev.tick } := h.of_quiet (tick_same v.dev).quiet
  have hdev := getCartVolumeLockStatus_dev v.dev
  unfold writeIndexFlat
  rcases hcart : getCartVolumeLockStatus v.dev with ⟨ret | volstat, dev⟩
  · rw [hcart] at hdev
    subst hdev
    exact htick
  · rw [hcart] at hdev
    subst hdev
    dsimp only
    split
    · apply writeIndexHere_crashOk _ _ _ (htick.clearWritePerm p)
      cases p with
      | dp => exact Or.inl rfl
      | ip => exact Or.inr (safeIp_clearWritePerm _)
    · rename_i hperm
      split
      · exact htick
      · exact writeIndexHere_crashOk _ _ _ htick (Or.inl (hp.resolve_right hperm))

/-- After the nested write: either it succeeded, and the data partition holds the
newest index, or the index goes to the end of the tape, or the drive is dead. -/
theorem writeIndexAfterDp_crashOk (volstat : VolumeLock) {d : ℤ × Volume T} (h : CrashOk d.2)
    (hd : d.1 = 0 ∧ d.2.index.selfptr.partition = some .dp ∨ Dead d.2.dev) :
    CrashOk (writeIndexAfterDp .ip volstat d).2 := by
  have htick : CrashOk { d.2 with dev := d.2.dev.tick } := h.of_quiet (tick_same d.2.dev).quiet
  unfold writeIndexAfterDp
  split
  · exact h
  · split
    · exact h.of_quiet ⟨⟨rfl, rfl, rfl, rfl, rfl, rfl⟩, SameTape.refl _⟩
    · split
      · have hdev := getCartVolumeLockStatus_dev d.2.dev
        rcases hcart : getCartVolumeLockStatus d.2.dev with ⟨ret | volstat', dev⟩
        · rw [hcart] at hdev
          subst hdev
          exact htick
        · rw [hcart] at hdev
          subst hdev
          exact writeIndexHere_crashOk _ _ _ (htick.clearWritePerm .ip)
            (Or.inr (safeIp_clearWritePerm _))
      · rcases hd with ⟨-, hself⟩ | hdead
        · refine writeIndexHere_crashOk _ _ _ h (Or.inr (Or.inl ?_))
          rw [hself]
          decide
        · rcases writeIndexHere_dead .ip false volstat h.ok hdead with ⟨hf, hm⟩
          refine h.of_write hf.beside hf.tape (Or.inl ?_) hf.index hf.dirty hf.written hf.blocksize
            fun _ => ?_
          · rw [hm]
          · rw [hf.endsInIndex]

theorem CrashOk.not_ip {v : Volume T} (h : CrashOk v) (hneed : needsDpIndex v = false) :
    v.index.selfptr.partition ≠ some .ip := by
  intro hself
  have hend : v.ipIndexFileEnd = true := (h.ip hself).1
  unfold needsDpIndex at hneed
  simp [hself, hend] at hneed

theorem writeIndexFlat_dp {v : Volume T} (hok : v.dev.Ok)
    (hret : 0 ≤ (writeIndexFlat .dp false v).1) :
    (writeIndexFlat .dp false v).2.index.selfptr.partition = some .dp := by
  rcases writeIndexFlat_rule (fun _ _ hq h => hq.tape.ok h)
    (fun q v h => (clearWritePerm_partly h q).1.ok h (clearWritePerm_partly h q).2.posOk
      (clearWritePerm_partly h q).2.appendPos_le) .dp false hok with
    ⟨hneg, -⟩ | ⟨writePerm, volstat, v₁, hok₁, heq⟩
  · omega
  · rcases writeIndexHere_result .dp writePerm volstat hok₁ with ⟨hneg, -⟩ | ⟨-, hd⟩
    · rw [← heq] at hneg
      omega
    · rw [heq, hd.index]
      rfl

theorem writeIndex_crashOk (p : Partition) (writePerm : Bool) {v : Volume T} (h : CrashOk v)
    (hcut : FailStop v.dev.answers) : CrashOk (writeIndex p writePerm v).2 := by
  have htick : CrashOk { v with dev := v.dev.tick } := h.of_quiet (tick_same v.dev).quiet
  have hdev := getCartVolumeLockStatus_dev v.dev
  unfold writeIndex
  split
  · rename_i hp
    exact writeIndexFlat_crashOk p writePerm h hp
  · rename_i hp
    have hip : p = .ip := by
      cases p with
      | ip => rfl
      | dp => exact absurd (Or.inl rfl) hp
    subst hip
    rcases hcart : getCartVolumeLockStatus v.dev with ⟨ret | volstat, dev⟩
    · rw [hcart] at hdev
      subst hdev
      exact htick
    · rw [hcart] at hdev
      subst hdev
      dsimp only
      split
      · exact htick
      · rename_i hrefused
        split
        · rename_i hneed
          have hself := htick.not_ip (by simpa using hneed)
          exact writeIndexHere_crashOk _ _ _ htick (Or.inr (Or.inl hself))
        · apply writeIndexAfterDp_crashOk
          · exact writeIndexFlat_crashOk _ _ htick (Or.inl rfl)
          · rcases writeIndexFlat_alive htick.ok hcut htick.size_le hrefused with hz | hdead
            · exact Or.inl ⟨hz, writeIndexFlat_dp htick.ok hz.ge⟩
            · exact Or.inr hdead

theorem writeIndexConditional_crashOk (p : Partition) {v : Volume T} (h : CrashOk v)
    (hcut : FailStop v.dev.answers) : CrashOk (writeIndexConditional p v).2 := by
  unfold writeIndexConditional
  cases p with
  | ip =>
    dsimp only
    split
    · exact h
    · exact writeIndex_crashOk .ip false h hcut
  | dp =>
    dsimp only
    split
    · exact writeIndex_crashOk .dp false h hcut
    · exact h

/-- Before data goes to the index partition, the newest index is elsewhere. -/
theorem writeIndexConditional_dp {v : Volume T} (h : CrashOk v)
    (hret : 0 ≤ (writeIndexConditional .dp v).1) :
    (writeIndexConditional .dp v).2.index.selfptr.partition ≠ some .ip := by
  unfold writeIndexConditional at hret ⊢
  by_cases hneed : needsDpIndex v = true
  · dsimp only at hret ⊢
    rw [if_pos hneed] at hret ⊢
    have hflat : writeIndex .dp false v = writeIndexFlat .dp false v := if_pos (Or.inl rfl)
    rw [hflat] at hret ⊢
    rw [writeIndexFlat_dp h.ok hret]
    decide
  · dsimp only
    rw [if_neg hneed]
    exact h.not_ip (by simpa using hneed)

/-- The script of the drive never changes. -/
theorem step_answers {v : Volume T} (hok : v.dev.Ok) (op : VolumeOp T) :
    (VolumeOp.step v op).dev.answers = v.dev.answers := by
  have hquiet : ∀ v₁ v₂ : Volume T, Quiet v₁ v₂ → v₁.dev.Ok ∧ v₁.dev.answers = v.dev.answers →
      v₂.dev.Ok ∧ v₂.dev.answers = v.dev.answers :=
    fun v₁ v₂ hq h => ⟨hq.tape.ok h.1, hq.tape.answers.trans h.2⟩
  have hclear : ∀ q (v₁ : Volume T), v₁.dev.Ok ∧ v₁.dev.answers = v.dev.answers →
      (clearWritePerm q v₁).dev.Ok ∧ (clearWritePerm q v₁).dev.answers = v.dev.answers := by
    intro q v₁ h
    rcases clearWritePerm_partly h.1 q with ⟨hb, ht⟩
    exact ⟨hb.ok h.1 ht.posOk ht.appendPos_le, h.2⟩
  have hhere : ∀ q writePerm volstat (v₁ : Volume T), v₁.dev.Ok ∧ v₁.dev.answers = v.dev.answers →
      (writeIndexHere q writePerm volstat v₁).2.dev.Ok ∧
      (writeIndexHere q writePerm volstat v₁).2.dev.answers = v.dev.answers := by
    intro q writePerm volstat v₁ h
    rcases writeIndexHere_result q writePerm volstat h.1 with ⟨-, hf⟩ | ⟨-, hd⟩
    · exact ⟨hf.ok h.1, hf.beside.answers.trans h.2⟩
    · exact ⟨hd.ok h.1, hd.beside.answers.trans h.2⟩
  cases op with
  | writeIndex p writePerm =>
    exact (writeIndex_invariant hquiet hclear hhere p writePerm ⟨hok, rfl⟩).2
  | writeData p buf repetitions =>
    have hcond := writeIndexConditional_invariant hquiet hclear hhere p.other ⟨hok, rfl⟩
    show (writeDataUnlocked p buf repetitions v).2.dev.answers = v.dev.answers
    rcases writeDataUnlocked_cases p buf repetitions v with hq | hq | ⟨-, heq⟩
    · exact hq.tape.answers
    · exact hq.tape.answers.trans hcond.2
    · rw [heq]
      exact (writeDataHere_result p buf repetitions hcond.1).beside.answers.trans hcond.2
  | change root => rfl

theorem step_crashOk {v : Volume T} (h : CrashOk v) (hcut : FailStop v.dev.answers)
    {op : VolumeOp T} (hcan : (op.step v).CanCount) : CrashOk (VolumeOp.step v op) := by
  cases op with
  | writeIndex p writePerm => exact writeIndex_crashOk p writePerm h hcut
  | writeData p buf repetitions =>
    have hcond := writeIndexConditional_crashOk p.other h hcut
    show CrashOk (writeDataUnlocked p buf repetitions v).2
    rcases writeDataUnlocked_cases p buf repetitions v with hq | hq | ⟨hret, heq⟩
    · exact h.of_quiet hq
    · exact hcond.of_quiet hq
    · rw [heq]
      have hput := writeDataHere_result p buf repetitions hcond.ok
      cases p with
      | dp =>
        refine hcond.of_write hput.beside hput.tape (Or.inl ?_) hput.index hput.dirty hput.written
          hput.blocksize fun _ => ?_
        · exact hput.beside.medium .ip (by decide)
        · rw [hput.endsInIndex]
          rfl
      | ip =>
        have hself := writeIndexConditional_dp h hret
        exact hcond.of_write hput.beside hput.tape (Or.inr (Or.inl hself)) hput.index hput.dirty
          hput.written hput.blocksize fun hip => absurd hip hself
  | change root => exact ⟨h.ok, hcan, h.size_le, h.none, h.dp, h.ip, h.generation_le, h.kept⟩

theorem run_crashOk (ops : List (VolumeOp T)) : ∀ v : Volume T, CrashOk v →
    FailStop v.dev.answers → NoWrap v ops → CrashOk (runVolume v ops) := by
  induction ops with
  | nil => exact fun v h _ _ => h
  | cons op ops ih =>
    intro v h hcut hwrap
    refine ih _ (step_crashOk h hcut hwrap.1) ?_ hwrap.2
    rw [step_answers h.ok op]
    exact hcut

/-- Crash safety: cut the power after any number of commands, and every index that
had been written before is still on tape or has a successor there that is at least
as new. An index of the index partition is gone only if the data partition holds
such a successor. The generation counter must not start again in between. -/
theorem crash_safety {v₀ : Volume T} (h₀ : CrashOk v₀) (k : ℕ) (warnings : ℕ → Bool × Bool)
    (code : ErrorCode) (ops : List (VolumeOp T))
    (hwrap : NoWrap { v₀ with dev := v₀.dev.cutAfter k warnings code } ops) :
    let v := runVolume { v₀ with dev := v₀.dev.cutAfter k warnings code } ops
    ∀ doc ∈ v.written,
      (∃ p b doc', IndexAt (v.dev.medium p) b doc' ∧ doc.generation ≤ doc'.generation) ∧
      (doc.selfptr.partition = some .ip →
        (∃ b, doc.selfptr = ⟨some .ip, b + 1⟩ ∧ IndexAt (v.dev.medium .ip) b doc) ∨
        ∃ b doc', IndexAt (v.dev.medium .dp) b doc' ∧ doc.generation ≤ doc'.generation) := by
  intro v doc hdoc
  have hcut₀ : CrashOk { v₀ with dev := v₀.dev.cutAfter k warnings code } :=
    ⟨⟨h₀.ok.posOk, h₀.ok.appendPos_le⟩, h₀.canCount, h₀.size_le, h₀.none, h₀.dp, h₀.ip, h₀.generation_le,
      h₀.kept⟩
  have h : CrashOk v := run_crashOk ops _ hcut₀ (cutAfter_failStop v₀.dev k warnings code) hwrap
  have hheld : ∀ g, HeldDp v.dev g →
      ∃ b doc', IndexAt (v.dev.medium .dp) b doc' ∧ g ≤ doc'.generation := by
    rintro g ⟨b, n, doc', hin, -, hgen⟩
    exact ⟨b, doc', ⟨n, hin⟩, hgen⟩
  constructor
  · have hgen := h.generation_le doc hdoc
    cases hptr : v.index.selfptr.partition with
    | none =>
      rw [h.none hptr] at hdoc
      cases hdoc
    | some p =>
      cases p with
      | dp =>
        rcases hheld _ (h.dp hptr) with ⟨b, doc', hat, hle⟩
        exact ⟨.dp, b, doc', hat, hgen.trans hle⟩
      | ip =>
        rcases h.ip hptr with ⟨-, b, doc', hat, hle⟩
        exact ⟨.ip, b, doc', hat, hgen.trans hle⟩
  · intro hpart
    rcases h.kept doc hdoc hpart with hon | hdp
    · exact Or.inl hon
    · exact Or.inr (hheld _ hdp)

theorem freshVolume_crashOk : CrashOk freshVolume := by
  constructor
  · exact freshVolume_chainOk.ok
  · exact freshVolume_countOk.canCount
  · decide
  · exact fun _ => rfl
  · intro h
    cases h
  · intro h
    cases h
  · intro doc hdoc
    cases hdoc
  · intro doc hdoc
    cases hdoc

theorem wornVolume_crashOk : CrashOk wornVolume := by
  constructor
  · exact wornVolume_chainOk.ok
  · exact wornVolume_countOk.canCount
  · decide
  · intro h
    cases h
  · exact fun _ => ⟨4, 1, _, ⟨by decide, rfl⟩, le_refl _, le_refl _⟩
  · intro h
    cases h
  · exact wornVolume_countOk.generation_le
  · intro doc hdoc hpart
    rw [List.mem_singleton.mp hdoc] at hpart
    cases hpart

/-- An index has one of the generations of its partition. -/
theorem IndexAt.generation_mem {m : List (Record T)} {b : ℕ} {doc : Index T}
    (h : IndexAt m b doc) : doc.generation ∈ generations m := by
  rcases h with ⟨n, hin⟩
  exact List.mem_filterMap.mpr ⟨_, List.mem_of_getElem? hin.first, rfl⟩

/-- Two syncs behind the last generation but one, the second one cut off on the index partition. -/
def wrappedVolume : Volume Unit :=
  runVolume
    { wornVolume with
      dev := wornVolume.dev.cutAfter 20 (fun _ => (false, false)) ⟨-1, by decide⟩ }
    [.writeIndex .ip false, .change (), .writeIndex .ip false]

/-- Where the counter starts again, the data partition only has older generations than the
index that is overwritten on the index partition. -/
theorem crash_safety_wraps :
    ¬ ∀ (v₀ : Volume Unit) (k : ℕ) (warnings : ℕ → Bool × Bool) (code : ErrorCode)
      (ops : List (VolumeOp Unit)), CrashOk v₀ →
      let v := runVolume { v₀ with dev := v₀.dev.cutAfter k warnings code } ops
      ∀ doc ∈ v.written, doc.selfptr.partition = some .ip →
        (∃ b, doc.selfptr = ⟨some .ip, b + 1⟩ ∧ IndexAt (v.dev.medium .ip) b doc) ∨
        ∃ b doc', IndexAt (v.dev.medium .dp) b doc' ∧ doc.generation ≤ doc'.generation := by
  intro hall
  have hmem : (2 ^ 32 - 1, some Partition.ip)
      ∈ wrappedVolume.written.map fun doc => (doc.generation, doc.selfptr.partition) := by
    decide +kernel
  have hip : generations (wrappedVolume.dev.medium .ip) = [] := by decide +kernel
  have hdp : generations (wrappedVolume.dev.medium .dp) = [2 ^ 32 - 2, 0] := by decide +kernel
  rcases List.mem_map.mp hmem with ⟨doc, hdoc, heq⟩
  obtain ⟨hgen, hpart⟩ := Prod.mk.inj heq
  rcases hall wornVolume 20 (fun _ => (false, false)) ⟨-1, by decide⟩
    [.writeIndex .ip false, .change (), .writeIndex .ip false] wornVolume_crashOk doc hdoc hpart with
    ⟨b, -, hat⟩ | ⟨b, doc', hat, hle⟩
  · have hon := hat.generation_mem
    change doc.generation ∈ generations (wrappedVolume.dev.medium .ip) at hon
    rw [hip] at hon
    cases hon
  · have hon := hat.generation_mem
    change doc'.generation ∈ generations (wrappedVolume.dev.medium .dp) at hon
    rw [hdp, List.mem_pair] at hon
    omega

/-- A sync that is cut off while it writes to the index partition. -/
def cutVolume : Volume Unit :=
  runVolume
    { freshVolume with
      dev := freshVolume.dev.cutAfter 11 (fun _ => (false, false)) ⟨-1, by decide⟩ }
    [.writeIndex .ip false]

theorem crash_safety_cut :
    cutVolume.dev.eod .ip = 5 ∧ (∃ doc ∈ cutVolume.written, doc.generation = 1) ∧
    ∃ p b doc, IndexAt (cutVolume.dev.medium p) b doc ∧ 1 ≤ doc.generation := by
  have hmem : 1 ∈ cutVolume.written.map Index.generation := by decide +kernel
  have heod : cutVolume.dev.eod .ip = 5 := by decide +kernel
  rcases List.mem_map.mp hmem with ⟨doc, hdoc, hgen⟩
  have hsafe : ∃ p b doc', IndexAt (cutVolume.dev.medium p) b doc' ∧
      doc.generation ≤ doc'.generation :=
    (crash_safety freshVolume_crashOk 11 (fun _ => (false, false)) ⟨-1, by decide⟩
      [.writeIndex .ip false] ⟨fun hdirty => absurd hdirty (by decide +kernel), trivial⟩ doc hdoc).1
  rw [hgen] at hsafe
  exact ⟨heod, ⟨doc, hdoc, hgen⟩, hsafe⟩

end Crash

end Ltfs
