import Ltfs.CrashSafety

/-!
# When the write of an index succeeds

* `Device.Executes` — the drive executes the next commands.
* `Runs` — a sequence of commands that succeeds if and only if the drive executes all of them.
* `IndexWritable` — when an index can be written, by what the drive does before and during the
  write.
* `writeIndexFlat_zero_iff` — it is written in exactly this case.
-/

namespace Ltfs

section Commands

variable {T : Type}

/-! ## Sequences of commands -/

/-- The drive executes the next `n` commands. -/
def Device.Executes (dev : Device T) (n : ℕ) : Prop :=
  ∀ k < n, ∃ early programmable, dev.answers (dev.clock + k) = .ok early programmable

/-- After `n` commands, with what writing depends on unchanged. -/
structure Executed (n : ℕ) (dev dev' : Device T) : Prop where
  answers : dev'.answers = dev.answers
  clock : dev'.clock = dev.clock + n
  writeProtected : dev'.writeProtected = dev.writeProtected
  writeError : dev'.writeError = dev.writeError
  maxBlockSize : dev'.maxBlockSize = dev.maxBlockSize

/-- `n` commands that succeed if and only if the drive executes all of them. -/
structure Runs (n : ℕ) (dev : Device T) (r : ℤ × Device T) : Prop where
  ret_le : r.1 ≤ 0
  zero_iff : r.1 = 0 ↔ dev.Executes n
  after : r.1 = 0 → Executed n dev r.2

theorem Executed.refl (dev : Device T) : Executed 0 dev dev := ⟨rfl, rfl, rfl, rfl, rfl⟩

theorem Executed.trans {m n : ℕ} {dev₁ dev₂ dev₃ : Device T} (h : Executed m dev₁ dev₂)
    (h' : Executed n dev₂ dev₃) : Executed (m + n) dev₁ dev₃ :=
  ⟨h'.answers.trans h.answers, by rw [h'.clock, h.clock, Nat.add_assoc],
    h'.writeProtected.trans h.writeProtected, h'.writeError.trans h.writeError,
    h'.maxBlockSize.trans h.maxBlockSize⟩

theorem executes_zero (dev : Device T) : dev.Executes 0 := fun _ h => absurd h (Nat.not_lt_zero _)

theorem executes_one (dev : Device T) :
    dev.Executes 1 ↔ ∃ early programmable, dev.answer = .ok early programmable := by
  unfold Device.Executes Device.answer
  constructor
  · exact fun h => h 0 Nat.zero_lt_one
  · intro h k hk
    rw [Nat.lt_one_iff.mp hk]
    exact h

theorem Executed.executes_iff {m n : ℕ} {dev dev' : Device T} (h : Executed m dev dev') :
    dev.Executes (m + n) ↔ dev.Executes m ∧ dev'.Executes n := by
  unfold Device.Executes
  rw [h.answers, h.clock]
  constructor
  · intro hall
    refine ⟨fun k hk => hall k (by omega), fun k hk => ?_⟩
    rw [Nat.add_assoc]
    exact hall (m + k) (by omega)
  · rintro ⟨hfirst, hrest⟩ k hk
    by_cases hlt : k < m
    · exact hfirst k hlt
    · have hk' := hrest (k - m) (by omega)
      rw [show dev.clock + m + (k - m) = dev.clock + k by omega] at hk'
      exact hk'

/-- One sequence after the other. -/
theorem Runs.andThen {m n : ℕ} {dev : Device T} {r : ℤ × Device T} {f : Device T → ℤ × Device T}
    (h : Runs m dev r) (hf : ∀ dev', Executed m dev dev' → Runs n dev' (f dev')) :
    Runs (m + n) dev (if r.1 < 0 then r else f r.2) := by
  by_cases hneg : r.1 < 0
  · rw [if_pos hneg]
    refine ⟨h.ret_le, ?_, fun hzero => absurd hzero (ne_of_lt hneg)⟩
    constructor
    · exact fun hzero => absurd hzero (ne_of_lt hneg)
    · exact fun hall => h.zero_iff.mpr fun k hk => hall k (by omega)
  · rw [if_neg hneg]
    have hzero := le_antisymm h.ret_le (not_lt.mp hneg)
    have hafter := h.after hzero
    have hnext := hf r.2 hafter
    refine ⟨hnext.ret_le, ?_, fun hdone => hafter.trans (hnext.after hdone)⟩
    rw [hafter.executes_iff, hnext.zero_iff]
    exact ⟨fun hrest => ⟨h.zero_iff.mp hzero, hrest⟩, And.right⟩

theorem Runs.nothing (dev : Device T) : Runs 0 dev (0, dev) :=
  ⟨le_refl 0, ⟨fun _ => executes_zero dev, fun _ => rfl⟩, fun _ => .refl dev⟩

/-- Writing is not refused from the outset. -/
structure Device.Writable (dev : Device T) : Prop where
  writeProtected : dev.writeProtected = false
  writeError : dev.writeError = false

theorem Executed.writable {n : ℕ} {dev dev' : Device T} (h : Executed n dev dev')
    (hw : dev.Writable) : dev'.Writable :=
  ⟨h.writeProtected.trans hw.writeProtected, h.writeError.trans hw.writeError⟩

/-- A write that does not mind how much space is left. -/
theorem put_runs {dev : Device T} (hw : dev.Writable) (recs : List (Record T)) {size : ℕ}
    (hsize : size ≤ dev.maxBlockSize) : Runs 1 dev (put recs size true true dev) := by
  have hrefusal : writeRefusal size true true dev = 0 := by
    unfold writeRefusal
    dsimp only
    rw [hw.writeProtected, hw.writeError]
    simp [hsize]
  have happend : ∀ space, Executed 1 dev ((dev.tick.append recs).setSpace
      dev.position.partition space) ∧ Executed 1 dev (dev.tick.append recs) := by
    intro space
    unfold Device.append
    dsimp only
    split
    · exact ⟨⟨rfl, rfl, rfl, rfl, rfl⟩, ⟨rfl, rfl, rfl, rfl, rfl⟩⟩
    · exact ⟨⟨rfl, rfl, rfl, rfl, rfl⟩, ⟨rfl, rfl, rfl, rfl, rfl⟩⟩
  unfold put
  dsimp only
  rw [hrefusal, if_neg (lt_irrefl 0)]
  cases hans : dev.answer with
  | error code junk =>
    have hneg : code.1 < 0 := code.2
    refine ⟨hneg.le, ?_, fun hzero => absurd hzero (ne_of_lt hneg)⟩
    rw [executes_one, hans]
    exact ⟨fun hzero => absurd hzero (ne_of_lt hneg), by rintro ⟨_, _, h⟩; cases h⟩
  | ok early programmable =>
    have hexec : dev.Executes 1 := (executes_one dev).mpr ⟨early, programmable, hans⟩
    cases early with
    | true => exact ⟨le_refl 0, ⟨fun _ => hexec, fun _ => rfl⟩, fun _ => (happend _).1⟩
    | false =>
      cases programmable with
      | true => exact ⟨le_refl 0, ⟨fun _ => hexec, fun _ => rfl⟩, fun _ => (happend _).1⟩
      | false => exact ⟨le_refl 0, ⟨fun _ => hexec, fun _ => rfl⟩, fun _ => (happend .writable).2⟩

theorem tapeWriteFilemark_runs {dev : Device T} (hw : dev.Writable) (count : ℕ) :
    Runs 1 dev (tapeWriteFilemark count true true dev) :=
  put_runs hw (List.replicate count .fm) (Nat.zero_le _)

theorem writeBlocks_runs : ∀ (blocks : List (Record T × ℕ)) (dev : Device T), dev.Writable →
    (∀ b ∈ blocks, b.2 ≤ dev.maxBlockSize) →
    Runs blocks.length dev (writeBlocks true true blocks dev) := by
  intro blocks
  induction blocks with
  | nil => exact fun dev _ _ => .nothing dev
  | cons b rest ih =>
    intro dev hw hsize
    have hone := put_runs hw [b.1] (hsize b (List.mem_cons_self ..))
    have hrest := hone.andThen (f := writeBlocks true true rest) fun dev' h =>
      ih dev' (h.writable hw) fun b' hb' => (hsize b' (List.mem_cons_of_mem _ hb')).trans_eq
        h.maxBlockSize.symm
    rw [List.length_cons, Nat.add_comm]
    exact hrest

/-! ## The commands of an index -/

/-- The records of an index, with the flush before them if there is one. -/
theorem writeIndexRecords_runs {dev : Device T} (hw : dev.Writable) (flush : Bool)
    {blocksize n : ℕ} (index : Index T) (hsize : blocksize ≤ dev.maxBlockSize) :
    Runs ((if flush then 1 else 0) + (1 + (n + 1))) dev
      (writeIndexRecords flush blocksize n index dev) := by
  have hschema : ∀ dev' : Device T, dev'.Writable → blocksize ≤ dev'.maxBlockSize →
      Runs (n + 1) dev' (xmlSchemaToTape blocksize n index dev') := by
    intro dev' hw' hsize'
    have hblocks := writeBlocks_runs
      ((List.range n).map fun k => ((.idx index k n : Record T), blocksize)) dev' hw' (by
        intro b hb
        obtain ⟨k, -, rfl⟩ := List.mem_map.mp hb
        exact hsize')
    rw [List.length_map, List.length_range] at hblocks
    exact hblocks.andThen fun dev'' h => tapeWriteFilemark_runs (h.writable hw') 1
  have hopen : ∀ dev' : Device T, dev'.Writable → blocksize ≤ dev'.maxBlockSize →
      Runs (1 + (n + 1)) dev' (if (tapeWriteFilemark 1 true true dev').1 < 0 then
          tapeWriteFilemark 1 true true dev'
        else xmlSchemaToTape blocksize n index (tapeWriteFilemark 1 true true dev').2) :=
    fun dev' hw' hsize' => (tapeWriteFilemark_runs hw' 1).andThen fun dev'' h =>
      hschema dev'' (h.writable hw') (hsize'.trans_eq h.maxBlockSize.symm)
  unfold writeIndexRecords
  cases flush with
  | true =>
    exact (tapeWriteFilemark_runs hw 0).andThen fun dev' h =>
      hopen dev' (h.writable hw) (hsize.trans_eq h.maxBlockSize.symm)
  | false =>
    rw [if_neg Bool.false_ne_true, if_neg Bool.false_ne_true, if_neg (lt_irrefl 0), Nat.zero_add]
    exact hopen dev hw hsize

/-- Blocks that are too large for the drive are refused. -/
theorem writeIndexRecords_large {dev : Device T} (hw : dev.Writable) (flush : Bool)
    {blocksize n : ℕ} (index : Index T) (hn : 0 < n) (hsize : dev.maxBlockSize < blocksize) :
    (writeIndexRecords flush blocksize n index dev).1 < 0 := by
  have hput : ∀ (dev' : Device T) (recs : List (Record T)), dev'.maxBlockSize < blocksize →
      (put recs blocksize true true dev').1 < 0 := by
    intro dev' recs hsize'
    have hrefusal : writeRefusal blocksize true true dev' < 0 := by
      unfold writeRefusal
      dsimp only
      split
      · decide
      · split
        · decide
        · simp only [Bool.not_true, Bool.false_eq_true, and_false, if_false]
          decide
    unfold put
    dsimp only
    rw [if_pos hrefusal]
    exact hrefusal
  have hschema : ∀ dev' : Device T, dev'.maxBlockSize < blocksize →
      (xmlSchemaToTape blocksize n index dev').1 < 0 := by
    intro dev' hsize'
    obtain ⟨n, rfl⟩ : ∃ k, n = k + 1 := ⟨n - 1, by omega⟩
    have hfirst := hput dev' [.idx index 0 (n + 1)] hsize'
    unfold xmlSchemaToTape
    rw [List.range_succ_eq_map, List.map_cons]
    unfold writeBlocks tapeWrite
    dsimp only
    rw [if_pos hfirst, if_pos hfirst]
    exact hfirst
  have hopen : ∀ dev' : Device T, dev'.Writable → dev'.maxBlockSize < blocksize →
      (if (tapeWriteFilemark 1 true true dev').1 < 0 then tapeWriteFilemark 1 true true dev'
        else xmlSchemaToTape blocksize n index (tapeWriteFilemark 1 true true dev').2).1 < 0 := by
    intro dev' hw' hsize'
    have hruns := tapeWriteFilemark_runs hw' 1
    split
    · assumption
    · rename_i hneg
      have hafter := hruns.after (le_antisymm hruns.ret_le (not_lt.mp hneg))
      exact hschema _ (hafter.maxBlockSize.trans_lt hsize')
  unfold writeIndexRecords
  cases flush with
  | true =>
    have hruns := tapeWriteFilemark_runs hw 0
    rw [if_pos rfl]
    by_cases hneg : (tapeWriteFilemark 0 true true dev).1 < 0
    · rw [if_pos hneg]
      exact hneg
    · rw [if_neg hneg]
      have hafter := hruns.after (le_antisymm hruns.ret_le (not_lt.mp hneg))
      exact hopen _ (hafter.writable hw) (hafter.maxBlockSize.trans_lt hsize)
  | false =>
    rw [if_neg Bool.false_ne_true, if_neg (lt_irrefl 0)]
    exact hopen dev hw hsize

theorem tapeSeek_runs {p : Partition} {block : Option ℕ} {dev : Device T}
    (hle : block.getD (dev.eod p) ≤ dev.eod p) :
    Runs (if block = some dev.position.block ∧ p = dev.position.partition then 0 else 1) dev
      (tapeSeek p block dev) ∧
    ((tapeSeek p block dev).1 = 0 →
      (tapeSeek p block dev).2.appendOnlyMode = dev.appendOnlyMode) := by
  unfold tapeSeek
  by_cases hthere : block = some dev.position.block ∧ p = dev.position.partition
  · rw [if_pos hthere, if_pos hthere]
    exact ⟨.nothing dev, fun _ => rfl⟩
  · rw [if_neg hthere, if_neg hthere]
    unfold locate
    cases hans : dev.answer with
    | error code junk =>
      have hneg : locateCode code.1 < 0 := locateCode_neg code.2
      refine ⟨⟨hneg.le, ?_, fun hzero => absurd hzero (ne_of_lt hneg)⟩,
        fun hzero => absurd hzero (ne_of_lt hneg)⟩
      rw [executes_one, hans]
      exact ⟨fun hzero => absurd hzero (ne_of_lt hneg), by rintro ⟨_, _, h⟩; cases h⟩
    | ok early programmable =>
      dsimp only
      rw [if_pos hle]
      have hnote : Executed 1 dev (dev.tick.noteSpace p early programmable) ∧
          (dev.tick.noteSpace p early programmable).appendOnlyMode = dev.appendOnlyMode := by
        unfold Device.noteSpace
        split
        · exact ⟨⟨rfl, rfl, rfl, rfl, rfl⟩, rfl⟩
        · split
          · exact ⟨⟨rfl, rfl, rfl, rfl, rfl⟩, rfl⟩
          · exact ⟨⟨rfl, rfl, rfl, rfl, rfl⟩, rfl⟩
      have hcode : locateCode 0 = 0 := by decide
      refine ⟨⟨hcode.le, ⟨fun _ => (executes_one dev).mpr ⟨early, programmable, hans⟩,
        fun _ => hcode⟩, fun _ => ?_⟩, fun _ => hnote.2⟩
      exact ⟨hnote.1.answers, hnote.1.clock, hnote.1.writeProtected, hnote.1.writeError,
        hnote.1.maxBlockSize⟩

/-- How many commands the seek to the append position takes: none if the tape is there already, and
one more where overwriting has to be allowed. -/
def seekCommands (p : Partition) (unlockWrite : Bool) (dev : Device T) : ℕ :=
  let block := if dev.appendPos p = 0 then none else some (dev.appendPos p)
  (if block = some dev.position.block ∧ p = dev.position.partition then 0 else 1) +
    if unlockWrite ∧ dev.appendOnlyMode ∧ block ≠ none then 1 else 0

theorem seekAppendPosition_runs {p : Partition} (unlock : Bool) {dev : Device T}
    (hle : dev.appendPos p ≤ dev.eod p) :
    Runs (seekCommands p unlock dev) dev (seekAppendPosition p unlock dev) := by
  unfold seekAppendPosition seekCommands
  dsimp only
  set block := if dev.appendPos p = 0 then none else some (dev.appendPos p) with hblock
  have htarget : block.getD (dev.eod p) ≤ dev.eod p := by
    rw [hblock]
    split
    · exact le_refl _
    · exact hle
  obtain ⟨hseek, hmode⟩ := tapeSeek_runs htarget
  generalize tapeSeek p block dev = s at hseek hmode
  have hset : ∀ {n : ℕ} (d : Device T), Executed n dev d →
      Executed n dev (if d.appendPos p = 0 then d.setAppendPos p d.position.block else d) := by
    intro n d h
    split
    · exact ⟨h.answers, h.clock, h.writeProtected, h.writeError, h.maxBlockSize⟩
    · exact h
  by_cases hneg : s.1 < 0
  · rw [if_pos hneg]
    refine ⟨hseek.ret_le, ?_, fun hzero => absurd hzero (ne_of_lt hneg)⟩
    constructor
    · exact fun hzero => absurd hzero (ne_of_lt hneg)
    · exact fun hall => hseek.zero_iff.mpr fun k hk => hall k (by omega)
  · rw [if_neg hneg]
    have hzero := le_antisymm hseek.ret_le (not_lt.mp hneg)
    have hafter := hseek.after hzero
    have hexec := hseek.zero_iff.mp hzero
    rw [hmode hzero]
    by_cases hunlock : unlock = true ∧ dev.appendOnlyMode = true ∧ block ≠ none
    · rw [if_pos hunlock, if_pos hunlock]
      cases hans : s.2.answer with
      | error code junk =>
        have hcode : code.1 < 0 := code.2
        refine ⟨hcode.le, ?_, fun h => absurd h (ne_of_lt hcode)⟩
        rw [hafter.executes_iff, executes_one, hans]
        exact ⟨fun h => absurd h (ne_of_lt hcode), by rintro ⟨-, _, _, h⟩; cases h⟩
      | ok early programmable =>
        refine ⟨le_refl 0, ⟨fun _ => ?_, fun _ => rfl⟩, fun _ => hset _ ?_⟩
        · rw [hafter.executes_iff, executes_one]
          exact ⟨hexec, early, programmable, hans⟩
        · exact hafter.trans ⟨rfl, rfl, rfl, rfl, rfl⟩
    · rw [if_neg hunlock, if_neg hunlock, Nat.add_zero]
      exact ⟨hseek.ret_le, hseek.zero_iff, fun _ => hset _ hafter⟩

/-- How many commands an index takes from the seek to the append position on. -/
def indexCommands (p : Partition) (v : Volume T) : ℕ :=
  seekCommands p (decide (p = .ip)) v.dev +
    ((if decide (p = .ip) && ! v.ipIndexFileEnd then 1 else 0) +
      (1 + (v.blocksOf (v.newIndex p) + 1)))

/-- The volume can get an index on `p`: the lock status is known, the medium may be written to, its
blocks are not too large, and the drive executes all commands. -/
structure IndexWritable (p : Partition) (v : Volume T) : Prop where
  lock : ∀ code junk, v.dev.answer = .error code junk → code.1 = -edevInvalidFieldCdb
  allowed : 0 ≤ indexRefusal v
  blocksize : v.blocksize ≤ v.dev.maxBlockSize
  executed : v.dev.tick.Executes (indexCommands p { v with dev := v.dev.tick })

theorem writable_of_allowed {v : Volume T} (h : 0 ≤ indexRefusal v) : v.dev.Writable := by
  have hrefused : ∀ code : ℤ, code = -ltfsWriteProtect ∨ code = -ltfsWriteError →
      (∀ p, tapeReadOnly p v.dev = code) → indexRefusal v < 0 := by
    intro code hcode hall
    unfold indexRefusal
    dsimp only
    rw [hall, hall]
    rcases hcode with rfl | rfl
    · decide
    · decide
  constructor
  · by_contra hprotected
    rw [Bool.not_eq_false] at hprotected
    have hneg := hrefused _ (.inl rfl) fun p => by
      unfold tapeReadOnly
      rw [if_pos hprotected]
    omega
  · by_contra herror
    rw [Bool.not_eq_false] at herror
    by_cases hprotected : v.dev.writeProtected = true
    · have hneg := hrefused _ (.inl rfl) fun p => by
        unfold tapeReadOnly
        rw [if_pos hprotected]
      omega
    · have hneg := hrefused _ (.inr rfl) fun p => by
        unfold tapeReadOnly
        rw [if_neg hprotected, if_pos herror]
      omega

theorem writeIndexHere_zero_iff {p : Partition} {volstat : VolumeLock} {v : Volume T}
    (hok : v.dev.Ok) (hw : v.dev.Writable) :
    (writeIndexHere p false volstat v).1 = 0 ↔
      v.blocksize ≤ v.dev.maxBlockSize ∧ v.dev.Executes (indexCommands p v) := by
  have hseek := seekAppendPosition_runs (decide (p = .ip)) (hok.appendPos_le p)
  have hspec := seekAppendPosition_spec p (decide (p = .ip)) hok.posOk
  unfold writeIndexHere indexCommands
  dsimp only
  generalize seekAppendPosition p (decide (p = .ip)) v.dev = s at hseek hspec
  by_cases hneg : s.1 < 0
  · rw [if_pos hneg, outWritePerm_false]
    constructor
    · exact fun hzero => absurd hzero (ne_of_lt hneg)
    · rintro ⟨-, hall⟩
      exact absurd (hseek.zero_iff.mpr fun k hk => hall k (by omega)) (ne_of_lt hneg)
  · rw [if_neg hneg]
    have hzero := le_antisymm hseek.ret_le (not_lt.mp hneg)
    have hafter := hseek.after hzero
    have hw' := hafter.writable hw
    have hindex : v.indexFor s.2.position = v.newIndex p := by
      rw [(hspec.found hzero).position]
      rfl
    rw [hindex]
    have hresult : ∀ w : ℤ × Device T, w.1 ≤ 0 → ((if w.1 < 0 then
        outWritePerm p false (isWritePerm (-w.1)) volstat w.1 { v with dev := w.2 }
      else outWritePerm p false false volstat w.1
        (indexWritten p (v.newIndex p) { v with dev := w.2 })).1 = 0 ↔ w.1 = 0) := by
      intro w hle
      by_cases hwneg : w.1 < 0
      · rw [if_pos hwneg]
        constructor
        · exact fun h => absurd h (ne_of_lt (outWritePerm_neg _ _ _ _ hwneg _))
        · exact fun h => absurd h (ne_of_lt hwneg)
      · rw [if_neg hwneg, outWritePerm_false]
    by_cases hsize : v.blocksize ≤ v.dev.maxBlockSize
    · have hrecords := writeIndexRecords_runs hw' (decide (p = .ip) && ! v.ipIndexFileEnd)
        (n := v.blocksOf (v.newIndex p)) (v.newIndex p) (hsize.trans_eq hafter.maxBlockSize.symm)
      rw [hresult _ hrecords.ret_le, hrecords.zero_iff, hafter.executes_iff]
      exact ⟨fun hrest => ⟨hsize, hseek.zero_iff.mp hzero, hrest⟩, fun h => h.2.2⟩
    · have hlarge := writeIndexRecords_large hw' (decide (p = .ip) && ! v.ipIndexFileEnd)
        (v.newIndex p) (Nat.succ_pos (v.moreBlocks (v.newIndex p)))
        (hafter.maxBlockSize.trans_lt (not_le.mp hsize))
      have hneg' := (hresult _ hlarge.le).not.mpr (ne_of_lt hlarge)
      exact ⟨fun h => absurd h hneg', fun h => absurd h.1 hsize⟩

/-- An index is written, without one on the other partition before it, in exactly this case. -/
theorem writeIndexFlat_zero_iff {p : Partition} {v : Volume T} (hok : v.dev.Ok) :
    (writeIndexFlat p false v).1 = 0 ↔ IndexWritable p v := by
  have hdev := getCartVolumeLockStatus_dev v.dev
  have hok' : v.dev.tick.Ok := (tick_same v.dev).ok hok
  have hlock : (∀ code junk, v.dev.answer = .error code junk → code.1 = -edevInvalidFieldCdb) ↔
      ∃ volstat, (getCartVolumeLockStatus v.dev).1 = .ok volstat := by
    unfold getCartVolumeLockStatus
    cases hans : v.dev.answer with
    | ok early programmable => exact ⟨fun _ => ⟨_, rfl⟩, fun _ _ _ h => by cases h⟩
    | error code junk =>
      dsimp only
      by_cases hcode : code.1 = -edevInvalidFieldCdb
      · rw [if_pos hcode]
        refine ⟨fun _ => ⟨_, rfl⟩, fun _ code' _ h => ?_⟩
        cases h
        exact hcode
      · rw [if_neg hcode]
        exact ⟨fun h => absurd (h code junk rfl) hcode, by rintro ⟨_, h⟩; cases h⟩
  unfold writeIndexFlat
  rcases hcart : getCartVolumeLockStatus v.dev with ⟨ret | volstat, dev⟩
  · rw [hcart] at hlock
    constructor
    · exact fun h => absurd h (ne_of_lt (getCartVolumeLockStatus_error hcart))
    · intro h
      obtain ⟨_, hok⟩ := hlock.mp h.lock
      cases hok
  · rw [hcart] at hdev hlock
    subst hdev
    dsimp only
    rw [if_neg Bool.false_ne_true]
    by_cases hrefused : indexRefusal { v with dev := v.dev.tick } < 0
    · rw [if_pos hrefused]
      exact ⟨fun h => absurd h (ne_of_lt hrefused), fun h => absurd hrefused (not_lt.mpr h.allowed)⟩
    · have hallowed : 0 ≤ indexRefusal v := not_lt.mp hrefused
      rw [if_neg hrefused, writeIndexHere_zero_iff hok' (writable_of_allowed (not_lt.mp hrefused))]
      exact ⟨fun ⟨hsize, hall⟩ => ⟨hlock.mpr ⟨volstat, rfl⟩, hallowed, hsize, hall⟩,
        fun h => ⟨h.blocksize, h.executed⟩⟩

end Commands

end Ltfs
