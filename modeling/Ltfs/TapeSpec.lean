import Ltfs.Volume

/-!
# What the tape commands can do

`put_result` lists everything a write command can do, and `seekAppendPosition_spec`
everything a seek can. From these, `Partly` describes a whole sequence of writes
that starts at the append position: whatever the drive answers, nothing below
the append position changes, and what is on tape behind it is an initial part of
what was to be written, possibly followed by junk.
-/

namespace Ltfs

section Device

variable {T : Type}

/-- Where the next write to `p` goes. -/
def Device.appendBlock (dev : Device T) (p : Partition) : ℕ :=
  if dev.appendPos p = 0 then dev.eod p else dev.appendPos p

/-- The position is on the tape. -/
def Device.PosOk (dev : Device T) : Prop := dev.position.block ≤ dev.eod dev.position.partition

/-- The position and the append positions are on the tape. -/
structure Device.Ok (dev : Device T) : Prop where
  posOk : dev.PosOk
  appendPos_le : ∀ p, dev.appendPos p ≤ dev.eod p

theorem appendBlock_le_eod {dev : Device T} {p : Partition} (h : dev.appendPos p ≤ dev.eod p) :
    dev.appendBlock p ≤ dev.eod p := by
  unfold Device.appendBlock
  split
  · exact le_refl _
  · exact h

theorem Device.Ok.appendBlock_le {dev : Device T} (h : dev.Ok) (p : Partition) :
    dev.appendBlock p ≤ dev.eod p :=
  appendBlock_le_eod (h.appendPos_le p)

/-! ## Write commands -/

/-- Everything a write command can do. -/
inductive PutResult (recs : List (Record T)) (dev : Device T) : ℤ × Device T → Prop where
  /-- Refused before anything happened. -/
  | refused (ret : ℤ) : ret < 0 → PutResult recs dev (ret, dev)
  /-- The drive reported an error. -/
  | failed (code : ErrorCode) (junk : Option (List (List UInt8))) (err : Bool) :
    dev.answer = .error code junk →
    PutResult recs dev (code, { dev.tick.spoil junk with writeError := err })
  /-- The records are on tape, though there may be too little space left. -/
  | written (ret : ℤ) (space : Partition → PartitionSpace) (early programmable : Bool) : ret ≤ 0 →
    dev.answer = .ok early programmable →
    PutResult recs dev (ret, { dev.tick.append recs with partitionSpace := space })

theorem put_result (recs : List (Record T)) (size : ℕ) (ignoreLess ignoreNospc : Bool)
    (dev : Device T) : PutResult recs dev (put recs size ignoreLess ignoreNospc dev) := by
  unfold put
  dsimp only
  by_cases hrefused : writeRefusal size ignoreLess ignoreNospc dev < 0
  · rw [if_pos hrefused]
    exact .refused _ hrefused
  · rw [if_neg hrefused]
    cases hans : dev.answer with
    | error code junk =>
      dsimp only
      split
      · have herr : dev.tick.spoil junk
            = { dev.tick.spoil junk with writeError := (dev.tick.spoil junk).writeError } := rfl
        rw [herr]
        exact .failed code junk _ hans
      · exact .failed code junk true hans
    | ok early programmable =>
      cases early with
      | true =>
        refine .written _ _ true programmable ?_ hans
        split
        · exact le_refl 0
        · decide
      | false =>
        cases programmable with
        | true =>
          refine .written _ _ false true ?_ hans
          split
          · exact le_refl 0
          · decide
        | false => exact .written 0 _ false false (le_refl 0) hans

/-! ## Frames -/

/-- The devices differ on partition `p` and in their flags only. -/
structure Frame (p : Partition) (dev dev' : Device T) : Prop where
  medium : ∀ q, q ≠ p → dev'.medium q = dev.medium q
  appendPos : ∀ q, q ≠ p → dev'.appendPos q = dev.appendPos q
  isWorm : dev'.isWorm = dev.isWorm
  answers : dev'.answers = dev.answers
  clock : dev.clock ≤ dev'.clock
  coherency : dev'.coherency = dev.coherency
  volumeChangeRef : dev'.volumeChangeRef = dev.volumeChangeRef
  writeProtected : dev'.writeProtected = dev.writeProtected
  maxBlockSize : dev'.maxBlockSize = dev.maxBlockSize

theorem Frame.refl (p : Partition) (dev : Device T) : Frame p dev dev :=
  ⟨fun _ _ => rfl, fun _ _ => rfl, rfl, rfl, le_refl _, rfl, rfl, rfl, rfl⟩

theorem Frame.trans {p : Partition} {dev₁ dev₂ dev₃ : Device T} (h : Frame p dev₁ dev₂)
    (h' : Frame p dev₂ dev₃) : Frame p dev₁ dev₃ :=
  ⟨fun q hq => (h'.medium q hq).trans (h.medium q hq),
    fun q hq => (h'.appendPos q hq).trans (h.appendPos q hq), h'.isWorm.trans h.isWorm,
    h'.answers.trans h.answers, h.clock.trans h'.clock, h'.coherency.trans h.coherency,
    h'.volumeChangeRef.trans h.volumeChangeRef, h'.writeProtected.trans h.writeProtected,
    h'.maxBlockSize.trans h.maxBlockSize⟩

@[simp] theorem setMedium_medium_self (dev : Device T) (p : Partition) (l : List (Record T)) :
    (dev.setMedium p l).medium p = l := by
  simp [Device.setMedium]

theorem setMedium_medium_ne (dev : Device T) {p q : Partition} (l : List (Record T)) (h : q ≠ p) :
    (dev.setMedium p l).medium q = dev.medium q := by
  simp [Device.setMedium, h]

@[simp] theorem setAppendPos_self (dev : Device T) (p : Partition) (n : ℕ) :
    (dev.setAppendPos p n).appendPos p = n := by
  simp [Device.setAppendPos]

theorem setAppendPos_ne (dev : Device T) {p q : Partition} (n : ℕ) (h : q ≠ p) :
    (dev.setAppendPos p n).appendPos q = dev.appendPos q := by
  simp [Device.setAppendPos, h]

theorem spoil_frame (dev : Device T) (junk : Option (List (List UInt8))) :
    Frame dev.position.partition dev (dev.spoil junk) := by
  cases junk with
  | none => exact Frame.refl _ _
  | some junk =>
    exact ⟨fun q hq => setMedium_medium_ne dev _ hq, fun _ _ => rfl, rfl, rfl, le_refl _, rfl, rfl, rfl, rfl⟩

theorem append_frame (dev : Device T) (recs : List (Record T)) :
    Frame dev.position.partition dev (dev.append recs) := by
  unfold Device.append
  dsimp only
  split
  · exact ⟨fun _ _ => rfl, fun q hq => setAppendPos_ne dev _ hq, rfl, rfl, le_refl _, rfl, rfl, rfl, rfl⟩
  · refine ⟨?_, fun q hq => setAppendPos_ne _ _ hq, rfl, rfl, le_refl _, rfl, rfl, rfl, rfl⟩
    intro q hq
    exact setMedium_medium_ne dev _ hq

theorem put_frame (recs : List (Record T)) (size : ℕ) (il ins : Bool) (dev : Device T) :
    Frame dev.position.partition dev (put recs size il ins dev).2 := by
  have hr := put_result recs size il ins dev
  generalize put recs size il ins dev = r at hr ⊢
  have htick : Frame dev.position.partition dev dev.tick :=
    ⟨fun _ _ => rfl, fun _ _ => rfl, rfl, rfl, Nat.le_succ _, rfl, rfl, rfl, rfl⟩
  cases hr with
  | refused ret h => exact Frame.refl _ _
  | failed code junk err h =>
    have hs := htick.trans (spoil_frame dev.tick junk)
    exact ⟨hs.medium, hs.appendPos, hs.isWorm, hs.answers, hs.clock, hs.coherency,
      hs.volumeChangeRef, hs.writeProtected, hs.maxBlockSize⟩
  | written ret space ew pew h =>
    have hs := htick.trans (append_frame dev.tick recs)
    exact ⟨hs.medium, hs.appendPos, hs.isWorm, hs.answers, hs.clock, hs.coherency,
      hs.volumeChangeRef, hs.writeProtected, hs.maxBlockSize⟩

/-! ## Sequences of writes -/

/-- Halfway through a sequence of writes to `p` from block `start` on: `done` is
on tape, `base` is what was on the partition before. -/
structure Writing (p : Partition) (start : ℕ) (base done : List (Record T)) (dev : Device T) :
    Prop where
  position : dev.position = ⟨p, start + done.length⟩
  medium : dev.medium p = if done = [] then base else base.take start ++ done
  appendPos : dev.appendPos p = start + done.length
  start_le : start ≤ base.length

/-- After a sequence of writes of `all` that may have failed anywhere. -/
structure Partly (p : Partition) (start : ℕ) (base all : List (Record T)) (dev : Device T) :
    Prop where
  medium : dev.medium p = base ∨ ∃ n junk, n ≤ all.length ∧
    dev.medium p = base.take start ++ all.take n ++ List.map Record.data junk
  start_le : start ≤ dev.appendBlock p
  posOk : dev.PosOk
  appendPos_le : dev.appendPos p ≤ dev.eod p

/-- How long the partition is while the sequence is under way. -/
theorem Writing.length {p : Partition} {start : ℕ} {base done : List (Record T)} {dev : Device T}
    (h : Writing p start base done dev) : start + done.length ≤ (dev.medium p).length := by
  rw [h.medium]
  have := h.start_le
  split
  · rename_i hnil
    simpa [hnil] using this
  · rw [List.length_append, List.length_take]
    omega

theorem Writing.take {p : Partition} {start : ℕ} {base done : List (Record T)} {dev : Device T}
    (h : Writing p start base done dev) :
    (dev.medium p).take (start + done.length) = base.take start ++ done := by
  rw [h.medium]
  have hle := h.start_le
  split
  · rename_i hnil
    simp [hnil]
  · rw [List.take_of_length_le]
    rw [List.length_append, List.length_take]
    omega

theorem Writing.partly {p : Partition} {start : ℕ} {base done : List (Record T)} {dev : Device T}
    (h : Writing p start base done dev) (more : List (Record T)) :
    Partly p start base (done ++ more) dev := by
  have hlen := h.length
  constructor
  · rw [h.medium]
    by_cases hnil : done = []
    · rw [if_pos hnil]
      exact Or.inl rfl
    · rw [if_neg hnil]
      exact Or.inr ⟨done.length, [], by simp, by simp⟩
  · unfold Device.appendBlock
    have := h.appendPos
    split
    · omega
    · omega
  · unfold Device.PosOk Device.eod
    rw [h.position]
    exact hlen
  · rw [h.appendPos]
    exact hlen

theorem Partly.congr {p : Partition} {start : ℕ} {base all : List (Record T)} {dev dev' : Device T}
    (h : Partly p start base all dev) (hm : dev'.medium = dev.medium)
    (ha : dev'.appendPos = dev.appendPos) (hp : dev'.position = dev.position) :
    Partly p start base all dev' := by
  constructor
  · rw [hm]
    exact h.medium
  · have := h.start_le
    unfold Device.appendBlock Device.eod at this ⊢
    rw [ha, hm]
    exact this
  · have := h.posOk
    unfold Device.PosOk Device.eod at this ⊢
    rw [hm, hp]
    exact this
  · have := h.appendPos_le
    unfold Device.eod at this ⊢
    rw [hm, ha]
    exact this

/-- One write of the sequence. -/
theorem Writing.put {p : Partition} {start : ℕ} {base done : List (Record T)} {dev : Device T}
    (h : Writing p start base done dev) (recs : List (Record T)) (size : ℕ) (il ins : Bool) :
    (put recs size il ins dev).1 ≤ 0 ∧
    ((put recs size il ins dev).1 = 0 → Writing p start base (done ++ recs) (put recs size il ins dev).2) ∧
    Partly p start base (done ++ recs) (put recs size il ins dev).2 := by
  have hr := put_result recs size il ins dev
  generalize Ltfs.put recs size il ins dev = r at hr ⊢
  have hpart : dev.position.partition = p := by rw [h.position]
  have hblock : dev.position.block = start + done.length := by rw [h.position]
  cases hr with
  | refused ret hneg => exact ⟨hneg.le, by dsimp only; omega, h.partly recs⟩
  | failed code junk err hans =>
    refine ⟨code.2.le, fun hz => absurd hz (ne_of_lt code.2), ?_⟩
    have hspoil : Partly p start base (done ++ recs) (dev.tick.spoil junk) := by
      cases junk with
      | none => exact (h.partly recs).congr rfl rfl rfl
      | some junk =>
        have hm : (dev.tick.spoil (some junk)).medium p
            = base.take start ++ done ++ List.map Record.data junk := by
          show (dev.tick.setMedium dev.position.partition
            ((dev.medium dev.position.partition).take dev.position.block
              ++ junk.map Record.data)).medium p = _
          rw [hpart, setMedium_medium_self, hblock, h.take]
        have hlen : ((dev.tick.spoil (some junk)).medium p).length
            = start + done.length + junk.length := by
          have hle := h.start_le
          rw [hm, List.length_append, List.length_append, List.length_take, List.length_map]
          omega
        have hap : (dev.tick.spoil (some junk)).appendPos p = start + done.length := h.appendPos
        constructor
        · exact Or.inr ⟨done.length, junk, by simp, by rw [hm]; simp⟩
        · unfold Device.appendBlock Device.eod
          rw [hap, hlen]
          split
          · omega
          · omega
        · unfold Device.PosOk Device.eod
          show dev.position.block ≤ ((dev.tick.spoil (some junk)).medium dev.position.partition).length
          rw [hpart, hlen, hblock]
          omega
        · unfold Device.eod
          rw [hap, hlen]
          omega
    exact hspoil.congr rfl rfl rfl
  | written ret space ew pew hle hans =>
    have hw : Writing p start base (done ++ recs)
        { dev.tick.append recs with partitionSpace := space } := by
      have happ : (dev.tick.append recs).medium p
          = if recs = [] then dev.medium p else (dev.medium p).take dev.position.block ++ recs := by
        rw [← hpart]
        unfold Device.append
        by_cases hnil : recs = []
        · simp [hnil, Device.tick, Device.setAppendPos]
        · simp [hnil, Device.tick, Device.setAppendPos, Device.setMedium]
      refine ⟨?_, ?_, ?_, h.start_le⟩
      · show (⟨dev.position.partition, dev.position.block + recs.length⟩ : Position) = _
        rw [hpart, hblock, List.length_append, Nat.add_assoc]
      · show (dev.tick.append recs).medium p = _
        rw [happ, hblock]
        by_cases hnil : recs = []
        · rw [if_pos hnil, hnil, List.append_nil]
          exact h.medium
        · rw [if_neg hnil, if_neg (by simp [hnil]), h.take, List.append_assoc]
      · have hpos : (dev.tick.append recs).appendPos dev.position.partition
            = dev.position.block + recs.length := by
          unfold Device.append
          simp [Device.tick, Device.setAppendPos]
        show (dev.tick.append recs).appendPos p = _
        rw [← hpart, hpos, hblock, List.length_append, Nat.add_assoc]
    refine ⟨hle, fun _ => hw, ?_⟩
    have := hw.partly []
    rwa [List.append_nil] at this

theorem Partly.mono {p : Partition} {start : ℕ} {base all : List (Record T)} {dev : Device T}
    (h : Partly p start base all dev) (more : List (Record T)) :
    Partly p start base (all ++ more) dev := by
  refine ⟨?_, h.start_le, h.posOk, h.appendPos_le⟩
  rcases h.medium with hm | ⟨n, junk, hn, hm⟩
  · exact Or.inl hm
  · refine Or.inr ⟨n, junk, by rw [List.length_append]; omega, ?_⟩
    rw [hm, List.take_append_of_le_length hn]

/-- The outcome of a sequence of writes of `recs` to `p`. -/
structure Wrote (p : Partition) (start : ℕ) (base done recs : List (Record T)) (dev : Device T)
    (r : ℤ × Device T) : Prop where
  ret_le : r.1 ≤ 0
  all : r.1 = 0 → Writing p start base (done ++ recs) r.2
  partly : Partly p start base (done ++ recs) r.2
  frame : Frame p dev r.2

theorem Writing.put_wrote {p : Partition} {start : ℕ} {base done : List (Record T)}
    {dev : Device T} (h : Writing p start base done dev) (recs : List (Record T)) (size : ℕ)
    (il ins : Bool) : Wrote p start base done recs dev (Ltfs.put recs size il ins dev) := by
  rcases h.put recs size il ins with ⟨h1, h2, h3⟩
  have hf := put_frame recs size il ins dev
  rw [h.position] at hf
  exact ⟨h1, h2, h3, hf⟩

/-- One sequence after the other, the second only if the first one succeeded. -/
theorem Wrote.andThen {p : Partition} {start : ℕ} {base done recs more : List (Record T)}
    {dev : Device T} {r next : ℤ × Device T} (h : Wrote p start base done recs dev r)
    (hnext : Writing p start base (done ++ recs) r.2 →
      Wrote p start base (done ++ recs) more r.2 next) :
    Wrote p start base done (recs ++ more) dev (if r.1 < 0 then r else next) := by
  by_cases hneg : r.1 < 0
  · rw [if_pos hneg]
    refine ⟨h.ret_le, by omega, ?_, h.frame⟩
    rw [← List.append_assoc]
    exact h.partly.mono more
  · rw [if_neg hneg]
    have hz : r.1 = 0 := le_antisymm h.ret_le (not_lt.mp hneg)
    have hn := hnext (h.all hz)
    refine ⟨hn.ret_le, ?_, ?_, h.frame.trans hn.frame⟩
    · rw [← List.append_assoc]
      exact hn.all
    · rw [← List.append_assoc]
      exact hn.partly

theorem writeBlocks_wrote (il ins : Bool) {p : Partition} {start : ℕ} {base : List (Record T)}
    (l : List (Record T × ℕ)) : ∀ {done : List (Record T)} {dev : Device T},
    Writing p start base done dev →
    Wrote p start base done (l.map Prod.fst) dev (writeBlocks il ins l dev) := by
  induction l with
  | nil =>
    intro done dev h
    refine ⟨le_refl 0, fun _ => ?_, ?_, Frame.refl _ _⟩
    · simpa [writeBlocks] using h
    · simpa [writeBlocks] using h.partly []
  | cons x l ih =>
    intro done dev h
    exact (h.put_wrote [x.1] x.2 il ins).andThen fun hw => ih hw

/-- An index on tape. -/
def indexImage (n : ℕ) (index : Index T) : List (Record T) :=
  .fm :: ((List.range n).map fun k => .idx index k n) ++ [.fm]

@[simp] theorem length_indexImage (n : ℕ) (index : Index T) :
    (indexImage n index).length = n + 2 := by
  simp [indexImage]

theorem writeIndexRecords_wrote {p : Partition} {start : ℕ} {base : List (Record T)}
    {dev : Device T} (h : Writing p start base [] dev) (flush : Bool) (bs n : ℕ)
    (index : Index T) :
    Wrote p start base [] (indexImage n index) dev (writeIndexRecords flush bs n index dev) := by
  have hflush : Wrote p start base [] [] dev
      (if flush = true then tapeWriteFilemark 0 true true dev else (0, dev)) := by
    split
    · exact h.put_wrote [] 0 true true
    · exact ⟨le_refl 0, fun _ => h, h.partly [], Frame.refl _ _⟩
  have himage : indexImage n index
      = [] ++ ([Record.fm] ++ (((List.range n).map fun k => .idx index k n) ++ [.fm])) := by
    simp [indexImage]
  rw [himage]
  unfold writeIndexRecords xmlSchemaToTape
  refine hflush.andThen fun h₁ => (h₁.put_wrote [.fm] 0 true true).andThen fun h₂ => ?_
  have hblocks := writeBlocks_wrote true true
    ((List.range n).map fun k => ((.idx index k n : Record T), bs)) h₂
  rw [List.map_map] at hblocks
  exact hblocks.andThen fun h₃ => h₃.put_wrote [.fm] 0 true true

/-! ## Failed writes -/

/-- A sequence of writes that failed has left some of its records, unless the drive has to be looked
at again or no more writes are allowed. -/
def Halted (p : Partition) (start : ℕ) (base done recs : List (Record T)) (r : ℤ × Device T) :
    Prop :=
  r.1 < 0 → needReval r.1 = true ∨ r.2.writeError = true ∨
    ∃ n, Writing p start base (done ++ recs.take n) r.2

theorem Writing.put_halted {p : Partition} {start : ℕ} {base done : List (Record T)}
    {dev : Device T} (h : Writing p start base done dev) (recs : List (Record T)) (size : ℕ) :
    Halted p start base done recs (Ltfs.put recs size true true dev) := by
  intro hneg
  unfold Ltfs.put at hneg ⊢
  dsimp only at hneg ⊢
  by_cases hrefused : writeRefusal size true true dev < 0
  · rw [if_pos hrefused]
    refine .inr (.inr ⟨0, ?_⟩)
    rw [List.take_zero, List.append_nil]
    exact h
  · rw [if_neg hrefused] at hneg ⊢
    cases hans : dev.answer with
    | error code junk =>
      dsimp only
      by_cases hreval : needReval code.1 = true
      · exact .inl hreval
      · rw [if_neg hreval]
        exact .inr (.inl rfl)
    | ok early programmable =>
      rw [hans] at hneg
      cases early with
      | true => exact absurd hneg (lt_irrefl 0)
      | false =>
        cases programmable with
        | true => exact absurd hneg (lt_irrefl 0)
        | false => exact absurd hneg (lt_irrefl 0)

theorem Halted.andThen {p : Partition} {start : ℕ} {base done recs more : List (Record T)}
    {r next : ℤ × Device T} (h : Halted p start base done recs r)
    (hnext : ¬ r.1 < 0 → Halted p start base (done ++ recs) more next) :
    Halted p start base done (recs ++ more) (if r.1 < 0 then r else next) := by
  by_cases hneg : r.1 < 0
  · rw [if_pos hneg]
    intro _
    rcases h hneg with hreval | herr | ⟨n, hw⟩
    · exact .inl hreval
    · exact .inr (.inl herr)
    · refine .inr (.inr ⟨min n recs.length, ?_⟩)
      rw [List.take_append_of_le_length (min_le_right n recs.length), ← List.take_take,
        List.take_length]
      exact hw
  · rw [if_neg hneg]
    intro hneg'
    rcases hnext hneg hneg' with hreval | herr | ⟨n, hw⟩
    · exact .inl hreval
    · exact .inr (.inl herr)
    · refine .inr (.inr ⟨recs.length + n, ?_⟩)
      rw [List.take_length_add_append, ← List.append_assoc]
      exact hw

theorem writeBlocks_halted {p : Partition} {start : ℕ} {base : List (Record T)}
    (l : List (Record T × ℕ)) : ∀ {done : List (Record T)} {dev : Device T},
    Writing p start base done dev →
    Halted p start base done (l.map Prod.fst) (writeBlocks true true l dev) := by
  induction l with
  | nil => exact fun _ hneg => absurd hneg (lt_irrefl 0)
  | cons x l ih =>
    intro done dev h
    have hwrote := h.put_wrote [x.1] x.2 true true
    exact (h.put_halted [x.1] x.2).andThen fun hneg =>
      ih (hwrote.all (le_antisymm hwrote.ret_le (not_lt.mp hneg)))

theorem writeIndexRecords_halted {p : Partition} {start : ℕ} {base : List (Record T)}
    {dev : Device T} (h : Writing p start base [] dev) (flush : Bool) (bs n : ℕ)
    (index : Index T) :
    Halted p start base [] (indexImage n index) (writeIndexRecords flush bs n index dev) := by
  have hflush : Wrote p start base [] [] dev
      (if flush = true then tapeWriteFilemark 0 true true dev else (0, dev)) ∧
      Halted p start base [] []
        (if flush = true then tapeWriteFilemark 0 true true dev else (0, dev)) := by
    split
    · exact ⟨h.put_wrote [] 0 true true, h.put_halted [] 0⟩
    · exact ⟨⟨le_refl 0, fun _ => h, h.partly [], Frame.refl _ _⟩,
        fun hneg => absurd hneg (lt_irrefl 0)⟩
  have himage : indexImage n index
      = [] ++ ([Record.fm] ++ (((List.range n).map fun k => .idx index k n) ++ [.fm])) := by
    simp [indexImage]
  rw [himage]
  unfold writeIndexRecords xmlSchemaToTape
  refine hflush.2.andThen fun h₀ => ?_
  have h₁ := hflush.1.all (le_antisymm hflush.1.ret_le (not_lt.mp h₀))
  have hmark := h₁.put_wrote [.fm] 0 true true
  refine (h₁.put_halted [.fm] 0).andThen fun h₂ => ?_
  have h₃ := hmark.all (le_antisymm hmark.ret_le (not_lt.mp h₂))
  have hblocks := writeBlocks_wrote true true
    ((List.range n).map fun k => ((.idx index k n : Record T), bs)) h₃
  have hhalted := writeBlocks_halted
    ((List.range n).map fun k => ((.idx index k n : Record T), bs)) h₃
  rw [List.map_map] at hblocks hhalted
  refine Halted.andThen hhalted fun h₄ => ?_
  exact (hblocks.all (le_antisymm hblocks.ret_le (not_lt.mp h₄))).put_halted [.fm] 0

/-! ## Positioning -/

theorem edevEodDetected_le : -edevEodDetected ≤ 0 := by decide

theorem edevEodDetected_ne : -edevEodDetected ≠ 0 := by decide

theorem locate_spec (p : Partition) (block : Option ℕ) (dev : Device T) :
    (locate p block dev).2.medium = dev.medium ∧
    (locate p block dev).2.appendPos = dev.appendPos ∧
    Frame p dev (locate p block dev).2 ∧ (locate p block dev).1 ≤ 0 ∧
    (dev.PosOk → (locate p block dev).2.PosOk) ∧
    ((locate p block dev).1 = 0 → (locate p block dev).2.position = ⟨p, block.getD (dev.eod p)⟩ ∧
      block.getD (dev.eod p) ≤ dev.eod p) := by
  have hnote : ∀ (d : Device T) (a b : Bool), (d.noteSpace p a b).medium = d.medium ∧
      (d.noteSpace p a b).appendPos = d.appendPos ∧ Frame p d (d.noteSpace p a b) := by
    intro d a b
    unfold Device.noteSpace
    split
    · exact ⟨rfl, rfl, fun _ _ => rfl, fun _ _ => rfl, rfl, rfl, le_refl _, rfl, rfl, rfl, rfl⟩
    · split
      · exact ⟨rfl, rfl, fun _ _ => rfl, fun _ _ => rfl, rfl, rfl, le_refl _, rfl, rfl, rfl, rfl⟩
      · exact ⟨rfl, rfl, Frame.refl _ _⟩
  have htick : Frame p dev dev.tick :=
    ⟨fun _ _ => rfl, fun _ _ => rfl, rfl, rfl, Nat.le_succ _, rfl, rfl, rfl, rfl⟩
  unfold locate
  cases dev.answer with
  | error code junk =>
    exact ⟨rfl, rfl, htick, code.2.le, fun h => h, fun hz => absurd hz (ne_of_lt code.2)⟩
  | ok early programmable =>
    dsimp only
    split
    · rename_i hle
      rcases hnote dev.tick early programmable with ⟨hm, ha, hf⟩
      have hf' := htick.trans hf
      refine ⟨hm, ha, ⟨hf'.medium, hf'.appendPos, hf'.isWorm, hf'.answers, hf'.clock, hf'.coherency,
        hf'.volumeChangeRef, hf'.writeProtected, hf'.maxBlockSize⟩, le_refl 0, ?_, fun _ => ⟨rfl, hle⟩⟩
      intro _
      show block.getD (dev.eod p) ≤ ((dev.tick.noteSpace p early programmable).medium p).length
      rw [hm]
      exact hle
    · refine ⟨rfl, rfl, ⟨fun _ _ => rfl, fun _ _ => rfl, rfl, rfl, Nat.le_succ _, rfl, rfl, rfl, rfl⟩,
        edevEodDetected_le, fun _ => ?_, fun hz => absurd hz edevEodDetected_ne⟩
      show dev.eod p ≤ dev.eod p
      exact le_refl _

/-- What a seek to the append position can do. -/
structure SeekSpec (p : Partition) (dev : Device T) (r : ℤ × Device T) : Prop where
  ret_le : r.1 ≤ 0
  medium : r.2.medium = dev.medium
  frame : Frame p dev r.2
  posOk : r.2.PosOk
  appendPos : r.2.appendPos p = dev.appendPos p ∨ r.2.appendPos p = dev.appendBlock p
  found : r.1 = 0 → Writing p (dev.appendBlock p) (dev.medium p) [] r.2

theorem seekAppendPosition_spec (p : Partition) (unlock : Bool) {dev : Device T} (h : dev.PosOk) :
    SeekSpec p dev (seekAppendPosition p unlock dev) := by
  unfold seekAppendPosition
  dsimp only
  set block := if dev.appendPos p = 0 then none else some (dev.appendPos p) with hblock
  have htarget : block.getD (dev.eod p) = dev.appendBlock p := by
    rw [hblock]
    unfold Device.appendBlock
    split <;> rfl
  -- the seek itself, which does nothing if the tape is there already
  have hseek : (tapeSeek p block dev).2.medium = dev.medium ∧
      (tapeSeek p block dev).2.appendPos = dev.appendPos ∧ Frame p dev (tapeSeek p block dev).2 ∧
      (tapeSeek p block dev).1 ≤ 0 ∧ (tapeSeek p block dev).2.PosOk ∧
      ((tapeSeek p block dev).1 = 0 → (tapeSeek p block dev).2.position
        = ⟨p, dev.appendBlock p⟩ ∧ dev.appendBlock p ≤ dev.eod p) := by
    unfold tapeSeek
    by_cases hthere : block = some dev.position.block ∧ p = dev.position.partition
    · rw [if_pos hthere]
      refine ⟨rfl, rfl, Frame.refl _ _, le_refl 0, h, fun _ => ?_⟩
      have hb : dev.position.block = dev.appendBlock p := by
        rw [← htarget, hthere.1]
        rfl
      constructor
      · rw [← hb, hthere.2]
      · rw [← hb, hthere.2]
        exact h
    · rw [if_neg hthere]
      rcases locate_spec p block dev with ⟨hm, ha, hf, hle, hp, hok⟩
      rw [htarget] at hok
      have hcode : locateCode (locate p block dev).1 ≤ 0 ∧
          (locateCode (locate p block dev).1 = 0 → (locate p block dev).1 = 0) := by
        unfold locateCode
        split
        · exact ⟨by decide, fun hz => absurd hz (by decide)⟩
        · exact ⟨hle, fun hz => hz⟩
      exact ⟨hm, ha, hf, hcode.1, hp h, fun hz => hok (hcode.2 hz)⟩
  set r := tapeSeek p block dev
  rcases hseek with ⟨hm, ha, hf, hle, hp, hok⟩
  by_cases hneg : r.1 < 0
  · rw [if_pos hneg]
    refine ⟨hneg.le, hm, ⟨hf.medium, hf.appendPos, hf.isWorm, hf.answers, hf.clock, hf.coherency,
      hf.volumeChangeRef, hf.writeProtected, hf.maxBlockSize⟩, hp, Or.inl (congrFun ha p), by dsimp only; omega⟩
  · rw [if_neg hneg]
    have hz : r.1 = 0 := le_antisymm hle (not_lt.mp hneg)
    rcases hok hz with ⟨hpos, hbound⟩
    -- `allow_overwrite` changes nothing that matters here
    have hover : ∀ r' : ℤ × Device T, r'.2.medium = r.2.medium → r'.2.appendPos = r.2.appendPos →
        r'.2.position = r.2.position → Frame p r.2 r'.2 → r'.1 ≤ 0 →
        SeekSpec p dev (r'.1, if r'.2.appendPos p = 0 then
          r'.2.setAppendPos p r'.2.position.block else r'.2) := by
      intro r' hm' ha' hpos' hf' hle'
      have hap : (if r'.2.appendPos p = 0 then r'.2.setAppendPos p r'.2.position.block
          else r'.2).appendPos p = dev.appendBlock p := by
        split
        · rw [setAppendPos_self, hpos', hpos]
        · rename_i hne
          rw [ha', ha] at hne ⊢
          unfold Device.appendBlock
          rw [if_neg hne]
      have hmed : (if r'.2.appendPos p = 0 then r'.2.setAppendPos p r'.2.position.block
          else r'.2).medium = dev.medium := by
        split
        · exact hm'.trans hm
        · exact hm'.trans hm
      have hposn : (if r'.2.appendPos p = 0 then r'.2.setAppendPos p r'.2.position.block
          else r'.2).position = ⟨p, dev.appendBlock p⟩ := by
        split
        · exact hpos'.trans hpos
        · exact hpos'.trans hpos
      have hframe : Frame p r'.2 (if r'.2.appendPos p = 0 then
          r'.2.setAppendPos p r'.2.position.block else r'.2) := by
        split
        · exact ⟨fun _ _ => rfl, fun q hq => setAppendPos_ne _ _ hq, rfl, rfl, le_refl _, rfl, rfl, rfl, rfl⟩
        · exact Frame.refl _ _
      refine ⟨hle', hmed, (hf.trans hf').trans hframe, ?_, Or.inr hap, fun _ => ?_⟩
      · unfold Device.PosOk Device.eod
        rw [hposn, hmed]
        exact hbound
      · exact ⟨by rw [hposn]; rfl, by rw [hmed]; rfl, by rw [hap]; rfl, hbound⟩
    split
    · cases r.2.answer with
      | error code junk =>
        exact hover (code, r.2.tick) rfl rfl rfl
          ⟨fun _ _ => rfl, fun _ _ => rfl, rfl, rfl, Nat.le_succ _, rfl, rfl, rfl, rfl⟩ code.2.le
      | ok a b =>
        exact hover (0, r.2.tick) rfl rfl rfl
          ⟨fun _ _ => rfl, fun _ _ => rfl, rfl, rfl, Nat.le_succ _, rfl, rfl, rfl, rfl⟩ (le_refl 0)
    · exact hover r rfl rfl rfl (Frame.refl _ _) hle

end Device

end Ltfs
