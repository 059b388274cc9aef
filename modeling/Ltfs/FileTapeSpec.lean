import Ltfs.FileTape

/-!
# The file backend is a tape

For each command of the backend, what a tape of records and marks does on it, and that the
directory follows.

* `Holds` — the files of a partition: one for each block, and one behind the last.
* `perform` — the tape. `Agrees` — an answer of the drive and the files behind it are those of the
  tape.
* `Command.Safe` — the cartridge takes the command; and the backend is not asked to go back over one
  file mark from block 0 of a partition that begins with a mark.
* `fileTape_iff` — after a load, the commands of a run agree with the tape exactly when each of them
  is safe.
-/

namespace Ltfs.FileTape

open Lib Lib.TapeItem Function

/-! ## The files of a partition -/

/-- The blocks of the tape hold bytes. -/
abbrev Item := TapeItem (List UInt8)

/-- The file that a block has, by what stands there. Behind the last block it is the end of data. -/
def fileOf (item : Option Item) (type : Suffix) : Option (List UInt8) :=
  match item, type with
  | some (.data content), .record => some content
  | some .mark, .filemark => some []
  | none, .eod => some []
  | _, _ => none

/-- The files of a partition: exactly one for each block, and the end of data behind them. -/
def Holds (dir : Directory) (part : ℕ) (l : List Item) : Prop :=
  ∀ b ≤ l.length, ∀ type, dir part b type = fileOf l[b]? type

section Directory

variable {dir : Directory} {part : ℕ} {l : List Item}

theorem removeRecords_apply (dir : Directory) (part first n p b : ℕ) (s : Suffix) :
    dir.removeRecords part first n p b s =
      if p = part ∧ first ≤ b ∧ b < first + n then none else dir p b s := by
  unfold Directory.removeRecords
  induction n with
  | zero =>
    rw [if_neg (by omega)]
    rfl
  | succ n ih =>
    rw [List.range'_concat, List.foldl_append, List.foldl_cons, List.foldl_nil, Nat.one_mul]
    unfold Directory.removeRecord at ih ⊢
    rw [ih]
    by_cases hp : p = part
    · by_cases hb : b = first + n
      · rw [if_pos ⟨hp, hb⟩, if_pos ⟨hp, by omega⟩]
      · rw [if_neg (fun h => hb h.2)]
        by_cases hin : first ≤ b ∧ b < first + n
        · rw [if_pos ⟨hp, hin⟩, if_pos ⟨hp, by omega⟩]
        · rw [if_neg (fun h => hin h.2), if_neg (fun h => hin ⟨h.2.1, by omega⟩)]
    · rw [if_neg (fun h => hp h.1), if_neg (fun h => hp h.1), if_neg (fun h => hp h.1)]

/-- A file mark of a partition is a mark of the tape. -/
theorem Holds.checkFm (h : Holds dir part l) {b : ℕ} (hb : b ≤ l.length) :
    dir.checkFile part b .filemark = (l[b]?).any isMark := by
  unfold Directory.checkFile
  rw [h b hb]
  rcases l[b]? with _ | _ | _
  · rfl
  · rfl
  · rfl

/-- The count of the file marks in front of a block. -/
theorem Holds.countFm (h : Holds dir part l) {b : ℕ} (hb : b ≤ l.length) :
    dir.countFm part b = (l.take b).countP isMark := by
  unfold Directory.countFm
  induction b with
  | zero => rfl
  | succ b ih =>
    have hlt : b < l.length := hb
    rw [List.range_succ, List.countP_append, ih (by omega), List.take_succ_eq_append_getElem hlt,
      List.countP_append, List.countP_singleton, List.countP_singleton, h.checkFm (by omega),
      List.getElem?_eq_getElem hlt]
    rfl

end Directory

section WriteEod

variable (st : FileDebug)

/-- Behind `_filedebug_write_eod`, a partition that was filled up to the head holds what is in
front of the head. -/
theorem writeEod_holds {l : List Item} (hblock : st.block = l.length)
    (hfiles : ∀ b < l.length, ∀ type, st.dir st.partition b type = fileOf l[b]? type) :
    Holds st.writeEod.dir st.partition l := by
  intro b hb type
  -- the dirs before and behind the loop differ at blocks behind the head only
  have hloop : st.writeEod.dir st.partition b type =
      ((st.dir.removeRecord st.partition st.block).create st.partition st.block .eod [])
        st.partition b type := by
    unfold FileDebug.writeEod
    dsimp only
    split
    · rw [removeRecords_apply, if_neg (by omega)]
    · rfl
  rw [hloop]
  unfold Directory.create Directory.removeRecord
  by_cases hend : b = st.block
  · subst hend
    have hnone : l[st.block]? = none := List.getElem?_eq_none (by omega)
    rw [hnone]
    cases type with
    | record => simp [fileOf]
    | filemark => simp [fileOf]
    | eod => simp [fileOf]
  · rw [if_neg (fun h => hend h.2.1), if_neg (fun h => hend h.2)]
    exact hfiles b (by omega) type

/-- The other partition stays as it is. -/
theorem writeEod_dir_of_ne {p : ℕ} (hp : p ≠ st.partition) : st.writeEod.dir p = st.dir p := by
  funext b type
  unfold FileDebug.writeEod
  dsimp only
  split
  · rw [removeRecords_apply, if_neg (fun h => hp h.1)]
    unfold Directory.create Directory.removeRecord
    rw [if_neg (fun h => hp h.1), if_neg (fun h => hp h.1)]
  · unfold Directory.create Directory.removeRecord
    rw [if_neg (fun h => hp h.1), if_neg (fun h => hp h.1)]

end WriteEod

/-! ## The commands on a tape -/

/-- The commands of the backend. -/
inductive Command where
  | write (buf : List UInt8)
  | writefm (count : ℕ)
  | read (count : ℕ)
  | locate (partition block : ℕ)
  | rewind
  | space (count : ℕ) (type : SpaceType)
deriving DecidableEq, Repr

/-- A command to the backend, with the position that the caller keeps. -/
def Command.exec (st : FileDebug) (pos : TcPosition) : Command → Option Result
  | .write buf => some (filedebugWrite st buf pos)
  | .writefm count => some (filedebugWritefm st count pos)
  | .read count => some (filedebugRead st count pos)
  | .locate partition block => some (filedebugLocate st partition block pos)
  | .rewind => some (filedebugRewind st pos)
  | .space count type => filedebugSpace st count type pos

/-- The largest block. -/
def largestBlock : ℕ := 16 * (1024 * 1024)

abbrev Tape := RecordTape (List UInt8)

/-- What a tape makes of a command: the code, the bytes and the tape. A buffer that is too short
gets the beginning of a record. -/
def perform (t : Tape) : Command → ℤ × List UInt8 × Tape
  | .write buf =>
    if buf = [] then (0, [], t)
    else if largestBlock < buf.length then (-edevInvalidArg, [], t)
    else (buf.length, [], t.append [.data buf])
  | .writefm count =>
    if count = 0 then (0, [], t) else (0, [], t.append (List.replicate count .mark))
  | .read count =>
    match t.current[t.block]? with
    | none => (-edevEodDetected, [], t)
    | some .mark => (0, [], { t with block := t.block + 1 })
    | some (.data content) =>
      ((content.take count).length, content.take count, { t with block := t.block + 1 })
  | .locate partition block =>
    if maxPartitions ≤ partition then (-edevInvalidArg, [], t) else (0, [], t.moveTo partition block)
  | .rewind => (0, [], { t with block := 0 })
  | .space _ .eod => (0, [], { t with block := t.current.length })
  | .space count .fmF =>
    (if (t.spaceForward count).1 then 0 else -edevEodDetected, [], (t.spaceForward count).2)
  | .space count .fmB =>
    (if (t.spaceBackward count).1 then 0 else -edevBopDetected, [], (t.spaceBackward count).2)

/-- A position that says where the head of a tape is. -/
structure Reports (pos : TcPosition) (t : Tape) : Prop where
  partition : pos.partition = t.partition
  block : pos.block = t.block
  filemarks : pos.filemarks = t.filemarks

/-- Both partitions of a tape, in the directory and with their ends of data. -/
def Stored (st : FileDebug) (t : Tape) : Prop :=
  ∀ p < maxPartitions, Holds st.dir p (t.items p) ∧ st.eod p = (t.items p).length

/-- The answer of the drive to a command is that of the tape, and so are the files behind it. -/
structure Agrees (r : Result) (a : ℤ × List UInt8 × Tape) : Prop where
  ret : r.ret = a.1
  data : r.data = a.2.1
  pos : Reports r.pos a.2.2
  stored : Stored r.drive a.2.2

/-- The drive keeps a tape: neither the dummy mode nor the forced errors are on, and its fields and
the caller's position go with the directory. -/
structure Refines (st : FileDebug) (pos : TcPosition) (t : Tape) : Prop where
  ready : st.ready = true
  dummyIo : st.dummyIo = false
  forceWriteperm : st.forceWriteperm = 0
  forceReadperm : st.forceReadperm = 0
  maxBlockSize : st.maxBlockSize = largestBlock
  partition : st.partition = t.partition
  range : t.partition < maxPartitions
  block : st.block = t.block
  filemarks : st.filemarks = t.filemarks
  placed : t.Placed
  stored : Stored st t
  lastBlock : ∀ p < maxPartitions, st.lastBlock p = (t.items p).length - 1
  pos : Reports pos t

/-- The commands the drive takes without an emulated refusal; spacing from a block that counts as
no block, and spacing back over one mark from the beginning of a partition that begins with a mark,
are not among them. -/
def Command.Safe (st : FileDebug) : Command → Prop
  | .write _ =>
    (st.isWorm && st.eod st.partition ≠ st.block) = false ∧ st.isReadonly = false ∧
      (st.unsupportedTape || st.unsupportedFormat) = false
  | .writefm _ => True
  | .read _ | .locate _ _ => (st.unsupportedTape || st.unsupportedFormat) = false
  | .rewind => st.unsupportedTape = false
  | .space count type =>
    (st.unsupportedTape || st.unsupportedFormat) = false ∧ st.missing type = false ∧
      ¬ (type = .fmB ∧ st.block = 0 ∧ count = 1 ∧
        st.dir.checkFile st.partition 0 .filemark = true)

instance (st : FileDebug) : ∀ c : Command, Decidable (c.Safe st)
  | .write _ => inferInstanceAs (Decidable (_ ∧ _ ∧ _))
  | .writefm _ => inferInstanceAs (Decidable True)
  | .read _ | .locate _ _ | .rewind => inferInstanceAs (Decidable (_ = _))
  | .space _ _ => inferInstanceAs (Decidable (_ ∧ _ ∧ ¬ _))

/-- Every command of a run is answered like by the tape. -/
def RunAgrees : FileDebug → TcPosition → Tape → List Command → Prop
  | _, _, _, [] => True
  | st, pos, t, c :: cs =>
    ∃ r, c.exec st pos = some r ∧ Agrees r (perform t c) ∧
      RunAgrees r.drive r.pos (perform t c).2.2 cs

/-- Every command of a run is safe when it comes. -/
def RunSafe : FileDebug → TcPosition → List Command → Prop
  | _, _, [] => True
  | st, pos, c :: cs => c.Safe st ∧ ∀ r, c.exec st pos = some r → RunSafe r.drive r.pos cs

/-! ## Writing -/

section Writing

variable {st : FileDebug} {pos : TcPosition} {t : Tape}

theorem Refines.current (h : Refines st pos t) :
    Holds st.dir st.partition t.current ∧ st.eod st.partition = t.current.length := by
  rw [h.partition]
  exact h.stored t.partition h.range

@[simp]
theorem Refines.dummyBlock (h : Refines st pos t) : st.dummyBlock = false := by
  unfold FileDebug.dummyBlock
  rw [h.dummyIo]
  rfl

/-- What stands in front of the head is as long as the block number says. -/
theorem Refines.take_length (h : Refines st pos t) :
    (t.current.take t.block).length = st.block := by
  rw [List.length_take, Nat.min_eq_left h.placed, h.block]

theorem Refines.append_length (h : Refines st pos t) (item : Item) :
    (t.append [item]).current.length = st.block + 1 := by
  rw [RecordTape.append_current, List.length_append, h.take_length]
  rfl

/-- A new file at the head, and what is in front of it. -/
theorem Refines.put_files (h : Refines st pos t) {type : Suffix} {content : List UInt8}
    {item : Item} (hitem : ∀ s, fileOf (some item) s = if s = type then some content else none)
    {b : ℕ} (hb : b ≤ st.block) (s : Suffix) :
    (st.putRecord type content).dir st.partition b s = fileOf (t.append [item]).current[b]? s := by
  have htake := h.take_length
  unfold FileDebug.putRecord Directory.create Directory.removeRecord
  dsimp only
  rw [RecordTape.append_current]
  by_cases hlast : b = st.block
  · subst hlast
    rw [List.getElem?_append_right (Nat.le_of_eq htake), htake, Nat.sub_self]
    show _ = fileOf (some item) s
    rw [hitem]
    by_cases hs : s = type
    · rw [if_pos ⟨rfl, rfl, hs⟩, if_pos hs]
    · rw [if_neg (fun hh => hs hh.2.2), if_neg hs, if_pos ⟨rfl, rfl⟩]
  · have hlt : b < st.block := by omega
    have hblock : st.block ≤ t.current.length := by
      rw [h.block]
      exact h.placed
    rw [List.getElem?_append_left (by rw [htake]; exact hlt),
      List.getElem?_take_of_lt (by rw [← h.block]; exact hlt),
      if_neg (fun hh => hlast hh.2.1), if_neg (fun hh => hlast hh.2)]
    exact h.current.1 b (by omega) s

/-- One more block at the head, and the end of data behind it. -/
theorem Refines.put (h : Refines st pos t) (type : Suffix) (content : List UInt8) (item : Item)
    (hitem : ∀ s, fileOf (some item) s = if s = type then some content else none)
    {pos' : TcPosition} (hpos' : Reports pos' (t.append [item])) {fm : ℕ}
    (hfm : fm = (t.append [item]).filemarks) :
    Refines { ((st.putRecord type content).step).writeEod with filemarks := fm } pos'
      (t.append [item]) := by
  have hlen := h.append_length item
  have hend : Holds ((st.putRecord type content).step).writeEod.dir st.partition
      (t.append [item]).current :=
    writeEod_holds ((st.putRecord type content).step) hlen.symm fun b hb s =>
      h.put_files hitem (by omega) s
  have hcur : (t.append [item]).items t.partition = (t.append [item]).current := rfl
  constructor
  · exact h.ready
  · exact h.dummyIo
  · exact h.forceWriteperm
  · exact h.forceReadperm
  · exact h.maxBlockSize
  · exact h.partition
  · exact h.range
  · show st.block + 1 = t.block + 1
    rw [h.block]
  · exact hfm
  · exact h.placed.append _
  · intro p hp
    show Holds ((st.putRecord type content).step).writeEod.dir p _ ∧
      update st.eod st.partition (st.block + 1) p = _
    by_cases hcase : p = t.partition
    · subst hcase
      rw [h.partition] at hend ⊢
      rw [hcur, update_self, hlen]
      exact ⟨hend, rfl⟩
    · -- the other partition
      have hne : p ≠ st.partition := by
        rw [h.partition]
        exact hcase
      rw [RecordTape.append_of_ne t _ hcase, update_of_ne hne]
      have hput : (st.putRecord type content).step.dir p = st.dir p := by
        funext b s
        show (st.putRecord type content).dir p b s = _
        unfold FileDebug.putRecord Directory.create Directory.removeRecord
        dsimp only
        rw [if_neg (fun hh => hne hh.1), if_neg (fun hh => hne hh.1)]
      have hstored := h.stored p hp
      refine ⟨fun b hb s => ?_, hstored.2⟩
      rw [writeEod_dir_of_ne ((st.putRecord type content).step) hne, hput]
      exact hstored.1 b hb s
  · intro p hp
    show update st.lastBlock st.partition (((st.block + 1 : ℕ) : ℤ) - 1) p = _
    by_cases hcase : p = t.partition
    · subst hcase
      rw [h.partition, hcur, update_self, hlen]
    · have hne : p ≠ st.partition := by
        rw [h.partition]
        exact hcase
      rw [RecordTape.append_of_ne t _ hcase, update_of_ne hne]
      exact h.lastBlock p hp
  · exact hpos'

end Writing


section Write

variable {st : FileDebug} {pos : TcPosition} {t : Tape}

theorem Reports.warn {st : FileDebug} {pos : TcPosition} {t : Tape} (h : Reports pos t)
    (exactly : Bool) : Reports (st.warn pos exactly) t := ⟨h.partition, h.block, h.filemarks⟩

theorem Refines.countWritePass (h : Refines st pos t) : Refines st.countWritePass pos t :=
  ⟨h.ready, h.dummyIo, h.forceWriteperm, h.forceReadperm, h.maxBlockSize, h.partition, h.range,
    h.block, h.filemarks, h.placed, h.stored, h.lastBlock, h.pos⟩

theorem Refines.warn {pos' : TcPosition} (h : Refines st pos' t) (drive : FileDebug)
    (exactly : Bool) : Refines st (drive.warn pos' exactly) t :=
  ⟨h.ready, h.dummyIo, h.forceWriteperm, h.forceReadperm, h.maxBlockSize, h.partition, h.range,
    h.block, h.filemarks, h.placed, h.stored, h.lastBlock, h.pos.warn exactly⟩

/-- An answer with the code and the bytes of the tape, and a drive that keeps it. -/
theorem Refines.agrees {r : Result} {a : ℤ × List UInt8 × Tape} (h : Refines r.drive r.pos a.2.2)
    (hret : r.ret = a.1) (hdata : r.data = a.2.1) : Agrees r a := ⟨hret, hdata, h.pos, h.stored⟩

/-- `filedebug_write`. -/
theorem write_spec (h : Refines st pos t) (buf : List UInt8)
    (hsafe : (Command.write buf).Safe st) :
    (filedebugWrite st buf pos).ret = (perform t (.write buf)).1 ∧
      (filedebugWrite st buf pos).data = (perform t (.write buf)).2.1 ∧
      Refines (filedebugWrite st buf pos).drive (filedebugWrite st buf pos).pos
        (perform t (.write buf)).2.2 := by
  obtain ⟨hworm, hreadonly, hunsupported⟩ := hsafe
  have hworm' : (st.isWorm && st.eod pos.partition ≠ pos.block) = false := by
    rw [h.pos.partition, h.pos.block, ← h.partition, ← h.block]
    exact hworm
  have hready := h.ready
  have hforce := h.forceWriteperm
  have hmax := h.maxBlockSize
  unfold filedebugWrite perform
  simp only [hready, hworm', hreadonly, hunsupported, hforce, hmax, Bool.not_true,
    Bool.false_eq_true, if_false, ne_eq, not_true_eq_false, false_and]
  by_cases hempty : buf = []
  · rw [if_pos hempty, if_pos hempty]
    exact ⟨rfl, rfl, h⟩
  · rw [if_neg hempty, if_neg hempty]
    by_cases hlarge : largestBlock < buf.length
    · rw [if_pos hlarge, if_pos hlarge]
      exact ⟨rfl, rfl, h⟩
    · rw [if_neg hlarge, if_neg hlarge]
      unfold FileDebug.writeRecord
      rw [h.dummyBlock, if_neg (by simp)]
      have hmarks : (t.append [.data buf]).filemarks = t.filemarks := by
        rw [RecordTape.filemarks_append h.placed]
        rfl
      have hpos : Reports { pos with block := st.block + 1 } (t.append [.data buf]) := by
        constructor
        · exact h.pos.partition
        · show st.block + 1 = t.block + 1
          rw [h.block]
        · rw [hmarks]
          exact h.pos.filemarks
      have hfm : st.countWritePass.filemarks = (t.append [.data buf]).filemarks := by
        rw [hmarks]
        exact h.filemarks
      have hput := h.countWritePass.put .record buf (.data buf)
        (by intro s; cases s <;> rfl) hpos hfm
      exact ⟨rfl, rfl, hput.warn _ true⟩

/-- The loop of `filedebug_writefm`. -/
theorem writeFms_spec (h : Refines st pos t) (n : ℕ) :
    Refines (FileDebug.writeFms (n + 1) st)
      { pos with
        block := (FileDebug.writeFms (n + 1) st).block
        filemarks := (FileDebug.writeFms (n + 1) st).filemarks }
      (t.append (List.replicate (n + 1) .mark)) := by
  have hone : ∀ {st : FileDebug} {pos : TcPosition} {t : Tape}, Refines st pos t →
      Refines st.writeOneFm
        { pos with block := st.writeOneFm.block, filemarks := st.writeOneFm.filemarks }
        (t.append [.mark]) := by
    intro st pos t h
    have hmarks : (t.append [.mark]).filemarks = t.filemarks + 1 := by
      rw [RecordTape.filemarks_append h.placed]
      rfl
    have hfm : st.filemarks + 1 = (t.append [.mark]).filemarks := by
      rw [hmarks, h.filemarks]
    have hpos : Reports { pos with block := st.block + 1, filemarks := st.filemarks + 1 }
        (t.append [.mark]) := by
      constructor
      · exact h.pos.partition
      · show st.block + 1 = t.block + 1
        rw [h.block]
      · exact hfm
    exact h.put .filemark [] .mark
      (by intro s; cases s <;> rfl) hpos hfm
  induction n generalizing st pos t with
  | zero => exact hone h
  | succ n ih =>
    have hnext := ih (hone h)
    rw [RecordTape.append_append h.placed] at hnext
    exact hnext

/-- `filedebug_writefm`. -/
theorem writefm_spec (h : Refines st pos t) (count : ℕ) :
    (filedebugWritefm st count pos).ret = (perform t (.writefm count)).1 ∧
      (filedebugWritefm st count pos).data = (perform t (.writefm count)).2.1 ∧
      Refines (filedebugWritefm st count pos).drive (filedebugWritefm st count pos).pos
        (perform t (.writefm count)).2.2 := by
  have hready := h.ready
  unfold filedebugWritefm perform
  simp only [hready, h.dummyBlock, Bool.not_true, Bool.false_eq_true, if_false]
  cases count with
  | zero =>
    rw [if_pos rfl, if_pos rfl]
    exact ⟨rfl, rfl, h⟩
  | succ n =>
    rw [if_neg (Nat.succ_ne_zero n), if_neg (Nat.succ_ne_zero n)]
    exact ⟨rfl, rfl, (writeFms_spec h.countWritePass n).warn _ false⟩

end Write


/-! ## Reading and positioning -/

section Positioning

variable {st : FileDebug} {pos : TcPosition} {t : Tape}

/-- The head goes to another place of the tape, and nothing is written. -/
theorem Refines.move (h : Refines st pos t) {p b : ℕ} (hp : p < maxPartitions)
    (hb : b ≤ (t.items p).length) {fm : ℕ} (hfm : fm = ((t.items p).take b).countP isMark)
    {pos' : TcPosition} (hpos : pos'.partition = p ∧ pos'.block = b ∧ pos'.filemarks = fm) :
    Refines { st with partition := p, block := b, filemarks := fm } pos' ⟨t.items, p, b⟩ :=
  ⟨h.ready, h.dummyIo, h.forceWriteperm, h.forceReadperm, h.maxBlockSize, rfl, hp, rfl, hfm, hb,
    h.stored, h.lastBlock, hpos.1, hpos.2.1, hpos.2.2.trans hfm⟩

/-- The same within the partition. -/
theorem Refines.moveWithin (h : Refines st pos t) {b : ℕ} (hb : b ≤ t.current.length) {fm : ℕ}
    (hfm : fm = (t.current.take b).countP isMark) {pos' : TcPosition}
    (hpos : pos'.partition = pos.partition ∧ pos'.block = b ∧ pos'.filemarks = fm) :
    Refines { st with block := b, filemarks := fm } pos' { t with block := b } := by
  have hmove := h.move h.range hb hfm ⟨hpos.1.trans h.pos.partition, hpos.2⟩
  rw [← h.partition] at hmove
  have ht : (⟨t.items, st.partition, b⟩ : Tape) = { t with block := b } := by rw [h.partition]
  rw [ht] at hmove
  exact hmove

/-- The number of marks in front of the next block. -/
theorem marks_succ {l : List Item} {b : ℕ} {item : Item} (hitem : l[b]? = some item) :
    (l.take (b + 1)).countP isMark =
      (l.take b).countP isMark + if item.isMark then 1 else 0 := by
  rcases List.getElem?_eq_some_iff.mp hitem with ⟨hlt, hget⟩
  rw [List.take_succ_eq_append_getElem hlt, List.countP_append, List.countP_singleton, hget]

/-- `filedebug_read`. -/
theorem read_spec (h : Refines st pos t) (count : ℕ)
    (hsafe : (Command.read count).Safe st) :
    (filedebugRead st count pos).ret = (perform t (.read count)).1 ∧
      (filedebugRead st count pos).data = (perform t (.read count)).2.1 ∧
      Refines (filedebugRead st count pos).drive (filedebugRead st count pos).pos
        (perform t (.read count)).2.2 := by
  have hsafe' : (st.unsupportedTape || st.unsupportedFormat) = false := hsafe
  have hready := h.ready
  have hforce := h.forceReadperm
  obtain ⟨hholds, heod⟩ := h.current
  have hblock : st.block ≤ t.current.length := by
    rw [h.block]
    exact h.placed
  have hfile := fun s => hholds st.block hblock s
  unfold filedebugRead perform
  simp only [hready, hsafe', hforce, h.dummyBlock, Bool.not_true, Bool.false_eq_true, if_false, ne_eq,
    not_true_eq_false, false_and]
  rw [← h.block, heod]
  cases hitem : t.current[st.block]? with
  | none =>
    have hend : t.current.length = st.block :=
      Nat.le_antisymm (List.getElem?_eq_none_iff.mp hitem) hblock
    rw [if_pos hend]
    exact ⟨rfl, rfl, h⟩
  | some item =>
    rcases List.getElem?_eq_some_iff.mp hitem with ⟨hlt, hget⟩
    rw [hitem] at hfile
    rw [if_neg (by omega)]
    have hmarks := marks_succ hitem
    have hfm : st.filemarks = (t.current.take st.block).countP isMark := by
      rw [h.filemarks, h.block]
      rfl
    cases item with
    | mark =>
      have hnoeod : st.dir.checkFile st.partition st.block .eod = false := by
        unfold Directory.checkFile
        rw [hfile]
        rfl
      have hmark : st.dir.checkFile st.partition st.block .filemark = true := by
        unfold Directory.checkFile
        rw [hfile]
        rfl
      rw [hnoeod, hmark, if_neg (by simp), if_pos rfl]
      refine ⟨rfl, rfl, ?_⟩
      exact h.moveWithin hlt (by rw [hfm]; exact hmarks.symm) ⟨rfl, rfl, rfl⟩
    | data content =>
      have hnoeod : st.dir.checkFile st.partition st.block .eod = false := by
        unfold Directory.checkFile
        rw [hfile]
        rfl
      have hnomark : st.dir.checkFile st.partition st.block .filemark = false := by
        unfold Directory.checkFile
        rw [hfile]
        rfl
      rw [hnoeod, hnomark, if_neg (by simp), if_neg (by simp), hfile .record]
      refine ⟨rfl, rfl, ?_⟩
      exact h.moveWithin hlt (by rw [hfm]; exact hmarks.symm)
        ⟨rfl, rfl, h.pos.filemarks.trans h.filemarks.symm⟩

/-- `filedebug_rewind`. -/
theorem rewind_spec (h : Refines st pos t) (hsafe : Command.rewind.Safe st) :
    (filedebugRewind st pos).ret = (perform t .rewind).1 ∧
      (filedebugRewind st pos).data = (perform t .rewind).2.1 ∧
      Refines (filedebugRewind st pos).drive (filedebugRewind st pos).pos
        (perform t .rewind).2.2 := by
  have hsafe' : st.unsupportedTape = false := hsafe
  unfold filedebugRewind perform
  rw [if_neg (by simp [h.ready]), if_neg (by simp [hsafe'])]
  refine ⟨rfl, rfl, ?_⟩
  exact ⟨h.ready, h.dummyIo, rfl, rfl, h.maxBlockSize, h.partition, h.range, rfl, rfl,
    Nat.zero_le _, h.stored, h.lastBlock, ⟨h.pos.partition, rfl, rfl⟩⟩

/-- `filedebug_locate`. -/
theorem locate_spec (h : Refines st pos t) (partition block : ℕ)
    (hsafe : (Command.locate partition block).Safe st) :
    (filedebugLocate st partition block pos).ret = (perform t (.locate partition block)).1 ∧
      (filedebugLocate st partition block pos).data = (perform t (.locate partition block)).2.1 ∧
      Refines (filedebugLocate st partition block pos).drive
        (filedebugLocate st partition block pos).pos (perform t (.locate partition block)).2.2 := by
  have hsafe' : (st.unsupportedTape || st.unsupportedFormat) = false := hsafe
  have hperform : perform t (.locate partition block) =
      if maxPartitions ≤ partition then (-edevInvalidArg, [], t)
      else (0, [], t.moveTo partition block) := rfl
  rw [hperform]
  unfold filedebugLocate
  rw [if_neg (by simp [h.ready]), if_neg (by simp [hsafe'])]
  by_cases hrange : maxPartitions ≤ partition
  · rw [if_pos hrange, if_pos hrange]
    exact ⟨rfl, rfl, h⟩
  · rw [if_neg hrange, if_neg hrange]
    have hp : partition < maxPartitions := Nat.lt_of_not_le hrange
    -- leaving the partition may switch forced errors off, which are off
    have hclear : Refines
        (if st.partition ≠ partition ∧ st.clearByPc then
          { st with
            clearByPc := false
            forceWriteperm := 0
            forceReadperm := 0
            forceErrortype := false }
        else st) pos t := by
      split
      · exact ⟨h.ready, h.dummyIo, rfl, rfl, h.maxBlockSize, h.partition, h.range, h.block,
          h.filemarks, h.placed, h.stored, h.lastBlock, h.pos⟩
      · exact h
    generalize (if st.partition ≠ partition ∧ st.clearByPc then
          { st with
            clearByPc := false
            forceWriteperm := 0
            forceReadperm := 0
            forceErrortype := false }
        else st) = st₁ at hclear ⊢
    dsimp only
    obtain ⟨hholds, heod⟩ := hclear.stored partition hp
    have hlast := hclear.lastBlock partition hp
    -- a missing end of data would be the block behind the last one, which is the same
    have hblock : (if st₁.eod partition = missingEod ∧ st₁.lastBlock partition < block then
          (st₁.lastBlock partition + 1).toNat
        else if st₁.eod partition < block then st₁.eod partition
        else block) = min block (t.items partition).length := by
      rw [heod, hlast]
      split
      · omega
      · split
        · omega
        · omega
    rw [hblock]
    refine ⟨rfl, rfl, ?_⟩
    set b := min block (t.items partition).length with hb
    have hle : b ≤ (t.items partition).length := Nat.min_le_right ..
    have hmove : Refines
        { st₁ with
          partition
          block := b
          filemarks := st₁.dir.countFm partition b }
        { pos with
          partition
          block := b
          filemarks := st₁.dir.countFm partition b }
        ⟨t.items, partition, b⟩ := hclear.move hp hle (hholds.countFm hle) ⟨rfl, rfl, rfl⟩
    exact hmove.warn _ false

end Positioning


/-! ## Spacing -/

section Spacing

variable {st : FileDebug} {pos : TcPosition} {t : Tape}

/-- Forward from a block on, with `n` more marks to pass before the last one. -/
theorem spaceFmForward_eq (h : Refines st pos t) {count rounds fmCount block n : ℕ}
    (hblock : block ≤ t.current.length) (hcount : count = fmCount + n + 1)
    (hrounds : t.current.length - block < rounds) :
    st.spaceFmForward count rounds fmCount block =
      some (match nthMark (t.current.drop block) n with
        | some k => (0, block + k + 1)
        | none => (-edevEodDetected, t.current.length)) := by
  obtain ⟨hholds, heod⟩ := h.current
  have hlast : st.lastBlock st.partition = t.current.length - 1 := by
    rw [h.partition]
    exact h.lastBlock t.partition h.range
  induction rounds generalizing fmCount block n with
  | zero => omega
  | succ rounds ih =>
    unfold FileDebug.spaceFmForward
    rw [heod, hlast]
    by_cases hend : block = t.current.length
    · rw [if_pos hend, List.drop_eq_nil_of_le (by omega), nthMark_nil, hend]
    · have hlt : block < t.current.length := by omega
      rw [if_neg hend, if_neg (by omega), hholds.checkFm hblock, List.getElem?_eq_getElem hlt,
        List.drop_eq_getElem_cons hlt]
      -- what the rest of the list gives, one block further on
      have hstep : ∀ m, (match (nthMark (t.current.drop (block + 1)) m).map (· + 1) with
            | some k => ((0 : ℤ), block + k + 1)
            | none => (-edevEodDetected, t.current.length)) =
          match nthMark (t.current.drop (block + 1)) m with
            | some k => (0, block + 1 + k + 1)
            | none => (-edevEodDetected, t.current.length) := by
        intro m
        cases nthMark (t.current.drop (block + 1)) m with
        | none => rfl
        | some k =>
          show ((0 : ℤ), block + (k + 1) + 1) = (0, block + 1 + k + 1)
          rw [Nat.add_assoc block 1 k, Nat.add_comm 1 k]
      cases hitem : t.current[block] with
      | data content =>
        rw [nthMark_data, hstep, if_neg (by simp [isMark])]
        exact ih (by omega) hcount (by omega)
      | mark =>
        rw [if_pos (by simp [isMark])]
        cases n with
        | zero =>
          rw [if_pos (by omega)]
          rfl
        | succ n =>
          rw [if_neg (by omega)]
          show _ = some (match (nthMark (t.current.drop (block + 1)) n).map (· + 1) with
            | some k => ((0 : ℤ), block + k + 1)
            | none => (-edevEodDetected, t.current.length))
          rw [hstep]
          exact ih (by omega) (by omega) (by omega)

/-- Backward from a block on that is there. -/
theorem spaceFmBackward_eq (h : Refines st pos t) {count fmCount block n : ℕ}
    (hblock : block < t.current.length) (hcount : count = fmCount + n + 1) :
    st.spaceFmBackward count fmCount block =
      match nthMark (t.current.take (block + 1)).reverse n with
      | some k => (0, block - k)
      | none => (-edevBopDetected, 0) := by
  obtain ⟨hholds, -⟩ := h.current
  have hcheck : ∀ {b : ℕ} (hb : b < t.current.length),
      st.dir.checkFile st.partition b .filemark = t.current[b].isMark := by
    intro b hb
    rw [hholds.checkFm (by omega), List.getElem?_eq_getElem hb]
    rfl
  have hrev : ∀ {b : ℕ} (hb : b < t.current.length),
      (t.current.take (b + 1)).reverse = t.current[b] :: (t.current.take b).reverse := by
    intro b hb
    rw [List.take_succ_eq_append_getElem hb, List.reverse_append]
    rfl
  induction block generalizing fmCount n with
  | zero =>
    unfold FileDebug.spaceFmBackward
    rw [hcheck hblock, hrev hblock]
    cases hitem : t.current[0] with
    | data content =>
      rw [if_neg (by simp [isMark]), nthMark_data]
      rfl
    | mark =>
      cases n with
      | zero =>
        rw [if_pos ⟨rfl, by omega⟩]
        rfl
      | succ n =>
        rw [if_neg (by omega)]
        rfl
  | succ block ih =>
    have hlt : block < t.current.length := by omega
    have hstep : ∀ m, (match (nthMark (t.current.take (block + 1)).reverse m).map (· + 1) with
          | some k => ((0 : ℤ), block + 1 - k)
          | none => (-edevBopDetected, 0)) =
        match nthMark (t.current.take (block + 1)).reverse m with
          | some k => (0, block - k)
          | none => (-edevBopDetected, 0) := by
      intro m
      cases nthMark (t.current.take (block + 1)).reverse m with
      | none => rfl
      | some k =>
        show ((0 : ℤ), block + 1 - (k + 1)) = (0, block - k)
        rw [Nat.add_sub_add_right]
    unfold FileDebug.spaceFmBackward
    rw [hcheck hblock, hrev hblock]
    cases hitem : t.current[block + 1] with
    | data content =>
      rw [nthMark_data, hstep, if_neg (by simp [isMark])]
      exact ih hlt hcount
    | mark =>
      rw [if_pos (by simp [isMark])]
      cases n with
      | zero =>
        rw [if_pos (by omega)]
        rfl
      | succ n =>
        rw [if_neg (by omega)]
        show _ = match (nthMark (t.current.take (block + 1)).reverse n).map (· + 1) with
          | some k => ((0 : ℤ), block + 1 - k)
          | none => (-edevBopDetected, 0)
        rw [hstep]
        exact ih hlt (by omega)

/-- Forward over `count` marks. -/
theorem spaceFm_forward (h : Refines st pos t) (count : ℕ) :
    st.spaceFm count false = some (if (t.spaceForward count).1 then 0 else -edevEodDetected,
      (t.spaceForward count).2.block) := by
  have hblock : st.block ≤ t.current.length := by
    rw [h.block]
    exact h.placed
  unfold FileDebug.spaceFm RecordTape.spaceForward
  cases count with
  | zero =>
    rw [if_pos rfl, h.block]
    rfl
  | succ n =>
    rw [if_neg (Nat.succ_ne_zero n), if_neg (by simp), h.current.2,
      spaceFmForward_eq h hblock (n := n) (by omega) (by omega), h.block]
    rcases Option.eq_none_or_eq_some (nthMark (t.current.drop t.block) n) with hk | ⟨k, hk⟩
    · simp [hk]
    · simp [hk]

/-- Backward over `count` marks; from the beginning of a partition, the block in front of the head is
taken for one behind it. -/
theorem spaceFm_backward (h : Refines st pos t) (count : ℕ) :
    (¬ (st.block = 0 ∧ count = 1 ∧ st.dir.checkFile st.partition 0 .filemark = true) →
      st.spaceFm count true = some (if (t.spaceBackward count).1 then 0 else -edevBopDetected,
        (t.spaceBackward count).2.block)) ∧
    (st.block = 0 ∧ count = 1 ∧ st.dir.checkFile st.partition 0 .filemark = true →
      st.spaceFm count true = some (0, 0) ∧ (t.spaceBackward count).1 = false) := by
  have hblock : st.block ≤ t.current.length := by
    rw [h.block]
    exact h.placed
  obtain ⟨hholds, -⟩ := h.current
  constructor
  · intro hnot
    unfold FileDebug.spaceFm RecordTape.spaceBackward
    cases count with
    | zero =>
      rw [if_pos rfl, h.block]
      rfl
    | succ n =>
      rw [if_neg (Nat.succ_ne_zero n), if_pos rfl]
      rw [← h.block]
      cases hb : st.block with
      | succ b =>
        rw [hb] at hblock
        rw [Nat.add_sub_cancel, spaceFmBackward_eq h (n := n) hblock (by omega)]
        rcases Option.eq_none_or_eq_some (nthMark (t.current.take (b + 1)).reverse n) with
          hk | ⟨k, hk⟩
        · simp [hk]
        · simp [hk]
      | zero =>
        -- nothing is in front of the head, whatever the first block is
        have hnone : st.spaceFmBackward (n + 1) 0 0 = (-edevBopDetected, 0) := by
          unfold FileDebug.spaceFmBackward
          rw [if_neg]
          rintro ⟨hmark, hone⟩
          exact hnot ⟨hb, by omega, hmark⟩
        rw [Nat.zero_sub, hnone]
        rfl
  · rintro ⟨hb, rfl, hmark⟩
    constructor
    · have hback : st.spaceFmBackward 1 0 0 = (0, 0) := by
        unfold FileDebug.spaceFmBackward
        rw [if_pos ⟨hmark, rfl⟩]
      unfold FileDebug.spaceFm
      rw [if_neg Nat.one_ne_zero, if_pos rfl, hb, Nat.zero_sub, hback]
    · unfold RecordTape.spaceBackward
      dsimp only
      rw [← h.block, hb]
      rfl

theorem spaceForward_le (ht : t.Placed) (count : ℕ) :
    (t.spaceForward count).2.block ≤ t.current.length ∧
      (t.spaceForward count).2 = { t with block := (t.spaceForward count).2.block } := by
  unfold RecordTape.spaceForward
  cases count with
  | zero => exact ⟨ht, rfl⟩
  | succ n =>
    dsimp only
    cases hk : nthMark (t.current.drop t.block) n with
    | none => exact ⟨Nat.le_refl _, rfl⟩
    | some k =>
      have hlt := nthMark_lt hk
      rw [List.length_drop] at hlt
      refine ⟨?_, rfl⟩
      show t.block + k + 1 ≤ t.current.length
      omega

theorem spaceBackward_le (ht : t.Placed) (count : ℕ) :
    (t.spaceBackward count).2.block ≤ t.current.length ∧
      (t.spaceBackward count).2 = { t with block := (t.spaceBackward count).2.block } := by
  unfold RecordTape.Placed at ht
  unfold RecordTape.spaceBackward
  cases count with
  | zero => exact ⟨ht, rfl⟩
  | succ n =>
    dsimp only
    cases nthMark (t.current.take t.block).reverse n with
    | none => exact ⟨Nat.zero_le _, rfl⟩
    | some k =>
      refine ⟨?_, rfl⟩
      show t.block - 1 - k ≤ t.current.length
      omega

/-- A head that spacing has moved. -/
theorem Refines.spaced (h : Refines st pos t) {b : ℕ} (hb : b ≤ t.current.length) :
    Refines { st with block := b, filemarks := st.dir.countFm st.partition b }
      (({ st with block := b, filemarks := st.dir.countFm st.partition b } : FileDebug).warn
        { pos with block := b, filemarks := st.dir.countFm st.partition b } false)
      { t with block := b } := by
  have hmove : Refines { st with block := b, filemarks := st.dir.countFm st.partition b }
      { pos with block := b, filemarks := st.dir.countFm st.partition b }
      { t with block := b } :=
    h.moveWithin hb (h.current.1.countFm hb) ⟨rfl, rfl, rfl⟩
  exact hmove.warn _ false

/-- `filedebug_space` when it goes to a block. -/
theorem space_eq (h : Refines st pos t) {count : ℕ} {type : SpaceType}
    (hunsupported : (st.unsupportedTape || st.unsupportedFormat) = false) {ret : ℤ} {b : ℕ}
    (hmissing : st.missing type = false) (htarget : st.target count type = some (ret, b)) :
    filedebugSpace st count type pos =
      some ⟨ret, [], ({ st with block := b, filemarks := st.dir.countFm st.partition b } :
          FileDebug).warn { pos with block := b, filemarks := st.dir.countFm st.partition b } false,
        { st with block := b, filemarks := st.dir.countFm st.partition b }⟩ := by
  unfold filedebugSpace
  rw [if_neg (by simp [h.ready]), if_neg (by simp [hunsupported]), hmissing, if_neg (by simp),
    htarget]
  rfl

end Spacing


/-! ## One command -/

section Commands

variable {st : FileDebug} {pos : TcPosition} {t : Tape}

/-- `filedebug_space`. -/
theorem space_spec (h : Refines st pos t) (count : ℕ) (type : SpaceType)
    (hsafe : (Command.space count type).Safe st) :
    ∃ r, filedebugSpace st count type pos = some r ∧ r.ret = (perform t (.space count type)).1 ∧
      r.data = (perform t (.space count type)).2.1 ∧
      Refines r.drive r.pos (perform t (.space count type)).2.2 := by
  obtain ⟨hunsupported, hmissing, hback⟩ := hsafe
  cases type with
  | eod =>
    have htarget : st.target count .eod = some (0, t.current.length) := by
      unfold FileDebug.target
      rw [h.current.2]
    refine ⟨_, space_eq h hunsupported hmissing htarget, rfl, rfl, ?_⟩
    exact h.spaced (Nat.le_refl _)
  | fmF =>
    obtain ⟨hle, hblock⟩ := spaceForward_le h.placed count
    refine ⟨_, space_eq h hunsupported hmissing (spaceFm_forward h count), rfl, rfl, ?_⟩
    show Refines _ _ (t.spaceForward count).2
    rw [hblock]
    exact h.spaced hle
  | fmB =>
    obtain ⟨hle, hblock⟩ := spaceBackward_le h.placed count
    have htarget := (spaceFm_backward h count).1 fun hh => hback ⟨rfl, hh⟩
    refine ⟨_, space_eq h hunsupported hmissing htarget, rfl, rfl, ?_⟩
    show Refines _ _ (t.spaceBackward count).2
    rw [hblock]
    exact h.spaced hle

/-- A safe command is answered like by the tape, and the drive keeps it. -/
theorem exec_safe (h : Refines st pos t) (c : Command) (hsafe : c.Safe st) :
    ∃ r, c.exec st pos = some r ∧ Agrees r (perform t c) ∧
      Refines r.drive r.pos (perform t c).2.2 := by
  cases c with
  | write buf =>
    obtain ⟨hret, hdata, hkeeps⟩ := write_spec h buf hsafe
    exact ⟨_, rfl, hkeeps.agrees hret hdata, hkeeps⟩
  | writefm count =>
    obtain ⟨hret, hdata, hkeeps⟩ := writefm_spec h count
    exact ⟨_, rfl, hkeeps.agrees hret hdata, hkeeps⟩
  | read count =>
    obtain ⟨hret, hdata, hkeeps⟩ := read_spec h count hsafe
    exact ⟨_, rfl, hkeeps.agrees hret hdata, hkeeps⟩
  | locate partition block =>
    obtain ⟨hret, hdata, hkeeps⟩ := locate_spec h partition block hsafe
    exact ⟨_, rfl, hkeeps.agrees hret hdata, hkeeps⟩
  | rewind =>
    obtain ⟨hret, hdata, hkeeps⟩ := rewind_spec h hsafe
    exact ⟨_, rfl, hkeeps.agrees hret hdata, hkeeps⟩
  | space count type =>
    obtain ⟨r, hr, hret, hdata, hkeeps⟩ := space_spec h count type hsafe
    exact ⟨r, hr, hkeeps.agrees hret hdata, hkeeps⟩

/-! ### The other commands -/

/-- The codes of the emulated refusals. -/
def refusals : List ℤ :=
  [-edevWriteProtectedWorm, -edevWriteProtected, -edevDataProtect, -edevMediumFormatError,
    -edevRwPerm]

/-- A tape returns none of them. -/
theorem perform_not_refused (t : Tape) (c : Command) : (perform t c).1 ∉ refusals := by
  have hnonneg : ∀ x : ℤ, 0 ≤ x → x ∉ refusals := by
    intro x hx hmem
    have hneg : ∀ y ∈ refusals, y < 0 := by decide
    have hlt := hneg x hmem
    omega
  have heod : -edevEodDetected ∉ refusals := by decide
  have hbop : -edevBopDetected ∉ refusals := by decide
  have harg : -edevInvalidArg ∉ refusals := by decide
  have hzero : (0 : ℤ) ∉ refusals := by decide
  cases c with
  | write buf =>
    unfold perform
    dsimp only
    split
    · exact hzero
    · split
      · exact harg
      · exact hnonneg _ (Int.natCast_nonneg _)
  | writefm count =>
    unfold perform
    dsimp only
    split
    · exact hzero
    · exact hzero
  | read count =>
    unfold perform
    dsimp only
    split
    · exact heod
    · exact hzero
    · exact hnonneg _ (Int.natCast_nonneg _)
  | locate partition block =>
    unfold perform
    dsimp only
    split
    · exact harg
    · exact hzero
  | rewind => exact hzero
  | space count type =>
    cases type with
    | eod => exact hzero
    | fmF =>
      unfold perform
      dsimp only
      split
      · exact hzero
      · exact heod
    | fmB =>
      unfold perform
      dsimp only
      split
      · exact hzero
      · exact hbop

/-- What is not safe is refused, except for the way back from the beginning. -/
theorem exec_unsafe (h : Refines st pos t) (c : Command) (hnot : ¬ c.Safe st) {r : Result}
    (hr : c.exec st pos = some r) : r.ret ≠ (perform t c).1 := by
  have hrefused : r.ret ∈ refusals → r.ret ≠ (perform t c).1 := by
    intro hmem heq
    rw [heq] at hmem
    exact perform_not_refused t c hmem
  have hformat : -edevMediumFormatError ∈ refusals := by decide
  have hrwperm : -edevRwPerm ∈ refusals := by decide
  have hwormcode : -edevWriteProtectedWorm ∈ refusals := by decide
  cases c with
  | write buf =>
    refine hrefused ?_
    have hworm : (st.isWorm && st.eod pos.partition ≠ pos.block) =
        (st.isWorm && st.eod st.partition ≠ st.block) := by
      rw [h.pos.partition, h.pos.block, ← h.partition, ← h.block]
    have hr : filedebugWrite st buf pos = r := Option.some.inj hr
    rw [← hr]
    unfold filedebugWrite
    rw [if_neg (by simp [h.ready]), hworm]
    split
    · exact hwormcode
    · rename_i hw
      split
      · dsimp only
        split
        · decide
        · decide
      · rename_i hro
        split
        · exact hformat
        · rename_i hun
          exact absurd ⟨eq_false_of_ne_true hw, eq_false_of_ne_true hro, eq_false_of_ne_true hun⟩
            hnot
  | writefm count => exact absurd trivial hnot
  | read count =>
    refine hrefused ?_
    have hr : filedebugRead st count pos = r := Option.some.inj hr
    have hun : (st.unsupportedTape || st.unsupportedFormat) = true := eq_true_of_ne_false hnot
    rw [← hr]
    unfold filedebugRead
    rw [if_neg (by simp [h.ready]), if_pos hun]
    exact hformat
  | locate partition block =>
    refine hrefused ?_
    have hr : filedebugLocate st partition block pos = r := Option.some.inj hr
    have hun : (st.unsupportedTape || st.unsupportedFormat) = true := eq_true_of_ne_false hnot
    rw [← hr]
    unfold filedebugLocate
    rw [if_neg (by simp [h.ready]), if_pos hun]
    exact hformat
  | rewind =>
    refine hrefused ?_
    have hr : filedebugRewind st pos = r := Option.some.inj hr
    have hun : st.unsupportedTape = true := eq_true_of_ne_false hnot
    rw [← hr]
    unfold filedebugRewind
    rw [if_neg (by simp [h.ready]), if_pos hun]
    exact hformat
  | space count type =>
    have hr : filedebugSpace st count type pos = some r := hr
    by_cases hun : (st.unsupportedTape || st.unsupportedFormat) = true
    · refine hrefused ?_
      unfold filedebugSpace at hr
      rw [if_neg (by simp [h.ready]), if_pos hun] at hr
      rw [← Option.some.inj hr]
      exact hformat
    · by_cases hmissing : st.missing type = true
      · refine hrefused ?_
        unfold filedebugSpace at hr
        rw [if_neg (by simp [h.ready]), if_neg hun, if_pos hmissing] at hr
        rw [← Option.some.inj hr]
        exact hrwperm
      · -- only the way back from the beginning is left
        have hun := eq_false_of_ne_true hun
        have hmissing := eq_false_of_ne_true hmissing
        have hback : type = .fmB ∧ st.block = 0 ∧ count = 1 ∧
            st.dir.checkFile st.partition 0 .filemark = true := by
          by_contra hno
          exact hnot ⟨hun, hmissing, hno⟩
        obtain ⟨rfl, hhead⟩ := hback
        obtain ⟨htarget, hbop⟩ := (spaceFm_backward h count).2 hhead
        rw [space_eq h hun hmissing htarget] at hr
        rw [← Option.some.inj hr]
        show (0 : ℤ) ≠ if (t.spaceBackward count).1 then 0 else -edevBopDetected
        rw [hbop]
        decide

end Commands

/-! ## Runs -/

/-- From a drive that keeps a tape, the commands of a run agree with it exactly when each is
safe. -/
theorem runAgrees_iff {st : FileDebug} {pos : TcPosition} {t : Tape} (h : Refines st pos t)
    (cs : List Command) : RunAgrees st pos t cs ↔ RunSafe st pos cs := by
  induction cs generalizing st pos t with
  | nil => exact Iff.rfl
  | cons c cs ih =>
    by_cases hsafe : c.Safe st
    · obtain ⟨r, hr, hagrees, hnext⟩ := exec_safe h c hsafe
      constructor
      · rintro ⟨r', hr', -, hrest⟩
        refine ⟨hsafe, fun r'' hr'' => ?_⟩
        rw [hr] at hr' hr''
        cases hr'
        cases hr''
        exact (ih hnext).mp hrest
      · rintro ⟨-, hrest⟩
        exact ⟨r, hr, hagrees, (ih hnext).mpr (hrest r hr)⟩
    · refine iff_of_false ?_ fun hh => hsafe hh.1
      rintro ⟨r, hr, hagrees, -⟩
      exact exec_unsafe h c hsafe hr hagrees.ret


/-! ## Loading -/

/-- The directory of a cartridge: for each block one file, by what stands there, and behind them an
end of data. A partition that was never written may be without one. -/
structure Valid (dir : Directory) (part : ℕ) (l : List Item) : Prop where
  blocks : ∀ b < l.length, ∀ type, dir part b type = fileOf l[b]? type
  ends : dir.checkFile part l.length .eod = true ∨
    (l = [] ∧ ∀ type, dir.checkFile part 0 type = false)

section Loading

variable {dir : Directory} {part rounds : ℕ} {l : List Item}

/-- The search goes up to the end of data. -/
theorem searchEodLoop_eq (h : Valid dir part l) {block : ℕ} (hblock : block ≤ l.length)
    (hrounds : l.length - block < rounds) :
    FileDebug.searchEodLoop dir part rounds block =
      some (l.length, dir.checkFile part l.length .eod) := by
  induction rounds generalizing block with
  | zero => omega
  | succ rounds ih =>
    unfold FileDebug.searchEodLoop
    by_cases hend : block = l.length
    · subst hend
      rcases h.ends with heod | ⟨rfl, hblank⟩
      · rw [if_pos heod, heod]
      · simp only [List.length_nil, hblank, Bool.false_eq_true, if_false, Bool.or_self]
    · have hlt : block < l.length := by omega
      have hfile := h.blocks block hlt
      rw [List.getElem?_eq_getElem hlt] at hfile
      have hnoeod : dir.checkFile part block .eod = false := by
        unfold Directory.checkFile
        rw [hfile]
        cases l[block] with
        | data content => rfl
        | mark => rfl
      have hblockfile : (dir.checkFile part block .record ||
          dir.checkFile part block .filemark) = true := by
        unfold Directory.checkFile
        rw [hfile, hfile]
        cases l[block] with
        | data content => rfl
        | mark => rfl
      rw [if_neg (by simp [hnoeod]), if_pos hblockfile]
      exact ih (by omega) (by omega)

/-- Behind the search, the partition ends where it did, and it has its end of data. -/
theorem searchEod_eq {st : FileDebug} (h : Valid st.dir part l) (hrounds : l.length < rounds) :
    st.searchEod rounds part =
      some ({ st with partition := part, block := l.length } : FileDebug).writeEod := by
  unfold FileDebug.searchEod
  rw [searchEodLoop_eq h (Nat.zero_le _) (by omega)]
  have hfound : (!st.dir.checkFile part l.length .eod && decide (l.length ≠ 0)) = false := by
    rcases h.ends with heod | ⟨rfl, -⟩
    · rw [heod]
      rfl
    · simp
  simp only [Option.map_some]
  rw [hfound]
  rfl

end Loading

/-- A load finds the ends of data, and then the drive keeps the tape of the directory. -/
theorem load_refines {dir : Directory} {items : ℕ → List Item} (rounds : ℕ) (cart : Cartridge)
    (hvalid : ∀ p < maxPartitions, Valid dir p (items p))
    (hrounds : ∀ p < maxPartitions, (items p).length < rounds) :
    ∃ st pos, filedebugLoad rounds cart dir = some (st, pos) ∧ Refines st pos ⟨items, 0, 0⟩ := by
  unfold filedebugLoad
  dsimp only
  rw [searchEod_eq (hvalid 0 (by decide)) (hrounds 0 (by decide)), Option.bind_some]
  set st₀ : FileDebug := FileDebug.writeEod _ with hst₀
  have hdir₁ : st₀.dir 1 = dir 1 := writeEod_dir_of_ne _ Nat.one_ne_zero
  have hvalid₁ : Valid st₀.dir 1 (items 1) := by
    obtain ⟨hblocks, hends⟩ := hvalid 1 (by decide)
    constructor
    · rw [hdir₁]
      exact hblocks
    · unfold Directory.checkFile at hends ⊢
      rw [hdir₁]
      exact hends
  rw [searchEod_eq hvalid₁ (hrounds 1 (by decide)), Option.map_some]
  set st₁ : FileDebug := { st₀ with partition := 1, block := (items 1).length } with hst₁
  refine ⟨_, _, rfl, ?_⟩
  have hstored : Stored st₁.writeEod ⟨items, 0, 0⟩ ∧ ∀ p < maxPartitions,
      st₁.writeEod.lastBlock p = (items p).length - 1 := by
    have hcases : ∀ p < maxPartitions, p = 0 ∨ p = 1 := by
      intro p hp
      have hp : p < 2 := hp
      omega
    constructor
    · intro p hp
      rcases hcases p hp with rfl | rfl
      · -- the first partition was finished before
        have hdir₀ : st₁.writeEod.dir 0 = st₀.dir 0 := writeEod_dir_of_ne _ Nat.zero_ne_one
        have hholds : Holds st₀.dir 0 (items 0) :=
          writeEod_holds _ rfl (hvalid 0 (by decide)).blocks
        refine ⟨fun b hb s => ?_, rfl⟩
        rw [hdir₀]
        exact hholds b hb s
      · exact ⟨writeEod_holds _ rfl hvalid₁.blocks, rfl⟩
    · intro p hp
      rcases hcases p hp with rfl | rfl
      · rfl
      · rfl
  exact ⟨rfl, rfl, rfl, rfl, rfl, rfl, Nat.two_pos, rfl, rfl, Nat.zero_le _, hstored.1, hstored.2,
    ⟨rfl, rfl, rfl⟩⟩

/-- After a load of a valid directory the drive has the tape, at its beginning. The commands of a
run are answered like by the tape, and the directory holds it, exactly when each of them is safe
when it comes. -/
theorem fileTape_iff {dir : Directory} {items : ℕ → List Item} (rounds : ℕ) (cart : Cartridge)
    (hvalid : ∀ p < maxPartitions, Valid dir p (items p))
    (hrounds : ∀ p < maxPartitions, (items p).length < rounds) :
    ∃ st pos, filedebugLoad rounds cart dir = some (st, pos) ∧
      Stored st ⟨items, 0, 0⟩ ∧ Reports pos ⟨items, 0, 0⟩ ∧
      ∀ cs, RunAgrees st pos ⟨items, 0, 0⟩ cs ↔ RunSafe st pos cs := by
  obtain ⟨st, pos, hload, hrefines⟩ := load_refines rounds cart hvalid hrounds
  exact ⟨st, pos, hload, hrefines.stored, hrefines.pos, fun cs => runAgrees_iff hrefines cs⟩

/-- A cartridge that can be read and written, without warnings. -/
def plainCartridge : Cartridge where
  isReadonly := false
  isWorm := false
  unsupportedTape := false
  unsupportedFormat := false
  emulateReadonly := false
  writePass := 0
  p0Warning := 0
  p1Warning := 0
  p0PWarning := 0
  p1PWarning := 0

/-- A directory without blocks. -/
def emptyDirectory : Directory := fun _ _ _ => none

theorem emptyDirectory_valid (part : ℕ) : Valid emptyDirectory part [] :=
  ⟨fun b hb => absurd hb (Nat.not_lt_zero b), .inr ⟨rfl, fun _ => rfl⟩⟩

/-- `fileTape_iff` for a record, a mark and the way back over it on an empty cartridge. -/
theorem fileTape_record_mark : ∃ st pos, filedebugLoad 1 plainCartridge emptyDirectory =
      some (st, pos) ∧
    RunAgrees st pos ⟨fun _ => [], 0, 0⟩
      [.write [7, 8], .writefm 1, .space 1 .fmB, .rewind, .read 100] := by
  obtain ⟨st, pos, hload, -, -, hiff⟩ := fileTape_iff 1 plainCartridge
    (fun p _ => emptyDirectory_valid p) (fun _ _ => Nat.one_pos)
  refine ⟨st, pos, hload, (hiff _).mpr ?_⟩
  cases hload
  refine ⟨by decide +kernel, fun r hr => ?_⟩
  cases hr
  refine ⟨trivial, fun r hr => ?_⟩
  cases hr
  refine ⟨by decide +kernel, fun r hr => ?_⟩
  cases hr
  refine ⟨by decide +kernel, fun r hr => ?_⟩
  cases hr
  exact ⟨by decide +kernel, fun r hr => trivial⟩

/-- A partition that begins with a file mark: from its beginning, the backend finds a mark behind
the head. -/
theorem spaceBack_from_beginning :
    ¬ ∀ (dir : Directory) (items : ℕ → List Item) (rounds : ℕ),
      (∀ p < maxPartitions, Valid dir p (items p)) →
      ∀ st pos, filedebugLoad rounds plainCartridge dir = some (st, pos) →
      ∀ cs, RunAgrees st pos ⟨items, 0, 0⟩ cs := by
  intro h
  obtain ⟨r₁, hr₁, -, r₂, hr₂, -, r₃, hr₃, hagrees, -⟩ := h emptyDirectory (fun _ => []) 1
    (fun p _ => emptyDirectory_valid p) _ _ rfl [.writefm 1, .rewind, .space 1 .fmB]
  cases hr₁
  cases hr₂
  have hcode : some r₃.ret = some 0 := by
    have hmap := congrArg (Option.map Result.ret) hr₃
    rw [Option.map_some] at hmap
    rw [← hmap]
    decide +kernel
  have hret := hagrees.ret
  rw [Option.some.inj hcode] at hret
  exact absurd hret (by decide +kernel)


end Ltfs.FileTape
