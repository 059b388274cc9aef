import Ltfs.RevalidateSpec

/-!
# A mounted volume, from revalidation to revalidation

`Labelled` is what every successful mount leaves behind and every operation keeps. A labelled
volume that has not changed is accepted by `ltfs_revalidate` if and only if what is recorded about
its partitions is right and the index partition ends in an index: `revalidatesWell_iff`.

`Mounted` is the state after a mount that has found both partitions in an index, `Settled` what
successful operations make of it: `run_settled`. Of these the records about the partitions are
right. They need not be after the mount of a write protected cartridge, which takes the append
position of the index partition from the self pointer even if that is one of the data partition.
-/

namespace Ltfs

section Mounted

variable {T : Type}

/-- After a mount, whichever index it has read: the labels are there, and what will be written
goes behind them. -/
structure Labelled (label : Partition → List (Option (List UInt8))) (v : Volume T) : Prop where
  posOk : v.dev.PosOk
  answers : ∀ i, ∃ early programmable, v.dev.answers i = .ok early programmable
  label : ∀ p, labelOf (v.dev.medium p) = label p
  eod_le : ∀ p, 4 ≤ v.dev.eod p
  append_le : ∀ p, 4 ≤ v.dev.appendBlock p

/-- After a mount of a consistent volume: "both partitions end in an index file". -/
structure Mounted (label : Partition → List (Option (List UInt8))) (v : Volume T) : Prop where
  ok : v.dev.Ok
  size_le : v.blocksize ≤ v.dev.maxBlockSize
  label : ∀ p, labelOf (v.dev.medium p) = label p ∧ 4 ≤ v.dev.appendBlock p
  ipIndexFileEnd : v.ipIndexFileEnd = true
  dpIndexFileEnd : v.dpIndexFileEnd = true
  /-- The index in memory is the one of the index partition, to be overwritten next. -/
  ip : ∃ b, EndsInIndexAt (v.dev.medium .ip) b ∧ v.index.selfptr = ⟨some .ip, b + 1⟩ ∧
    v.dev.appendPos .ip = if v.dev.isWorm then 0 else b
  dp : ∃ b, EndsInIndexAt (v.dev.medium .dp) b ∧
    (v.index.backptr.partition = some .dp → v.index.backptr.block = b + 1)
  appendDp : v.dev.appendPos .dp = 0 ∨ v.dev.appendPos .dp = v.dev.eod .dp

/-- The part that does not depend on what the partitions end in. -/
structure Base (label : Partition → List (Option (List UInt8))) (v : Volume T) : Prop
    extends Labelled label v where
  appendPos_le : ∀ p, v.dev.appendPos p ≤ v.dev.eod p
  size_le : v.blocksize ≤ v.dev.maxBlockSize

theorem Base.ok {label : Partition → List (Option (List UInt8))} {v : Volume T}
    (h : Base label v) : v.dev.Ok :=
  ⟨h.posOk, h.appendPos_le⟩

structure Settled (label : Partition → List (Option (List UInt8))) (v : Volume T) : Prop
    extends Base label v where
  dp : DpSettled v
  ip : IpSettled v

variable {label : Partition → List (Option (List UInt8))}

/-! ## Partial steps -/

theorem labelOf_congr {m m' : List (Record T)} (h : m'.take 4 = m.take 4) :
    labelOf m' = labelOf m := by
  unfold labelOf
  rw [h]

/-- Writing from the append position on keeps the labels. -/
theorem Labelled.of_write {v v' : Volume T} (h : Labelled label v) {p : Partition}
    {all : List (Record T)} (hbeside : Beside p v.dev v'.dev)
    (hle : v.dev.appendPos p ≤ v.dev.eod p)
    (htape : Partly p (v.dev.appendBlock p) (v.dev.medium p) all v'.dev) : Labelled label v' := by
  have happend := h.append_le p
  have htake : (v'.dev.medium p).take 4 = (v.dev.medium p).take 4 := by
    have hcut : ∀ l : List (Record T), l.take 4 = (l.take (v.dev.appendBlock p)).take 4 := by
      intro l
      rw [List.take_take, min_eq_left happend]
    rw [hcut, htape.take (appendBlock_le_eod hle), ← hcut]
  constructor
  · exact htape.posOk
  · rw [hbeside.answers]
    exact h.answers
  · intro q
    rw [← h.label q]
    by_cases hq : q = p
    · subst hq
      exact labelOf_congr htake
    · rw [hbeside.medium q hq]
  · intro q
    by_cases hq : q = p
    · subst hq
      have hlen := congrArg List.length htake
      have heod := h.eod_le q
      unfold Device.eod at heod ⊢
      rw [List.length_take, List.length_take, min_eq_left heod] at hlen
      omega
    · rw [hbeside.eod hq]
      exact h.eod_le q
  · intro q
    by_cases hq : q = p
    · subst hq
      exact happend.trans htape.start_le
    · rw [hbeside.appendBlock hq]
      exact h.append_le q

/-- Seeking the append position does, too, wherever it is. -/
theorem Labelled.of_seek {v v' : Volume T} (h : Labelled label v) {p : Partition}
    {r : ℤ × Device T} (hseek : SeekSpec p v.dev r) (hsame : SameTape r.2 v'.dev) :
    Labelled label v' := by
  have hmedium : v'.dev.medium = v.dev.medium := hsame.medium.trans hseek.medium
  have heod : ∀ q, v'.dev.eod q = v.dev.eod q := by
    intro q
    unfold Device.eod
    rw [hmedium]
  constructor
  · exact hsame.posOk hseek.posOk
  · rw [hsame.answers, hseek.frame.answers]
    exact h.answers
  · rw [hmedium]
    exact h.label
  · intro q
    rw [heod]
    exact h.eod_le q
  · intro q
    rw [hsame.appendBlock]
    by_cases hq : q = p
    · subst hq
      have happend := h.append_le q
      have heodq := h.eod_le q
      have hr : r.2.eod q = v.dev.eod q := by
        unfold Device.eod
        rw [hseek.medium]
      unfold Device.appendBlock
      split
      · rw [hr]
        exact heodq
      · rename_i hne
        rcases hseek.appendPos with ha | ha
        · rw [ha] at hne ⊢
          unfold Device.appendBlock at happend
          rwa [if_neg hne] at happend
        · rw [ha]
          exact happend
    · rw [hseek.frame.beside.appendBlock hq]
      exact h.append_le q

theorem Labelled.of_quiet {v v' : Volume T} (h : Labelled label v) (hq : Quiet v v') :
    Labelled label v' := by
  constructor
  · exact hq.tape.posOk h.posOk
  · rw [hq.tape.answers]
    exact h.answers
  · rw [hq.tape.medium]
    exact h.label
  · intro p
    rw [hq.tape.eod]
    exact h.eod_le p
  · intro p
    rw [hq.tape.appendBlock]
    exact h.append_le p

theorem Labelled.clearWritePerm {v : Volume T} (h : Labelled label v) (p : Partition) :
    Labelled label (clearWritePerm p v) := by
  refine ⟨h.posOk, h.answers, h.label, h.eod_le, fun q => ?_⟩
  by_cases hq : q = p
  · subst hq
    have hself : (Ltfs.clearWritePerm q v).dev.appendPos q = 0 := setAppendPos_self v.dev q 0
    unfold Device.appendBlock
    rw [if_pos hself]
    exact h.eod_le q
  · have hne : (Ltfs.clearWritePerm p v).dev.appendPos q = v.dev.appendPos q :=
      setAppendPos_ne v.dev 0 hq
    have happend := h.append_le q
    unfold Device.appendBlock at happend ⊢
    rw [hne]
    exact happend

/-- An append position behind the end of data cannot be reached. -/
theorem SeekSpec.neg {p : Partition} {dev : Device T} {r : ℤ × Device T} (h : SeekSpec p dev r)
    (hle : ¬ dev.appendPos p ≤ dev.eod p) : r.1 < 0 := by
  by_contra hneg
  have hstart := (h.found (le_antisymm h.ret_le (not_lt.mp hneg))).start_le
  have hblock : dev.appendBlock p = dev.appendPos p := by
    unfold Device.appendBlock
    rw [if_neg (by omega)]
  rw [hblock] at hstart
  exact hle hstart

theorem writeIndexHere_labelled (p : Partition) (writePerm : Bool) (volstat : VolumeLock)
    {v : Volume T} (h : Labelled label v) :
    Labelled label (writeIndexHere p writePerm volstat v).2 := by
  by_cases hle : v.dev.appendPos p ≤ v.dev.eod p
  · rcases writeIndexHere_outcome p writePerm volstat h.posOk hle with ⟨-, hf⟩ | ⟨-, hd⟩
    · exact h.of_write hf.beside hle hf.tape
    · exact h.of_write hd.beside hle hd.partly
  · have hseek := seekAppendPosition_spec p (decide (p = .ip)) h.posOk
    unfold writeIndexHere
    dsimp only
    generalize seekAppendPosition p (decide (p = .ip)) v.dev = s at hseek ⊢
    rw [if_pos (hseek.neg hle)]
    have hq := outWritePerm_quiet p writePerm false volstat s.1 { v with dev := s.2 }
    exact h.of_seek hseek hq.tape

theorem writeDataHere_labelled (p : Partition) (buf : List UInt8) (repetitions : ℕ)
    {v : Volume T} (h : Labelled label v) :
    Labelled label (writeDataHere p buf repetitions v).2 := by
  by_cases hle : v.dev.appendPos p ≤ v.dev.eod p
  · have hput := writeDataHere_outcome p buf repetitions h.posOk hle
    exact h.of_write hput.beside hle hput.tape
  · have hseek := seekAppendPosition_spec p (decide (p = .ip)) h.posOk
    unfold writeDataHere
    dsimp only
    rw [setEndsInIndex_dev]
    generalize seekAppendPosition p (decide (p = .ip)) v.dev = s at hseek ⊢
    rw [if_pos (hseek.neg hle)]
    have hq := outUnlock_quiet s.1 { v.setEndsInIndex p false with dev := s.2 }
    exact h.of_seek hseek hq.tape

theorem step_labelled {v : Volume T} (h : Labelled label v) (op : VolumeOp T) :
    Labelled label (op.step v) := by
  have hquiet : ∀ v v' : Volume T, Quiet v v' → Labelled label v → Labelled label v' :=
    fun _ _ hq h => h.of_quiet hq
  have hclear : ∀ q (v : Volume T), Labelled label v → Labelled label (clearWritePerm q v) :=
    fun q _ h => h.clearWritePerm q
  have hhere : ∀ q writePerm volstat (v : Volume T), Labelled label v →
      Labelled label (writeIndexHere q writePerm volstat v).2 :=
    fun q writePerm volstat _ h => writeIndexHere_labelled q writePerm volstat h
  cases op with
  | writeIndex p writePerm => exact writeIndex_invariant hquiet hclear hhere p writePerm h
  | writeData p buf repetitions =>
    have hcond := writeIndexConditional_invariant hquiet hclear hhere p.other h
    show Labelled label (writeDataUnlocked p buf repetitions v).2
    rcases writeDataUnlocked_cases p buf repetitions v with hq | hq | ⟨-, heq⟩
    · exact h.of_quiet hq
    · exact hcond.of_quiet hq
    · rw [heq]
      exact writeDataHere_labelled p buf repetitions hcond
  | change root => exact ⟨h.posOk, h.answers, h.label, h.eod_le, h.append_le⟩

theorem run_labelled (ops : List (VolumeOp T)) : ∀ v : Volume T, Labelled label v →
    Labelled label (runVolume v ops) := by
  induction ops with
  | nil => exact fun v h => h
  | cons op ops ih => exact fun v h => ih _ (step_labelled h op)

/-- Writing behind the labels keeps the base. -/
theorem Base.of_write {v v' : Volume T} (h : Base label v) {p : Partition}
    {all : List (Record T)} (hbeside : Beside p v.dev v'.dev)
    (htape : Partly p (v.dev.appendBlock p) (v.dev.medium p) all v'.dev)
    (hblocksize : v'.blocksize = v.blocksize) : Base label v' := by
  refine ⟨h.toLabelled.of_write hbeside (h.appendPos_le p) htape, ?_, ?_⟩
  · exact (hbeside.ok h.ok htape.posOk htape.appendPos_le).appendPos_le
  · rw [hblocksize, hbeside.maxBlockSize]
    exact h.size_le

theorem Base.of_quiet {v v' : Volume T} (h : Base label v) (hq : Quiet v v') : Base label v' :=
  h.of_write (hq.tape.beside .dp) (hq.partly h.ok .dp) hq.blocksize

theorem Base.clearWritePerm {v : Volume T} (h : Base label v) (p : Partition) :
    Base label (clearWritePerm p v) := by
  rcases clearWritePerm_partly h.ok p with ⟨hb, ht⟩
  exact h.of_write hb ht rfl

theorem Base.of_done {v v' : Volume T} (h : Base label v) {p : Partition}
    (hd : IndexDone p v v') : Base label v' :=
  h.of_write hd.beside hd.partly hd.blocksize

theorem DpSettled.of_quiet {v v' : Volume T} (h : DpSettled v) (hq : Quiet v v') :
    DpSettled v' := by
  have hback : v'.nextBackptr = v.nextBackptr := by
    unfold Volume.nextBackptr
    rw [hq.index]
  constructor
  · rw [hq.endsInIndex, hq.tape.medium, hback]
    exact h.ends
  · rw [hq.endsInIndex, hq.tape.appendPos, hq.tape.eod]
    exact h.append

theorem IpSettled.of_quiet {v v' : Volume T} (h : IpSettled v) (hq : Quiet v v') :
    IpSettled v' := by
  constructor
  · rw [hq.endsInIndex, hq.tape.medium, hq.tape.appendPos, hq.index]
    exact h.ends
  · rw [hq.endsInIndex, hq.tape.appendPos, hq.tape.eod]
    exact h.append

theorem Settled.of_quiet {v v' : Volume T} (h : Settled label v) (hq : Quiet v v') :
    Settled label v' :=
  ⟨h.toBase.of_quiet hq, h.dp.of_quiet hq, h.ip.of_quiet hq⟩

/-- An index that has just been written is what its partition ends in. -/
theorem endsInIndexAt_append (m : List (Record T)) {b n : ℕ} (doc : Index T)
    (hb : b ≤ m.length) : EndsInIndexAt (m.take b ++ indexImage n doc) b := by
  have htake : (m.take b).length = b := by
    rw [List.length_take]
    omega
  have hlen : (m.take b ++ indexImage n doc).length = b + n + 2 := by
    rw [List.length_append, htake, length_indexImage]
    omega
  have hget : ∀ i, fmAt (m.take b ++ indexImage n doc) (b + i)
      = (((indexImage n doc)[i]?).map Record.isFm).getD false := by
    intro i
    unfold fmAt
    rw [List.getElem?_append_right (by omega), htake, Nat.add_sub_cancel_left]
  constructor
  · omega
  · exact hget 0
  · rw [hlen, show b + n + 2 - 1 = b + (n + 1) by omega, hget]
    unfold indexImage
    rw [List.cons_append, List.getElem?_cons_succ, List.getElem?_append_right (by simp)]
    simp [Record.isFm]
  · intro i hi hend
    rw [hlen] at hend
    obtain ⟨j, rfl⟩ : ∃ j, i = b + (j + 1) := ⟨i - b - 1, by omega⟩
    rw [hget]
    unfold indexImage
    rw [List.cons_append, List.getElem?_cons_succ, List.getElem?_append_left (by simp; omega)]
    have hj : j < n := by omega
    simp [hj, Record.isFm]

/-- What a completed index needs of the other partition. -/
def OtherSettled : Partition → Volume T → Prop
  | .ip, v => DpSettled v
  | .dp, v => IpSettled v

theorem Settled.of_done {v v' : Volume T} (h : Base label v) {p : Partition}
    (hother : OtherSettled p v) (hd : IndexDone p v v') : Settled label v' := by
  have hbase := h.of_done hd
  have hends : EndsInIndexAt (v'.dev.medium p) (v.dev.appendBlock p) := by
    rw [hd.medium]
    exact endsInIndexAt_append _ _ hd.start_le
  have hself : v'.index.selfptr = ⟨some p, v.dev.appendBlock p + 1⟩ := by
    rw [hd.index]
    rfl
  cases p with
  | dp =>
    refine ⟨hbase, ?_, ?_⟩
    · constructor
      · intro _
        refine ⟨_, hends, fun _ => ?_⟩
        unfold Volume.nextBackptr
        rw [hself, if_pos rfl]
      · left
        rw [hd.appendPos, hd.eod]
        rfl
    · have hend : v'.endsInIndex .ip = v.endsInIndex .ip := by
        rw [hd.endsInIndex]
        rfl
      constructor
      · rw [hend, hd.beside.medium .ip (by decide), hd.beside.appendPos .ip (by decide), hself]
        intro hip
        rcases hother.ends hip with ⟨b, hat, happend, -⟩
        exact ⟨b, hat, happend, fun hptr => by cases hptr⟩
      · rw [hend, hd.beside.appendPos .ip (by decide), hd.beside.eod (by decide)]
        exact hother.append
  | ip =>
    have hback : v'.nextBackptr = v.nextBackptr := by
      unfold Volume.nextBackptr
      rw [hd.index]
      rfl
    refine ⟨hbase, ?_, ?_⟩
    · have hend : v'.endsInIndex .dp = v.endsInIndex .dp := by
        rw [hd.endsInIndex]
        rfl
      constructor
      · rw [hend, hd.beside.medium .dp (by decide), hback]
        exact hother.ends
      · rw [hend, hd.beside.appendPos .dp (by decide), hd.beside.eod (by decide)]
        exact hother.append
    · constructor
      · intro _
        refine ⟨_, hends, ?_, fun _ => by rw [hself]⟩
        rw [hd.appendPos]
        unfold Volume.appendAfterIndex
        dsimp only
        split
        · exact Or.inl rfl
        · exact Or.inr rfl
      · rw [hd.endsInIndex]
        intro hfalse
        cases hfalse

/-- The other partition does not notice that the append position is forgotten. -/
theorem OtherSettled.clearWritePerm {v : Volume T} {p : Partition} (h : OtherSettled p v) :
    OtherSettled p (clearWritePerm p v) := by
  cases p with
  | ip =>
    have hap : (Ltfs.clearWritePerm .ip v).dev.appendPos .dp = v.dev.appendPos .dp :=
      setAppendPos_ne v.dev (p := .ip) (q := .dp) 0 (by decide)
    exact ⟨h.ends, by rw [hap]; exact h.append⟩
  | dp =>
    have hap : (Ltfs.clearWritePerm .dp v).dev.appendPos .ip = v.dev.appendPos .ip :=
      setAppendPos_ne v.dev (p := .dp) (q := .ip) 0 (by decide)
    exact ⟨by rw [hap]; exact h.ends, by rw [hap]; exact h.append⟩

theorem Settled.other {v : Volume T} (h : Settled label v) (p : Partition) : OtherSettled p v := by
  cases p with
  | ip => exact h.dp
  | dp => exact h.ip

/-! ## Successful operations -/

/-- The operation reports success. -/
def VolumeOp.Succeeds (v : Volume T) : VolumeOp T → Prop
  | .writeIndex p writePerm => (Ltfs.writeIndex p writePerm v).1 = 0
  | .writeData p buf repetitions => ∃ start, (writeDataUnlocked p buf repetitions v).1 = .ok start
  | .change _ => True

/-- All operations of a run do. -/
def AllSucceed (v : Volume T) : List (VolumeOp T) → Prop
  | [] => True
  | op :: ops => op.Succeeds v ∧ AllSucceed (op.step v) ops

theorem Base.failStop {v : Volume T} (h : Base label v) : FailStop v.dev.answers := by
  intro i code junk herr
  rcases h.answers i with ⟨early, programmable, hok⟩
  rw [herr] at hok
  cases hok

/-- `writeIndexHere` completes an index if it returns success. -/
theorem writeIndexHere_done {p : Partition} {writePerm : Bool} {volstat : VolumeLock}
    {v : Volume T} (hok : v.dev.Ok) (hret : (writeIndexHere p writePerm volstat v).1 = 0) :
    IndexDone p v (writeIndexHere p writePerm volstat v).2 := by
  rcases writeIndexHere_result p writePerm volstat hok with ⟨hneg, -⟩ | ⟨-, hd⟩
  · omega
  · exact hd

/-- The state a successful `writeIndexFlat` writes its index from. -/
theorem writeIndexFlat_ready {p : Partition} {writePerm : Bool} {v : Volume T}
    (h : Settled label v) (hret : (writeIndexFlat p writePerm v).1 = 0) :
    ∃ v₁, Base label v₁ ∧ OtherSettled p v₁ ∧ IndexDone p v₁ (writeIndexFlat p writePerm v).2 := by
  have htick : Settled label { v with dev := v.dev.tick } := h.of_quiet (tick_same v.dev).quiet
  have hdev := getCartVolumeLockStatus_dev v.dev
  unfold writeIndexFlat at hret ⊢
  rcases hcart : getCartVolumeLockStatus v.dev with ⟨ret | volstat, dev⟩
  · rw [hcart] at hret
    have hneg := getCartVolumeLockStatus_error hcart
    exact absurd hret (ne_of_lt hneg)
  · rw [hcart] at hdev hret
    subst hdev
    dsimp only at hret ⊢
    cases writePerm with
    | true =>
      rw [if_pos rfl] at hret ⊢
      have hbase := htick.toBase.clearWritePerm p
      exact ⟨_, hbase, (htick.other p).clearWritePerm, writeIndexHere_done hbase.ok hret⟩
    | false =>
      rw [if_neg Bool.false_ne_true] at hret ⊢
      split
      · rename_i hrefused
        rw [if_pos hrefused] at hret
        exact absurd hret (ne_of_lt hrefused)
      · rename_i hrefused
        rw [if_neg hrefused] at hret
        exact ⟨_, htick.toBase, htick.other p, writeIndexHere_done htick.ok hret⟩

/-- A successful index write keeps the volume settled. -/
theorem writeIndex_settled {p : Partition} {writePerm : Bool} {v : Volume T}
    (h : Settled label v) (hret : (writeIndex p writePerm v).1 = 0) :
    Settled label (writeIndex p writePerm v).2 := by
  have htick : Settled label { v with dev := v.dev.tick } := h.of_quiet (tick_same v.dev).quiet
  have hdev := getCartVolumeLockStatus_dev v.dev
  unfold writeIndex at hret ⊢
  split
  · rename_i hp
    rw [if_pos hp] at hret
    rcases writeIndexFlat_ready h hret with ⟨v₁, hbase, hother, hd⟩
    exact Settled.of_done hbase hother hd
  · rename_i hp
    rw [if_neg hp] at hret
    rcases hcart : getCartVolumeLockStatus v.dev with ⟨ret | volstat, dev⟩
    · rw [hcart] at hret
      have hneg := getCartVolumeLockStatus_error hcart
      exact absurd hret (ne_of_lt hneg)
    · rw [hcart] at hdev hret
      subst hdev
      dsimp only at hret ⊢
      split
      · rename_i hrefused
        rw [if_pos hrefused] at hret
        exact absurd hret (ne_of_lt hrefused)
      · rename_i hrefused
        rw [if_neg hrefused] at hret
        split
        · rename_i hneed
          rw [if_pos hneed] at hret
          exact Settled.of_done htick.toBase (htick.other p) (writeIndexHere_done htick.ok hret)
        · rename_i hneed
          rw [if_neg hneed] at hret
          -- the nested write cannot fail on a drive without faults
          have halive := writeIndexFlat_alive htick.ok htick.toBase.failStop htick.size_le hrefused
          have hflat : (writeIndexFlat .dp false { v with dev := v.dev.tick }).1 = 0 →
              ∃ v₁, Base label v₁ ∧ OtherSettled .dp v₁ ∧
                IndexDone .dp v₁ (writeIndexFlat .dp false { v with dev := v.dev.tick }).2 :=
            fun hz => writeIndexFlat_ready htick hz
          have hdead : ¬ Dead (writeIndexFlat .dp false { v with dev := v.dev.tick }).2.dev := by
            intro hdead
            have hanswers := step_answers htick.ok (.writeIndex .dp false)
            have heq : VolumeOp.step { v with dev := v.dev.tick } (.writeIndex .dp false)
                = (writeIndexFlat .dp false { v with dev := v.dev.tick }).2 := by
              show (writeIndex .dp false _).2 = _
              unfold writeIndex
              rw [if_pos (Or.inl rfl)]
            rw [heq] at hanswers
            rcases hdead _ (le_refl _) with ⟨code, herr⟩
            rw [hanswers] at herr
            rcases htick.answers _ with ⟨early, programmable, hok⟩
            rw [herr] at hok
            cases hok
          generalize writeIndexFlat .dp false { v with dev := v.dev.tick } = d at *
          have hdz := halive.resolve_right hdead
          rcases hflat hdz with ⟨v₁, hbase, hother, hd⟩
          have hsettled := Settled.of_done hbase hother hd
          have hafter : writeIndexAfterDp p volstat d = writeIndexHere p false volstat d.2 := by
            unfold writeIndexAfterDp
            rw [hdz]
            rfl
          rw [hafter] at hret ⊢
          exact Settled.of_done hsettled.toBase (hsettled.other p)
            (writeIndexHere_done hsettled.ok hret)

theorem writeIndex_le (p : Partition) (writePerm : Bool) {v : Volume T} (hok : v.dev.Ok) :
    (writeIndex p writePerm v).1 ≤ 0 := by
  rcases writeIndex_rule (fun _ _ hq h => hq.tape.ok h)
    (fun q v h => (clearWritePerm_partly h q).1.ok h (clearWritePerm_partly h q).2.posOk
      (clearWritePerm_partly h q).2.appendPos_le)
    (fun q w s v h => by
      rcases writeIndexHere_result q w s h with ⟨-, hf⟩ | ⟨-, hd⟩
      · exact hf.ok h
      · exact hd.ok h) p writePerm hok with ⟨hneg, -⟩ | ⟨w, s, v₁, hok₁, heq⟩
  · exact hneg.le
  · rw [heq]
    rcases writeIndexHere_result p w s hok₁ with ⟨hneg, -⟩ | ⟨hz, -⟩
    · exact hneg.le
    · exact hz.le

theorem writeIndexConditional_settled (p : Partition) {v : Volume T} (h : Settled label v)
    (hret : 0 ≤ (writeIndexConditional p v).1) : Settled label (writeIndexConditional p v).2 := by
  have hwrite : ∀ q, 0 ≤ (writeIndex q false v).1 → Settled label (writeIndex q false v).2 :=
    fun q hq => writeIndex_settled h (le_antisymm (writeIndex_le q false h.ok) hq)
  unfold writeIndexConditional at hret ⊢
  cases p with
  | ip =>
    dsimp only at hret ⊢
    by_cases hend : v.ipIndexFileEnd = true
    · rw [if_pos hend]
      exact h
    · rw [if_neg hend] at hret ⊢
      exact hwrite .ip hret
  | dp =>
    dsimp only at hret ⊢
    by_cases hneed : needsDpIndex v = true
    · rw [if_pos hneed] at hret ⊢
      exact hwrite .dp hret
    · rw [if_neg hneed]
      exact h

/-- A data write that reports success has written everything. -/
theorem writeDataHere_done {p : Partition} {buf : List UInt8} {repetitions : ℕ} {v : Volume T}
    (hok : v.dev.Ok) {start : ℕ} (hret : (writeDataHere p buf repetitions v).1 = .ok start) :
    start = v.dev.appendBlock p ∧
    Writing p (v.dev.appendBlock p) (v.dev.medium p) (dataRecords v.blocksize buf repetitions)
      (writeDataHere p buf repetitions v).2.dev := by
  have hbs : (v.setEndsInIndex p false).blocksize = v.blocksize := by cases p <;> rfl
  have hseek := seekAppendPosition_spec p (decide (p = .ip)) hok.posOk
  unfold writeDataHere at hret ⊢
  dsimp only at hret ⊢
  rw [setEndsInIndex_dev] at hret ⊢
  generalize seekAppendPosition p (decide (p = .ip)) v.dev = s at hseek hret ⊢
  by_cases hsneg : s.1 < 0
  · rw [if_pos hsneg] at hret
    cases hret
  · rw [if_neg hsneg] at hret ⊢
    have hszero : s.1 = 0 := le_antisymm hseek.ret_le (not_lt.mp hsneg)
    have hwrote := writeBlocks_wrote false false (List.replicate repetitions
      (dataBlocks (v.setEndsInIndex p false).blocksize buf)).flatten (hseek.found hszero)
    generalize writeBlocks false false (List.replicate repetitions
      (dataBlocks (v.setEndsInIndex p false).blocksize buf)).flatten s.2 = w at hwrote hret ⊢
    rw [map_fst_dataBlocks, hbs] at hwrote
    by_cases hwneg : w.1 < 0
    · rw [if_pos hwneg] at hret
      cases hret
    · rw [if_neg hwneg] at hret ⊢
      have hwzero : w.1 = 0 := le_antisymm hwrote.ret_le (not_lt.mp hwneg)
      have hstart : s.2.position.block = v.dev.appendBlock p := by
        rw [(hseek.found hszero).position]
        rfl
      refine ⟨?_, ?_⟩
      · rw [← hstart]
        cases hret
        rfl
      · have := hwrote.all hwzero
        rwa [List.nil_append] at this

theorem dataRecords_ne_nil (blocksize : ℕ) {buf : List UInt8} {repetitions : ℕ}
    (hbuf : buf.length ≠ 0) (hrep : repetitions ≠ 0) :
    (dataRecords blocksize buf repetitions : List (Record T)) ≠ [] := by
  obtain ⟨n, rfl⟩ : ∃ n, repetitions = n + 1 := ⟨repetitions - 1, by omega⟩
  cases buf with
  | nil => exact absurd rfl hbuf
  | cons x buf =>
    unfold dataRecords chunks
    rw [List.replicate_succ]
    simp

theorem writeData_settled {p : Partition} {buf : List UInt8} {repetitions : ℕ} {v : Volume T}
    (h : Settled label v) {start : ℕ}
    (hret : (writeDataUnlocked p buf repetitions v).1 = .ok start) :
    Settled label (writeDataUnlocked p buf repetitions v).2 := by
  unfold writeDataUnlocked at hret ⊢
  by_cases hempty : buf.length = 0 ∨ repetitions = 0
  · rw [if_pos hempty]
    exact h
  · rw [if_neg hempty] at hret ⊢
    push Not at hempty
    by_cases harg : repetitions > 1 ∧ buf.length % v.blocksize ≠ 0
    · rw [if_pos harg] at hret
      cases hret
    · rw [if_neg harg] at hret ⊢
      by_cases hro : tapeReadOnly p v.dev < 0
      · rw [if_pos hro] at hret
        cases hret
      · rw [if_neg hro] at hret ⊢
        dsimp only at hret ⊢
        by_cases hc : (writeIndexConditional p.other v).1 < 0
        · rw [if_pos hc] at hret
          cases hret
        · rw [if_neg hc] at hret ⊢
          have hcond := writeIndexConditional_settled p.other h (not_lt.mp hc)
          generalize (writeIndexConditional p.other v).2 = v₁ at hcond hret ⊢
          have hput := writeDataHere_result p buf repetitions hcond.ok
          have hall := (writeDataHere_done hcond.ok hret).2
          have hrecs := dataRecords_ne_nil v₁.blocksize hempty.1 hempty.2 (T := T)
          generalize dataRecords v₁.blocksize buf repetitions = recs at hput hall hrecs
          have happend : (writeDataHere p buf repetitions v₁).2.dev.appendPos p
              = (writeDataHere p buf repetitions v₁).2.dev.eod p := by
            unfold Device.eod
            rw [hall.appendPos, hall.medium, if_neg hrecs, List.length_append, List.length_take,
              min_eq_left hall.start_le]
          generalize (writeDataHere p buf repetitions v₁).2 = v' at hput happend ⊢
          refine ⟨hcond.toBase.of_write hput.beside hput.tape hput.blocksize, ?_, ?_⟩
          · cases p with
            | dp =>
              refine ⟨fun hend => ?_, Or.inl happend⟩
              rw [hput.endsInIndex] at hend
              cases hend
            | ip =>
              have hend : v'.endsInIndex .dp = v₁.endsInIndex .dp := by
                rw [hput.endsInIndex]
                rfl
              have hback : v'.nextBackptr = v₁.nextBackptr := by
                unfold Volume.nextBackptr
                rw [hput.index]
              constructor
              · rw [hend, hput.beside.medium .dp (by decide), hback]
                exact hcond.dp.ends
              · rw [hend, hput.beside.appendPos .dp (by decide), hput.beside.eod (by decide)]
                exact hcond.dp.append
          · cases p with
            | ip =>
              refine ⟨fun hend => ?_, fun _ => happend⟩
              rw [hput.endsInIndex] at hend
              cases hend
            | dp =>
              have hend : v'.endsInIndex .ip = v₁.endsInIndex .ip := by
                rw [hput.endsInIndex]
                rfl
              constructor
              · rw [hend, hput.beside.medium .ip (by decide), hput.beside.appendPos .ip (by decide),
                  hput.index]
                exact hcond.ip.ends
              · rw [hend, hput.beside.appendPos .ip (by decide), hput.beside.eod (by decide)]
                exact hcond.ip.append

theorem step_settled {v : Volume T} (h : Settled label v) (op : VolumeOp T)
    (hop : op.Succeeds v) : Settled label (op.step v) := by
  cases op with
  | writeIndex p writePerm => exact writeIndex_settled h hop
  | writeData p buf repetitions =>
    rcases hop with ⟨start, hret⟩
    exact writeData_settled h hret
  | change root =>
    exact ⟨⟨⟨h.posOk, h.answers, h.label, h.eod_le, h.append_le⟩, h.appendPos_le, h.size_le⟩,
      ⟨h.dp.ends, h.dp.append⟩, ⟨h.ip.ends, h.ip.append⟩⟩

theorem run_settled (ops : List (VolumeOp T)) : ∀ v : Volume T, Settled label v →
    AllSucceed v ops → Settled label (runVolume v ops) := by
  induction ops with
  | nil => exact fun v h _ => h
  | cons op ops ih => exact fun v h hops => ih _ (step_settled h op hops.1) hops.2

theorem Mounted.labelled {v : Volume T} (h : Mounted label v)
    (hanswers : ∀ i, ∃ early programmable, v.dev.answers i = .ok early programmable) :
    Labelled label v :=
  ⟨h.ok.posOk, hanswers, fun p => (h.label p).1,
    fun p => (h.label p).2.trans (h.ok.appendBlock_le p), fun p => (h.label p).2⟩

theorem Mounted.settled {v : Volume T} (h : Mounted label v)
    (hanswers : ∀ i, ∃ early programmable, v.dev.answers i = .ok early programmable) :
    Settled label v := by
  rcases h.ip with ⟨b, hat, hself, happend⟩
  rcases h.dp with ⟨b', hat', hback⟩
  have hnext : v.nextBackptr = v.index.backptr := by
    unfold Volume.nextBackptr
    rw [hself, if_neg (show some Partition.ip ≠ some .dp by decide)]
  refine ⟨⟨h.labelled hanswers, h.ok.appendPos_le, h.size_le⟩, ?_, ?_⟩
  · constructor
    · intro _
      rw [hnext]
      exact ⟨b', hat', hback⟩
    · rcases h.appendDp with h0 | heod
      · exact Or.inr ⟨h0, h.dpIndexFileEnd⟩
      · exact Or.inl heod
  · constructor
    · intro _
      refine ⟨b, hat, ?_, fun _ => by rw [hself]⟩
      rw [happend]
      split
      · exact Or.inl rfl
      · exact Or.inr rfl
    · intro hfalse
      have htrue : v.endsInIndex .ip = true := h.ipIndexFileEnd
      rw [htrue] at hfalse
      cases hfalse

/-! ## Revalidation -/

/-- Each partition's end of data agrees with the append position that was recorded
for it: data goes to the end, an index of the index partition in place of the one
that partition ends in. -/
def AgreesWith (ipIndexFileEnd : Bool) (appendPos : Partition → ℕ) (dev : Device T) : Prop :=
  (appendPos .dp = 0 ∨ appendPos .dp = dev.eod .dp) ∧
  if ipIndexFileEnd then appendPos .ip = 0 ∨ EndsInIndexAt (dev.medium .ip) (appendPos .ip)
  else appendPos .ip = 0 ∨ appendPos .ip = dev.eod .ip

/-- `ltfs_revalidate` does what it should for this volume: it accepts the unchanged
medium and leaves everything as it is, and it accepts no other medium whose end of
data does not agree with the append positions. -/
def RevalidatesWell (label : Partition → List (Option (List UInt8))) (v : Volume T) : Prop :=
  ((ltfsRevalidate label v).1 = 0 ∧ (ltfsRevalidate label v).2.index = v.index ∧
    (ltfsRevalidate label v).2.dev.appendPos = v.dev.appendPos ∧
    (ltfsRevalidate label v).2.dev.medium = v.dev.medium) ∧
  ∀ dev, dev.appendPos = v.dev.appendPos → (ltfsRevalidate label { v with dev := dev }).1 = 0 →
    AgreesWith v.ipIndexFileEnd v.dev.appendPos dev

/-- What is recorded about the partitions and the cartridge memory is right, and the index
partition ends in an index. -/
structure Recorded (v : Volume T) : Prop where
  coherency : v.coherency = v.dev.coherency
  ipIndexFileEnd : v.ipIndexFileEnd = true
  dp : DpSettled v
  ip : IpSettled v

/-- Revalidation works as it should exactly for what is recorded rightly. -/
theorem revalidatesWell_iff {v : Volume T} (h : Labelled label v) :
    RevalidatesWell label v ↔ Recorded v := by
  constructor
  · rintro ⟨⟨hret, -⟩, hother⟩
    rcases ltfsRevalidate_zero label v hret with ⟨hcoh, hdp, hip, -⟩
    cases hend : v.ipIndexFileEnd with
    | true =>
      rw [hend, if_pos rfl] at hip
      exact ⟨hcoh, hend, hdp, hip⟩
    | false =>
      -- what it accepts does not end where the append position says
      rw [hend, if_neg Bool.false_ne_true] at hip
      have hagrees := (hother v.dev rfl hret).2
      rw [hend, if_neg Bool.false_ne_true] at hagrees
      have hle := h.eod_le .ip
      omega
  · intro hrec
    have hend := hrec.ipIndexFileEnd
    constructor
    · have hret : (ltfsRevalidate label v).1 = 0 :=
        ltfsRevalidate_of (fun i _ => h.answers i) h.label hrec.coherency
          ((by decide : 0 < 4).trans_le (h.eod_le .dp)) hrec.dp hend hrec.ip
      rcases ltfsRevalidate_zero label v hret with ⟨-, -, -, happ, hmedium⟩
      exact ⟨hret, rfl, happ, hmedium⟩
    · intro dev happ hret
      rcases ltfsRevalidate_zero label { v with dev := dev } hret with ⟨-, hdp, hip, -, -⟩
      have hip' : IpSettled { v with dev := dev } := by
        have hif : (if v.ipIndexFileEnd then IpSettled { v with dev := dev }
          else dev.appendPos .ip ≠ 0 ∧ dev.appendPos .ip = dev.eod .ip - 1) := hip
        rwa [if_pos hend] at hif
      constructor
      · rw [← happ]
        rcases hdp.append with heod | ⟨h0, -⟩
        · exact Or.inr heod
        · exact Or.inl h0
      · rw [if_pos hend, ← happ]
        rcases hip'.ends hend with ⟨b, hat, h0 | hb, -⟩
        · exact Or.inl h0
        · right
          have heq : dev.appendPos .ip = b := hb
          rw [heq]
          exact hat

/-- After any operations on a mounted volume, revalidation works as it should exactly if what is
recorded is right. After successful operations on a volume that was consistent, only two things can
be wrong: the index partition does not end in an index, or the coherency attributes in memory are
not those of the cartridge. -/
theorem revalidate_iff {v₀ : Volume T} (h₀ : Labelled label v₀) (ops : List (VolumeOp T)) :
    (RevalidatesWell label (runVolume v₀ ops) ↔ Recorded (runVolume v₀ ops)) ∧
    (Mounted label v₀ → AllSucceed v₀ ops →
      (Recorded (runVolume v₀ ops) ↔
        (runVolume v₀ ops).ipIndexFileEnd = true ∧
        (runVolume v₀ ops).coherency = (runVolume v₀ ops).dev.coherency)) := by
  refine ⟨revalidatesWell_iff (run_labelled ops v₀ h₀), fun hmounted hops => ?_⟩
  have h := run_settled ops v₀ (hmounted.settled h₀.answers) hops
  constructor
  · exact fun hrec => ⟨hrec.ipIndexFileEnd, hrec.coherency⟩
  · exact fun ⟨hend, hcoh⟩ => ⟨hcoh, hend, h.dp, h.ip⟩

/-- The labels of the cartridge in the drive. -/
def syncedLabel (p : Partition) : List (Option (List UInt8)) := labelOf (syncedVolume.dev.medium p)

theorem syncedVolume_ip : syncedVolume.dev.medium .ip
    = [.data [], .fm, .data [], .fm, .fm, .idx ⟨2, ⟨some .ip, 5⟩, ⟨some .dp, 10⟩, ()⟩ 0 1, .fm] := by
  rfl

theorem syncedVolume_mounted : Mounted syncedLabel syncedVolume := by
  have hip : EndsInIndexAt (syncedVolume.dev.medium .ip) 4 := by
    rw [syncedVolume_ip]
    exact endsInIndexAt_append [.data [], .fm, .data [], .fm] (n := 1) _ (le_refl 4)
  have hdp : EndsInIndexAt (syncedVolume.dev.medium .dp) 9 := by
    rw [syncedVolume_dp]
    exact endsInIndexAt_append [.data [], .fm, .data [], .fm, .fm,
      .idx ⟨1, ⟨some .dp, 5⟩, ⟨none, 0⟩, ()⟩ 0 1, .fm, .data [1, 2, 3, 4], .data [5]] (n := 1) _
      (le_refl 9)
  have hself : syncedVolume.index.selfptr = ⟨some .ip, 5⟩ := rfl
  have hback : syncedVolume.index.backptr = ⟨some .dp, 10⟩ := rfl
  have happ : ∀ p, syncedVolume.dev.appendPos p = if p = .ip then 4 else 12 := by
    intro p
    cases p <;> rfl
  constructor
  · constructor
    · show syncedVolume.dev.position.block ≤ syncedVolume.dev.eod syncedVolume.dev.position.partition
      decide +kernel
    · intro p
      cases p <;> decide +kernel
  · decide +kernel
  · intro p
    refine ⟨rfl, ?_⟩
    cases p <;> decide +kernel
  · rfl
  · rfl
  · exact ⟨4, hip, hself, rfl⟩
  · refine ⟨9, hdp, fun _ => ?_⟩
    rw [hback]
  · exact Or.inr (by decide +kernel)

/-- A reset after data went to the index partition. -/
theorem data_on_ip_refused : ∃ (v₀ : Volume Unit) (label : Partition → List (Option (List UInt8)))
    (ops : List (VolumeOp Unit)), Mounted label v₀ ∧
    (∀ i, ∃ early programmable, v₀.dev.answers i = .ok early programmable) ∧
    AllSucceed v₀ ops ∧ (runVolume v₀ ops).coherency = (runVolume v₀ ops).dev.coherency ∧
    (ltfsRevalidate label (runVolume v₀ ops)).1 = -ltfsRevalFailed := by
  refine ⟨syncedVolume, syncedLabel, [.writeData .ip [1] 1], syncedVolume_mounted,
    fun i => ⟨false, false, rfl⟩, ⟨⟨4, rfl⟩, trivial⟩, ?_, by decide +kernel⟩
  funext p
  cases p <;> rfl

/-- A reset after data went to the data partition. -/
theorem revalidate_iff_synced :
    RevalidatesWell syncedLabel (runVolume syncedVolume [.writeData .dp [1, 2, 3] 1]) := by
  have hiff := revalidate_iff
    (syncedVolume_mounted.labelled fun i => ⟨false, false, rfl⟩) [.writeData .dp [1, 2, 3] 1]
  refine hiff.1.mpr ((hiff.2 syncedVolume_mounted ⟨⟨12, rfl⟩, trivial⟩).mpr ⟨rfl, ?_⟩)
  funext p
  cases p <;> rfl

end Mounted

end Ltfs
