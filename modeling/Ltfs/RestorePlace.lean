import Ltfs.CheckMediumSpec

/-!
# Which index is restored, and where

* `MediumReader.lastFound` — what the check knows of a partition before it decides anything.
* `inUse`, `settles` — which index is used, and whether nothing has to be written.
* `safeBelow` — where the index goes that is written to the index partition.
* `LostFile` — the extents of the files that are made of extra blocks.
-/

namespace Ltfs.CheckMedium

open XmlTape (SoughtIndex)

section Choice

variable {T : Type} (M : MediumReader T)

/-! ## Which index is used -/

/-- What is known of a partition when a missing file mark has been filled in. -/
def Finding.closed (f : Finding T) : Finding T :=
  match f.found with
  | some s =>
    if ! s.blocksAfter && ! s.fmAfter then ⟨f.eod + 1, some { s with fmAfter := true }⟩ else f
  | none => f

/-- What `ltfs_seek_index` reports of a partition, unless it fails, with the file mark that the
check fills in. -/
def MediumReader.lastFound (recoverSymlink : Bool) (p : Partition) (m : List (Record T)) :
    Option (Finding T) :=
  match XmlTape.ltfsSeekIndex (M.reader recoverSymlink m) p ⟨m.map M.image, 0, []⟩ with
  | some (.ok (eod, found)) => some (Finding.mk eod found).closed
  | _ => none

/-- The index of the index partition is not older, and points back to that of the data partition. -/
def UpToDate (ip dp : Index T) : Prop :=
  dp.generation ≤ ip.generation ∧ ip.backptr.partition = dp.selfptr.partition ∧
    ip.backptr.block = dp.selfptr.block

instance (ip dp : Index T) : Decidable (UpToDate ip dp) := inferInstanceAs (Decidable (_ ∧ _))

/-- Both partitions have an index, and that of the index partition is up to date. -/
def upToDate (ip dp : Finding T) : Bool :=
  match ip.found, dp.found with
  | some i, some d => decide (UpToDate i.index d.index)
  | _, _ => false

/-- The index that is used. -/
def inUse (ip dp : Finding T) : Option (Index T) :=
  match ip.found, dp.found with
  | some i, some d => some (if UpToDate i.index d.index then i.index else d.index)
  | some i, none => some i.index
  | none, d => d.map SoughtIndex.index

/-- Nothing has to be written: the index partition is up to date, and nothing is behind the
indexes. -/
def settles (ip dp : Finding T) : Bool :=
  upToDate ip dp && ! (ip.extraBlocks || dp.extraBlocks)

theorem inUse_upToDate {ip dp : Finding T} {index : Index T} (h : inUse ip dp = some index)
    (hup : upToDate ip dp = true) :
    ∃ i d, ip.found = some i ∧ dp.found = some d ∧ index = i.index := by
  unfold upToDate at hup
  unfold inUse at h
  cases hi : ip.found with
  | none =>
    rw [hi] at hup
    cases hup
  | some i =>
    cases hd : dp.found with
    | none =>
      rw [hi, hd] at hup
      cases hup
    | some d =>
      rw [hi, hd] at hup h
      dsimp only at hup h
      rw [if_pos (of_decide_eq_true hup), Option.some.injEq] at h
      exact ⟨i, d, rfl, rfl, h.symm⟩

theorem inUse_outdated {ip dp : Finding T} {index : Index T} {i d : SoughtIndex T}
    (h : inUse ip dp = some index) (hup : upToDate ip dp = false) (hi : ip.found = some i)
    (hd : dp.found = some d) : index = d.index := by
  unfold upToDate at hup
  unfold inUse at h
  rw [hi, hd] at hup h
  dsimp only at hup h
  rw [if_neg (of_decide_eq_false hup), Option.some.injEq] at h
  exact h.symm

variable {M}

theorem ltfsReadIndex_neg {R : XmlTape.IndexReader T} {p : Partition} {eodPos : ℕ}
    {dev dev' : XmlTape.Device} {ret : ℤ}
    (h : XmlTape.ltfsReadIndex R p eodPos dev = some (.error ret, dev')) : ret < 0 := by
  have hschema : ∀ code after, XmlTape.xmlSchemaFromTape R eodPos dev = some (.error code, after) →
      code < 0 := by
    intro code after h
    unfold XmlTape.xmlSchemaFromTape at h
    obtain ⟨⟨chunks, ctx⟩, -, hresult⟩ := Option.map_eq_some_iff.mp h
    dsimp only at hresult
    split at hresult
    · rename_i hneg
      cases hresult
      exact hneg
    · cases hfailure : (R.parse dev.pos).failure with
      | none =>
        rw [hfailure] at hresult
        cases hresult
      | some code =>
        rw [hfailure] at hresult
        dsimp only at hresult
        have hcode := code.2
        split at hresult
        · cases hresult
          decide
        · cases hresult
          exact hcode
  unfold XmlTape.ltfsReadIndex at h
  obtain ⟨⟨r, after⟩, hr, hrest⟩ := Option.map_eq_some_iff.mp h
  dsimp only at hrest
  cases hrecover : XmlTape.recoverConflicts R dev.pos r with
  | error code =>
    rw [hrecover] at hrest
    cases hrest
    unfold XmlTape.recoverConflicts at hrecover
    split at hrecover
    · split at hrecover
      · rename_i code _
        cases hrecover
        exact code.2
      · cases r with
        | ok endFm => cases hrecover
        | error code =>
          dsimp only at hrecover
          split at hrecover
          · cases hrecover
          · cases hrecover
            exact hschema _ _ hr
    · rw [hrecover] at hr
      exact hschema _ _ hr
  | ok endFm =>
    rw [hrecover] at hrest
    dsimp only at hrest
    split at hrest
    · cases hrest
      decide
    · split at hrest
      · split at hrest
        · rename_i hneg
          cases hrest
          exact hneg
        · cases hrest
      · cases hrest

theorem readIndexAt_neg {dev : Device T} {block : ℕ} {ret : ℤ}
    (h : readIndexAt M dev block = .error ret) : ret < 0 := by
  unfold readIndexAt at h
  cases hans : dev.answer with
  | error code junk =>
    rw [hans] at h
    cases h
    exact code.2
  | ok early programmable =>
    rw [hans] at h
    dsimp only at h
    split at h
    · cases h
      decide
    · split at h
      · cases h
      · rename_i hread
        cases h
        exact ltfsReadIndex_neg hread
      · cases h
        decide

/-- If both partitions have an index, the pointers tell which one is used. -/
theorem checkPointers_upToDate {dev : Device T} {i d : Index T} :
    checkPointers (readIndexAt M dev) (some i) (some d) = 0 ↔ UpToDate i d := by
  unfold checkPointers UpToDate
  dsimp only
  split
  · rename_i h
    exact iff_of_true rfl h
  · rename_i h
    refine iff_of_false ?_ h
    split
    · decide
    · split
      · decide
      · split
        · cases hread : readIndexAt M dev d.backptr.block with
          | error ret => exact ne_of_lt (readIndexAt_neg hread)
          | ok prev =>
            dsimp only
            split <;> decide
        · decide

/-- It is set dirty unless it is that of the index partition, and up to date. -/
theorem chooseIndex_inUse {ip dp : Finding T} {dev : Device T} {index : Index T} {dirty : Bool}
    (h : chooseIndex M ip dp dev = .ok (index, dirty)) :
    inUse ip dp = some index ∧ dirty = ! upToDate ip dp := by
  unfold chooseIndex at h
  dsimp only at h
  split at h
  · cases h
  · unfold inUse upToDate
    cases hip : ip.found with
    | none =>
      cases hdp : dp.found with
      | none =>
        simp only [hip, hdp] at h
        cases h
      | some d =>
        simp only [hip, hdp] at h
        split at h
        · cases h
        · cases h
          exact ⟨rfl, rfl⟩
    | some i =>
      cases hdp : dp.found with
      | none =>
        simp only [hip, hdp] at h
        split at h
        · cases h
        · cases h
          exact ⟨rfl, rfl⟩
      | some d =>
        have hzero := @checkPointers_upToDate T M dev i.index d.index
        simp only [hip, hdp, Option.map_some, hzero] at h
        dsimp only
        split at h
        · rename_i hup
          cases h
          exact ⟨by rw [if_pos hup], by simp [hup]⟩
        · rename_i hup
          cases h
          exact ⟨by rw [if_neg hup], by simp [hup]⟩

end Choice

section Place

variable {T : Type} (M : MediumReader T)

/-! ## Where the index goes -/

/-- The drive reports the end of data only where it is. -/
def EodTruthful (dev : Device T) : Prop :=
  ∀ t code junk, dev.answers t = .error code junk → code.1 ≠ -edevEodDetected

/-- How many file marks there are from a block on. -/
def marksFrom (m : List (Record T)) (start : ℕ) : ℕ := (m.drop start).countP Record.isFm

/-- Where the blocks behind the last index end if a second file mark follows them, which an
incomplete index has left; block numbers go through an `int`. -/
def extraEnd (m : List (Record T)) (s : SoughtIndex T) : ℕ :=
  if marksFrom m s.index.selfptr.block = 2 then ((fmBefore m m.length).getD 0) % 2 ^ 32 else 0

/-- Where an index goes that is written to the index partition. If none is written it is the
position before the one that is there. -/
def safeBelow (recoverExtra : Bool) (m : List (Record T)) (ip dp : Finding T) (root : T) : ℕ :=
  match ip.found with
  | none => if recoverExtra then ip.eod else 4
  | some s =>
    if s.blocksAfter then
      -- extra blocks are given up from the last referenced one on
      if ! recoverExtra ∧ s.indexEndPos ≤ lastRef M .ip root ∧ lastRef M .ip root < extraEnd m s then
        lastRef M .ip root
      else s.index.selfptr.block - 1
    else if settles ip dp then s.index.selfptr.block - 1
    else ip.eod

variable {M}

theorem EodTruthful.congr {dev dev' : Device T} (h : EodTruthful dev)
    (heq : dev'.answers = dev.answers) : EodTruthful dev' := by
  unfold EodTruthful
  rw [heq]
  exact h

theorem fmFrom_some {m : List (Record T)} : ∀ {n pos i : ℕ}, fmFrom m pos n = some i →
    pos ≤ i ∧ fmAt m i = true ∧ ∀ j, pos ≤ j → j < i → fmAt m j = false := by
  intro n
  induction n with
  | zero =>
    intro pos i h
    cases h
  | succ n ih =>
    intro pos i h
    unfold fmFrom at h
    by_cases hmark : fmAt m pos = true
    · rw [if_pos hmark] at h
      cases h
      exact ⟨le_refl _, hmark, fun j h1 h2 => absurd h1 (not_le.mpr h2)⟩
    · rw [if_neg hmark] at h
      obtain ⟨hle, hi, hno⟩ := ih h
      refine ⟨by omega, hi, fun j h1 h2 => ?_⟩
      rcases Nat.eq_or_lt_of_le h1 with rfl | hlt
      · exact Bool.eq_false_iff.mpr hmark
      · exact hno j hlt h2

theorem fmFrom_none {m : List (Record T)} : ∀ {n pos : ℕ}, fmFrom m pos n = none →
    ∀ j, pos ≤ j → j < pos + n → fmAt m j = false := by
  intro n
  induction n with
  | zero => exact fun _ j h1 h2 => absurd h1 (by omega)
  | succ n ih =>
    intro pos h j h1 h2
    unfold fmFrom at h
    by_cases hmark : fmAt m pos = true
    · rw [if_pos hmark] at h
      cases h
    · rw [if_neg hmark] at h
      rcases Nat.eq_or_lt_of_le h1 with rfl | hlt
      · exact Bool.eq_false_iff.mpr hmark
      · exact ih h j hlt (by omega)

theorem marksFrom_succ {m : List (Record T)} {pos : ℕ} (h : fmAt m pos = false) :
    marksFrom m pos = marksFrom m (pos + 1) := by
  unfold marksFrom
  by_cases hlt : pos < m.length
  · have hget : m[pos].isFm = false := by
      unfold fmAt at h
      rw [List.getElem?_eq_getElem hlt] at h
      exact h
    rw [List.drop_eq_getElem_cons hlt, List.countP_cons_of_neg (by rw [hget]; simp)]
  · rw [List.drop_eq_nil_of_le (by omega), List.drop_eq_nil_of_le (by omega)]

theorem marksFrom_of_mark {m : List (Record T)} {i : ℕ} (hi : fmAt m i = true) :
    marksFrom m i = marksFrom m (i + 1) + 1 := by
  have hlt := fmAt_lt hi
  have hget : m[i].isFm = true := by
    unfold fmAt at hi
    rw [List.getElem?_eq_getElem hlt] at hi
    exact hi
  unfold marksFrom
  rw [List.drop_eq_getElem_cons hlt, List.countP_cons_of_pos hget]

/-- Up to the next file mark nothing is counted. -/
theorem marksFrom_congr {m : List (Record T)} {pos : ℕ} : ∀ {i : ℕ}, pos ≤ i →
    (∀ j, pos ≤ j → j < i → fmAt m j = false) → marksFrom m pos = marksFrom m i := by
  intro i hle
  induction i, hle using Nat.le_induction with
  | base => exact fun _ => rfl
  | succ i hle ih =>
    intro hno
    rw [ih fun j h1 h2 => hno j h1 (by omega), marksFrom_succ (hno i hle (Nat.lt_succ_self i))]

theorem marksFrom_length (m : List (Record T)) : marksFrom m m.length = 0 := by
  unfold marksFrom
  rw [List.drop_length, List.countP_nil]

/-- The loop counts all file marks, and the last one is where it says. -/
theorem countFilemarks_marks {p : Partition} : ∀ (fuel n final : ℕ) {dev : Device T},
    EodTruthful dev → dev.PosOk → dev.position.partition = p →
    dev.eod p - dev.position.block < fuel →
    ∀ n' final', (countFilemarks fuel n final dev).1 = .ok (n', final') →
      n' = n + marksFrom (dev.medium p) dev.position.block ∧
      (marksFrom (dev.medium p) dev.position.block = 0 → final' = final) ∧
      (marksFrom (dev.medium p) dev.position.block ≠ 0 →
        ∃ i, final' = i + 1 ∧ fmBefore (dev.medium p) (dev.eod p) = some i) := by
  intro fuel
  induction fuel with
  | zero => exact fun n final dev _ _ _ h => absurd h (Nat.not_lt_zero _)
  | succ fuel ih =>
    intro n final dev htruth hpos hp hfuel n' final' hret
    obtain ⟨htravel, hpart⟩ := tapeSpacefm_one dev
    have hposle : dev.position.block ≤ (dev.medium p).length := by
      unfold Device.PosOk at hpos
      rwa [hp] at hpos
    unfold countFilemarks at hret
    dsimp only at hret
    -- what the drive finds
    have hspace : (∃ i, (tapeSpacefm 1 dev).1 = 0 ∧ (tapeSpacefm 1 dev).2.position.block = i + 1 ∧
          dev.position.block ≤ i ∧ fmAt (dev.medium p) i = true ∧
          ∀ j, dev.position.block ≤ j → j < i → fmAt (dev.medium p) j = false) ∨
        ((tapeSpacefm 1 dev).1 ≠ 0 ∧ ((tapeSpacefm 1 dev).1 = -edevEodDetected →
          ∀ j, dev.position.block ≤ j → j < (dev.medium p).length →
            fmAt (dev.medium p) j = false)) := by
      unfold tapeSpacefm
      cases hans : dev.answer with
      | error code junk =>
        exact .inr ⟨ne_of_lt code.2, fun heq => absurd heq (htruth _ _ _ hans)⟩
      | ok early programmable =>
        dsimp only
        rw [if_pos (by decide), hp]
        have hforward : spaceForward (dev.medium p) (1 : ℤ).toNat dev.position.block
            = (fmFrom (dev.medium p) dev.position.block
              ((dev.medium p).length - dev.position.block)).bind fun fm => some (fm + 1) := rfl
        rw [hforward]
        cases hfm : fmFrom (dev.medium p) dev.position.block
            ((dev.medium p).length - dev.position.block) with
        | none =>
          refine .inr ⟨edevEodDetected_ne, fun _ j h1 h2 => ?_⟩
          exact fmFrom_none hfm j h1 (by omega)
        | some i =>
          obtain ⟨hle, hi, hno⟩ := fmFrom_some hfm
          exact .inl ⟨i, rfl, rfl, hle, hi, hno⟩
    rcases hspace with ⟨i, hzero, hblock, hle, hi, hno⟩ | ⟨hne, hend⟩
    · rw [if_pos hzero] at hret
      have hmarks : marksFrom (dev.medium p) dev.position.block
          = marksFrom (dev.medium p) (i + 1) + 1 := by
        rw [marksFrom_congr hle hno, marksFrom_of_mark hi]
      have hlt := fmAt_lt hi
      have heod : dev.eod p = (dev.medium p).length := rfl
      obtain ⟨h1, h2, h3⟩ := ih (n + 1) _ (htruth.congr htravel.answers) (htravel.posOk hpos)
        (hpart.trans hp) (by rw [htravel.eod, hblock]; omega) n' final' hret
      rw [htravel.medium, htravel.eod, hblock] at h3
      rw [htravel.medium, hblock] at h1 h2
      refine ⟨by omega, fun hzero => absurd hzero (by omega), fun _ => ?_⟩
      by_cases hlast : marksFrom (dev.medium p) (i + 1) = 0
      · refine ⟨i, h2 hlast, ?_⟩
        refine fmBefore_eq hi hlt fun j hj1 hj2 => ?_
        -- no file mark behind this one
        by_contra hmark
        rw [Bool.not_eq_false] at hmark
        have hcount : 0 < marksFrom (dev.medium p) (i + 1) := by
          unfold marksFrom
          rw [List.countP_pos_iff]
          refine ⟨(dev.medium p)[j], ?_, ?_⟩
          · rw [List.mem_drop_iff_getElem]
            exact ⟨j - (i + 1), by omega, by congr 1; omega⟩
          · unfold fmAt at hmark
            rw [List.getElem?_eq_getElem hj2] at hmark
            exact hmark
        omega
      · exact h3 hlast
    · rw [if_neg hne] at hret
      by_cases heq : (tapeSpacefm 1 dev).1 = -edevEodDetected
      · rw [if_pos heq] at hret
        cases hret
        have hnone : marksFrom (dev.medium p) dev.position.block = 0 := by
          rw [marksFrom_congr hposle (hend heq), marksFrom_length]
        exact ⟨by omega, fun _ => rfl, fun h => absurd hnone h⟩
      · rw [if_neg heq] at hret
        cases hret

theorem bmod_toNat {n : ℕ} (h : 0 ≤ Int.bmod ((n + 1 : ℕ) - 1) (2 ^ 32)) :
    (Int.bmod ((n + 1 : ℕ) - 1 : ℤ) (2 ^ 32)).toNat = n % 2 ^ 32 := by
  rw [Int.bmod_def] at h ⊢
  split at h
  · rename_i hlt
    rw [if_pos hlt]
    omega
  · rename_i hlt
    rw [if_neg hlt]
    omega

/-- The end of the extra blocks of the index partition. -/
theorem findAppendBlkAfterIdx_extraEnd {fix : Bool} {p : Partition} {s : SoughtIndex T} {dev : Device T}
    (htruth : EodTruthful dev) (hpos : dev.PosOk) (hle : s.index.selfptr.block ≤ dev.eod p)
    (h : ¬ (findAppendBlkAfterIdx fix p s.index.selfptr.block dev).1 < 0) :
    (findAppendBlkAfterIdx fix p s.index.selfptr.block dev).1.toNat
      = extraEnd (dev.medium p) s := by
  have htravel := tapeSeek_travelled p (some s.index.selfptr.block) dev
  unfold findAppendBlkAfterIdx at h ⊢
  dsimp only at h ⊢
  by_cases hseek : (tapeSeek p (some s.index.selfptr.block) dev).1 = 0
  · have hposition := tapeSeek_zero hseek
    rw [if_neg (not_not_intro hseek)] at h ⊢
    have hcount := @countFilemarks_marks T p (dev.eod p + 1) 0 0
      (tapeSeek p (some s.index.selfptr.block) dev).2 (htruth.congr htravel.answers)
      (htravel.posOk hpos) (by rw [hposition]) (by rw [htravel.eod, hposition]; omega)
    have hfailed := (countFilemarks_spec (dev.eod p + 1) 0 0
      (tapeSeek p (some s.index.selfptr.block) dev).2 (htravel.posOk hpos) rfl (Nat.zero_le _)).2.1
    rw [htravel.medium, htravel.eod, hposition, Nat.zero_add] at hcount
    generalize countFilemarks (dev.eod p + 1) 0 0 (tapeSeek p (some s.index.selfptr.block) dev).2 = r
      at h hcount hfailed
    obtain ⟨ret | ⟨n, final⟩, dev'⟩ := r
    · exact absurd (hfailed ret rfl) h
    · obtain ⟨hn, -, hlast⟩ := hcount n final rfl
      dsimp only at hn hlast h ⊢
      unfold extraEnd
      rw [← hn] at hlast ⊢
      by_cases hone : n ≤ 1
      · rw [if_pos hone, if_neg (by omega)]
        rfl
      · rw [if_neg hone] at h ⊢
        by_cases htwo : n = 2 ∧ fix = true
        · rw [if_pos htwo] at h ⊢
          obtain ⟨i, rfl, hi⟩ := hlast (by omega)
          have heod : dev.eod p = (dev.medium p).length := rfl
          rw [heod] at hi
          rw [if_pos htwo.1, hi, Option.getD_some]
          exact bmod_toNat (not_lt.mp h)
        · rw [if_neg htwo] at h
          exact absurd (show -ltfsOpToInv < 0 by decide) h
  · rw [if_pos hseek] at h
    exact absurd (lt_of_le_of_ne (tapeSeek_le _ _ _) hseek) h

/-- The append position of the index partition is set before an index with blocks behind it. -/
theorem placeAppend_ip {fix : Bool} {f f' : Finding T} {v v' : Volume T} {s : SoughtIndex T}
    (htruth : EodTruthful v.dev) (hpos : v.dev.PosOk) (hs : f.found = some s)
    (hle : s.index.selfptr.block ≤ v.dev.eod .ip) (hblocks : s.blocksAfter = true)
    (h : placeAppend fix .ip f v = (.ok f', v')) :
    v'.dev.appendPos .ip = s.index.selfptr.block - 1 ∧
      f'.eod = extraEnd (v.dev.medium .ip) s := by
  unfold placeAppend at h
  rw [hs] at h
  dsimp only at h
  rw [if_pos hblocks] at h
  split at h
  · cases h
  · rename_i hneg
    cases h
    exact ⟨setAppendPos_self _ _ _, findAppendBlkAfterIdx_extraEnd htruth hpos hle hneg⟩

theorem placeAppend_same {fix : Bool} {p : Partition} {f f' : Finding T} {v v' : Volume T}
    (hblocks : f.blocksAfter = false) (h : placeAppend fix p f v = (.ok f', v')) :
    f' = f ∧ v' = v := by
  unfold Finding.blocksAfter at hblocks
  unfold placeAppend at h
  cases hfound : f.found with
  | none =>
    rw [hfound] at h
    cases h
    exact ⟨rfl, rfl⟩
  | some s =>
    rw [hfound] at h hblocks
    have hs : s.blocksAfter = false := hblocks
    dsimp only at h
    rw [hs, if_neg Bool.false_ne_true] at h
    cases h
    exact ⟨rfl, rfl⟩

end Place

section Lost

variable {T : Type} (M : MediumReader T)

/-! ## Lost files -/

/-- The extent refers to the block. -/
def Refers (e : ExtentInfo) (p : Partition) (block : ℕ) : Prop :=
  e.start.partition = some p ∧ 0 < e.bytecount ∧
  e.start.block + e.byteoffset / M.blocksize ≤ block ∧
  block ≤ e.start.block + (e.byteoffset + e.bytecount - 1) / M.blocksize

/-- The extent of a lost file: one record of the blocks from `first` on, before `eod`. -/
structure LostFile (p : Partition) (first eod : ℕ) (e : ExtentInfo) : Prop where
  partition : e.start.partition = some p
  first_le : first ≤ e.start.block
  lt : e.start.block < eod
  byteoffset : e.byteoffset = 0
  bytecount_pos : 0 < e.bytecount
  bytecount_le : e.bytecount ≤ M.blocksize

/-- The blocks of the index partition that go to lost and found are not those that the new index
is written over. -/
def LostSpared (recoverExtra : Bool) (m : List (Record T)) (ip : Finding T) (root : T) : Prop :=
  recoverExtra = true → ∀ s ∈ ip.found, s.blocksAfter = true →
    extraEnd m s ≤ max s.indexEndPos (lastRef M .ip root + 1)

variable {M}

theorem LostFile.mono {p : Partition} {first first' eod : ℕ} {e : ExtentInfo}
    (h : LostFile M p first' eod e) (hle : first ≤ first') : LostFile M p first eod e :=
  { h with first_le := hle.trans h.first_le }

/-- It refers to that record only. -/
theorem LostFile.refers {p q : Partition} {first eod block : ℕ} {e : ExtentInfo}
    (h : LostFile M p first eod e) (hrefers : Refers M e q block) : q = p ∧ block = e.start.block := by
  obtain ⟨hpart, hpos, hge, hle⟩ := hrefers
  have hpartition := h.partition
  have hcount := h.bytecount_le
  have hbs : 0 < (M.blocksize : ℕ) := M.blocksize.pos
  have hzero : (0 + e.bytecount - 1) / (M.blocksize : ℕ) = 0 := Nat.div_eq_of_lt (by omega)
  rw [h.byteoffset, Nat.zero_div] at hge
  rw [h.byteoffset, hzero] at hle
  rw [hpartition] at hpart
  cases hpart
  exact ⟨rfl, by omega⟩

theorem readLength_le {dev dev' : Device T} {nr : ℕ} (h : readLength M dev = (.ok nr, dev')) :
    nr ≤ M.blocksize := by
  unfold readLength at h
  dsimp only at h
  cases hans : dev.answer with
  | error code junk =>
    rw [hans] at h
    cases h
  | ok early programmable =>
    rw [hans] at h
    dsimp only at h
    split at h
    · cases h
    · rename_i rec _
      cases h
      unfold XmlTape.Record.bytes
      split
      · rw [List.length_take]
        exact Nat.min_le_left _ _
      · exact Nat.zero_le _

theorem populateLoop_lost {p : Partition} {eod : ℕ} : ∀ {fuel block : ℕ} {root root' : T}
    {dev : Device T}, (populateLoop M p eod fuel block root dev).1 = .ok root' →
    ∃ lost, M.extents root' = M.extents root ++ lost ∧ ∀ e ∈ lost, LostFile M p block eod e := by
  intro fuel
  induction fuel with
  | zero =>
    intro block root root' dev h
    cases h
    exact ⟨[], by simp, by simp⟩
  | succ fuel ih =>
    intro block root root' dev h
    unfold populateLoop at h
    by_cases hend : eod ≤ block
    · rw [if_pos hend] at h
      cases h
      exact ⟨[], by simp, by simp⟩
    · rw [if_neg hend] at h
      cases hread : readLength M dev with
      | mk r dev' =>
        rw [hread] at h
        cases r with
        | error ret =>
          cases h
          exact ⟨[], by simp, by simp⟩
        | ok nr =>
          dsimp only at h
          by_cases hzero : nr = 0
          · rw [if_pos hzero] at h
            obtain ⟨lost, hlost, hall⟩ := ih h
            exact ⟨lost, hlost, fun e he => (hall e he).mono (Nat.le_succ block)⟩
          · rw [if_neg hzero] at h
            cases hadd : M.addLostFile ⟨⟨some p, block⟩, 0, nr, 0⟩ root with
            | error code =>
              rw [hadd] at h
              cases h
            | ok root₁ =>
              rw [hadd] at h
              obtain ⟨lost, hlost, hall⟩ := ih h
              have hrest := fun e he => (hall e he).mono (Nat.le_succ block)
              rcases M.extents_addLostFile _ _ _ hadd with heq | heq
              · refine ⟨_ :: lost, by rw [hlost, heq, List.append_assoc]; rfl, fun e he => ?_⟩
                rcases List.mem_cons.mp he with rfl | he
                · exact ⟨rfl, le_refl block, not_le.mp hend, rfl, Nat.pos_of_ne_zero hzero,
                    readLength_le hread⟩
                · exact hrest e he
              · rw [heq] at hlost
                exact ⟨lost, hlost, hrest⟩

theorem populateLostFound_lost {p : Partition} {lastref eod : ℕ} {root root' : T} {dev : Device T}
    (h : (populateLostFound M p lastref eod root dev).1 = .ok root') :
    ∃ lost, M.extents root' = M.extents root ++ lost ∧ ∀ e ∈ lost, LostFile M p lastref eod e := by
  unfold populateLostFound at h
  cases hopen : M.openLostFound root with
  | error code =>
    rw [hopen] at h
    cases h
  | ok root₁ =>
    rw [hopen] at h
    dsimp only at h
    have hle : lastref ≤ if 4 < lastref then lastref else 4 := by split <;> omega
    generalize (if 4 < lastref then lastref else 4) = block at h hle
    split at h
    · cases h
    · obtain ⟨lost, hlost, hall⟩ := populateLoop_lost h
      rw [M.extents_openLostFound _ _ hopen] at hlost
      exact ⟨lost, hlost, fun e he => (hall e he).mono hle⟩

/-- The files are for blocks behind the last index and the last referenced block. -/
theorem makeLostFoundOn_lost {p : Partition} {f : Finding T} {last : ℕ} {root root' : T}
    {dev : Device T} (h : (makeLostFoundOn M p f last root dev).1 = .ok root') :
    ∃ lost, M.extents root' = M.extents root ++ lost ∧
      ∀ e ∈ lost, LostFile M p (max f.endOfIdx (last + 1)) f.eod e := by
  unfold makeLostFoundOn at h
  split at h
  · split at h
    · rename_i hle
      rw [Nat.max_eq_right (by omega)]
      exact populateLostFound_lost h
    · rename_i hle
      rw [Nat.max_eq_left (by omega)]
      exact populateLostFound_lost h
  · cases h
    exact ⟨[], by simp, by simp⟩

theorem makeLostFound_lost {ip dp : Finding T} {root root' : T} {dev : Device T}
    (h : (makeLostFound M ip dp root dev).1 = .ok root') :
    ∃ lost, M.extents root' = M.extents root ++ lost ∧ ∀ e ∈ lost,
      LostFile M .ip (max ip.endOfIdx (lastRef M .ip root + 1)) ip.eod e ∨
        e.start.partition = some .dp := by
  unfold makeLostFound at h
  dsimp only at h
  cases hip : makeLostFoundOn M .ip ip (lastRef M .ip root) root dev with
  | mk r dev' =>
    rw [hip] at h
    cases r with
    | error ret => cases h
    | ok root₁ =>
      obtain ⟨lost, hlost, hall⟩ := makeLostFoundOn_lost (congrArg Prod.fst hip)
      obtain ⟨lost', hlost', hall'⟩ := makeLostFoundOn_lost h
      refine ⟨lost ++ lost', by rw [hlost', hlost, List.append_assoc], fun e he => ?_⟩
      rcases List.mem_append.mp he with he | he
      · exact .inl (hall e he)
      · exact .inr (hall' e he).partition

/-- Recovery adds files for the extra blocks, or none. -/
theorem recover_lost {recoverExtra : Bool} {ip dp : Finding T} {v : Volume T}
    (h : ¬ (recover M recoverExtra ip dp v).1 < 0) :
    ∃ lost, M.extents (recover M recoverExtra ip dp v).2.index.root
        = M.extents v.index.root ++ lost ∧
      ∀ e ∈ lost, recoverExtra = true ∧
        (LostFile M .ip (max ip.endOfIdx (lastRef M .ip v.index.root + 1)) ip.eod e ∨
          e.start.partition = some .dp) := by
  unfold recover at h ⊢
  cases recoverExtra with
  | false => exact ⟨[], by simp, by simp⟩
  | true =>
    rw [if_pos rfl] at h ⊢
    have hneg := (makeLostFound_spec (M := M) ip dp v.index.root v.dev).2
    cases hmake : makeLostFound M ip dp v.index.root v.dev with
    | mk r dev =>
      rw [hmake] at h hneg
      cases r with
      | error ret => exact absurd (hneg ret rfl) h
      | ok root =>
        obtain ⟨lost, hlost, hall⟩ := makeLostFound_lost (congrArg Prod.fst hmake)
        exact ⟨lost, hlost, fun e he => ⟨rfl, hall e he⟩⟩

/-- The append position of the index partition only changes where extra blocks are given up. -/
theorem recover_appendPos {recoverExtra : Bool} {ip dp : Finding T} {v : Volume T} :
    (recover M recoverExtra ip dp v).2.dev.appendPos .ip =
      if recoverExtra then v.dev.appendPos .ip
      else (giveUpIp ip (lastRef M .ip v.index.root) v.dev).appendPos .ip := by
  unfold recover
  cases recoverExtra with
  | true =>
    rw [if_pos rfl, if_pos rfl]
    have htravel := (makeLostFound_spec (M := M) ip dp v.index.root v.dev).1
    generalize makeLostFound M ip dp v.index.root v.dev = r at htravel
    obtain ⟨ret | root, dev⟩ := r
    · exact congrFun htravel.appendPos .ip
    · exact congrFun htravel.appendPos .ip
  | false =>
    rw [if_neg Bool.false_ne_true, if_neg Bool.false_ne_true]
    dsimp only
    generalize giveUpIp ip (lastRef M .ip v.index.root) v.dev = dev
    unfold giveUpDp
    cases dp.found with
    | none =>
      dsimp only
      split
      · exact setAppendPos_ne _ _ (by decide)
      · rfl
    | some s =>
      dsimp only
      split
      · exact setAppendPos_ne _ _ (by decide)
      · rfl

end Lost

end Ltfs.CheckMedium
