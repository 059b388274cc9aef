import Ltfs.Revalidate

/-!
# Accepting an unchanged medium
-/

namespace Ltfs

section Revalidate

variable {T : Type}

/-! ## File marks -/

theorem fmBefore_eq {m : List (Record T)} {i : ℕ} (hi : fmAt m i = true) :
    ∀ {pos : ℕ}, i < pos → (∀ j, i < j → j < pos → fmAt m j = false) → fmBefore m pos = some i := by
  intro pos
  induction pos with
  | zero => exact fun h => absurd h (Nat.not_lt_zero _)
  | succ pos ih =>
    intro hlt hno
    unfold fmBefore
    by_cases heq : i = pos
    · rw [← heq, if_pos hi]
    · rw [hno pos (by omega) (by omega), if_neg Bool.false_ne_true]
      exact ih (by omega) fun j h1 h2 => hno j h1 (by omega)

theorem fmBefore_some {m : List (Record T)} {i : ℕ} : ∀ {pos : ℕ}, fmBefore m pos = some i →
    i < pos ∧ fmAt m i = true ∧ ∀ j, i < j → j < pos → fmAt m j = false := by
  intro pos
  induction pos with
  | zero =>
    intro h
    cases h
  | succ pos ih =>
    intro h
    unfold fmBefore at h
    by_cases hfm : fmAt m pos = true
    · rw [if_pos hfm] at h
      cases h
      exact ⟨Nat.lt_succ_self _, hfm, fun j h1 h2 => by omega⟩
    · rw [if_neg hfm] at h
      rcases ih h with ⟨hlt, hi, hno⟩
      refine ⟨by omega, hi, fun j h1 h2 => ?_⟩
      by_cases heq : j = pos
      · rw [heq]
        exact Bool.eq_false_iff.mpr hfm
      · exact hno j h1 (by omega)

theorem fmAt_lt {m : List (Record T)} {i : ℕ} (h : fmAt m i = true) : i < m.length := by
  by_contra hge
  unfold fmAt at h
  rw [List.getElem?_eq_none (by omega)] at h
  cases h

theorem spaceForward_one {m : List (Record T)} {i : ℕ} (h : fmAt m i = true) :
    spaceForward m 1 i = some (i + 1) := by
  have hlt := fmAt_lt h
  obtain ⟨n, hn⟩ : ∃ n, m.length - i = n + 1 := ⟨m.length - i - 1, by omega⟩
  unfold spaceForward
  rw [hn]
  unfold fmFrom
  rw [if_pos h]
  rfl

/-- The partition ends in an index, or what looks like one: a file mark at `b` and
one at the end, none in between. -/
structure EndsInIndexAt (m : List (Record T)) (b : ℕ) : Prop where
  lt : b + 1 < m.length
  first : fmAt m b = true
  last : fmAt m (m.length - 1) = true
  between : ∀ i, b < i → i + 1 < m.length → fmAt m i = false

/-! ## Commands that only move the tape -/

/-- Only the position and the clock have changed. -/
structure Moved (dev dev' : Device T) : Prop where
  medium : dev'.medium = dev.medium
  appendPos : dev'.appendPos = dev.appendPos
  coherency : dev'.coherency = dev.coherency
  answers : dev'.answers = dev.answers
  clock : dev.clock ≤ dev'.clock

/-- All commands from now on succeed. -/
def Healthy (dev : Device T) : Prop :=
  ∀ i, dev.clock ≤ i → ∃ early programmable, dev.answers i = .ok early programmable

theorem Moved.refl (dev : Device T) : Moved dev dev := ⟨rfl, rfl, rfl, rfl, le_refl _⟩

theorem Moved.trans {dev₁ dev₂ dev₃ : Device T} (h : Moved dev₁ dev₂) (h' : Moved dev₂ dev₃) :
    Moved dev₁ dev₃ :=
  ⟨h'.medium.trans h.medium, h'.appendPos.trans h.appendPos, h'.coherency.trans h.coherency,
    h'.answers.trans h.answers, h.clock.trans h'.clock⟩

theorem Healthy.mono {dev dev' : Device T} (h : Healthy dev) (hanswers : dev'.answers = dev.answers)
    (hclock : dev.clock ≤ dev'.clock) : Healthy dev' := by
  intro i hi
  rw [hanswers]
  exact h i (hclock.trans hi)

theorem Healthy.answer {dev : Device T} (h : Healthy dev) :
    ∃ early programmable, dev.answer = .ok early programmable := h _ (le_refl _)

theorem onOk_of_zero {r : ℤ × Device T} (h : r.1 = 0) (next : Device T → ℤ × Device T) :
    onOk r next = next r.2 := by
  unfold onOk
  rw [if_neg (by omega)]

/-- If a sequence of steps succeeds, so does the first one. -/
theorem onOk_zero {r : ℤ × Device T} {next : Device T → ℤ × Device T} (hle : r.1 ≤ 0)
    (h : (onOk r next).1 = 0) : r.1 = 0 ∧ onOk r next = next r.2 := by
  unfold onOk at h ⊢
  by_cases hneg : r.1 < 0
  · rw [if_pos hneg] at h
    omega
  · exact ⟨by omega, if_neg hneg⟩

theorem onOk_le {r : ℤ × Device T} {next : Device T → ℤ × Device T}
    (h : r.1 = 0 → (next r.2).1 ≤ 0) (hle : r.1 ≤ 0) : (onOk r next).1 ≤ 0 := by
  unfold onOk
  split
  · exact hle
  · exact h (by omega)

theorem onOk_moved {dev : Device T} {r : ℤ × Device T} {next : Device T → ℤ × Device T}
    (h : Moved dev r.2) (hnext : ∀ dev', Moved dev dev' → Moved dev (next dev').2) :
    Moved dev (onOk r next).2 := by
  unfold onOk
  split
  · exact h
  · exact hnext _ h

theorem edevBopDetected_le : -edevBopDetected ≤ 0 := by decide

theorem ltfsRevalFailed_lt : -ltfsRevalFailed < 0 := by decide

theorem tapeSpacefm_spec (count : ℤ) (dev : Device T) :
    Moved dev (tapeSpacefm count dev).2 ∧ (tapeSpacefm count dev).1 ≤ 0 := by
  unfold tapeSpacefm
  cases dev.answer with
  | error code junk => exact ⟨⟨rfl, rfl, rfl, rfl, Nat.le_succ _⟩, code.2.le⟩
  | ok early programmable =>
    dsimp only
    split
    · split
      · exact ⟨⟨rfl, rfl, rfl, rfl, Nat.le_succ _⟩, le_refl 0⟩
      · exact ⟨⟨rfl, rfl, rfl, rfl, Nat.le_succ _⟩, edevEodDetected_le⟩
    · split
      · exact ⟨⟨rfl, rfl, rfl, rfl, Nat.le_succ _⟩, le_refl 0⟩
      · exact ⟨⟨rfl, rfl, rfl, rfl, Nat.le_succ _⟩, edevBopDetected_le⟩

/-- Backwards over one file mark. -/
theorem tapeSpacefm_back {dev : Device T} (h : (tapeSpacefm (-1) dev).1 = 0) :
    ∃ i, fmBefore (dev.medium dev.position.partition) dev.position.block = some i ∧
      (tapeSpacefm (-1) dev).2.position = ⟨dev.position.partition, i⟩ := by
  unfold tapeSpacefm at h ⊢
  cases hans : dev.answer with
  | error code junk =>
    rw [hans] at h
    exact absurd h (ne_of_lt code.2)
  | ok early programmable =>
    rw [hans] at h
    dsimp only at h ⊢
    rw [if_neg (by decide)] at h ⊢
    have hspace : spaceBack (dev.medium dev.position.partition) (- -1 : ℤ).toNat dev.position.block
        = fmBefore (dev.medium dev.position.partition) dev.position.block := by
      show (fmBefore _ _).bind (spaceBack _ 0) = _
      cases fmBefore (dev.medium dev.position.partition) dev.position.block <;> rfl
    rw [hspace] at h ⊢
    cases hfm : fmBefore (dev.medium dev.position.partition) dev.position.block with
    | none =>
      rw [hfm] at h
      exact absurd (show -edevBopDetected = 0 from h) (by decide)
    | some i => exact ⟨i, rfl, rfl⟩

theorem tapeSpacefm_back_of {dev : Device T} (h : Healthy dev) {i : ℕ}
    (hi : fmBefore (dev.medium dev.position.partition) dev.position.block = some i) :
    (tapeSpacefm (-1) dev).1 = 0 := by
  rcases h.answer with ⟨early, programmable, hans⟩
  unfold tapeSpacefm
  rw [hans]
  dsimp only
  rw [if_neg (by decide)]
  have hspace : spaceBack (dev.medium dev.position.partition) (- -1 : ℤ).toNat dev.position.block
      = some i := by
    show (fmBefore _ _).bind (spaceBack _ 0) = _
    rw [hi]
    rfl
  rw [hspace]

/-- Forwards over the file mark at the current position. -/
theorem tapeSpacefm_forward {dev : Device T}
    (hfm : fmAt (dev.medium dev.position.partition) dev.position.block = true) :
    ((tapeSpacefm 1 dev).1 = 0 → (tapeSpacefm 1 dev).2.position
      = ⟨dev.position.partition, dev.position.block + 1⟩) ∧
    (Healthy dev → (tapeSpacefm 1 dev).1 = 0) := by
  have hspace : spaceForward (dev.medium dev.position.partition) (1 : ℤ).toNat dev.position.block
      = some (dev.position.block + 1) := spaceForward_one hfm
  unfold tapeSpacefm
  cases hans : dev.answer with
  | error code junk =>
    refine ⟨fun h => absurd h (ne_of_lt code.2), fun h => ?_⟩
    rcases h.answer with ⟨early, programmable, hok⟩
    rw [hans] at hok
    cases hok
  | ok early programmable =>
    dsimp only
    rw [if_pos (by decide), hspace]
    exact ⟨fun _ => rfl, fun _ => rfl⟩

theorem seekLastIndex_spec (dev : Device T) :
    Moved dev (seekLastIndex dev).2 ∧ (seekLastIndex dev).1 ≤ 0 := by
  have hstep := fun (count : ℤ) (d : Device T) => tapeSpacefm_spec count d
  constructor
  · apply onOk_moved (hstep (-1) dev).1
    intro dev₁ h₁
    split
    · exact h₁
    · exact onOk_moved (h₁.trans (hstep (-1) dev₁).1) fun dev₂ h₂ => h₂.trans (hstep 1 dev₂).1
  · apply onOk_le _ (hstep (-1) dev).2
    intro _
    split
    · exact ltfsRevalFailed_lt.le
    · exact onOk_le (fun _ => (hstep 1 _).2) (hstep (-1) _).2

/-- The partition ends in an index if `seekLastIndex` succeeds. -/
theorem seekLastIndex_found {dev : Device T} {p : Partition}
    (hpos : dev.position = ⟨p, dev.eod p⟩) (h : (seekLastIndex dev).1 = 0) :
    ∃ b, EndsInIndexAt (dev.medium p) b ∧ (seekLastIndex dev).2.position = ⟨p, b + 1⟩ := by
  unfold seekLastIndex at h ⊢
  dsimp only at h ⊢
  have hm₁ := (tapeSpacefm_spec (-1) dev).1
  rcases onOk_zero (tapeSpacefm_spec (-1) dev).2 h with ⟨h₁, heq⟩
  rw [heq] at h ⊢
  rcases tapeSpacefm_back h₁ with ⟨i, hi, hpos₁⟩
  rw [hpos] at hi hpos₁
  generalize (tapeSpacefm (-1) dev).2 = dev₁ at hm₁ hpos₁ h ⊢
  rcases fmBefore_some hi with ⟨hlt, hlast, -⟩
  rw [hpos₁, hpos] at h ⊢
  dsimp only at h ⊢ hlt hi
  by_cases hend : i ≠ dev.eod p - 1
  · rw [if_pos hend] at h
    exact absurd h (ne_of_lt ltfsRevalFailed_lt)
  · rw [if_neg hend] at h ⊢
    push Not at hend
    have hm₂ := (tapeSpacefm_spec (-1) dev₁).1
    rcases onOk_zero (tapeSpacefm_spec (-1) dev₁).2 h with ⟨h₂, heq₂⟩
    rw [heq₂] at h ⊢
    rcases tapeSpacefm_back h₂ with ⟨b, hb, hpos₂⟩
    rw [hpos₁, hm₁.medium] at hb
    rw [hpos₁] at hpos₂
    generalize (tapeSpacefm (-1) dev₁).2 = dev₂ at hm₂ hpos₂ h ⊢
    rcases fmBefore_some hb with ⟨hblt, hfirst, hno⟩
    have hfm : fmAt (dev₂.medium dev₂.position.partition) dev₂.position.block = true := by
      rw [hpos₂, hm₂.medium, hm₁.medium]
      exact hfirst
    refine ⟨b, ⟨?_, hfirst, ?_, ?_⟩, ?_⟩
    · unfold Device.eod at hend hlt
      dsimp only at hblt
      omega
    · unfold Device.eod at hend
      rw [← hend]
      exact hlast
    · intro j hj hjend
      apply hno j hj
      unfold Device.eod at hend
      dsimp only
      omega
    · rw [(tapeSpacefm_forward hfm).1 h, hpos₂]

/-- If the partition ends in an index and the drive works, it is found. -/
theorem seekLastIndex_of_ends {dev : Device T} {p : Partition} {b : ℕ} (hok : Healthy dev)
    (hpos : dev.position = ⟨p, dev.eod p⟩) (hends : EndsInIndexAt (dev.medium p) b) :
    (seekLastIndex dev).1 = 0 ∧ (seekLastIndex dev).2.position = ⟨p, b + 1⟩ := by
  have hlt := hends.lt
  have hlast : fmBefore (dev.medium p) (dev.eod p) = some (dev.eod p - 1) := by
    apply fmBefore_eq hends.last
    · unfold Device.eod
      omega
    · unfold Device.eod
      intro j h1 h2
      omega
  have hfirst : fmBefore (dev.medium p) (dev.eod p - 1) = some b := by
    apply fmBefore_eq hends.first
    · unfold Device.eod
      omega
    · intro j h1 h2
      unfold Device.eod at h2
      exact hends.between j h1 (by omega)
  have h₁ : (tapeSpacefm (-1) dev).1 = 0 := by
    apply tapeSpacefm_back_of hok
    rw [hpos]
    exact hlast
  rcases tapeSpacefm_back h₁ with ⟨i, hi, hpos₁⟩
  rw [hpos] at hi hpos₁
  dsimp only at hi hpos₁
  rw [hlast] at hi
  cases hi
  have hm₁ := (tapeSpacefm_spec (-1) dev).1
  unfold seekLastIndex
  dsimp only
  rw [onOk_of_zero h₁]
  generalize (tapeSpacefm (-1) dev).2 = dev₁ at hm₁ hpos₁ ⊢
  have hok₁ := hok.mono hm₁.answers hm₁.clock
  rw [hpos₁, hpos]
  dsimp only
  rw [if_neg (by simp)]
  have h₂ : (tapeSpacefm (-1) dev₁).1 = 0 := by
    apply tapeSpacefm_back_of hok₁ (i := b)
    rw [hpos₁, hm₁.medium]
    exact hfirst
  rcases tapeSpacefm_back h₂ with ⟨i, hi, hpos₂⟩
  rw [hpos₁, hm₁.medium] at hi
  rw [hpos₁] at hpos₂
  dsimp only at hi hpos₂
  rw [hfirst] at hi
  cases hi
  have hm₂ := (tapeSpacefm_spec (-1) dev₁).1
  rw [onOk_of_zero h₂]
  generalize (tapeSpacefm (-1) dev₁).2 = dev₂ at hm₂ hpos₂ ⊢
  have hfm : fmAt (dev₂.medium dev₂.position.partition) dev₂.position.block = true := by
    rw [hpos₂, hm₂.medium, hm₁.medium]
    exact hends.first
  rcases tapeSpacefm_forward hfm with ⟨hfound, hzero⟩
  have h₃ := hzero (hok₁.mono hm₂.answers hm₂.clock)
  refine ⟨h₃, ?_⟩
  rw [hfound h₃, hpos₂]

/-! ## The partitions -/

/-- The data partition ends where its append position says, and in an index if it is
marked so. -/
structure DpSettled (v : Volume T) : Prop where
  ends : v.endsInIndex .dp = true → ∃ b, EndsInIndexAt (v.dev.medium .dp) b ∧
    (v.nextBackptr.partition = some .dp → v.nextBackptr.block = b + 1)
  append : v.dev.appendPos .dp = v.dev.eod .dp ∨
    (v.dev.appendPos .dp = 0 ∧ v.endsInIndex .dp = true)

/-- The index partition ends where its append position says, or in the index that
starts there. -/
structure IpSettled (v : Volume T) : Prop where
  ends : v.endsInIndex .ip = true → ∃ b, EndsInIndexAt (v.dev.medium .ip) b ∧
    (v.dev.appendPos .ip = 0 ∨ v.dev.appendPos .ip = b) ∧
    (v.index.selfptr.partition = some .ip → v.index.selfptr.block = b + 1)
  append : v.endsInIndex .ip = false → v.dev.appendPos .ip = v.dev.eod .ip

/-- The append position of `p` has been set, otherwise the tape has only moved. -/
structure Passed (p : Partition) (append : ℕ) (dev dev' : Device T) : Prop where
  medium : dev'.medium = dev.medium
  appendPos : dev'.appendPos = Function.update dev.appendPos p append
  coherency : dev'.coherency = dev.coherency
  answers : dev'.answers = dev.answers
  clock : dev.clock ≤ dev'.clock

theorem Passed.moved {p : Partition} {append : ℕ} {dev₁ dev₂ dev₃ : Device T}
    (h : Passed p append dev₁ dev₂) (h' : Moved dev₂ dev₃) : Passed p append dev₁ dev₃ :=
  ⟨h'.medium.trans h.medium, h'.appendPos.trans h.appendPos, h'.coherency.trans h.coherency,
    h'.answers.trans h.answers, h.clock.trans h'.clock⟩

/-- Seeking the end of data and restoring the append position. -/
theorem tapeSeekEod_spec (p : Partition) (append : ℕ) (dev : Device T) :
    Passed p append dev ((tapeSeekEod p dev).2.setAppendPos p append) ∧
    (tapeSeekEod p dev).1 ≤ 0 ∧
    ((tapeSeekEod p dev).1 = 0 → (tapeSeekEod p dev).2.position = ⟨p, dev.eod p⟩) ∧
    (Healthy dev → (tapeSeekEod p dev).1 = 0) := by
  rcases locate_spec p none dev with ⟨hm, ha, hf, hle, -, hok⟩
  have hset : ∀ d : Device T, d.medium = dev.medium →
      (∀ q, q ≠ p → d.appendPos q = dev.appendPos q) → d.coherency = dev.coherency →
      d.answers = dev.answers → dev.clock ≤ d.clock → Passed p append dev (d.setAppendPos p append) := by
    intro d hm' ha' hc' hans' hclock
    refine ⟨hm', ?_, hc', hans', hclock⟩
    funext q
    by_cases hq : q = p
    · rw [hq]
      simp [Device.setAppendPos]
    · rw [setAppendPos_ne _ _ hq, Function.update_of_ne hq]
      exact ha' q hq
  have hhealthy : Healthy dev → (locate p none dev).1 = 0 := by
    intro h
    rcases h.answer with ⟨early, programmable, hans⟩
    unfold locate
    rw [hans]
    dsimp only
    rw [if_pos (show (none : Option ℕ).getD (dev.eod p) ≤ dev.eod p from le_refl _)]
  unfold tapeSeekEod
  dsimp only
  by_cases hneg : (locate p none dev).1 < 0
  · rw [if_pos hneg]
    have hcode := locateCode_neg hneg
    refine ⟨hset _ hm (fun q _ => congrFun ha q) hf.coherency hf.answers hf.clock, hcode.le,
      fun h => ?_, fun h => ?_⟩
    · dsimp only at h
      omega
    · have := hhealthy h
      omega
  · rw [if_neg hneg]
    have hzero : (locate p none dev).1 = 0 := le_antisymm hle (not_lt.mp hneg)
    refine ⟨?_, le_refl 0, fun _ => (hok hzero).1, fun _ => rfl⟩
    refine hset _ hm (fun q hq => ?_) hf.coherency hf.answers hf.clock
    rw [setAppendPos_ne _ _ hq]
    exact congrFun ha q

theorem checkDpIndex_spec (v : Volume T) (dev : Device T) :
    Moved dev (checkDpIndex v dev).2 ∧ (checkDpIndex v dev).1 ≤ 0 := by
  constructor
  · apply onOk_moved (seekLastIndex_spec dev).1
    intro dev' h
    dsimp only
    split
    · exact h
    · split
      · exact h
      · exact h
  · apply onOk_le _ (seekLastIndex_spec dev).2
    intro _
    dsimp only
    split
    · exact ltfsRevalFailed_lt.le
    · split
      · exact ltfsRevalFailed_lt.le
      · exact le_refl 0

theorem checkIpIndex_spec (v : Volume T) (dev : Device T) :
    Moved dev (checkIpIndex v dev).2 ∧ (checkIpIndex v dev).1 ≤ 0 := by
  constructor
  · apply onOk_moved (seekLastIndex_spec dev).1
    intro dev' h
    split
    · exact h
    · exact h
  · apply onOk_le _ (seekLastIndex_spec dev).2
    intro _
    split
    · exact ltfsRevalFailed_lt.le
    · exact le_refl 0

/-- The index the data partition ends in is the one the pointers name. -/
theorem checkDpIndex_zero {v : Volume T} {dev : Device T}
    (hpos : dev.position = ⟨.dp, dev.eod .dp⟩) (h : (checkDpIndex v dev).1 = 0) :
    ∃ b, EndsInIndexAt (dev.medium .dp) b ∧
      (v.nextBackptr.partition = some .dp → v.nextBackptr.block = b + 1) := by
  unfold checkDpIndex at h
  rcases onOk_zero (seekLastIndex_spec dev).2 h with ⟨hz, heq⟩
  rw [heq] at h
  rcases seekLastIndex_found hpos hz with ⟨b, hat, hposb⟩
  rw [hposb] at h
  dsimp only at h
  refine ⟨b, hat, ?_⟩
  unfold Volume.nextBackptr
  by_cases hself : v.index.selfptr.partition = some .dp
  · rw [if_pos hself]
    intro _
    by_contra hne
    rw [if_pos ⟨hself, hne⟩] at h
    exact absurd h (ne_of_lt ltfsRevalFailed_lt)
  · rw [if_neg hself]
    intro hback
    by_contra hne
    rw [if_neg (fun h => hself h.1), if_pos ⟨hself, hback, hne⟩] at h
    exact absurd h (ne_of_lt ltfsRevalFailed_lt)

/-- The index the index partition ends in is the one in memory, if that is there. -/
theorem checkIpIndex_zero {v : Volume T} {dev : Device T}
    (hpos : dev.position = ⟨.ip, dev.eod .ip⟩) (h : (checkIpIndex v dev).1 = 0) :
    ∃ b, EndsInIndexAt (dev.medium .ip) b ∧
      (v.index.selfptr.partition = some .ip → v.index.selfptr.block = b + 1) ∧
      (checkIpIndex v dev).2.position = ⟨.ip, b + 1⟩ := by
  unfold checkIpIndex at h ⊢
  rcases onOk_zero (seekLastIndex_spec dev).2 h with ⟨hz, heq⟩
  rw [heq] at h ⊢
  rcases seekLastIndex_found hpos hz with ⟨b, hat, hposb⟩
  rw [hposb] at h ⊢
  dsimp only at h ⊢
  by_cases hbad : v.index.selfptr.partition = some .ip ∧ v.index.selfptr.block ≠ b + 1
  · rw [if_pos hbad] at h
    exact absurd h (ne_of_lt ltfsRevalFailed_lt)
  · rw [if_neg hbad]
    refine ⟨b, hat, fun hself => ?_, hposb⟩
    by_contra hne
    exact hbad ⟨hself, hne⟩

theorem revalidateDp_spec (v : Volume T) (append : ℕ) (dev : Device T) :
    Passed .dp append dev (revalidateDp v append dev).2 ∧ (revalidateDp v append dev).1 ≤ 0 ∧
    ((revalidateDp v append dev).1 = 0 →
      (append = dev.eod .dp ∨ (append = 0 ∧ v.dpIndexFileEnd = true)) ∧
      (v.dpIndexFileEnd = true → ∃ b, EndsInIndexAt (dev.medium .dp) b ∧
        (v.nextBackptr.partition = some .dp → v.nextBackptr.block = b + 1))) := by
  rcases tapeSeekEod_spec .dp append dev with ⟨hpassed, hle, hfound, -⟩
  unfold revalidateDp
  dsimp only
  by_cases hneg : (tapeSeekEod .dp dev).1 < 0
  · rw [if_pos hneg]
    exact ⟨hpassed, hneg.le, fun h => absurd h (ne_of_lt hneg)⟩
  · rw [if_neg hneg]
    have hpos : ((tapeSeekEod .dp dev).2.setAppendPos .dp append).position = ⟨.dp, dev.eod .dp⟩ :=
      hfound (by omega)
    generalize (tapeSeekEod .dp dev).2.setAppendPos .dp append = dev₁ at hpassed hpos ⊢
    have heod : dev₁.eod .dp = dev.eod .dp := by
      unfold Device.eod
      rw [hpassed.medium]
    split
    · exact ⟨hpassed, ltfsRevalFailed_lt.le, fun h => absurd h (ne_of_lt ltfsRevalFailed_lt)⟩
    · rename_i hknown
      have hcheck : Moved dev₁ (if v.dpIndexFileEnd then checkDpIndex v dev₁ else (0, dev₁)).2 ∧
          (if v.dpIndexFileEnd then checkDpIndex v dev₁ else (0, dev₁)).1 ≤ 0 := by
        split
        · exact checkDpIndex_spec v dev₁
        · exact ⟨Moved.refl dev₁, le_refl 0⟩
      have hends : (if v.dpIndexFileEnd then checkDpIndex v dev₁ else (0, dev₁)).1 = 0 →
          v.dpIndexFileEnd = true → ∃ b, EndsInIndexAt (dev.medium .dp) b ∧
            (v.nextBackptr.partition = some .dp → v.nextBackptr.block = b + 1) := by
        intro hz hend
        rw [if_pos hend] at hz
        rw [← hpassed.medium]
        exact checkDpIndex_zero (by rw [heod]; exact hpos) hz
      generalize (if v.dpIndexFileEnd then checkDpIndex v dev₁ else (0, dev₁)) = r at hcheck hends ⊢
      refine ⟨?_, ?_, fun h => ?_⟩
      · apply hpassed.moved
        apply onOk_moved hcheck.1
        intro dev' h
        split
        · exact h
        · exact h
      · apply onOk_le _ hcheck.2
        intro _
        split
        · exact ltfsRevalFailed_lt.le
        · exact le_refl 0
      · rcases onOk_zero hcheck.2 h with ⟨hz, heq⟩
        refine ⟨?_, hends hz⟩
        rw [heq, hpos] at h
        dsimp only at h
        by_cases h0 : append = 0
        · refine Or.inr ⟨h0, ?_⟩
          by_contra hend
          exact hknown ⟨by simpa using hend, h0⟩
        · left
          by_contra hne
          rw [if_pos ⟨h0, hne⟩] at h
          exact absurd h (ne_of_lt ltfsRevalFailed_lt)

/-- The data partition is accepted. -/
theorem revalidateDp_of {v : Volume T} {append : ℕ} {dev : Device T} (hok : Healthy dev)
    (happend : append = dev.eod .dp ∨ (append = 0 ∧ v.dpIndexFileEnd = true))
    (hne : 0 < dev.eod .dp)
    (hends : v.dpIndexFileEnd = true → ∃ b, EndsInIndexAt (dev.medium .dp) b ∧
      (v.nextBackptr.partition = some .dp → v.nextBackptr.block = b + 1)) :
    (revalidateDp v append dev).1 = 0 := by
  rcases tapeSeekEod_spec .dp append dev with ⟨hpassed, -, hfound, hzero⟩
  have hz := hzero hok
  unfold revalidateDp
  dsimp only
  rw [if_neg (by omega)]
  have hpos : ((tapeSeekEod .dp dev).2.setAppendPos .dp append).position = ⟨.dp, dev.eod .dp⟩ :=
    hfound hz
  generalize (tapeSeekEod .dp dev).2.setAppendPos .dp append = dev₁ at hpassed hpos ⊢
  have hok₁ := hok.mono hpassed.answers hpassed.clock
  have hnot : ¬ ((! v.dpIndexFileEnd) = true ∧ append = 0) := by
    rintro ⟨hend, h0⟩
    rcases happend with h | ⟨-, h⟩
    · omega
    · rw [h] at hend
      cases hend
  rw [if_neg hnot]
  have hcheck : (if v.dpIndexFileEnd then checkDpIndex v dev₁ else (0, dev₁)).1 = 0 := by
    split
    · rename_i hend
      rcases hends hend with ⟨b, hat, hptr⟩
      have heod : dev₁.eod .dp = dev.eod .dp := by
        unfold Device.eod
        rw [hpassed.medium]
      rcases seekLastIndex_of_ends hok₁ (by rw [heod]; exact hpos)
        (by rw [hpassed.medium]; exact hat) with ⟨hseek, hposb⟩
      unfold checkDpIndex
      rw [onOk_of_zero hseek, hposb]
      dsimp only
      unfold Volume.nextBackptr at hptr
      by_cases hself : v.index.selfptr.partition = some .dp
      · rw [if_pos hself] at hptr
        rw [if_neg (fun h => h.2 (hptr hself)), if_neg (fun h => h.1 hself)]
      · rw [if_neg hself] at hptr
        rw [if_neg (fun h => hself h.1), if_neg (fun h => h.2.2 (hptr h.2.1))]
    · rfl
  rw [onOk_of_zero hcheck, hpos]
  dsimp only
  rw [if_neg]
  rintro ⟨h0, hbad⟩
  rcases happend with h | ⟨h, -⟩
  · exact hbad h
  · exact h0 h

theorem revalidateIp_spec (v : Volume T) (append : ℕ) (dev : Device T) :
    (revalidateIp v append dev).1 ≤ 0 ∧
    ((revalidateIp v append dev).1 = 0 → Passed .ip append dev (revalidateIp v append dev).2 ∧
      if v.ipIndexFileEnd then ∃ b, EndsInIndexAt (dev.medium .ip) b ∧
        (append = 0 ∨ append = b) ∧
        (v.index.selfptr.partition = some .ip → v.index.selfptr.block = b + 1)
      else append ≠ 0 ∧ append = dev.eod .ip - 1) := by
  rcases tapeSeekEod_spec .ip append dev with ⟨hpassed, hle, hfound, -⟩
  unfold revalidateIp
  constructor
  · apply onOk_le _ hle
    intro _
    dsimp only
    split
    · exact ltfsRevalFailed_lt.le
    · have hcheck : ∀ dev₁ : Device T,
          (if v.ipIndexFileEnd then checkIpIndex v dev₁ else (0, dev₁)).1 ≤ 0 := by
        intro dev₁
        split
        · exact (checkIpIndex_spec v dev₁).2
        · exact le_refl 0
      have hcheck₁ := hcheck ((tapeSeekEod .ip dev).2.setAppendPos .ip append)
      generalize (if v.ipIndexFileEnd
        then checkIpIndex v ((tapeSeekEod .ip dev).2.setAppendPos .ip append)
        else (0, (tapeSeekEod .ip dev).2.setAppendPos .ip append)) = r at hcheck₁ ⊢
      apply onOk_le _ hcheck₁
      intro _
      split
      · exact ltfsRevalFailed_lt.le
      · exact le_refl 0
  · intro h
    rcases onOk_zero hle h with ⟨hz, heq⟩
    rw [heq] at h ⊢
    dsimp only at h ⊢
    have hpos : ((tapeSeekEod .ip dev).2.setAppendPos .ip append).position
        = ⟨.ip, dev.eod .ip⟩ := hfound hz
    generalize (tapeSeekEod .ip dev).2.setAppendPos .ip append = dev₁ at hpassed hpos h ⊢
    have heod : dev₁.eod .ip = dev.eod .ip := by
      unfold Device.eod
      rw [hpassed.medium]
    by_cases hnot : (! v.ipIndexFileEnd) = true ∧ append = 0
    · rw [if_pos hnot] at h
      exact absurd h (ne_of_lt ltfsRevalFailed_lt)
    · rw [if_neg hnot] at h ⊢
      cases hend : v.ipIndexFileEnd with
      | true =>
        rw [hend, if_pos rfl] at h
        rw [if_pos rfl, if_pos rfl]
        have hcheck := checkIpIndex_spec v dev₁
        rcases onOk_zero hcheck.2 h with ⟨hcz, hceq⟩
        rw [hceq] at h ⊢
        rcases checkIpIndex_zero (by rw [heod]; exact hpos) hcz with ⟨b, hat, hptr, hposb⟩
        rw [hpassed.medium] at hat
        rw [hposb] at h ⊢
        simp only [Nat.add_sub_cancel] at h ⊢
        by_cases hbad : append ≠ 0 ∧ append ≠ b
        · rw [if_pos hbad] at h
          exact absurd h (ne_of_lt ltfsRevalFailed_lt)
        · rw [if_neg hbad]
          refine ⟨hpassed.moved hcheck.1, b, hat, ?_, hptr⟩
          by_cases h0 : append = 0
          · exact Or.inl h0
          · refine Or.inr ?_
            by_contra hne
            exact hbad ⟨h0, hne⟩
      | false =>
        rw [hend, if_neg Bool.false_ne_true, onOk_of_zero rfl, hpos] at h
        dsimp only at h
        rw [if_neg Bool.false_ne_true, if_neg Bool.false_ne_true, onOk_of_zero rfl, hpos]
        dsimp only
        have h0 : append ≠ 0 := fun h0 => hnot ⟨by rw [hend]; rfl, h0⟩
        by_cases hbad : append ≠ 0 ∧ append ≠ dev.eod .ip - 1
        · rw [if_pos hbad] at h
          exact absurd h (ne_of_lt ltfsRevalFailed_lt)
        · rw [if_neg hbad]
          refine ⟨hpassed, h0, ?_⟩
          by_contra hne
          exact hbad ⟨h0, hne⟩

/-- The index partition is accepted if it ends in an index. -/
theorem revalidateIp_of {v : Volume T} {append b : ℕ} {dev : Device T} (hok : Healthy dev)
    (hend : v.ipIndexFileEnd = true) (hat : EndsInIndexAt (dev.medium .ip) b)
    (happend : append = 0 ∨ append = b)
    (hptr : v.index.selfptr.partition = some .ip → v.index.selfptr.block = b + 1) :
    (revalidateIp v append dev).1 = 0 := by
  rcases tapeSeekEod_spec .ip append dev with ⟨hpassed, -, hfound, hzero⟩
  have hz := hzero hok
  unfold revalidateIp
  rw [onOk_of_zero hz]
  dsimp only
  have hpos : ((tapeSeekEod .ip dev).2.setAppendPos .ip append).position = ⟨.ip, dev.eod .ip⟩ :=
    hfound hz
  generalize (tapeSeekEod .ip dev).2.setAppendPos .ip append = dev₁ at hpassed hpos ⊢
  have hok₁ := hok.mono hpassed.answers hpassed.clock
  have heod : dev₁.eod .ip = dev.eod .ip := by
    unfold Device.eod
    rw [hpassed.medium]
  rcases seekLastIndex_of_ends hok₁ (by rw [heod]; exact hpos)
    (by rw [hpassed.medium]; exact hat) with ⟨hseek, hposb⟩
  have hcheck : (checkIpIndex v dev₁).1 = 0 ∧ (checkIpIndex v dev₁).2.position = ⟨.ip, b + 1⟩ := by
    unfold checkIpIndex
    rw [onOk_of_zero hseek, hposb]
    dsimp only
    rw [if_neg (fun h => h.2 (hptr h.1))]
    exact ⟨rfl, hposb⟩
  rw [hend, if_neg (by simp), if_pos rfl, onOk_of_zero hcheck.1, hcheck.2]
  simp only [Nat.add_sub_cancel]
  rw [if_neg]
  rintro ⟨h0, hbad⟩
  rcases happend with h | h
  · exact h0 h
  · exact hbad h

/-! ## The whole revalidation -/

/-- The tape has been reloaded or moved, the append positions may be lost. -/
structure Loaded (dev dev' : Device T) : Prop where
  medium : dev'.medium = dev.medium
  coherency : dev'.coherency = dev.coherency
  answers : dev'.answers = dev.answers
  clock : dev.clock ≤ dev'.clock

theorem Loaded.trans {dev₁ dev₂ dev₃ : Device T} (h : Loaded dev₁ dev₂) (h' : Loaded dev₂ dev₃) :
    Loaded dev₁ dev₃ :=
  ⟨h'.medium.trans h.medium, h'.coherency.trans h.coherency, h'.answers.trans h.answers,
    h.clock.trans h'.clock⟩

theorem tick_loaded (dev : Device T) : Loaded dev dev.tick := ⟨rfl, rfl, rfl, Nat.le_succ _⟩

theorem setupDevice_spec (dev : Device T) :
    Loaded dev (setupDevice dev).2 ∧ (setupDevice dev).1 ≤ 0 ∧
    (Healthy dev → (setupDevice dev).1 = 0) := by
  unfold setupDevice
  cases hans : dev.answer with
  | error code junk =>
    refine ⟨tick_loaded dev, code.2.le, fun h => ?_⟩
    rcases h.answer with ⟨early, programmable, hok⟩
    rw [hans] at hok
    cases hok
  | ok early programmable => exact ⟨tick_loaded dev, le_refl 0, fun _ => rfl⟩

theorem startMount_spec (dev : Device T) :
    Loaded dev (startMount dev).2 ∧ (startMount dev).1 ≤ 0 ∧
    (Healthy dev → (startMount dev).1 = 0) := by
  unfold startMount
  cases hans : dev.answer with
  | error code junk =>
    refine ⟨tick_loaded dev, code.2.le, fun h => ?_⟩
    rcases h.answer with ⟨early, programmable, hok⟩
    rw [hans] at hok
    cases hok
  | ok early programmable => exact ⟨⟨rfl, rfl, rfl, Nat.le_succ _⟩, le_refl 0, fun _ => rfl⟩

theorem labelCompare_spec (label : Partition → List (Option (List UInt8))) (dev : Device T) :
    Loaded dev (labelCompare label dev).2 ∧ (labelCompare label dev).1 ≤ 0 ∧
    (Healthy dev → (∀ p, labelOf (dev.medium p) = label p) → (labelCompare label dev).1 = 0) := by
  unfold labelCompare
  cases hans : dev.answer with
  | error code junk =>
    refine ⟨tick_loaded dev, code.2.le, fun h _ => ?_⟩
    rcases h.answer with ⟨early, programmable, hok⟩
    rw [hans] at hok
    cases hok
  | ok early programmable =>
    dsimp only
    split
    · exact ⟨tick_loaded dev, le_refl 0, fun _ _ => rfl⟩
    · rename_i hne
      refine ⟨tick_loaded dev, (by decide : -ltfsLabelMismatch ≤ 0), fun _ h => ?_⟩
      exact absurd ⟨h .ip, h .dp⟩ hne

theorem revalidateMam_spec (v : Volume T) (dev : Device T) :
    Loaded dev (revalidateMam v dev).2 ∧ (revalidateMam v dev).1 ≤ 0 ∧
    ((revalidateMam v dev).1 = 0 → v.coherency = dev.coherency) ∧
    (Healthy dev → v.coherency = dev.coherency → (revalidateMam v dev).1 = 0) := by
  have hticks : Loaded dev dev.tick.tick := (tick_loaded dev).trans (tick_loaded dev.tick)
  have hno : ∀ d : Device T, Healthy d → ∀ {code junk}, d.answer = .error code junk → False := by
    intro d h code junk herr
    rcases h.answer with ⟨early, programmable, hok⟩
    rw [herr] at hok
    cases hok
  unfold revalidateMam getCartCoherency
  cases hans : dev.answer with
  | error code junk =>
    exact ⟨tick_loaded dev, code.2.le, fun h => absurd h (ne_of_lt code.2),
      fun h _ => (hno dev h hans).elim⟩
  | ok early programmable =>
    dsimp only
    cases hans' : dev.tick.answer with
    | error code junk =>
      refine ⟨hticks, code.2.le, fun h => absurd h (ne_of_lt code.2), fun h _ => ?_⟩
      exact (hno dev.tick (h.mono rfl (Nat.le_succ _)) hans').elim
    | ok early' programmable' =>
      dsimp only
      by_cases hip : dev.coherency .ip = v.coherency .ip
      · rw [if_neg (not_not_intro hip)]
        by_cases hdp : dev.tick.coherency .dp = v.coherency .dp
        · rw [if_neg (not_not_intro hdp)]
          refine ⟨hticks, le_refl 0, fun _ => ?_, fun _ _ => rfl⟩
          funext p
          cases p with
          | ip => exact hip.symm
          | dp => exact hdp.symm
        · rw [if_pos hdp]
          refine ⟨hticks, ltfsRevalFailed_lt.le, fun h => absurd h (ne_of_lt ltfsRevalFailed_lt),
            fun _ h => absurd ?_ hdp⟩
          rw [h]
          rfl
      · rw [if_pos hip]
        refine ⟨hticks, ltfsRevalFailed_lt.le, fun h => absurd h (ne_of_lt ltfsRevalFailed_lt),
          fun _ h => absurd ?_ hip⟩
        rw [h]

/-- What is known when `ltfs_revalidate` returns success. -/
theorem ltfsRevalidate_zero (label : Partition → List (Option (List UInt8))) (v : Volume T)
    (h : (ltfsRevalidate label v).1 = 0) :
    v.coherency = v.dev.coherency ∧ DpSettled v ∧
    (if v.ipIndexFileEnd then IpSettled v
    else v.dev.appendPos .ip ≠ 0 ∧ v.dev.appendPos .ip = v.dev.eod .ip - 1) ∧
    (ltfsRevalidate label v).2.dev.appendPos = v.dev.appendPos ∧
    (ltfsRevalidate label v).2.dev.medium = v.dev.medium := by
  unfold ltfsRevalidate at h ⊢
  dsimp only at h ⊢
  rcases setupDevice_spec v.dev with ⟨hl, hle, -⟩
  rcases onOk_zero hle h with ⟨-, heq⟩
  rw [heq] at h ⊢
  generalize (setupDevice v.dev).2 = dev₀ at hl h ⊢
  rcases startMount_spec dev₀ with ⟨hload, hle, -⟩
  rcases onOk_zero hle h with ⟨-, heq⟩
  rw [heq] at h ⊢
  have hl := hl.trans hload
  generalize (startMount dev₀).2 = dev₁ at hl h ⊢
  rcases labelCompare_spec label dev₁ with ⟨hload, hle, -⟩
  rcases onOk_zero hle h with ⟨-, heq⟩
  rw [heq] at h ⊢
  have hl := (hl.trans hload).trans ((tick_loaded _).trans (tick_loaded _))
  generalize (labelCompare label dev₁).2.tick.tick = dev₂ at hl h ⊢
  rcases revalidateMam_spec v dev₂ with ⟨hload, hle, hcoh, -⟩
  rcases onOk_zero hle h with ⟨hz, heq⟩
  rw [heq] at h ⊢
  have hcoherency := (hcoh hz).trans hl.coherency
  have hl := hl.trans hload
  generalize (revalidateMam v dev₂).2 = dev₃ at hl h ⊢
  rcases revalidateDp_spec v (v.dev.appendPos .dp) dev₃ with ⟨hdp, hle, hdpz⟩
  rcases onOk_zero hle h with ⟨hz, heq⟩
  rw [heq] at h ⊢
  have hdpz := hdpz hz
  generalize (revalidateDp v (v.dev.appendPos .dp) dev₃).2 = dev₄ at hdp h ⊢
  rcases (revalidateIp_spec v (v.dev.appendPos .ip) dev₄).2 h with ⟨hip, hipz⟩
  unfold Device.eod at hdpz hipz
  rw [hl.medium] at hdpz
  rw [hdp.medium, hl.medium] at hipz
  refine ⟨hcoherency, ⟨hdpz.2, hdpz.1⟩, ?_, ?_, ?_⟩
  · cases hend : v.ipIndexFileEnd with
    | true =>
      rw [hend, if_pos rfl] at hipz
      rw [if_pos rfl]
      refine ⟨fun _ => hipz, fun hfalse => ?_⟩
      have htrue : v.endsInIndex .ip = true := hend
      rw [htrue] at hfalse
      cases hfalse
    | false =>
      rw [hend, if_neg Bool.false_ne_true] at hipz
      rw [if_neg Bool.false_ne_true]
      exact hipz
  · rw [hip.appendPos, hdp.appendPos]
    funext q
    cases q with
    | ip => exact Function.update_self _ _ _
    | dp =>
      rw [Function.update_of_ne (by decide)]
      exact Function.update_self _ _ _
  · rw [hip.medium, hdp.medium, hl.medium]

/-- When `ltfs_revalidate` returns success. -/
theorem ltfsRevalidate_of {label : Partition → List (Option (List UInt8))} {v : Volume T}
    (hok : Healthy v.dev) (hlabel : ∀ p, labelOf (v.dev.medium p) = label p)
    (hcoh : v.coherency = v.dev.coherency) (hne : 0 < v.dev.eod .dp) (hdp : DpSettled v)
    (hend : v.ipIndexFileEnd = true) (hip : IpSettled v) :
    (ltfsRevalidate label v).1 = 0 := by
  unfold ltfsRevalidate
  dsimp only
  rcases setupDevice_spec v.dev with ⟨hl, -, hz⟩
  rw [onOk_of_zero (hz hok)]
  have hok₁ := hok.mono hl.answers hl.clock
  generalize (setupDevice v.dev).2 = dev₁ at hok₁ hl ⊢
  rcases startMount_spec dev₁ with ⟨hload, -, hz⟩
  rw [onOk_of_zero (hz hok₁)]
  have hok₂ := hok₁.mono hload.answers hload.clock
  have hl := hl.trans hload
  generalize (startMount dev₁).2 = dev₂ at hok₂ hl ⊢
  rcases labelCompare_spec label dev₂ with ⟨hload, -, hz⟩
  rw [onOk_of_zero (hz hok₂ fun p => by rw [hl.medium]; exact hlabel p)]
  have hload := hload.trans ((tick_loaded _).trans (tick_loaded _))
  have hok₃ := hok₂.mono hload.answers hload.clock
  have hl := hl.trans hload
  generalize (labelCompare label dev₂).2.tick.tick = dev₃ at hok₃ hl ⊢
  rcases revalidateMam_spec v dev₃ with ⟨hload, -, -, hz⟩
  rw [onOk_of_zero (hz hok₃ (hcoh.trans hl.coherency.symm))]
  have hok₄ := hok₃.mono hload.answers hload.clock
  have hl := hl.trans hload
  generalize (revalidateMam v dev₃).2 = dev₄ at hok₄ hl ⊢
  have heod : ∀ p, dev₄.eod p = v.dev.eod p := by
    intro p
    unfold Device.eod
    rw [hl.medium]
  have hdpz : (revalidateDp v (v.dev.appendPos .dp) dev₄).1 = 0 := by
    apply revalidateDp_of hok₄
    · rw [heod]
      exact hdp.append
    · rw [heod]
      exact hne
    · rw [hl.medium]
      exact hdp.ends
  rw [onOk_of_zero hdpz]
  rcases revalidateDp_spec v (v.dev.appendPos .dp) dev₄ with ⟨hpassed, -, -⟩
  have hok₅ := hok₄.mono hpassed.answers hpassed.clock
  rcases hip.ends hend with ⟨b, hat, happend, hptr⟩
  apply revalidateIp_of hok₅ hend _ happend hptr
  rw [hpassed.medium, hl.medium]
  exact hat

end Revalidate

end Ltfs
