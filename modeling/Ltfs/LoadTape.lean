import Mathlib.Tactic.SplitIfs
import Ltfs.Tape

/-!
# Loading a cartridge

`tape_load_tape` brings a cartridge into service and says of each partition how
much room is left: none, less than the early warning zone of the drive, or enough.

* `LoadAnswers` — everything the drive answers during one load.
* `tapeGetPews` — the size of the early warning zone, from a mode page which the
  drive may decline to send.
* `classify` — the reason not to write, from the remaining capacity. The zone is a
  16-bit number of megabytes, made ten larger in the same 16 bits.
* `ExpectedSpace` — the rule over the natural numbers; `classify_eq_iff` says when
  the 16 bits follow it, `classifies_iff` when a load does.
-/

namespace Ltfs

/-! ## What the drive answers -/

/-- `struct tc_remaining_cap`, in megabytes; partition 0 of the device is `ip`. -/
structure RemainingCap where
  remainingP0 : UInt64
  remainingP1 : UInt64
  maxP0 : UInt64
  maxP1 : UInt64
deriving DecidableEq, Repr

def RemainingCap.remaining (cap : RemainingCap) : Partition → UInt64
  | .ip => cap.remainingP0
  | .dp => cap.remainingP1

/-- `struct tc_drive_param`, as far as it is used here. -/
structure DriveParam where
  maxBlksize : ℕ
  writeProtect : ℕ

/-- The result of `modesense` for the device configuration extension page
(`TC_MP_DEV_CONFIG_EXT_SIZE` bytes): a length, `0` from a backend that does not
report one, or an error. -/
structure ModeSense where
  ret : ℤ
  page : Fin 48 → UInt8

/-- What the helpers and the backend return, in the order of the calls. A load
command is repeated as long as the medium has to be revalidated. -/
structure LoadAnswers where
  cartridgeLoadable : ℤ
  loads : List (ℤ × Position)
  waitDeviceReady : ℤ
  preventMediumRemoval : ℤ
  readpos : ℤ × Position
  setDefault : ℤ
  clearKey : ℤ
  capacityRet : ℤ
  capacity : RemainingCap
  paramRet : ℤ
  param : DriveParam
  modesense : ModeSense

/-! ## The code -/

/-- `tape_get_pews`. The caller's variable is not touched on error. -/
def tapeGetPews (m : ModeSense) (pews : UInt16) : ℤ × UInt16 :=
  if m.ret < 0 then (m.ret, pews)
  else if m.ret ≠ 0 ∧ m.ret ≠ 48 then (-ltfsUnsupported, pews)
  else (0, (m.page 22).toUInt16 <<< 8 ||| (m.page 23).toUInt16)

/-- The value stored in `partition_space` of a partition. -/
def classify (cap : RemainingCap) (pews : UInt16) (p : Partition) : PartitionSpace :=
  if cap.maxP0 ≠ 0 ∧ cap.maxP1 ≠ 0 ∧ cap.remaining p = 0 then .noSpace
  else if cap.remaining p ≤ pews.toUInt64 then .lessSpace
  else .writable

section Load

variable {T : Type}

/-- The load loop of `tape_load_tape`. `none` means that the answers ran out, the
drive still wanting another attempt. -/
def loadLoop (dev : Device T) : List (ℤ × Position) → Option (ℤ × Device T)
  | [] => none
  | (ret, position) :: rest =>
    let dev := { dev with position := position }
    if ret = -edevNoMedium then some (-ltfsNoMedium, dev)
    else if ret < 0 ∧ ! needReval ret then
      some (if ret = -edevMediumFormatError then -ltfsUnsupportedMedium else ret, dev)
    else if needReval ret then loadLoop dev rest
    else some (ret, dev)

/-- The part of `tape_load_tape` behind the parameters of the device: the early
warning size and the read-only flags. `unset` is the content of the variable
`pews`, which has no initial value. -/
def updateSpace (a : LoadAnswers) (unset : UInt16) (dev : Device T) : ℤ × Device T :=
  let r := tapeGetPews a.modesense unset
  if r.1 < 0 ∧ r.1 ≠ -ltfsUnsupported then (r.1, dev)
  else
    -- 10MB is extra space not to miss PEW
    let pews := r.2 + 10
    (0, { dev with
      writeProtected := a.param.writeProtect != 0
      writeError := false
      partitionSpace := classify a.capacity pews })

/-- `tape_load_tape` behind the load loop. -/
def setUpDrive (a : LoadAnswers) (unset : UInt16) (dev : Device T) : ℤ × Device T :=
  let dev := { dev with appendPos := fun _ => 0 }
  if a.waitDeviceReady < 0 then (-ltfsDeviceUnready, dev)
  else if a.preventMediumRemoval < 0 then (a.preventMediumRemoval, dev)
  else
    let dev := { dev with position := a.readpos.2 }
    if a.readpos.1 < 0 then (a.readpos.1, dev)
    else if a.setDefault < 0 then (a.setDefault, dev)
    else if a.clearKey < 0 then (a.clearKey, dev)
    else if a.capacityRet < 0 then (a.capacityRet, dev)
    else if a.paramRet < 0 then (a.paramRet, dev)
    else updateSpace a unset { dev with maxBlockSize := a.param.maxBlksize }

/-- `tape_load_tape`. -/
def tapeLoadTape (a : LoadAnswers) (unset : UInt16) (force : Bool) (dev : Device T) :
    Option (ℤ × Device T) :=
  if ! force ∧ a.cartridgeLoadable < 0 then some (a.cartridgeLoadable, dev)
  else match loadLoop dev a.loads with
    | none => none
    | some (ret, dev) => if ret < 0 then some (ret, dev) else some (setUpDrive a unset dev)

end Load

/-! ## The rule -/

/-- The size of the early warning zone in megabytes, if the drive supports the
page. -/
def ModeSense.earlyWarning (m : ModeSense) : Option ℕ :=
  if m.ret = 0 ∨ m.ret = 48 then some ((m.page 22).toNat * 256 + (m.page 23).toNat) else none

/-- The space left on a partition, by a threshold in natural numbers. -/
def spaceBelow (cap : RemainingCap) (threshold : ℕ) (p : Partition) : PartitionSpace :=
  if cap.maxP0 ≠ 0 ∧ cap.maxP1 ≠ 0 ∧ cap.remaining p = 0 then .noSpace
  else if (cap.remaining p).toNat ≤ threshold then .lessSpace
  else .writable

/-- The space left on a partition when the drive warns `warning` megabytes before
the end. -/
def expectedSpace (cap : RemainingCap) (warning : ℕ) (p : Partition) : PartitionSpace :=
  spaceBelow cap (warning + 10) p

/-- The load commands end with one the drive accepts. -/
def LoadsEnd : List (ℤ × Position) → Prop
  | [] => False
  | (ret, _) :: rest => if needReval ret then LoadsEnd rest else 0 ≤ ret

/-- No call behind the load loop reports an error. -/
structure DriveAccepted (a : LoadAnswers) : Prop where
  ready : 0 ≤ a.waitDeviceReady
  locked : 0 ≤ a.preventMediumRemoval
  position : 0 ≤ a.readpos.1
  defaults : 0 ≤ a.setDefault
  key : 0 ≤ a.clearKey
  capacity : 0 ≤ a.capacityRet
  param : 0 ≤ a.paramRet
  page : 0 ≤ a.modesense.ret ∨ a.modesense.ret = -ltfsUnsupported

/-- No call made by `tape_load_tape` reports an error. -/
structure LoadAccepted (a : LoadAnswers) (force : Bool) : Prop where
  loadable : force = false → 0 ≤ a.cartridgeLoadable
  loads : LoadsEnd a.loads
  drive : DriveAccepted a

/-- A load follows the rule, whatever the variable `pews` held before. A drive
without the page does not warn, so its zone is empty. -/
structure ClassifiesSpace {T : Type} (a : LoadAnswers) (force : Bool) (dev : Device T) :
    Prop where
  expected : ∀ unset dev', tapeLoadTape a unset force dev = some (0, dev') → ∀ p,
    dev'.partitionSpace p = expectedSpace a.capacity (a.modesense.earlyWarning.getD 0) p
  settled : ∀ unset unset',
    tapeLoadTape a unset force dev = tapeLoadTape a unset' force dev

/-- The threshold fits into 16 bits, or the remaining capacity of a partition lies
on the same side of the rule's threshold and of the one computed. Without the page
only an empty partition or one beyond every 16-bit number is sure to be. -/
def ThresholdSafe (a : LoadAnswers) : Prop :=
  ∀ p, match a.modesense.earlyWarning with
    | some v => v + 10 < 65536 ∨ (a.capacity.remaining p).toNat ≤ v + 10 - 65536 ∨
        v + 10 < (a.capacity.remaining p).toNat
    | none => (a.capacity.remaining p).toNat = 0 ∨ 65535 < (a.capacity.remaining p).toNat

/-! ## The threshold in 16 bits -/

theorem tapeGetPews_supported {m : ModeSense} {v : ℕ} (h : m.earlyWarning = some v)
    (unset : UInt16) : ∃ pews : UInt16, tapeGetPews m unset = (0, pews) ∧ pews.toNat = v := by
  unfold ModeSense.earlyWarning at h
  split at h
  case isFalse => cases h
  rename_i hret
  refine ⟨(m.page 22).toUInt16 <<< 8 ||| (m.page 23).toUInt16, ?_, ?_⟩
  · unfold tapeGetPews
    rw [if_neg (by omega), if_neg (by omega)]
  -- the two bytes do not overlap, so `|` is a sum
  · have hlo : (m.page 23).toNat < 2 ^ 8 := (m.page 23).toNat_lt
    have hhi : (m.page 22).toNat < 2 ^ 8 := (m.page 22).toNat_lt
    have hsum := Nat.two_pow_add_eq_or_of_lt hlo (m.page 22).toNat
    have hshift : (m.page 22).toNat <<< 8 % 2 ^ 16 = 2 ^ 8 * (m.page 22).toNat := by
      rw [Nat.shiftLeft_eq]
      omega
    have hv := Option.some.inj h
    simp only [UInt16.toNat_or, UInt16.toNat_shiftLeft, UInt8.toNat_toUInt16]
    rw [show (8 : UInt16).toNat % 16 = 8 from rfl, hshift, ← hsum]
    omega

theorem tapeGetPews_unsupported {m : ModeSense} (h : m.earlyWarning = none)
    (hret : 0 ≤ m.ret ∨ m.ret = -ltfsUnsupported) (unset : UInt16) :
    tapeGetPews m unset = (-ltfsUnsupported, unset) := by
  unfold ModeSense.earlyWarning at h
  split at h
  case isTrue => cases h
  rename_i hne
  unfold tapeGetPews
  by_cases hneg : m.ret < 0
  · have : m.ret = -ltfsUnsupported := by omega
    rw [if_pos hneg, this]
  · rw [if_neg hneg, if_pos (by omega)]

theorem toNat_extraSpace (w : UInt16) :
    (w + 10).toUInt64.toNat =
      if w.toNat + 10 < 65536 then w.toNat + 10 else w.toNat + 10 - 65536 := by
  have hw := w.toNat_lt
  simp only [UInt16.toNat_toUInt64, UInt16.toNat_add]
  rw [show (10 : UInt16).toNat = 10 from rfl]
  split <;> omega

theorem classify_eq (cap : RemainingCap) (pews : UInt16) (p : Partition) :
    classify cap pews p = spaceBelow cap pews.toUInt64.toNat p := by
  unfold classify spaceBelow
  simp only [UInt64.le_iff_toNat_le]

/-- Two thresholds agree when the remaining capacity is on the same side of both. -/
theorem spaceBelow_eq_iff (cap : RemainingCap) (s t : ℕ) (p : Partition) :
    spaceBelow cap s p = spaceBelow cap t p ↔
      ((cap.remaining p).toNat ≤ s ↔ (cap.remaining p).toNat ≤ t) := by
  unfold spaceBelow
  by_cases hfull : cap.maxP0 ≠ 0 ∧ cap.maxP1 ≠ 0 ∧ cap.remaining p = 0
  · -- nothing remains: below every threshold
    have hzero : (cap.remaining p).toNat = 0 := by
      rw [hfull.2.2]
      rfl
    rw [if_pos hfull, if_pos hfull]
    exact iff_of_true rfl (by omega)
  · rw [if_neg hfull, if_neg hfull]
    split_ifs <;> simp [*]

/-- When the 16 bits follow the rule. -/
theorem classify_eq_iff (cap : RemainingCap) (w : UInt16) (p : Partition) :
    classify cap (w + 10) p = expectedSpace cap w.toNat p ↔
      w.toNat + 10 < 65536 ∨ (cap.remaining p).toNat ≤ w.toNat + 10 - 65536 ∨
        w.toNat + 10 < (cap.remaining p).toNat := by
  unfold expectedSpace
  rw [classify_eq, spaceBelow_eq_iff, toNat_extraSpace]
  have hw := w.toNat_lt
  -- once the sum has wrapped the two thresholds differ by 65536
  split <;> omega

/-- A threshold made from an arbitrary number classifies like the empty zone. -/
theorem classify_unset_iff (cap : RemainingCap) (p : Partition) :
    (∀ unset : UInt16, classify cap (unset + 10) p = expectedSpace cap 0 p) ↔
      (cap.remaining p).toNat = 0 ∨ 65535 < (cap.remaining p).toNat := by
  unfold expectedSpace
  simp only [classify_eq, spaceBelow_eq_iff]
  constructor
  · intro h
    -- one content of the variable gives the threshold 0, another the largest one
    have hlow := h 65526
    have hhigh := h 65525
    rw [show (65526 + 10 : UInt16).toUInt64.toNat = 0 from rfl] at hlow
    rw [show (65525 + 10 : UInt16).toUInt64.toNat = 65535 from rfl] at hhigh
    omega
  · intro h unset
    have hlt : (unset + 10).toUInt64.toNat < 65536 := by
      rw [UInt16.toNat_toUInt64]
      exact (unset + 10).toNat_lt
    omega

/-! ## One load -/

theorem loadLoop_cases {T : Type} (dev : Device T) (loads : List (ℤ × Position)) :
    (LoadsEnd loads ∧ ∃ ret dev', 0 ≤ ret ∧ loadLoop dev loads = some (ret, dev')) ∨
    (¬ LoadsEnd loads ∧ ∀ ret dev', loadLoop dev loads = some (ret, dev') → ret < 0) := by
  induction loads generalizing dev with
  | nil =>
    right
    constructor
    · exact id
    · intro ret dev' h
      cases h
  | cons r rest ih =>
    obtain ⟨ret, position⟩ := r
    unfold loadLoop LoadsEnd
    by_cases hreval : needReval ret = true
    · -- another attempt: none of the codes that end the loop asks for one
      have hmedium : ret ≠ -edevNoMedium := by
        rintro rfl
        revert hreval
        decide
      rw [if_pos hreval]
      simp only [hreval, if_neg hmedium, Bool.not_true, Bool.false_eq_true, and_false, if_false,
        if_true]
      exact ih _
    · rw [if_neg hreval]
      simp only [Bool.not_eq_true] at hreval
      simp only [hreval, Bool.not_false, and_true, Bool.false_eq_true, if_false]
      by_cases hmedium : ret = -edevNoMedium
      · right
        subst hmedium
        constructor
        · decide
        · intro ret dev' h
          rw [if_pos rfl] at h
          cases h
          decide
      · rw [if_neg hmedium]
        by_cases hneg : ret < 0
        · right
          constructor
          · omega
          · intro ret' dev' h
            rw [if_pos hneg] at h
            cases h
            split
            · decide
            · exact hneg
        · left
          rw [if_neg hneg]
          exact ⟨by omega, ret, _, by omega, rfl⟩

/-- A page of another length gives the one code that is forgiven. -/
theorem updateSpace_cases {T : Type} (a : LoadAnswers) (dev : Device T) :
    ((0 ≤ a.modesense.ret ∨ a.modesense.ret = -ltfsUnsupported) ∧ ∃ d : Device T,
      ∀ unset, updateSpace a unset dev = (0, { d with
        partitionSpace := classify a.capacity ((tapeGetPews a.modesense unset).2 + 10) })) ∨
    (¬ (0 ≤ a.modesense.ret ∨ a.modesense.ret = -ltfsUnsupported) ∧ a.modesense.ret < 0 ∧
      ∀ unset, updateSpace a unset dev = (a.modesense.ret, dev)) := by
  unfold updateSpace
  dsimp only
  by_cases hpage : 0 ≤ a.modesense.ret ∨ a.modesense.ret = -ltfsUnsupported
  · left
    have hgo : ∀ unset, ¬ ((tapeGetPews a.modesense unset).1 < 0 ∧
        (tapeGetPews a.modesense unset).1 ≠ -ltfsUnsupported) := by
      intro unset
      unfold tapeGetPews
      split_ifs <;> simp only [] <;> omega
    refine ⟨hpage, { dev with
      writeProtected := a.param.writeProtect != 0
      writeError := false }, fun unset => ?_⟩
    rw [if_neg (hgo unset)]
  · right
    have hneg : a.modesense.ret < 0 := by omega
    refine ⟨hpage, hneg, fun unset => ?_⟩
    have hpews : tapeGetPews a.modesense unset = (a.modesense.ret, unset) := by
      unfold tapeGetPews
      rw [if_pos hneg]
    rw [hpews, if_pos ⟨hneg, fun h => hpage (Or.inr h)⟩]

/-- Behind the load loop: without an error both partitions are classified; otherwise
an error is returned and the variable `pews` is never looked at. -/
theorem setUpDrive_cases {T : Type} (a : LoadAnswers) (dev : Device T) :
    (DriveAccepted a ∧ ∃ d : Device T, ∀ unset, setUpDrive a unset dev =
      (0, { d with
        partitionSpace := classify a.capacity ((tapeGetPews a.modesense unset).2 + 10) })) ∨
    (¬ DriveAccepted a ∧ ∃ ret d, ret < 0 ∧ ∀ unset, setUpDrive a unset dev = (ret, d)) := by
  unfold setUpDrive
  dsimp only
  by_cases hready : a.waitDeviceReady < 0
  · right
    simp only [if_pos hready]
    exact ⟨fun h => absurd h.ready (by omega), _, _, by decide, fun _ => rfl⟩
  simp only [if_neg hready]
  by_cases hlocked : a.preventMediumRemoval < 0
  · right
    simp only [if_pos hlocked]
    exact ⟨fun h => absurd h.locked (by omega), _, _, hlocked, fun _ => rfl⟩
  simp only [if_neg hlocked]
  by_cases hpos : a.readpos.1 < 0
  · right
    simp only [if_pos hpos]
    exact ⟨fun h => absurd h.position (by omega), _, _, hpos, fun _ => rfl⟩
  simp only [if_neg hpos]
  by_cases hdefault : a.setDefault < 0
  · right
    simp only [if_pos hdefault]
    exact ⟨fun h => absurd h.defaults (by omega), _, _, hdefault, fun _ => rfl⟩
  simp only [if_neg hdefault]
  by_cases hkey : a.clearKey < 0
  · right
    simp only [if_pos hkey]
    exact ⟨fun h => absurd h.key (by omega), _, _, hkey, fun _ => rfl⟩
  simp only [if_neg hkey]
  by_cases hcap : a.capacityRet < 0
  · right
    simp only [if_pos hcap]
    exact ⟨fun h => absurd h.capacity (by omega), _, _, hcap, fun _ => rfl⟩
  simp only [if_neg hcap]
  by_cases hparam : a.paramRet < 0
  · right
    simp only [if_pos hparam]
    exact ⟨fun h => absurd h.param (by omega), _, _, hparam, fun _ => rfl⟩
  simp only [if_neg hparam]
  rcases updateSpace_cases a { dev with
      appendPos := fun _ => 0
      position := a.readpos.2
      maxBlockSize := a.param.maxBlksize } with ⟨hpage, hd⟩ | ⟨hpage, hneg, hd⟩
  · left
    constructor
    · constructor
      case page => exact hpage
      all_goals omega
    · exact hd
  · right
    exact ⟨fun h => hpage h.page, _, _, hneg, hd⟩

theorem tapeLoadTape_accepted {T : Type} {a : LoadAnswers} {force : Bool}
    (h : LoadAccepted a force) (dev : Device T) :
    ∃ d : Device T, ∀ unset, tapeLoadTape a unset force dev =
      some (0, { d with
        partitionSpace := classify a.capacity ((tapeGetPews a.modesense unset).2 + 10) }) := by
  have hloadable : ¬ ((! force) = true ∧ a.cartridgeLoadable < 0) := by
    rintro ⟨hforce, hneg⟩
    have := h.loadable (by simpa using hforce)
    omega
  rcases loadLoop_cases dev a.loads with ⟨-, ret, dev', hret, hloop⟩ | ⟨hbad, -⟩
  · rcases setUpDrive_cases a dev' with ⟨-, d, hd⟩ | ⟨hbad, -⟩
    · refine ⟨d, fun unset => ?_⟩
      unfold tapeLoadTape
      rw [if_neg hloadable, hloop]
      dsimp only
      rw [if_neg (by omega), hd]
    · exact absurd h.drive hbad
  · exact absurd h.loads hbad

/-- A load which fails returns a negative value, or is still waiting for the drive,
in the same way for every content of `pews`. -/
theorem tapeLoadTape_refused {T : Type} {a : LoadAnswers} {force : Bool}
    (h : ¬ LoadAccepted a force) (dev : Device T) :
    ∃ r : Option (ℤ × Device T), (∀ unset, tapeLoadTape a unset force dev = r) ∧
      ∀ ret dev', r = some (ret, dev') → ret < 0 := by
  unfold tapeLoadTape
  by_cases hloadable : (! force) = true ∧ a.cartridgeLoadable < 0
  · simp only [if_pos hloadable]
    refine ⟨_, fun _ => rfl, ?_⟩
    rintro ret dev' ⟨⟩
    exact hloadable.2
  simp only [if_neg hloadable]
  rcases loadLoop_cases dev a.loads with ⟨hloads, ret, dev', hret, hloop⟩ | ⟨-, hloop⟩
  · rw [hloop]
    simp only [if_neg (show ¬ ret < 0 by omega)]
    rcases setUpDrive_cases a dev' with ⟨hdrive, -⟩ | ⟨-, code, d, hcode, hd⟩
    · exfalso
      apply h
      constructor
      · intro hforce
        by_contra hneg
        exact hloadable ⟨by simp [hforce], by omega⟩
      · exact hloads
      · exact hdrive
    · refine ⟨some (code, d), fun unset => by rw [hd], ?_⟩
      rintro ret' d' ⟨⟩
      exact hcode
  · cases hr : loadLoop dev a.loads with
    | none => exact ⟨none, fun _ => rfl, fun _ _ h => by cases h⟩
    | some r =>
      have hneg := hloop r.1 r.2 hr
      simp only [if_pos hneg]
      refine ⟨_, fun _ => rfl, ?_⟩
      rintro ret dev' ⟨⟩
      exact hneg

/-! ## When a load follows the rule -/

theorem classifies_iff {T : Type} (a : LoadAnswers) (force : Bool) (dev : Device T) :
    ClassifiesSpace a force dev ↔ (LoadAccepted a force → ThresholdSafe a) := by
  by_cases hload : LoadAccepted a force
  case neg =>
    obtain ⟨r, hr, hneg⟩ := tapeLoadTape_refused hload dev
    refine iff_of_true ?_ (fun h => absurd h hload)
    constructor
    · intro unset dev' h
      have := hneg 0 dev' ((hr unset).symm.trans h)
      omega
    · intro unset unset'
      rw [hr, hr]
  obtain ⟨d, hd⟩ := tapeLoadTape_accepted hload dev
  -- the classification is the only part that depends on `pews`
  have hmeets : ClassifiesSpace a force dev ↔ ∀ unset p,
      classify a.capacity ((tapeGetPews a.modesense unset).2 + 10) p =
        expectedSpace a.capacity (a.modesense.earlyWarning.getD 0) p := by
    constructor
    · intro h unset p
      exact h.expected unset _ (hd unset) p
    · intro h
      constructor
      · intro unset dev' hrun p
        rw [hd unset] at hrun
        cases hrun
        exact h unset p
      · intro unset unset'
        rw [hd, hd, funext (h unset), funext (h unset')]
  rw [hmeets]
  unfold ThresholdSafe
  simp only [hload, forall_const]
  cases hwarn : a.modesense.earlyWarning with
  | some v =>
    constructor
    · intro h p
      obtain ⟨pews, hpews, hv⟩ := tapeGetPews_supported hwarn 0
      have hp := h 0 p
      rw [hpews, Option.getD_some, ← hv, classify_eq_iff, hv] at hp
      exact hp
    · intro h unset p
      obtain ⟨pews, hpews, hv⟩ := tapeGetPews_supported hwarn unset
      rw [hpews, Option.getD_some, ← hv, classify_eq_iff, hv]
      exact h p
  | none =>
    simp only [tapeGetPews_unsupported hwarn hload.drive.page, Option.getD_none]
    rw [forall_comm]
    exact forall_congr' fun p => classify_unset_iff a.capacity p

/-- A drive which accepts everything, warns 65530 megabytes before the end and has
20 megabytes left on the data partition. -/
def nearlyFull : LoadAnswers where
  cartridgeLoadable := 0
  loads := [(0, ⟨.ip, 0⟩)]
  waitDeviceReady := 0
  preventMediumRemoval := 0
  readpos := (0, ⟨.ip, 0⟩)
  setDefault := 0
  clearKey := 0
  capacityRet := 0
  capacity := ⟨100000, 20, 200000, 2000000⟩
  paramRet := 0
  param := ⟨1048576, 0⟩
  modesense := ⟨48, fun i => if i = 22 then 255 else if i = 23 then 250 else 0⟩

/-- The nearly full partition is taken for writable. -/
theorem nearlyFull_writable : ¬ ∀ (a : LoadAnswers) (force : Bool) (dev : Device Unit),
    ClassifiesSpace a force dev := by
  intro h
  let dev : Device Unit :=
    { medium := fun _ => []
      position := ⟨.ip, 0⟩
      appendPos := fun _ => 0
      partitionSpace := fun _ => .writable
      writeProtected := false
      writeError := false
      readonlyDrive := false
      appendOnlyMode := false
      isWorm := false
      maxBlockSize := 0
      volumeLock := .unlocked
      coherency := fun _ => ⟨0, 0, 0, 0, 0⟩
      volumeChangeRef := 0
      answers := fun _ => .ok false false
      clock := 0 }
  have hexp := (h nearlyFull false dev).expected 0 _ rfl .dp
  revert hexp
  decide

end Ltfs
