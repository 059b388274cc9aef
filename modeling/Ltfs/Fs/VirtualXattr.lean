import Ltfs.Fs.Xattr
import Ltfs.MediaPool
import Ltfs.Tape
import Ltfs.Strtoull

/-!
# Writing a virtual extended attribute

A virtual attribute stands for something of the volume: the commit message, the volume
name, the lock state, or an attribute in the cartridge memory. `_xattr_set_virtual`
changes several copies of it, one after the other, and may fail in between.

* `State` — the copies, and whether the dirty lock is held.
* `Surroundings` — what the calls out of the function answer.
* `xattrSetVirtual` — the function, one definition for each kind of attribute.
* `LeavesNoTrace`, `ShortMessage` — what a write promises; `meets_iff` says when the
  promise is kept.
-/

namespace Ltfs.Fs.Virtual

open Time

/-! ## State and surroundings -/

/-- The part of the volume which the writes may change. -/
structure State where
  /-- `index->volume_name.name` -/
  volumeName : Option (List UInt8)
  /-- `index->commit_message` -/
  commitMessage : Option (List UInt8)
  /-- `index->vollock` -/
  indexVollock : UInt8
  /-- `vol->lock_status` -/
  lockStatus : UInt8
  /-- `index->dirty` -/
  dirty : Bool
  /-- `index->dirty_lock` is held. -/
  dirtyLock : Bool
  /-- `vol->t_attr` -/
  attr : TapeAttr

/-- `INDEX_MAX_COMMENT_LEN` -/
def indexMaxCommentLen : ℕ := 65536

/-- The commit message is not too long. -/
def Short (s : State) : Prop := ∀ m, s.commitMessage = some m → m.length ≤ indexMaxCommentLen

/-- A failed write of an index. It may change anything (a permanent write error has a
message of its own), but stores no long message. -/
structure SyncFailure where
  code : ErrorCode
  after : State → State
  short : ∀ s, Short s → Short (after s)

/-- What the write meets outside: the allocations, the normalisation of texts, the
clock, the cartridge memory and the tape. -/
structure Surroundings where
  attr : AttrEnv
  /-- `d == vol->index->root` -/
  isRoot : Bool
  mallocOk : Bool
  strndupOk : Bool
  /-- `pathname_format`: the text, whether it is checked, whether it may hold a `/`. -/
  pathnameFormat : List UInt8 → Bool → Bool → ErrorCode ⊕ List UInt8
  /-- The time as `xml_format_time` writes it, if there is one. -/
  now : Option (CString 64)
  /-- What lies in memory behind the caller's value. -/
  behind : List UInt8
  /-- `vol->file_open_count` -/
  fileOpenCount : ℕ
  /-- `ltfs_sync_index`; `none` is success. -/
  sync : Option SyncFailure
  /-- `tape_device_lock` -/
  deviceLock : ℤ
  /-- `ltfs_write_index` on the index partition -/
  writeIndex : Option SyncFailure
  /-- `_xattr_set_vendorunique_xattr` -/
  vendorunique : ℤ

/-- The attributes this file is about. -/
inductive Name where
  | commitMessage
  | sync
  | fullSync
  | incrementalSync
  | volumeName
  | mamBarcode
  | volumeLockState
  | mediaPoolAdditionalInfo
  | mediaPoolName
deriving DecidableEq, Repr

/-! ## The index -/

/-- The write of an index: success leaves it clean. -/
def indexWritten (failure : Option SyncFailure) (s : State) : ℤ × State :=
  match failure with
  | none => (0, { s with dirty := false })
  | some f => (f.code, f.after s)

/-- `ltfs_set_commit_message_reason_unlocked`: `reason - time`. Without a time the old
message is only freed, and the pointer to it stays: that message is `none` here. -/
def setCommitMessageReason (env : Surroundings) (reason : Path) (s : State) : State :=
  if ! s.dirty then s
  else match env.now with
    | none => { s with commitMessage := none }
    | some now => { s with commitMessage := some (reason ++ ascii " - " ++ now.bytes) }

/-- The commit message branch up to the release of `dirty_lock`; a code ends the call
there. The source compares the size with `INDEX_MAX_COMMENT_LEN` first, but the
code it sets is overwritten on every path. -/
def storeCommitMessage (env : Surroundings) (value : List UInt8) (s : State) : Option ℤ × State :=
  if ! s.dirty then (none, s)
  else if value = [] then (none, { s with commitMessage := none, dirty := true })
  else if ! env.mallocOk then (some (-ltfsNoMemory), s)
  else match env.pathnameFormat (cstr value) false true with
    -- the index is synced even if the value is not valid
    | .inl _ => (none, setCommitMessageReason env (ascii "Sync by EA") s)
    | .inr newValue => (none, { s with commitMessage := some newValue, dirty := true })

def setCommitMessage (env : Surroundings) (value : List UInt8) (s : State) : ℤ × State :=
  let r := storeCommitMessage env value { s with dirtyLock := true }
  let s := { r.2 with dirtyLock := false }
  match r.1 with
  | some ret => (ret, s)
  | none => indexWritten env.sync s

/-! ## The volume name -/

def setVolumeName (env : Surroundings) (value : List UInt8) (s : State) : ℤ × State :=
  let s := { s with dirtyLock := true }
  if value = [] then
    let s := { s with volumeName := none }
    let r := updateTapeAttribute env.attr [] none .userMediumLabel 0 s.attr
    (r.1, { s with attr := r.2, dirty := true, dirtyLock := false })
  else if ! env.mallocOk then (-ltfsNoMemory, { s with dirtyLock := false })
  else match env.pathnameFormat (cstr value) true false with
    | .inl code => (code, { s with dirtyLock := false })
    | .inr newValue =>
      let s := { s with volumeName := some newValue }
      let r := updateTapeAttribute env.attr newValue (some newValue) .userMediumLabel
        value.length s.attr
      let s := { s with attr := r.2 }
      if r.1 < 0 then (r.1, s)
      else (r.1, { s with dirty := true, dirtyLock := false })

/-! ## The lock state -/

/-- `UNLOCKED_MAM`, `LOCKED_MAM` and so on. -/
def unlockedMam : UInt8 := 0
def lockedMam : UInt8 := 1
def pweMam : UInt8 := 2
def permlockedMam : UInt8 := 3
def pweMamDp : UInt8 := 4
def pweMamIp : UInt8 := 5
def pweMamBoth : UInt8 := 6

/-- `strtoull` with base 0: the prefix of the number says its base. -/
def strtoullAuto (s : List Char) : ℕ × List Char :=
  let t := s.dropWhile isspace
  let sign := scanSign t
  let body := t.drop sign.2
  if Radix.prefixLen .hex body = 2 then strtoull .hex s
  else if body.head? = some '0' then
    let digits := body.takeWhile fun c => 48 ≤ c.toNat && c.toNat ≤ 55
    let n : ℤ := digits.foldl (fun n c => 8 * n + (c.toNat - 48)) 0
    (toUllong (if sign.1 then -n else n), body.drop digits.length)
  else strtoull .dec s

/-- The lock that a value asks for: `VOL_LOCKED` is bit 0, `VOL_PERM_LOCKED` bit 1. An
error ends the call before anything is changed. -/
def newLock (env : Surroundings) (value : List UInt8) (s : State) : ℤ ⊕ UInt8 :=
  if ! env.strndupOk then .inl (-ltfsNoMemory)
  else
    let r := strtoullAuto ((cstr value).map fun c => Char.ofNat c.toNat)
    if r.2 ≠ [] then .inl (-ltfsStringConversion)
    else if s.attr.vollock = pweMam ∨ s.attr.vollock = pweMamDp ∨ s.attr.vollock = pweMamIp ∨
        s.attr.vollock = pweMamBoth then .inl (-ltfsXattrErr)
    else if s.indexVollock = permlockedMam then .inl (-ltfsXattrErr)
    else if r.1.testBit 0 ∧ r.1.testBit 1 then .inl (-ltfsXattrErr)
    else if env.fileOpenCount ≠ 0 then .inl (-ltfsXattrErr)
    else .inr (if r.1.testBit 0 then lockedMam else if r.1.testBit 1 then permlockedMam
      else unlockedMam)

def setVolumeLockState (env : Surroundings) (value : List UInt8) (s : State) : ℤ × State :=
  match newLock env value s with
  | .inl ret => (ret, s)
  | .inr new =>
    let r := updateTapeAttribute env.attr [] (some [new]) .lockedMam 1 s.attr
    let s := { s with attr := r.2 }
    if r.1 < 0 then (r.1, s)
    else
      let s := { s with
        indexVollock := new
        attr := { s.attr with vollock := new }
        lockStatus := new
        dirty := true }
      let s := setCommitMessageReason env (ascii "Set advisory lock") s
      let s := (indexWritten env.sync s).2
      if env.deviceLock < 0 then (env.deviceLock, s) else indexWritten env.writeIndex s

/-! ## The function -/

/-- `_xattr_set_virtual`, for the attributes of `Name`. -/
def xattrSetVirtual (env : Surroundings) (name : Name) (value : List UInt8) (s : State) : ℤ × State :=
  match name with
  | .commitMessage | .sync =>
    if env.isRoot then setCommitMessage env value s else (-ltfsNoXattr, s)
  | .fullSync | .incrementalSync =>
    -- elsewhere these are names of the drive's vendor
    if env.isRoot then setCommitMessage env value s else (env.vendorunique, s)
  | .volumeName => if env.isRoot then setVolumeName env value s else (-ltfsNoXattr, s)
  | .mamBarcode =>
    let r := updateTapeAttribute env.attr [] (some (value ++ env.behind)) .barcode value.length s.attr
    (r.1, { s with attr := r.2 })
  | .volumeLockState => setVolumeLockState env value s
  | .mediaPoolAdditionalInfo =>
    let r := tapeSetMediaPoolInfo env.attr [] value false s.attr
    (r.1, { s with attr := r.2 })
  | .mediaPoolName =>
    let r := tapeSetMediaPoolInfo env.attr [] value true s.attr
    (r.1, { s with attr := r.2 })

/-! ## What a write promises -/

/-- Nothing fails that is not due to the value or the cartridge memory. -/
structure Quiet (env : Surroundings) : Prop where
  sync : env.sync = none
  deviceLock : 0 ≤ env.deviceLock
  writeIndex : env.writeIndex = none

/-- A write that fails leaves everything as it was, the dirty lock included. -/
def LeavesNoTrace (env : Surroundings) (name : Name) (value : List UInt8) (s : State) : Prop :=
  Quiet env → s.dirtyLock = false →
    (xattrSetVirtual env name value s).1 < 0 → (xattrSetVirtual env name value s).2 = s

/-- No write stores a commit message that is too long: where the value becomes the
message, before the index is written, and elsewhere at the end. -/
def ShortMessage (env : Surroundings) (value : List UInt8) (s : State) : Name → Prop
  | .commitMessage | .sync | .fullSync | .incrementalSync =>
    env.isRoot = true → Short s → Short (storeCommitMessage env value s).2
  | name => Short s → Short (xattrSetVirtual env name value s).2

/-- The promise of a write. -/
structure Meets (env : Surroundings) (name : Name) (value : List UInt8) (s : State) : Prop where
  noTrace : LeavesNoTrace env name value s
  message : ShortMessage env value s name

/-- The copy of the medium label is written. -/
structure LabelWritten (env : Surroundings) : Prop where
  strdupOk : env.attr.strdupOk = true
  written : 0 ≤ env.attr.writeAttribute

/-- The call that sets a part of the media pool. -/
def poolCall (env : Surroundings) (value : List UInt8) (isName : Bool) : SetCall :=
  ⟨env.attr, [], value, isName⟩

/-- The media pool is rewritten: the value is a text without brackets and the whole
text fits. -/
structure PoolRewritten (env : Surroundings) (value : List UInt8) (isName : Bool) (s : State) :
    Prop where
  callocOk : env.attr.callocOk = true
  asprintfOk : env.attr.asprintfOk = true
  bracketFree : BracketFree (cstr value)
  fits : ((poolCall env value isName).text s.attr).length ≤ 160

/-- Where a write gets as far as changing something, the cartridge memory takes it, or
nothing is different. -/
def TraceFree (env : Surroundings) (value : List UInt8) (s : State) : Name → Prop
  | .volumeName => env.isRoot = true →
      LabelWritten env ∨
      (value = [] ∧ s.volumeName = none ∧ s.dirty = true) ∨
      (value ≠ [] ∧ (env.mallocOk = false ∨ (env.pathnameFormat (cstr value) true false).isLeft))
  | .volumeLockState => ∀ new, newLock env value s = .inr new →
      0 ≤ env.attr.writeAttribute ∨ new = s.attr.vollock
  | .mediaPoolAdditionalInfo => PoolRewritten env value false s →
      0 ≤ env.attr.writeAttribute ∨
        (poolCall env value false).text s.attr = s.attr.mediaPool.bytes
  | .mediaPoolName => PoolRewritten env value true s →
      0 ≤ env.attr.writeAttribute ∨
        (poolCall env value true).text s.attr = s.attr.mediaPool.bytes
  | _ => True

/-- The normalised value is not too long, where it becomes the commit message. -/
def ValueShort (env : Surroundings) (value : List UInt8) (s : State) : Name → Prop
  | .commitMessage | .sync | .fullSync | .incrementalSync =>
    env.isRoot = true → Short s → s.dirty = true → value ≠ [] → env.mallocOk = true →
      ∀ new, env.pathnameFormat (cstr value) false true = .inr new →
        new.length ≤ indexMaxCommentLen
  | _ => True

/-! ## Commit messages -/

theorem indexWritten_short {failure : Option SyncFailure} {s : State} (h : Short s) :
    Short (indexWritten failure s).2 := by
  unfold indexWritten
  cases failure with
  | none => exact h
  | some f => exact f.short s h

theorem setCommitMessageReason_short {env : Surroundings} {reason : Path} {s : State}
    (hreason : reason.length ≤ 100) (h : Short s) :
    Short (setCommitMessageReason env reason s) := by
  unfold setCommitMessageReason
  split
  · exact h
  · cases env.now with
    | none => rintro m ⟨⟩
    | some now =>
      rintro m ⟨⟩
      have hnow := now.length_le
      have hsep : (ascii " - ").length = 3 := by decide
      simp only [List.length_append, hsep]
      unfold indexMaxCommentLen
      omega

/-- The store keeps messages short exactly when the normalised value is. -/
theorem storeCommitMessage_short_iff {env : Surroundings} {value : List UInt8} {s : State}
    (h : Short s) :
    Short (storeCommitMessage env value s).2 ↔
      (s.dirty = true → value ≠ [] → env.mallocOk = true →
        ∀ new, env.pathnameFormat (cstr value) false true = .inr new →
          new.length ≤ indexMaxCommentLen) := by
  unfold storeCommitMessage
  by_cases hdirty : (! s.dirty) = true
  · rw [if_pos hdirty]
    refine iff_of_true h fun hd => ?_
    rw [hd] at hdirty
    cases hdirty
  rw [if_neg hdirty]
  by_cases hvalue : value = []
  · rw [if_pos hvalue]
    refine iff_of_true ?_ fun _ hv => absurd hvalue hv
    rintro m ⟨⟩
  rw [if_neg hvalue]
  by_cases hmalloc : (! env.mallocOk) = true
  · rw [if_pos hmalloc]
    refine iff_of_true h fun _ _ hm => ?_
    rw [hm] at hmalloc
    cases hmalloc
  rw [if_neg hmalloc]
  cases hformat : env.pathnameFormat (cstr value) false true with
  | inl code =>
    refine iff_of_true (setCommitMessageReason_short (by decide) h) fun _ _ _ new hnew => ?_
    cases hnew
  | inr newValue =>
    constructor
    · rintro hshort - - - new ⟨⟩
      exact hshort newValue rfl
    · intro hnew m hm
      cases hm
      exact hnew (by simpa using hdirty) hvalue (by simpa using hmalloc) newValue rfl

/-- Before the sync a commit message branch ends only for lack of memory, with nothing
changed. -/
theorem storeCommitMessage_error {env : Surroundings} {value : List UInt8} {s : State} {ret : ℤ}
    (h : (storeCommitMessage env value s).1 = some ret) :
    (storeCommitMessage env value s).2 = s := by
  unfold storeCommitMessage at h ⊢
  by_cases hdirty : (! s.dirty) = true
  · rw [if_pos hdirty]
  rw [if_neg hdirty] at h ⊢
  by_cases hvalue : value = []
  · rw [if_pos hvalue] at h
    cases h
  rw [if_neg hvalue] at h ⊢
  by_cases hmalloc : (! env.mallocOk) = true
  · rw [if_pos hmalloc]
  rw [if_neg hmalloc] at h
  cases hformat : env.pathnameFormat (cstr value) false true with
  | inl code =>
    rw [hformat] at h
    cases h
  | inr newValue =>
    rw [hformat] at h
    cases h

theorem setCommitMessage_noTrace {env : Surroundings} {value : List UInt8} {s : State}
    (hquiet : Quiet env) (hlock : s.dirtyLock = false)
    (hret : (setCommitMessage env value s).1 < 0) : (setCommitMessage env value s).2 = s := by
  unfold setCommitMessage at hret ⊢
  dsimp only at hret ⊢
  cases hcode : (storeCommitMessage env value { s with dirtyLock := true }).1 with
  | some ret =>
    dsimp only
    rw [storeCommitMessage_error hcode, ← hlock]
  | none =>
    -- then the sync decides, and it succeeds
    rw [hcode, hquiet.sync] at hret
    exact absurd hret (Int.lt_irrefl 0)

/-! ## The volume name -/

/-- The update of the label fails exactly when it is not written, and keeps the
attributes then. -/
theorem updateLabel_cases (env : AttrEnv) (volumeName : List UInt8)
    (newValue : Option (List UInt8)) (size : ℕ) (t : TapeAttr) :
    ((env.strdupOk = true ∧ 0 ≤ env.writeAttribute) ∧
      0 ≤ (updateTapeAttribute env volumeName newValue .userMediumLabel size t).1) ∨
    (¬ (env.strdupOk = true ∧ 0 ≤ env.writeAttribute) ∧
      (updateTapeAttribute env volumeName newValue .userMediumLabel size t).1 < 0 ∧
      (updateTapeAttribute env volumeName newValue .userMediumLabel size t).2 = t) := by
  have hkept := @updateTapeAttribute_kept env volumeName newValue .userMediumLabel size t
    (Or.inl rfl)
  have hret : 0 ≤ (updateTapeAttribute env volumeName newValue .userMediumLabel size t).1 ↔
      env.strdupOk = true ∧ 0 ≤ env.writeAttribute := by
    unfold updateTapeAttribute
    dsimp only
    by_cases hdup : (! env.strdupOk) = true
    · rw [if_pos hdup]
      refine iff_of_false (by decide : ¬ 0 ≤ -enomem) fun h => ?_
      rw [h.1] at hdup
      cases hdup
    · rw [if_neg hdup]
      have hok : env.strdupOk = true := by simpa using hdup
      split <;> simp only [hok, true_and]
  by_cases hok : env.strdupOk = true ∧ 0 ≤ env.writeAttribute
  · exact .inl ⟨hok, hret.mpr hok⟩
  · have hneg : (updateTapeAttribute env volumeName newValue .userMediumLabel size t).1 < 0 :=
      Int.not_le.mp fun h => hok (hret.mp h)
    exact .inr ⟨hok, hneg, hkept hneg⟩

theorem labelWritten_iff (env : Surroundings) :
    LabelWritten env ↔ env.attr.strdupOk = true ∧ 0 ≤ env.attr.writeAttribute :=
  ⟨fun h => ⟨h.strdupOk, h.written⟩, fun h => ⟨h.1, h.2⟩⟩

/-- Without the label the name is changed all the same; and unless the name was
cleared the dirty lock stays held. -/
theorem setVolumeName_noTrace_iff {env : Surroundings} {value : List UInt8} {s : State}
    (hlock : s.dirtyLock = false) :
    ((setVolumeName env value s).1 < 0 → (setVolumeName env value s).2 = s) ↔
      LabelWritten env ∨
      (value = [] ∧ s.volumeName = none ∧ s.dirty = true) ∨
      (value ≠ [] ∧
        (env.mallocOk = false ∨ (env.pathnameFormat (cstr value) true false).isLeft)) := by
  rw [labelWritten_iff]
  unfold setVolumeName
  dsimp only
  by_cases hvalue : value = []
  · rw [if_pos hvalue]
    simp only [hvalue, ne_eq, not_true_eq_false, false_and, or_false, true_and]
    rcases updateLabel_cases env.attr [] none 0 s.attr with ⟨hok, hret⟩ | ⟨hok, hret, hattr⟩
    · exact iff_of_true (fun h => absurd h (by omega)) (Or.inl hok)
    · rw [hattr]
      simp only [hret, hok, forall_const, false_or]
      constructor
      · intro h
        have hname := congrArg State.volumeName h
        have hdirty := congrArg State.dirty h
        exact ⟨hname.symm, hdirty.symm⟩
      · rintro ⟨hname, hdirty⟩
        rw [← hname, ← hdirty, ← hlock]
  rw [if_neg hvalue]
  by_cases hmalloc : (! env.mallocOk) = true
  · rw [if_pos hmalloc]
    refine iff_of_true (fun _ => ?_) (Or.inr (Or.inr ⟨hvalue, Or.inl (by simpa using hmalloc)⟩))
    rw [← hlock]
  rw [if_neg hmalloc]
  have hmem : env.mallocOk = true := by simpa using hmalloc
  cases hformat : env.pathnameFormat (cstr value) true false with
  | inl code =>
    refine iff_of_true (fun _ => ?_) (Or.inr (Or.inr ⟨hvalue, Or.inr rfl⟩))
    dsimp only
    rw [← hlock]
  | inr newValue =>
    simp only [hvalue, hmem, Sum.isLeft_inr, Bool.true_eq_false, Bool.false_eq_true, or_self,
      and_false, false_and, or_false]
    rcases updateLabel_cases env.attr newValue (some newValue) value.length s.attr with
      ⟨hok, hret⟩ | ⟨hok, hret, hattr⟩
    · rw [if_neg (by omega)]
      exact iff_of_true (fun h => absurd h (by simpa using hret)) hok
    · rw [if_pos hret]
      refine iff_of_false (fun h => ?_) hok
      -- the early return does not release the lock
      have hheld := congrArg State.dirtyLock (h hret)
      rw [hlock] at hheld
      cases hheld

/-! ## The lock state and the media pool -/

/-- The copy of the lock in the attributes is changed first and not taken back. -/
theorem setVolumeLockState_noTrace_iff {env : Surroundings} {value : List UInt8} {s : State}
    (hquiet : Quiet env) :
    ((setVolumeLockState env value s).1 < 0 → (setVolumeLockState env value s).2 = s) ↔
      ∀ new, newLock env value s = .inr new →
        0 ≤ env.attr.writeAttribute ∨ new = s.attr.vollock := by
  unfold setVolumeLockState
  cases hnew : newLock env value s with
  | inl ret =>
    refine iff_of_true (fun _ => rfl) fun new h => ?_
    cases h
  | inr new =>
    have hupdate : updateTapeAttribute env.attr [] (some [new]) .lockedMam 1 s.attr =
        (env.attr.writeAttribute, { s.attr with vollock := new }) := rfl
    simp only [hupdate, Sum.inr.injEq]
    by_cases hcm : env.attr.writeAttribute < 0
    · rw [if_pos hcm]
      simp only [hcm, forall_const]
      constructor
      · intro h new' heq
        have hvollock := congrArg (fun s => s.attr.vollock) h
        exact Or.inr (heq ▸ hvollock)
      · intro h
        rcases h new rfl with hwritten | hsame
        · omega
        · rw [hsame]
    · rw [if_neg hcm, if_neg (Int.not_lt.mpr hquiet.deviceLock), hquiet.writeIndex]
      exact iff_of_true (fun h => absurd h (Int.lt_irrefl 0)) fun _ _ => Or.inl (by omega)

/-- The new text stays in the attributes when the cartridge memory declines it. -/
theorem setMediaPool_noTrace_iff (env : Surroundings) (value : List UInt8) (isName : Bool)
    (s : State) :
    ((tapeSetMediaPoolInfo env.attr [] value isName s.attr).1 < 0 →
      { s with attr := (tapeSetMediaPoolInfo env.attr [] value isName s.attr).2 } = s) ↔
      (PoolRewritten env value isName s → 0 ≤ env.attr.writeAttribute ∨
        (poolCall env value isName).text s.attr = s.attr.mediaPool.bytes) := by
  have hexec : tapeSetMediaPoolInfo env.attr [] value isName s.attr =
      (poolCall env value isName).exec s.attr := rfl
  rw [hexec]
  by_cases hrewritten : PoolRewritten env value isName s
  case neg =>
    refine iff_of_true (fun _ => ?_) fun h => absurd h hrewritten
    rw [(SetCall.exec_declined s.attr fun h1 h2 h3 h4 => hrewritten ⟨h1, h2, h3, h4⟩).2]
  rw [SetCall.exec_eq hrewritten.callocOk hrewritten.asprintfOk hrewritten.bracketFree
    hrewritten.fits]
  simp only [hrewritten, forall_const]
  by_cases hcm : env.attr.writeAttribute < 0
  · have hcm' : (poolCall env value isName).env.writeAttribute < 0 := hcm
    simp only [hcm', forall_const]
    have hcopy := CString.strncpy_bytes ((poolCall env value isName).text_noNul s.attr)
      hrewritten.fits
    constructor
    · intro h
      right
      rw [← hcopy]
      exact congrArg (fun s => s.attr.mediaPool.bytes) h
    · rintro (hwritten | hsame)
      · omega
      · have hpool : CString.strncpy 160 ((poolCall env value isName).text s.attr)
            ((poolCall env value isName).text s.attr).length = s.attr.mediaPool :=
          CString.ext (hcopy.trans hsame)
        rw [hpool]
  · exact iff_of_true (fun h => absurd h hcm) (Or.inl (by omega))

/-! ## The function -/

theorem setVolumeName_short {env : Surroundings} {value : List UInt8} {s : State} (h : Short s) :
    Short (setVolumeName env value s).2 := by
  have hmsg : (setVolumeName env value s).2.commitMessage = s.commitMessage := by
    unfold setVolumeName
    dsimp only
    split
    · rfl
    split
    · rfl
    split
    · rfl
    · split
      · rfl
      · rfl
  intro m hm
  exact h m (hmsg ▸ hm)

theorem setVolumeLockState_short {env : Surroundings} {value : List UInt8} {s : State}
    (h : Short s) : Short (setVolumeLockState env value s).2 := by
  unfold setVolumeLockState
  split
  · exact h
  · dsimp only
    split
    · exact h
    · split
      · exact indexWritten_short (setCommitMessageReason_short (by decide) h)
      · exact indexWritten_short
          (indexWritten_short (setCommitMessageReason_short (by decide) h))

theorem leavesNoTrace_iff (env : Surroundings) (name : Name) (value : List UInt8) (s : State) :
    LeavesNoTrace env name value s ↔
      (Quiet env → s.dirtyLock = false → TraceFree env value s name) := by
  unfold LeavesNoTrace
  refine forall_congr' fun hquiet => forall_congr' fun hlock => ?_
  -- the four names of the commit message share one branch
  have hcommit : ∀ code : ℤ, ((if env.isRoot then setCommitMessage env value s else (code, s)).1 < 0 →
      (if env.isRoot then setCommitMessage env value s else (code, s)).2 = s) := by
    intro code
    split
    · exact setCommitMessage_noTrace hquiet hlock
    · exact fun _ => rfl
  cases name with
  | commitMessage => exact iff_of_true (hcommit _) trivial
  | sync => exact iff_of_true (hcommit _) trivial
  | fullSync => exact iff_of_true (hcommit _) trivial
  | incrementalSync => exact iff_of_true (hcommit _) trivial
  | volumeName =>
    unfold xattrSetVirtual TraceFree
    dsimp only
    by_cases hroot : env.isRoot = true
    · simp only [hroot, if_true, forall_const]
      exact setVolumeName_noTrace_iff hlock
    · rw [if_neg hroot]
      exact iff_of_true (fun _ => rfl) fun h => absurd h hroot
  | mamBarcode =>
    refine iff_of_true (fun hret => ?_) trivial
    unfold xattrSetVirtual at hret ⊢
    dsimp only at hret ⊢
    rw [updateTapeAttribute_kept (Or.inr rfl) hret]
  | volumeLockState => exact setVolumeLockState_noTrace_iff hquiet
  | mediaPoolAdditionalInfo => exact setMediaPool_noTrace_iff env value false s
  | mediaPoolName => exact setMediaPool_noTrace_iff env value true s

theorem shortMessage_iff (env : Surroundings) (name : Name) (value : List UInt8) (s : State) :
    ShortMessage env value s name ↔ ValueShort env value s name := by
  have hcommit : (env.isRoot = true → Short s → Short (storeCommitMessage env value s).2) ↔
      (env.isRoot = true → Short s → s.dirty = true → value ≠ [] → env.mallocOk = true →
        ∀ new, env.pathnameFormat (cstr value) false true = .inr new →
          new.length ≤ indexMaxCommentLen) :=
    forall_congr' fun _ => forall_congr' fun h => storeCommitMessage_short_iff h
  cases name with
  | commitMessage => exact hcommit
  | sync => exact hcommit
  | fullSync => exact hcommit
  | incrementalSync => exact hcommit
  | volumeName =>
    refine iff_of_true (fun h => ?_) trivial
    unfold xattrSetVirtual
    dsimp only
    split
    · exact setVolumeName_short h
    · exact h
  | mamBarcode => exact iff_of_true (fun h => h) trivial
  | volumeLockState => exact iff_of_true (fun h => setVolumeLockState_short h) trivial
  | mediaPoolAdditionalInfo => exact iff_of_true (fun h => h) trivial
  | mediaPoolName => exact iff_of_true (fun h => h) trivial

/-- When a write keeps its promise. -/
theorem meets_iff (env : Surroundings) (name : Name) (value : List UInt8) (s : State) :
    Meets env name value s ↔
      (Quiet env → s.dirtyLock = false → TraceFree env value s name) ∧
        ValueShort env value s name := by
  rw [← leavesNoTrace_iff, ← shortMessage_iff]
  exact ⟨fun h => ⟨h.noTrace, h.message⟩, fun h => ⟨h.1, h.2⟩⟩

/-- A cartridge memory that declines every write. -/
def declining : Surroundings where
  attr := ⟨-1, true, true, true, fun _ _ => none⟩
  isRoot := true
  mallocOk := true
  strndupOk := true
  pathnameFormat := fun text _ _ => .inr text
  now := none
  behind := [0]
  fileOpenCount := 0
  sync := none
  deviceLock := 0
  writeIndex := none
  vendorunique := 0

/-! The empty text is without a NUL and fits into the fields. -/

theorem empty_noNul : (0 : UInt8) ∉ ([] : List UInt8) := List.not_mem_nil

theorem empty_fitsLabel : ([] : List UInt8).length ≤ 160 := by decide

theorem empty_fitsBarcode : ([] : List UInt8).length ≤ 32 := by decide

def unnamed : State where
  volumeName := none
  commitMessage := none
  indexVollock := 0
  lockStatus := 0
  dirty := false
  dirtyLock := false
  attr := {
    mediumLabel := ⟨[], empty_noNul, empty_fitsLabel⟩
    barcode := ⟨[], empty_noNul, empty_fitsBarcode⟩
    vollock := 0
    mediaPool := ⟨[], empty_noNul, empty_fitsLabel⟩ }

/-- Naming a volume `a` fails with the dirty lock held. -/
theorem declining_holds_lock : ¬ ∀ env name value s, Meets env name value s := by
  intro h
  have htrace := (h declining .volumeName [97] unnamed).noTrace ⟨rfl, by decide, rfl⟩ rfl
    (by decide)
  have hheld := congrArg State.dirtyLock htrace
  revert hheld
  decide

end Ltfs.Fs.Virtual
