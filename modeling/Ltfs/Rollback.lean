import Ltfs.Mount
import Ltfs.Traverse

/-!
# Rolling back a volume

`rollback` of `ltfsck`, without erasing the history. It mounts the volume, looks for the index of
the generation asked for, writes the current index to the data partition once more, and then the
one that was found to both partitions. Both of them go through `ltfs_write_index`, which derives
generation, back pointer and place from whichever index is in memory.

* `prepare` — mount and unmount, which leave the current index.
* `findTarget` — the search for the generation.
* `rollbackTo` — `_rollback`, for the index that was found.
* `rollbackWrites`, `rollback` — all of it, without and with the mount at the end that checks the
  result.

Left out are the options to erase the history and to only look, and the revalidation after a
medium may have been changed during the unmount. The walk over the indexes of a partition counts as
one command of the drive.
-/

namespace Ltfs.Rollback

open CheckMedium (MediumReader MountOptions ltfsMount ltfsStartMount)
open XmlTape.Traverse (Walk unsupportedGeneration ltfsTraverseIndexBackward)

/-! ## Return codes -/

/-- `LTFSCK_NO_ERRORS`. -/
def ltfsckNoErrors : ℤ := 0
/-- `LTFSCK_CORRECTED`. -/
def ltfsckCorrected : ℤ := 1
/-- `LTFSCK_UNCORRECTED`. -/
def ltfsckUncorrected : ℤ := 4
/-- `LTFSCK_OPERATIONAL_ERROR`. -/
def ltfsckOperationalError : ℤ := 8
/-- `LTFSCK_USAGE_SYNTAX_ERROR`. -/
def ltfsckUsageSyntaxError : ℤ := 16

section Rollback

variable {T : Type}

/-! ## The current index -/

/-- The options of the two mounts; what the drive says about the end of data is the same. -/
def mountOptions (full : Bool) (o : MountOptions) : MountOptions :=
  { o with
    forceFull := full
    deepRecovery := full
    recoverExtra := false
    recoverSymlink := false }

/-- `ltfs_unmount` of a volume that has been mounted normally. -/
def ltfsUnmount (v : Volume T) : Volume T :=
  let cur := getCartVolumeLockStatus v.dev
  -- an error of this query plays no role
  let vollock := match cur.1 with
    | .ok lock => lock
    | .error _ => .unlocked
  let v := { v with dev := cur.2 }
  if (v.dirty || decide (v.index.selfptr.partition ≠ some .ip)) &&
      decide (vollock ≠ .pweIp ∧ vollock ≠ .pweBoth) then
    let w := writeIndex .ip false v
    if w.1 < 0 then
      (if isUnexpectedMove w.1 then { w.2 with reval := -ltfsRevalFailed } else w.2)
    else { w.2 with reval := 0 }
  else { v with reval := 0 }

/-- `rollback` up to "Cartridge is consistent": the self pointer of the current index as it was
mounted, and the volume, with that index in memory. An error comes with its code. -/
def prepare (M : MediumReader T) (o : MountOptions) (v : Volume T) :
    Except ℤ TapeOffset × Volume T :=
  -- `load_tape`
  let s := ltfsStartMount v
  let v := { v with dev := s.2 }
  if s.1 < 0 then
    (.error ltfsckOperationalError, v)
  else
    -- `tape_get_worm_status`
    match v.dev.answer with
    | .error _ _ => (.error ltfsckOperationalError, { v with dev := v.dev.tick })
    | .ok _ _ =>
      if v.dev.isWorm then
        (.error ltfsckUsageSyntaxError, { v with dev := v.dev.tick })
      else
        match ltfsMount M (mountOptions false o) { v with dev := v.dev.tick } with
        | (.error _, v) => (.error ltfsckUncorrected, v)
        | (.ok _, v) => (.ok v.index.selfptr, ltfsUnmount v)

/-! ## The index to go back to -/

/-- `search_index_by_gen`, with the self pointers of the indexes found. -/
def searchIndexByGen (target : ℕ) (index : Index T) (list : List TapeOffset) :
    ℤ × List TapeOffset :=
  if index.generation = unsupportedGeneration then
    (-ltfsUnsupportedIndexVersion, list)
  else if target = index.generation then
    -- "return 1 to stop searching"
    (1, index.selfptr :: list)
  else
    (0, list)

/-- `ltfs_traverse_index_backward` over a partition of the volume. It leaves the end of data as the
append position. -/
def traverseBackward (M : MediumReader T) (p : Partition) (gen : ℕ) (v : Volume T) :
    ℤ × List TapeOffset × Volume T :=
  match v.dev.answer with
  | .error code _ => (code, [], { v with dev := v.dev.tick })
  | .ok early programmable =>
    let m := v.dev.medium p
    let dev := (v.dev.tick.noteSpace p early programmable).setAppendPos p (v.dev.eod p)
    match ltfsTraverseIndexBackward (M.reader false m) p (some (searchIndexByGen gen)) gen
        ⟨⟨m.map M.image, 0, []⟩, v.index, []⟩ with
    | some (ret, w) =>
      (ret, w.list, { v with
        -- the tape does not go behind the end of data
        dev := { dev with position := ⟨p, min w.dev.pos (v.dev.eod p)⟩ }
        index := w.index })
    -- the walk ends
    | none => (-ltfsNoIndex, [], { v with dev := dev })

/-- "Find target index": on the index partition, or else on the data partition. The index in memory
is then the target. -/
def findTarget (M : MediumReader T) (gen : ℕ) (v : Volume T) :
    Except ℤ (List TapeOffset) × Volume T :=
  match traverseBackward M .ip gen v with
  | (ret, list, v) =>
    if ret = -ltfsNoIndex then
      match traverseBackward M .dp gen v with
      | (ret, list, v) => (if ret ≠ 0 then .error ltfsckOperationalError else .ok list, v)
    else
      (if ret < 0 then .error ret else .ok list, v)

/-! ## Writing -/

/-- `struct rollback_info`. -/
structure RollbackInfo (T : Type) where
  target : Index T
  current : Index T
  currentPos : TapeOffset
  targetInfo : List TapeOffset

/-- `_rollback_dp` and `_rollback_ip`: the index in memory to a partition. -/
def rollbackPartition (p : Partition) (v : Volume T) : ℤ × Volume T :=
  let w := writeIndex p false v
  (if w.1 < 0 then ltfsckOperationalError else w.1, w.2)

/-- `_rollback_dp`. -/
def rollbackDp (v : Volume T) : ℤ × Volume T := rollbackPartition .dp v

/-- `_rollback_ip`. -/
def rollbackIp (v : Volume T) : ℤ × Volume T := rollbackPartition .ip v

/-- `vol->index = index` and `ltfs_set_index_dirty`. -/
def install (index : Index T) (v : Volume T) : Volume T := { v with index := index, dirty := true }

/-- "Set target index and append position". The target gets the generation of the current index. -/
def installTarget (r : RollbackInfo T) (v : Volume T) : Volume T :=
  let v := install { r.target with generation := r.current.generation } v
  { v with dev := v.dev.setAppendPos .ip (r.currentPos.block - 1) }

/-- `_rollback`. -/
def rollbackTo (r : RollbackInfo T) (v : Volume T) : ℤ × Volume T :=
  match r.targetInfo with
  | [selfptr] =>
    if indexRefusal v < 0 then
      (ltfsckOperationalError, v)
    else
      let v := installTarget r v
      -- the target is on either partition, the steps are the same
      if selfptr.partition = some .ip ∨ selfptr.partition = some .dp then
        let d := rollbackDp v
        if d.1 ≠ ltfsckNoErrors then d else rollbackIp d.2
      else
        (ltfsckOperationalError, v)
  | _ => (ltfsckOperationalError, v)

/-- "Copy current index to data partition": the volume with the current index in memory again. -/
def copyCurrent (current : Index T) (v : Volume T) : ℤ × Volume T := rollbackDp (install current v)

/-- `rollback` from "Copy current index to data partition" to "Roll back", for a target that is in
memory. What comes of the copy is overwritten. -/
def copyAndRollBack (current : Index T) (currentPos : TapeOffset) (list : List TapeOffset)
    (v : Volume T) : ℤ × Volume T :=
  if indexRefusal v < 0 then
    (ltfsckOperationalError, v)
  else
    let c := copyCurrent current v
    match list with
    | [] => (ltfsckOperationalError, c.2)
    | _ :: _ =>
      rollbackTo
        { target := v.index, current := c.2.index, currentPos := currentPos, targetInfo := list } c.2

/-- `rollback` from the search for the target on, up to the mount at the end. -/
def rollbackWrites (M : MediumReader T) (gen : ℕ) (currentPos : TapeOffset) (v : Volume T) :
    ℤ × Volume T :=
  match findTarget M gen v with
  | (.error ret, v') => (ret, v')
  | (.ok list, v') => copyAndRollBack v.index currentPos list v'

/-- `rollback` of a volume that has been prepared. -/
def rollbackPrepared (M : MediumReader T) (o : MountOptions) (gen : ℕ) (currentPos : TapeOffset)
    (v : Volume T) : ℤ × Volume T :=
  if gen = v.index.generation then
    (ltfsckNoErrors, v)
  else
    let w := rollbackWrites M gen currentPos v
    if w.1 = 0 then
      -- "Check consistency after roll back and recovery if necessary"
      let m := ltfsMount M (mountOptions true o) w.2
      (match m.1 with
        | .error _ => ltfsckUncorrected
        | .ok _ => ltfsckCorrected, m.2)
    else w

/-- `rollback`. -/
def rollback (M : MediumReader T) (o : MountOptions) (gen : ℕ) (v : Volume T) : ℤ × Volume T :=
  match prepare M o v with
  | (.error ret, v) => (ret, v)
  | (.ok currentPos, v) => rollbackPrepared M o gen currentPos v

end Rollback

end Ltfs.Rollback
