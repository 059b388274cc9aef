import Ltfs.Sched.WriteSpec

/-!
# The course of a write does not depend on the bytes

`unified_write` copies bytes and never looks at them. Replacing every byte, in the
cached requests and in the write, by its image under a function replaces the bytes of
the result in the same way and changes nothing else. So two writes of the same length
at the same offset end the same way, with requests of the same shape.
-/

namespace Ltfs.Sched

open RequestState

/-- The request with other bytes. -/
def WriteRequest.recode (f : UInt8 → UInt8) (r : WriteRequest) : WriteRequest :=
  { r with data := r.data.map f }

section Recode

variable {cs : ℕ} {f : UInt8 → UInt8}

@[simp] theorem recode_offset (r : WriteRequest) : (r.recode f).offset = r.offset := rfl

@[simp] theorem recode_data (r : WriteRequest) : (r.recode f).data = r.data.map f := rfl

@[simp] theorem recode_state (r : WriteRequest) : (r.recode f).state = r.state := rfl

@[simp] theorem recode_writeCache (r : WriteRequest) : (r.recode f).writeCache = r.writeCache := rfl

@[simp] theorem recode_count (r : WriteRequest) : (r.recode f).count = r.count := by
  simp [WriteRequest.count]

@[simp] theorem recode_limit (r : WriteRequest) : (r.recode f).limit = r.limit := by
  simp [WriteRequest.limit]

@[simp] theorem promote_recode (p : Option ℕ) (r : WriteRequest) :
    promote p (r.recode f) = (promote p r).recode f := by
  cases p with
  | none => rfl
  | some offset =>
    by_cases h : r.state = requestPartial ∧ r.offset ≤ offset
    · rw [promote, promote, if_pos h, if_pos (by simpa using h)]
      rfl
    · rw [promote, promote, if_neg h, if_neg (by simpa using h)]

@[simp] theorem promote_comp_recode (p : Option ℕ) :
    promote p ∘ WriteRequest.recode f = WriteRequest.recode f ∘ promote p :=
  funext (promote_recode p)

@[simp] theorem promoteLog_recode (p : Option ℕ) (l : List WriteRequest) :
    promoteLog p (l.map (WriteRequest.recode f)) = promoteLog p l := by
  unfold promoteLog
  rw [List.flatMap_map]
  simp

/-- The promoted list with other bytes. -/
theorem map_promote_recode (p : Option ℕ) (l : List WriteRequest) :
    (l.map (WriteRequest.recode f)).map (promote p)
      = (l.map (promote p)).map (WriteRequest.recode f) := by
  simp

/-! ## Requests -/

theorem updateRequest_recode (buf : List UInt8) (offset : ℕ) (r : WriteRequest) :
    updateRequest cs (buf.map f) offset (r.recode f)
      = ((updateRequest cs buf offset r).1, (updateRequest cs buf offset r).2.1.recode f,
        (updateRequest cs buf offset r).2.2) := by
  unfold updateRequest
  by_cases hbuf : buf.length = 0
  · rw [if_pos (by simpa using hbuf), if_pos hbuf]
  · rw [if_neg (by simpa using hbuf), if_neg hbuf]
    have hcopy : copyInto cs (buf.map f) offset (r.recode f)
        = ((copyInto cs buf offset r).1, (copyInto cs buf offset r).2.recode f) := by
      simp [copyInto, WriteRequest.recode, List.map_append, List.map_take, List.map_drop]
    rw [hcopy]
    simp

/-- The result of a merge with other bytes. -/
def MergeResult.recode (f : UInt8 → UInt8) (m : MergeResult) : MergeResult :=
  { m with dest := m.dest.recode f, src := m.src.recode f }

theorem trimSource_recode (n : ℕ) (dest src : WriteRequest) (b : Bool) (p : Option ℕ) :
    trimSource n (dest.recode f) (src.recode f) b p = (trimSource n dest src b p).recode f := by
  unfold trimSource
  have hcount : (src.recode f).count = src.count := recode_count src
  rw [hcount]
  by_cases hpos : n > 0
  · rw [if_pos hpos, if_pos hpos]
    by_cases hlt : n < src.count
    · rw [if_pos hlt, if_pos hlt]
      by_cases hdp : src.state = requestDp
      · have hdp' : (src.recode f).state = requestDp := hdp
        rw [if_pos hdp, if_pos hdp']
        simp [MergeResult.recode, WriteRequest.recode]
      · have hdp' : ¬ (src.recode f).state = requestDp := hdp
        rw [if_neg hdp, if_neg hdp']
        simp [MergeResult.recode, WriteRequest.recode]
    · rw [if_neg hlt, if_neg hlt]
      rfl
  · rw [if_neg hpos, if_neg hpos]
    rfl

theorem mergeRequests_recode (dest src : WriteRequest) :
    mergeRequests cs (dest.recode f) (src.recode f) = (mergeRequests cs dest src).recode f := by
  have htarget : sameTarget (dest.recode f) (src.recode f) ↔ sameTarget dest src := by
    simp [sameTarget]
  unfold mergeRequests
  simp only [recode_offset, recode_limit, recode_count, recode_data, htarget, ← List.map_drop,
    updateRequest_recode, promote_recode, trimSource_recode]
  split
  · rfl
  · split <;> rfl

/-! ## The state of a write -/

/-- The state with other bytes. -/
def WriteState.recode (f : UInt8 → UInt8) (w : WriteState) : WriteState :=
  { w with
    passed := w.passed.map (WriteRequest.recode f)
    prev := w.prev.map (WriteRequest.recode f)
    skipped := w.skipped.map (WriteRequest.recode f)
    buf := w.buf.map f }

@[simp] theorem before_recode (w : WriteState) :
    (w.recode f).before = w.before.map (WriteRequest.recode f) := by
  cases hprev : w.prev with
  | none => simp [WriteState.before, WriteState.recode, hprev]
  | some P => simp [WriteState.before, WriteState.recode, hprev]

theorem advance_recode (w : WriteState) (req : WriteRequest) :
    (w.recode f).advance (req.recode f) = (w.advance req).recode f := by
  simp [WriteState.advance, WriteState.recode, ← before_recode (f := f)]

theorem release_recode (w : WriteState) (req : WriteRequest) :
    (w.recode f).release (req.recode f) = (w.release req).recode f := by
  unfold WriteState.release
  have hspare : (w.recode f).spare = w.spare := rfl
  rw [hspare]
  cases hs : w.spare with
  | none => simp [WriteState.recode, hs]
  | some cache => simp [WriteState.recode, hs]

/-- The result of inserting with other bytes. -/
def InsertResult.recode (f : UInt8 → UInt8) : InsertResult → InsertResult
  | .inserted req w => .inserted (req.recode f) (w.recode f)
  | .wait w => .wait (w.recode f)
  | .noMemory w => .noMemory (w.recode f)

theorem insertNewRequest_recode (buf : List UInt8) (offset : ℕ) (ip : Bool) (w : WriteState) :
    insertNewRequest cs (buf.map f) offset ip (w.recode f)
      = (insertNewRequest cs buf offset ip w).recode f := by
  have hstore : ∀ (cache : ℕ) (w : WriteState),
      storeRequest cs (buf.map f) offset ip cache (w.recode f)
        = (storeRequest cs buf offset ip cache w).recode f := by
    intro cache w
    unfold storeRequest
    by_cases hmem : w.mem.headD true
    · have hmem' : (w.recode f).mem.headD true = true := hmem
      simp only [if_pos hmem, if_pos hmem', InsertResult.recode, ← List.map_take, List.length_map]
      simp [WriteState.recode, WriteRequest.recode, WriteRequest.limit, WriteRequest.count]
    · have hmem' : ¬ (w.recode f).mem.headD true = true := hmem
      simp only [if_neg hmem, if_neg hmem', InsertResult.recode]
      rfl
  have hspare : (w.recode f).spare = w.spare := rfl
  have hpool : (w.recode f).pool = w.pool := rfl
  unfold insertNewRequest
  rw [hspare, hpool]
  cases w.spare with
  | some cache => exact hstore cache w
  | none =>
    dsimp only
    cases w.pool.allocateObject with
    | none => rfl
    | some a => exact hstore a.1 { w with pool := a.2 }

/-! ## The walk -/

/-- The result of a visit with other bytes. -/
def Visit.recode (f : UInt8 → UInt8) : Visit → Visit
  | .next w after => .next (w.recode f) (after.map (WriteRequest.recode f))
  | .out w after => .out (w.recode f) (after.map (WriteRequest.recode f))
  | .restart w after => .restart (w.recode f) (after.map (WriteRequest.recode f))
  | .noMemory w after => .noMemory (w.recode f) (after.map (WriteRequest.recode f))

theorem finishVisit_recode (didMerge : Bool) (w : WriteState) (req : WriteRequest)
    (after : List WriteRequest) :
    finishVisit didMerge (w.recode f) (req.recode f) (after.map (WriteRequest.recode f))
      = (finishVisit didMerge w req after).recode f := by
  have hlen : (w.recode f).buf.length = w.buf.length := by simp [WriteState.recode]
  unfold finishVisit
  rw [hlen, advance_recode]
  split <;> rfl

theorem merged_recode (w : WriteState) (m : MergeResult) (req : WriteRequest)
    (after : List WriteRequest) :
    (w.recode f).merged (m.recode f) (req.recode f) (after.map (WriteRequest.recode f))
      = (w.merged m req after).recode f := by
  have hlog : promoteLog m.promoted ((w.recode f).before
      ++ req.recode f :: after.map (WriteRequest.recode f))
      = promoteLog m.promoted (w.before ++ req :: after) := by
    rw [before_recode, ← List.map_cons, ← List.map_append, promoteLog_recode]
  unfold WriteState.merged
  simp only [MergeResult.recode, hlog]
  simp [WriteState.recode]

/-- The result of the merge step with other bytes. -/
def recodeStep (f : UInt8 → UInt8) :
    Option (Bool × WriteRequest) × WriteState × List WriteRequest →
      Option (Bool × WriteRequest) × WriteState × List WriteRequest
  | (current, w, after) => (current.map fun c => (c.1, c.2.recode f), w.recode f,
      after.map (WriteRequest.recode f))

theorem mergeStep_recode (w : WriteState) (req : WriteRequest) (after : List WriteRequest) :
    mergeStep cs (w.recode f) (req.recode f) (after.map (WriteRequest.recode f))
      = recodeStep f (mergeStep cs w req after) := by
  have hprev : (w.recode f).prev = w.prev.map (WriteRequest.recode f) := rfl
  unfold mergeStep
  rw [hprev]
  cases hp : w.prev with
  | none => rfl
  | some dest =>
    simp only [Option.map_some, mergeRequests_recode]
    have hret : (MergeResult.recode f (mergeRequests cs dest req)).ret
        = (mergeRequests cs dest req).ret := rfl
    have hpromoted : (MergeResult.recode f (mergeRequests cs dest req)).promoted
        = (mergeRequests cs dest req).promoted := rfl
    rw [hret, hpromoted, merged_recode, release_recode, map_promote_recode]
    split
    · rfl
    · rfl

theorem insertBefore_recode (w : WriteState) (req : WriteRequest) (after : List WriteRequest) :
    insertBefore cs (w.recode f) (req.recode f) (after.map (WriteRequest.recode f))
      = (insertBefore cs w req after).recode f := by
  have hbuf : (w.recode f).buf = w.buf.map f := rfl
  have hoffset : (w.recode f).offset = w.offset := rfl
  unfold insertBefore
  rw [hbuf, hoffset, insertNewRequest_recode]
  cases insertNewRequest cs w.buf w.offset false w with
  | noMemory w' => rfl
  | wait w' => rfl
  | inserted new w' =>
    dsimp only [InsertResult.recode]
    set w₂ : WriteState := { w'.advance new with buf := [], offset := w'.offset + w'.buf.length }
    have hw₂ : { (w'.recode f).advance (new.recode f) with
        buf := [], offset := (w'.recode f).offset + (w'.recode f).buf.length } = w₂.recode f := by
      rw [advance_recode]
      simp [WriteState.recode, w₂]
    rw [hw₂, mergeStep_recode]
    rcases mergeStep cs w₂ req after with ⟨_ | ⟨didMerge, req'⟩, w₃, after₃⟩
    · rfl
    · exact finishVisit_recode didMerge w₃ req' after₃

theorem updateVisit_recode (w : WriteState) (req : WriteRequest) (after : List WriteRequest) :
    updateVisit cs (w.recode f) (req.recode f) (after.map (WriteRequest.recode f))
      = (updateVisit cs w req after).recode f := by
  have hbuf : (w.recode f).buf = w.buf.map f := rfl
  have hoffset : (w.recode f).offset = w.offset := rfl
  unfold updateVisit
  rw [hbuf, hoffset, updateRequest_recode]
  set u := updateRequest cs w.buf w.offset req
  have hlog : promoteLog u.2.2 ((w.recode f).before
      ++ req.recode f :: after.map (WriteRequest.recode f))
      = promoteLog u.2.2 (w.before ++ req :: after) := by
    rw [before_recode, ← List.map_cons, ← List.map_append, promoteLog_recode]
  have hupdated : (w.recode f).updated (u.1, u.2.1.recode f, u.2.2) (req.recode f)
      (after.map (WriteRequest.recode f)) = (w.updated u req after).recode f := by
    unfold WriteState.updated
    simp only [hlog, recode_limit]
    simp [WriteState.recode, WriteState.promoteBefore, Function.comp_def]
  dsimp only
  rw [hupdated, map_promote_recode]
  exact finishVisit_recode true _ u.2.1 _

theorem overlapIp_recode (didMerge : Bool) (w : WriteState) (req : WriteRequest)
    (after : List WriteRequest) :
    overlapIp cs didMerge (w.recode f) (req.recode f) (after.map (WriteRequest.recode f))
      = (overlapIp cs didMerge w req after).recode f := by
  have hlen : (w.recode f).buf.length = w.buf.length := by simp [WriteState.recode]
  have hoffset : (w.recode f).offset = w.offset := rfl
  unfold overlapIp
  simp only [hlen, hoffset, recode_offset, recode_count, recode_limit]
  split
  · rw [release_recode]
    rfl
  · split
    · rw [← insertBefore_recode]
      simp [WriteRequest.recode]
    · split
      · rw [← finishVisit_recode]
        simp [WriteRequest.recode]
      · rw [recode_data, ← List.map_drop, insertNewRequest_recode]
        rcases insertNewRequest cs (req.data.drop (w.offset - req.offset + w.buf.length))
          (req.offset + (w.offset - req.offset + w.buf.length)) true w with ⟨piece, w'⟩ | w' | w'
        · dsimp only [InsertResult.recode]
          rw [← insertBefore_recode]
          simp [WriteState.recode, WriteRequest.recode]
        · rfl
        · rfl

theorem overlapVisit_recode (didMerge : Bool) (w : WriteState) (req : WriteRequest)
    (after : List WriteRequest) :
    overlapVisit cs didMerge (w.recode f) (req.recode f) (after.map (WriteRequest.recode f))
      = (overlapVisit cs didMerge w req after).recode f := by
  have hlen : (w.recode f).buf.length = w.buf.length := by simp [WriteState.recode]
  have hoffset : (w.recode f).offset = w.offset := rfl
  unfold overlapVisit
  simp only [hlen, hoffset, recode_offset, recode_count, recode_limit, recode_state,
    finishVisit_recode, insertBefore_recode, updateVisit_recode, overlapIp_recode]
  split
  · rfl
  · split
    · rfl
    · split
      · rfl
      · split <;> rfl

theorem visit_recode (w : WriteState) (req : WriteRequest) (after : List WriteRequest) :
    visit cs (w.recode f) (req.recode f) (after.map (WriteRequest.recode f))
      = (visit cs w req after).recode f := by
  have hlen : (w.recode f).buf.length = w.buf.length := by simp [WriteState.recode]
  have hoffset : (w.recode f).offset = w.offset := rfl
  unfold visit
  rw [hlen, hoffset, recode_offset, recode_limit, insertBefore_recode, mergeStep_recode]
  split
  · simp [Visit.recode, WriteState.recode]
  · split
    · rfl
    · rcases mergeStep cs w req after with ⟨_ | ⟨didMerge, req'⟩, w', after'⟩
      · rfl
      · exact overlapVisit_recode didMerge w' req' after'

theorem walk_recode (n : ℕ) : ∀ (w : WriteState) (after : List WriteRequest),
    walk cs n (w.recode f) (after.map (WriteRequest.recode f)) = (walk cs n w after).recode f := by
  induction n with
  | zero =>
    intro w after
    cases after with
    | nil => rfl
    | cons req after => rfl
  | succ n ih =>
    intro w after
    cases after with
    | nil => rfl
    | cons req after =>
      rw [List.map_cons, walk_cons, walk_cons, visit_recode]
      cases visit cs w req after with
      | next w' after' => exact ih w' after'
      | out w' after' => rfl
      | restart w' after' => rfl
      | noMemory w' after' => rfl

/-! ## The whole edit -/

/-- The result of an attempt with other bytes. -/
def WriteResult.recode (f : UInt8 → UInt8) (r : WriteResult) : WriteResult :=
  ⟨r.outcome, r.requests.map (WriteRequest.recode f), r.state.recode f⟩

theorem appendRequests_recode (l : List WriteRequest) (w : WriteState) :
    appendRequests cs (l.map (WriteRequest.recode f)) (w.recode f)
      = (appendRequests cs l w).recode f := by
  have hbuf : (w.recode f).buf = w.buf.map f := rfl
  have hoffset : (w.recode f).offset = w.offset := rfl
  unfold appendRequests
  rw [hbuf, hoffset, insertNewRequest_recode, List.length_map]
  split
  · rcases insertNewRequest cs w.buf w.offset false w with ⟨new, w'⟩ | w' | w'
    · simp [InsertResult.recode, WriteResult.recode, WriteState.recode]
    · rfl
    · rfl
  · rfl

theorem appendAtEnd_recode (l : List WriteRequest) (w : WriteState) :
    appendAtEnd cs (l.map (WriteRequest.recode f)) (w.recode f)
      = (appendAtEnd cs l w).recode f := by
  have hbuf : (w.recode f).buf = w.buf.map f := rfl
  have hoffset : (w.recode f).offset = w.offset := rfl
  unfold appendAtEnd
  rw [List.getLast?_map]
  cases l.getLast? with
  | none => exact appendRequests_recode l w
  | some req =>
    simp only [Option.map_some, recode_count, recode_limit, recode_state, hbuf, hoffset,
      updateRequest_recode, appendRequests_recode, promoteLog_recode]
    split
    · rw [← appendRequests_recode]
      simp [WriteState.recode, ← List.map_dropLast]
    · rfl

/-- Replacing the bytes before the write or after it is the same. -/
theorem doAppend_recode (fuel : ℕ) : ∀ (l : List WriteRequest) (w : WriteState),
    doAppend cs fuel (l.map (WriteRequest.recode f)) (w.recode f)
      = (doAppend cs fuel l w).recode f := by
  induction fuel with
  | zero => exact fun l w => rfl
  | succ fuel ih =>
    intro l w
    have hlast : ((l.map (WriteRequest.recode f)).getLast?.map WriteRequest.limit).getD 0
        = (l.getLast?.map WriteRequest.limit).getD 0 := by
      rw [List.getLast?_map]
      cases l.getLast? <;> simp
    have hwalk : walk cs l.length { w.recode f with passed := [], prev := none, skipped := [] }
        (l.map (WriteRequest.recode f))
        = (walk cs l.length { w with passed := [], prev := none, skipped := [] } l).recode f :=
      walk_recode l.length { w with passed := [], prev := none, skipped := [] } l
    unfold doAppend
    dsimp only
    rw [hlast, List.length_map, hwalk]
    by_cases hend : w.offset ≥ (l.getLast?.map WriteRequest.limit).getD 0
    · have hend' : (w.recode f).offset ≥ (l.getLast?.map WriteRequest.limit).getD 0 := hend
      rw [if_pos hend, if_pos hend']
      exact appendAtEnd_recode l w
    · have hend' : ¬ (w.recode f).offset ≥ (l.getLast?.map WriteRequest.limit).getD 0 := hend
      rw [if_neg hend, if_neg hend']
      rcases walk cs l.length { w with passed := [], prev := none, skipped := [] } l
        with ⟨w', after⟩ | ⟨w', after⟩ | ⟨w', after⟩ | ⟨w', after⟩
      · dsimp only [Visit.recode]
        have hlen : (w'.recode f).buf.length = w'.buf.length := by simp [WriteState.recode]
        rw [hlen, before_recode, ← List.map_append, ih]
        split <;> rfl
      · simp [Visit.recode, WriteResult.recode]
      · simp [Visit.recode, WriteResult.recode]
      · simp [Visit.recode, WriteResult.recode]

/-- How an attempt ends does not depend on the bytes of the write. -/
theorem doAppend_outcome (fuel : ℕ) (l : List WriteRequest) (w : WriteState) (buf : List UInt8)
    (hlen : buf.length = w.buf.length) :
    (doAppend cs fuel l { w with buf := buf }).outcome = (doAppend cs fuel l w).outcome := by
  have hzero : ∀ w : WriteState, (doAppend cs fuel l w).outcome
      = (doAppend cs fuel (l.map (WriteRequest.recode fun _ => 0))
          (w.recode fun _ => 0)).outcome := by
    intro w
    rw [doAppend_recode]
    rfl
  have hsame : WriteState.recode (fun _ => 0) { w with buf := buf } = w.recode fun _ => 0 := by
    simp [WriteState.recode, List.map_const', hlen]
  rw [hzero, hsame, ← hzero]

end Recode

end Ltfs.Sched
