import Ltfs.Sched.Request

/-!
# The list walk of `unified_write`

A write that does not simply append walks the request list (`TAILQ_FOREACH_SAFE`)
and stores its bytes where they belong. `visit` is the loop body, `walk` the
loop, `doAppend` the code from the label `do_append` on. The labels and `goto`s
of the source are function calls here.

The result is an outcome, the request list and the rest of the write:
a restart keeps the bytes that are not stored yet.
-/

namespace Ltfs.Sched

open RequestState

/-- What a visit of one request decides. The list is the part from the cursor on. -/
inductive Visit where
  /-- Next round of the loop. -/
  | next (w : WriteState) (after : List WriteRequest)
  /-- `goto out` with all bytes stored. -/
  | out (w : WriteState) (after : List WriteRequest)
  /-- `goto write_start` after cache pressure. -/
  | restart (w : WriteState) (after : List WriteRequest)
  /-- `goto out` with `-LTFS_NO_MEMORY`. -/
  | noMemory (w : WriteState) (after : List WriteRequest)

/-- End of the loop body: `prev_req = req`, and stop unless there is more to do. -/
def finishVisit (didMerge : Bool) (w : WriteState) (req : WriteRequest)
    (after : List WriteRequest) : Visit :=
  if w.buf.length = 0 ∧ ! didMerge then
    .out (w.advance req) after
  else
    .next (w.advance req) after

/-- The part before the cursor after `req` was merged into `prev_req`. -/
def WriteState.merged (w : WriteState) (m : MergeResult) (req : WriteRequest)
    (after : List WriteRequest) : WriteState :=
  { w with
    passed := w.passed.map (promote m.promoted)
    prev := some m.dest
    skipped := w.skipped.map (promote m.promoted)
    fileSize := if m.updated then max w.fileSize m.dest.limit else w.fileSize
    log := w.log ++ promoteLog m.promoted (w.before ++ req :: after) ++ m.srcLog }

/-- The merge step of the loop body; `none` if the current request is gone. -/
def mergeStep (cs : ℕ) (w : WriteState) (req : WriteRequest) (after : List WriteRequest) :
    Option (Bool × WriteRequest) × WriteState × List WriteRequest :=
  match w.prev with
  | none => (some (false, req), w, after)
  | some dest =>
    let m := mergeRequests cs dest req
    if m.ret = 2 then
      (none, (w.merged m req after).release req, after.map (promote m.promoted))
    else
      (some (decide (m.ret = 1), m.src), w.merged m req after, after.map (promote m.promoted))

/-- "Insert request(s) before the current one". The new request takes all bytes,
so the source's `while` runs once; then the merge step and the end of the body. -/
def insertBefore (cs : ℕ) (w : WriteState) (req : WriteRequest) (after : List WriteRequest) :
    Visit :=
  match insertNewRequest cs w.buf w.offset false w with
  | .noMemory w => .noMemory w (req :: after)
  | .wait w => .restart w (req :: after)
  | .inserted new w =>
    let w := { w.advance new with buf := [], offset := w.offset + w.buf.length }
    match mergeStep cs w req after with
    | (none, w, after) => .next w after
    | (some (didMerge, req), w, after) => finishVisit didMerge w req after

/-- The write after `req` took the bytes that `u` reports. -/
def WriteState.updated (w : WriteState) (u : ℕ × WriteRequest × Option ℕ) (req : WriteRequest)
    (after : List WriteRequest) : WriteState :=
  { w.promoteBefore u.2.2 with
    buf := w.buf.drop u.1
    offset := w.offset + u.1
    fileSize := max w.fileSize u.2.1.limit
    log := w.log ++ promoteLog u.2.2 (w.before ++ req :: after) }

/-- "Update this request with bytes from the new write". -/
def updateVisit (cs : ℕ) (w : WriteState) (req : WriteRequest) (after : List WriteRequest) :
    Visit :=
  let u := updateRequest cs w.buf w.offset req
  finishVisit true (w.updated u req after) u.2.1 (after.map (promote u.2.2))

/-- "Truncate, split or remove this request to avoid overlapping with the new
write": the current request is targeted at the index partition. -/
def overlapIp (cs : ℕ) (didMerge : Bool) (w : WriteState) (req : WriteRequest)
    (after : List WriteRequest) : Visit :=
  let size := w.buf.length
  if w.offset = req.offset ∧ size ≥ req.count then
    .next { w.release req with log := w.log ++ [⟨false, requestIp⟩] } after
  else if w.offset = req.offset then
    insertBefore cs w { req with offset := req.offset + size, data := req.data.drop size } after
  else if w.offset + size ≥ req.limit then
    finishVisit didMerge w { req with data := req.data.take (w.offset - req.offset) } after
  else
    let copyOffset := (w.offset - req.offset) + size
    match insertNewRequest cs (req.data.drop copyOffset) (req.offset + copyOffset) true w with
    | .noMemory w => .noMemory w (req :: after)
    | .wait w => .restart w (req :: after)
    | .inserted piece w =>
      let front := { req with data := req.data.take (w.offset - req.offset) }
      insertBefore cs { w with skipped := w.skipped ++ [front] } piece after

/-- "Handle overlaps between the new write and the current request", and the end
of the loop body. -/
def overlapVisit (cs : ℕ) (didMerge : Bool) (w : WriteState) (req : WriteRequest)
    (after : List WriteRequest) : Visit :=
  if w.buf.length = 0 then
    finishVisit didMerge w req after
  else if w.offset < req.offset then
    insertBefore cs w req after
  else if req.state ≠ requestIp ∧
      (w.offset < req.limit ∨ w.offset = req.limit ∧ req.count < cs) then
    updateVisit cs w req after
  else if req.state = requestIp ∧ w.offset < req.limit then
    overlapIp cs didMerge w req after
  else
    finishVisit didMerge w req after

/-- The loop body of `unified_write`. -/
def visit (cs : ℕ) (w : WriteState) (req : WriteRequest) (after : List WriteRequest) : Visit :=
  if w.offset > req.limit then
    .next { w with skipped := w.skipped ++ [req] } after
  else if w.buf.length > 0 ∧ w.offset < req.offset then
    insertBefore cs w req after
  else
    match mergeStep cs w req after with
    | (none, w, after) => .next w after
    | (some (didMerge, req), w, after) => overlapVisit cs didMerge w req after

/-- The loop. The first argument bounds the number of rounds; the length of the
list is enough, since no round makes the rest of the list longer. -/
def walk (cs : ℕ) : ℕ → WriteState → List WriteRequest → Visit
  | _, w, [] => .next w []
  | 0, w, after => .next w after
  | n + 1, w, req :: after =>
    match visit cs w req after with
    | .next w after => walk cs n w after
    | result => result

/-- How an attempt to write ended. -/
inductive WriteOutcome where
  | done
  | restart
  | noMemory
  /-- The model ran out of fuel. -/
  | diverges
deriving DecidableEq, Repr

/-- Result of an attempt: outcome, request list, and what is left of the write. -/
structure WriteResult where
  outcome : WriteOutcome
  requests : List WriteRequest
  state : WriteState
deriving DecidableEq, Repr

/-- "Append new request(s) to the end of the queue". -/
def appendRequests (cs : ℕ) (requests : List WriteRequest) (w : WriteState) : WriteResult :=
  if w.buf.length > 0 then
    match insertNewRequest cs w.buf w.offset false w with
    | .noMemory w => ⟨.noMemory, requests, w⟩
    | .wait w => ⟨.restart, requests, w⟩
    | .inserted new w =>
      ⟨.done, requests ++ [new], { w with buf := [], offset := w.offset + w.buf.length }⟩
  else
    ⟨.done, requests, w⟩

/-- "Try to append data to an existing request buffer", then append new ones. -/
def appendAtEnd (cs : ℕ) (requests : List WriteRequest) (w : WriteState) : WriteResult :=
  match requests.getLast? with
  | some req =>
    if req.count < cs ∧ w.offset = req.limit ∧ req.state ≠ requestIp then
      let u := updateRequest cs w.buf w.offset req
      appendRequests cs (requests.dropLast.map (promote u.2.2) ++ [u.2.1]) { w with
        buf := w.buf.drop u.1
        offset := w.offset + u.1
        fileSize := max w.fileSize u.2.1.limit
        log := w.log ++ promoteLog u.2.2 requests }
    else
      appendRequests cs requests w
  | none => appendRequests cs requests w

/-- From the label `do_append` on: append, or walk the list and come back if
bytes are left. The first argument bounds how often. -/
def doAppend (cs : ℕ) : ℕ → List WriteRequest → WriteState → WriteResult
  | 0, requests, w => ⟨.diverges, requests, w⟩
  | fuel + 1, requests, w =>
    let lastOffset := (requests.getLast?.map WriteRequest.limit).getD 0
    if w.offset ≥ lastOffset then
      appendAtEnd cs requests w
    else
      match walk cs requests.length { w with passed := [], prev := none, skipped := [] } requests with
      | .out w after => ⟨.done, w.before ++ after, w⟩
      | .restart w after => ⟨.restart, w.before ++ after, w⟩
      | .noMemory w after => ⟨.noMemory, w.before ++ after, w⟩
      | .next w after =>
        if w.buf.length > 0 then
          doAppend cs fuel (w.before ++ after) w
        else
          ⟨.done, w.before ++ after, w⟩

/-- A write that comes back to `do_append` has shortened the list or reached its
end, so this many passes are enough. -/
def appendFuel (requests : List WriteRequest) : ℕ := requests.length + 2

end Ltfs.Sched
