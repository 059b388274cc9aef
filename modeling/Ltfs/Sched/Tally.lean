import Ltfs.Sched.WriteSpec

/-!
# The membership log of a list edit

The list edits of a write report their membership updates as a log. Replayed over the
numbers of requests in each state before the edit, the log gives these numbers after it.

* `tally` — how many requests of a list are in each state.
* `logged` — the numbers after the updates of a log.
* `doAppend_tally` — the log of a write accounts for all it did to the list.
-/

namespace Ltfs.Sched

open RequestState

/-! ## Counting requests -/

/-- How many requests of the list are in each state. -/
def tally (l : List WriteRequest) (s : RequestState) : ℕ := l.countP fun r => decide (r.state = s)

@[simp] theorem tally_nil (s : RequestState) : tally [] s = 0 := rfl

@[simp] theorem tally_cons (r : WriteRequest) (l : List WriteRequest) (s : RequestState) :
    tally (r :: l) s = tally l s + if r.state = s then 1 else 0 := by
  simp [tally, List.countP_cons]

@[simp] theorem tally_append (l l' : List WriteRequest) (s : RequestState) :
    tally (l ++ l') s = tally l s + tally l' s :=
  List.countP_append

theorem tally_reverse (l : List WriteRequest) : tally l.reverse = tally l := by
  funext s
  exact List.countP_reverse

/-- A filter that looks at the state keeps the requests of a state or drops them all. -/
theorem tally_filter (p : WriteRequest → Bool) (l : List WriteRequest) (s : RequestState) (b : Bool)
    (h : ∀ r ∈ l, r.state = s → p r = b) :
    tally (l.filter p) s = if b then tally l s else 0 := by
  induction l with
  | nil => simp
  | cons r l ih =>
    have ih := ih fun r' hr' => h r' (by simp [hr'])
    by_cases hs : r.state = s
    · have hp := h r (by simp) hs
      cases b <;> simp [hp, hs, ih]
    · by_cases hp : p r
      · simp [hp, hs, ih]
      · simp [hp, hs, ih]

/-! ## Replaying a log -/

/-- What one membership update does to the numbers. -/
def QueueUpdate.apply (q : QueueUpdate) (t : RequestState → ℕ) (s : RequestState) : ℕ :=
  if s = q.queue then (if q.add then t s + 1 else t s - 1) else t s

/-- The numbers after the updates of a log. -/
def logged (log : List QueueUpdate) (t : RequestState → ℕ) : RequestState → ℕ :=
  log.foldl (fun t q => q.apply t) t

@[simp] theorem logged_nil (t : RequestState → ℕ) : logged [] t = t := rfl

@[simp] theorem logged_cons (q : QueueUpdate) (log : List QueueUpdate) (t : RequestState → ℕ) :
    logged (q :: log) t = logged log (q.apply t) := rfl

@[simp] theorem logged_append (log log' : List QueueUpdate) (t : RequestState → ℕ) :
    logged (log ++ log') t = logged log' (logged log t) :=
  List.foldl_append

/-- A promotion moves each promoted request from one number to the other, whatever else is
counted. -/
theorem logged_promoteLog (p : Option ℕ) (l : List WriteRequest) : ∀ t : RequestState → ℕ,
    logged (promoteLog p l) (fun s => t s + tally l s)
      = fun s => t s + tally (l.map (promote p)) s := by
  induction l with
  | nil => exact fun _ => rfl
  | cons r l ih =>
    intro t
    -- the rest of the list is counted beside the head, whose new state joins `t`
    have hrest := ih fun s => t s + if (promote p r).state = s then 1 else 0
    have hlog : promoteLog p (r :: l)
        = (if (promote p r).state = r.state then []
          else [⟨false, requestPartial⟩, ⟨true, requestDp⟩]) ++ promoteLog p l := by
      simp [promoteLog]
    have hhead : logged (if (promote p r).state = r.state then []
          else [⟨false, requestPartial⟩, ⟨true, requestDp⟩])
          (fun s => t s + tally (r :: l) s)
        = fun s => t s + (if (promote p r).state = s then 1 else 0) + tally l s := by
      funext s
      by_cases hsame : (promote p r).state = r.state
      · simp only [hsame, if_true, logged_nil, tally_cons]
        omega
      · have hstates : r.state = requestPartial ∧ (promote p r).state = requestDp := by
          cases p with
          | none => exact absurd rfl hsame
          | some offset =>
            unfold promote at hsame ⊢
            dsimp only at hsame ⊢
            split at hsame
            · rename_i hc
              rw [if_pos hc]
              exact ⟨hc.1, rfl⟩
            · exact absurd rfl hsame
        simp only [hstates.1, hstates.2, reduceCtorEq, if_false, logged_cons, logged_nil,
          QueueUpdate.apply, tally_cons]
        cases s <;> simp
        omega
    rw [hlog, logged_append, hhead, hrest]
    funext s
    simp only [List.map_cons, tally_cons]
    omega

theorem promoteLog_tally (p : Option ℕ) (l : List WriteRequest) :
    logged (promoteLog p l) (tally l) = tally (l.map (promote p)) := by
  have h := logged_promoteLog p l fun _ => 0
  simpa using h

/-! ## The edits of single requests -/

theorem promote_state_congr {r r' : WriteRequest} (hs : r'.state = r.state)
    (ho : r'.offset = r.offset) (p : Option ℕ) : (promote p r').state = (promote p r).state := by
  cases p with
  | none => exact hs
  | some offset =>
    simp only [promote, hs, ho]
    split <;> simp [hs]

/-- The state of an updated request is the promoted one. -/
theorem updateRequest_state (cs : ℕ) (buf : List UInt8) (offset : ℕ) (req : WriteRequest) :
    (updateRequest cs buf offset req).2.1.state
      = (promote (updateRequest cs buf offset req).2.2 req).state := by
  unfold updateRequest
  by_cases hbuf : buf.length = 0
  · rw [if_pos hbuf]
    rfl
  · rw [if_neg hbuf]
    dsimp only
    apply promote_state_congr
    · rfl
    · rfl

/-- What `_unified_merge_requests` reports about the states of its two requests. -/
structure MergeTally (dest src : WriteRequest) (m : MergeResult) : Prop where
  dest : m.dest.state = (promote m.promoted dest).state
  freed : m.ret = 2 → m.srcLog = [⟨false, (promote m.promoted src).state⟩]
  kept : m.ret ≠ 2 → (m.srcLog = [] ∧ m.src.state = (promote m.promoted src).state) ∨
    (m.srcLog = [⟨false, requestDp⟩, ⟨true, requestPartial⟩] ∧
      (promote m.promoted src).state = requestDp ∧ m.src.state = requestPartial)

theorem trimSource_tally (n : ℕ) {d dest src : WriteRequest} (updated : Bool) (p : Option ℕ)
    (hd : d.state = (promote p dest).state) :
    MergeTally dest src (trimSource n d (promote p src) updated p) := by
  unfold trimSource
  split
  · split
    · dsimp only
      split
      · rename_i hdp
        exact ⟨hd, by simp, fun _ => .inr ⟨rfl, hdp, rfl⟩⟩
      · exact ⟨hd, by simp, fun _ => .inl ⟨rfl, rfl⟩⟩
    · exact ⟨hd, fun _ => rfl, by simp⟩
  · exact ⟨hd, by simp, fun _ => .inl ⟨rfl, rfl⟩⟩

theorem mergeRequests_tally (cs : ℕ) (dest src : WriteRequest) :
    MergeTally dest src (mergeRequests cs dest src) := by
  unfold mergeRequests
  dsimp only
  split
  · exact ⟨rfl, by simp, fun _ => .inl ⟨rfl, rfl⟩⟩
  · split
    · exact trimSource_tally _ true _ (updateRequest_state _ _ _ _)
    · exact trimSource_tally _ false none rfl

/-- The updates for the merged request, with `t` counting everything else. -/
theorem MergeTally.srcLog {dest src : WriteRequest} {m : MergeResult} (h : MergeTally dest src m)
    (t : RequestState → ℕ) :
    logged m.srcLog (fun s => t s + if (promote m.promoted src).state = s then 1 else 0)
      = fun s => t s + if m.ret ≠ 2 ∧ m.src.state = s then 1 else 0 := by
  funext s
  by_cases hret : m.ret = 2
  · rw [h.freed hret]
    simp only [logged_cons, logged_nil, QueueUpdate.apply, hret, ne_eq, not_true_eq_false,
      false_and, if_false]
    by_cases hs : s = (promote m.promoted src).state
    · simp [hs]
    · simp [hs, Ne.symm hs]
  · rcases h.kept hret with ⟨hlog, hsrc⟩ | ⟨hlog, hp, hsrc⟩
    · simp [hlog, hsrc, hret]
    · rw [hlog, hp]
      simp only [logged_cons, logged_nil, QueueUpdate.apply, hsrc, ne_eq, hret, not_false_eq_true,
        true_and]
      cases s <;> simp

/-! ## The walk -/

/-- The log of the write accounts for the list it has made of one with the numbers `t`. -/
def Logs (t : RequestState → ℕ) (w : WriteState) (after : List WriteRequest) : Prop :=
  logged w.log t = tally (w.before ++ after)

/-- The same for whatever a visit has decided. -/
def VisitLogs (t : RequestState → ℕ) : Visit → Prop
  | .next w after => Logs t w after
  | .out w after => Logs t w after
  | .restart w after => Logs t w after
  | .noMemory w after => Logs t w after

section Walk

variable {cs : ℕ} {t : RequestState → ℕ}

/-- Results of `_unified_insert_new_request`: a new request is reported, and no list changes. -/
structure InsertLogs (w w' : WriteState) (log : List QueueUpdate) : Prop where
  before : w'.before = w.before
  log : w'.log = w.log ++ log

theorem insertNewRequest_log (cs : ℕ) (buf : List UInt8) (offset : ℕ) (ip : Bool) (w : WriteState) :
    match insertNewRequest cs buf offset ip w with
    | .inserted req w' => InsertLogs w w' [⟨true, req.state⟩]
    | .wait w' => InsertLogs w w' []
    | .noMemory w' => InsertLogs w w' [] := by
  have hstore : ∀ (cache : ℕ) (w' : WriteState), w'.before = w.before → w'.log = w.log →
      match storeRequest cs buf offset ip cache w' with
      | .inserted req w'' => InsertLogs w w'' [⟨true, req.state⟩]
      | .wait w'' => InsertLogs w w'' []
      | .noMemory w'' => InsertLogs w w'' [] := by
    intro cache w' hb hl
    unfold storeRequest
    dsimp only
    by_cases hmem : w'.mem.headD true
    · simp only [hmem, if_true]
      exact ⟨hb, by rw [← hl]⟩
    · simp only [hmem]
      exact ⟨hb, by simpa using hl⟩
  unfold insertNewRequest
  cases hspare : w.spare with
  | some cache => exact hstore cache w rfl rfl
  | none =>
    cases halloc : w.pool.allocateObject with
    | none => exact ⟨rfl, by simp⟩
    | some a => exact hstore a.1 _ rfl rfl

/-- A request made for the index partition is in the state for it. -/
theorem insertNewRequest_state (cs : ℕ) (buf : List UInt8) (offset : ℕ) (w : WriteState) :
    match insertNewRequest cs buf offset true w with
    | .inserted req _ => req.state = requestIp
    | .wait _ => True
    | .noMemory _ => True := by
  have hstore : ∀ (cache : ℕ) (w' : WriteState),
      match storeRequest cs buf offset true cache w' with
      | .inserted req _ => req.state = requestIp
      | .wait _ => True
      | .noMemory _ => True := by
    intro cache w'
    unfold storeRequest
    dsimp only
    by_cases hmem : w'.mem.headD true
    · simp only [hmem, if_true]
    · simp only [hmem]
      trivial
  unfold insertNewRequest
  cases w.spare with
  | some cache => exact hstore cache w
  | none =>
    cases w.pool.allocateObject with
    | none => trivial
    | some a => exact hstore a.1 _

theorem finishVisit_logs {didMerge : Bool} {w : WriteState} {req : WriteRequest}
    {after : List WriteRequest} (h : Logs t w (req :: after)) :
    VisitLogs t (finishVisit didMerge w req after) := by
  have hadv : Logs t (w.advance req) after := by
    unfold Logs at h ⊢
    rw [before_advance, List.append_assoc]
    exact h
  unfold finishVisit
  split
  · exact hadv
  · exact hadv

/-- And for the result of the merge step. -/
def StepLogs (t : RequestState → ℕ) :
    Option (Bool × WriteRequest) × WriteState × List WriteRequest → Prop
  | (none, w, after) => Logs t w after
  | (some (_, req), w, after) => Logs t w (req :: after)

theorem release_frame (w : WriteState) (req : WriteRequest) :
    (w.release req).log = w.log ∧ (w.release req).before = w.before := by
  unfold WriteState.release
  split
  · exact ⟨rfl, rfl⟩
  · exact ⟨rfl, rfl⟩

theorem mergeStep_logs (cs : ℕ) {w : WriteState} {req : WriteRequest} {after : List WriteRequest}
    (h : Logs t w (req :: after)) : StepLogs t (mergeStep cs w req after) := by
  unfold mergeStep
  cases hprev : w.prev with
  | none => exact h
  | some dest =>
    have hm := mergeRequests_tally cs dest req
    dsimp only
    generalize mergeRequests cs dest req = m at hm
    -- the log counts the promoted list first, then what becomes of the current request
    have hlog : logged (w.log ++ promoteLog m.promoted (w.before ++ req :: after) ++ m.srcLog) t
        = fun s => (tally (w.passed.map (promote m.promoted)) s
            + tally (w.skipped.map (promote m.promoted)) s
            + tally (after.map (promote m.promoted)) s
            + (if m.dest.state = s then 1 else 0))
            + if m.ret ≠ 2 ∧ m.src.state = s then 1 else 0 := by
      have hsplit : tally ((w.before ++ req :: after).map (promote m.promoted))
          = fun s => (tally (w.passed.map (promote m.promoted)) s
            + tally (w.skipped.map (promote m.promoted)) s
            + tally (after.map (promote m.promoted)) s
            + (if m.dest.state = s then 1 else 0))
            + if (promote m.promoted req).state = s then 1 else 0 := by
        funext s
        simp only [WriteState.before, hprev, Option.toList_some, List.map_append, List.map_cons,
          List.map_nil, tally_append, tally_cons, tally_nil, hm.dest]
        omega
      rw [logged_append, logged_append, h, promoteLog_tally, hsplit]
      exact hm.srcLog _
    by_cases hret : m.ret = 2
    · rw [if_pos hret]
      rcases release_frame (w.merged m req after) req with ⟨hl, hb⟩
      show logged ((w.merged m req after).release req).log t = tally (((w.merged m req after).release
        req).before ++ after.map (promote m.promoted))
      rw [hl, hb]
      refine hlog.trans ?_
      funext s
      simp only [WriteState.before, WriteState.merged, Option.toList_some, tally_append, tally_cons,
        tally_nil, hret, ne_eq, not_true_eq_false, false_and, if_false]
      omega
    · rw [if_neg hret]
      refine hlog.trans ?_
      funext s
      simp only [WriteState.before, WriteState.merged, Option.toList_some, tally_append, tally_cons,
        tally_nil, hret, ne_eq, not_false_eq_true, true_and]
      omega

theorem InsertLogs.same {w w' : WriteState} (h : InsertLogs w w' []) {after : List WriteRequest}
    (hw : Logs t w after) : Logs t w' after := by
  unfold Logs
  rw [h.log, h.before, List.append_nil]
  exact hw

theorem insertBefore_logs {w : WriteState} {req : WriteRequest} {after : List WriteRequest}
    (h : Logs t w (req :: after)) : VisitLogs t (insertBefore cs w req after) := by
  have hnew := insertNewRequest_log cs w.buf w.offset false w
  unfold insertBefore
  cases hins : insertNewRequest cs w.buf w.offset false w with
  | noMemory w' =>
    rw [hins] at hnew
    exact hnew.same h
  | wait w' =>
    rw [hins] at hnew
    exact hnew.same h
  | inserted new w' =>
    rw [hins] at hnew
    dsimp only at hnew ⊢
    set w₂ : WriteState := { w'.advance new with buf := [], offset := w'.offset + w'.buf.length }
      with hw₂
    have h₂ : Logs t w₂ (req :: after) := by
      have hb : w₂.before = w'.before ++ [new] := before_advance w' new
      have hl : w₂.log = w'.log := rfl
      unfold Logs at h ⊢
      rw [hb, hl, hnew.log, hnew.before, logged_append, h]
      funext s
      simp only [logged_cons, logged_nil, QueueUpdate.apply, tally_append, tally_cons, tally_nil]
      by_cases hs : s = new.state
      · simp only [hs, if_true]
        omega
      · simp only [hs, Ne.symm hs, if_false]
        omega
    have hmerge := mergeStep_logs cs h₂
    revert hmerge
    rcases mergeStep cs w₂ req after with ⟨_ | m, w₃, after₃⟩
    · exact fun h => h
    · exact fun h => finishVisit_logs h

theorem updateVisit_logs {w : WriteState} {req : WriteRequest} {after : List WriteRequest}
    (h : Logs t w (req :: after)) : VisitLogs t (updateVisit cs w req after) := by
  have hstate := updateRequest_state cs w.buf w.offset req
  unfold updateVisit
  set u := updateRequest cs w.buf w.offset req
  apply finishVisit_logs
  unfold Logs at h ⊢
  simp only [WriteState.updated, WriteState.promoteBefore]
  rw [logged_append, h, promoteLog_tally]
  funext s
  have hprev : tally (w.prev.map (promote u.2.2)).toList s
      = tally (w.prev.toList.map (promote u.2.2)) s := by
    cases w.prev <;> rfl
  simp only [WriteState.before, List.map_append, List.map_cons, tally_append, tally_cons, hprev,
    hstate]

theorem overlapIp_logs {didMerge : Bool} {w : WriteState} {req : WriteRequest}
    {after : List WriteRequest} (hip : req.state = requestIp) (h : Logs t w (req :: after)) :
    VisitLogs t (overlapIp cs didMerge w req after) := by
  -- a request that is only cut keeps its state
  have hcut : ∀ r : WriteRequest, r.state = req.state → Logs t w (r :: after) := by
    intro r hr
    unfold Logs at h ⊢
    rw [h]
    funext s
    simp only [tally_append, tally_cons, hr]
  unfold overlapIp
  dsimp only
  split
  · rcases release_frame w req with ⟨hl, hb⟩
    show logged (w.log ++ [⟨false, requestIp⟩]) t = tally ((w.release req).before ++ after)
    unfold Logs at h
    rw [hb, logged_append, h]
    funext s
    simp only [logged_cons, logged_nil, QueueUpdate.apply, tally_append, tally_cons, hip]
    cases s <;> simp
  · split
    · exact insertBefore_logs (hcut _ rfl)
    · split
      · exact finishVisit_logs (hcut _ rfl)
      · -- the request is split: its front is skipped, its end is a new request
        set buf := req.data.drop (w.offset - req.offset + w.buf.length)
        set offset := req.offset + (w.offset - req.offset + w.buf.length)
        have hnew := insertNewRequest_log cs buf offset true w
        have hstate := insertNewRequest_state cs buf offset w
        revert hnew hstate
        rcases insertNewRequest cs buf offset true w with ⟨piece, w'⟩ | w' | w'
        · intro hnew hstate
          apply insertBefore_logs
          have hb : ({ w' with skipped := w'.skipped ++ [{ req with
              data := req.data.take (w'.offset - req.offset) }] } : WriteState).before
              = w'.before ++ [{ req with data := req.data.take (w'.offset - req.offset) }] := by
            simp [WriteState.before]
          unfold Logs at h ⊢
          rw [hb, hnew.before, hnew.log, logged_append, h]
          funext s
          simp only [logged_cons, logged_nil, QueueUpdate.apply, tally_append, tally_cons, tally_nil,
            hip, hstate]
          cases s <;> simp
          omega
        · exact fun hnew _ => hnew.same h
        · exact fun hnew _ => hnew.same h

theorem overlapVisit_logs {didMerge : Bool} {w : WriteState} {req : WriteRequest}
    {after : List WriteRequest} (h : Logs t w (req :: after)) :
    VisitLogs t (overlapVisit cs didMerge w req after) := by
  unfold overlapVisit
  split
  · exact finishVisit_logs h
  · split
    · exact insertBefore_logs h
    · split
      · exact updateVisit_logs h
      · split
        · rename_i hip
          exact overlapIp_logs hip.1 h
        · exact finishVisit_logs h

theorem visit_logs (cs : ℕ) {w : WriteState} {req : WriteRequest} {after : List WriteRequest}
    (h : Logs t w (req :: after)) : VisitLogs t (visit cs w req after) := by
  unfold visit
  split
  · show logged w.log t = tally (({ w with skipped := w.skipped ++ [req] } : WriteState).before ++ after)
    have hb : ({ w with skipped := w.skipped ++ [req] } : WriteState).before = w.before ++ [req] := by
      simp [WriteState.before]
    rw [hb, List.append_assoc]
    exact h
  · split
    · exact insertBefore_logs h
    · have hmerge := mergeStep_logs cs h
      revert hmerge
      rcases mergeStep cs w req after with ⟨_ | m, w', after'⟩
      · exact fun h => h
      · exact fun h => overlapVisit_logs h

/-- One step keeps the account, so the whole walk does. -/
theorem walk_logs (cs n : ℕ) : ∀ {w : WriteState} {after : List WriteRequest}, Logs t w after →
    VisitLogs t (walk cs n w after) := by
  induction n with
  | zero =>
    intro w after h
    cases after with
    | nil => exact h
    | cons req after => exact h
  | succ n ih =>
    intro w after h
    cases after with
    | nil => exact h
    | cons req after =>
      rw [walk_cons]
      have hvisit := visit_logs cs h
      revert hvisit
      cases visit cs w req after with
      | next w' after' => exact fun h => ih h
      | out w' after' => exact fun h => h
      | restart w' after' => exact fun h => h
      | noMemory w' after' => exact fun h => h

/-! ## The write -/

theorem appendRequests_tally {requests : List WriteRequest} {w : WriteState}
    (h : logged w.log t = tally requests) :
    logged (appendRequests cs requests w).state.log t
      = tally (appendRequests cs requests w).requests := by
  unfold appendRequests
  split
  · have hnew := insertNewRequest_log cs w.buf w.offset false w
    revert hnew
    rcases insertNewRequest cs w.buf w.offset false w with ⟨new, w'⟩ | w' | w'
    · intro hnew
      show logged w'.log t = tally (requests ++ [new])
      rw [hnew.log, logged_append, h]
      funext s
      simp only [logged_cons, logged_nil, QueueUpdate.apply, tally_append, tally_cons, tally_nil]
      by_cases hs : s = new.state
      · simp [hs]
      · simp [hs, Ne.symm hs]
    · intro hnew
      show logged w'.log t = tally requests
      rw [hnew.log, List.append_nil, h]
    · intro hnew
      show logged w'.log t = tally requests
      rw [hnew.log, List.append_nil, h]
  · exact h

theorem appendAtEnd_tally {requests : List WriteRequest} {w : WriteState}
    (h : logged w.log t = tally requests) :
    logged (appendAtEnd cs requests w).state.log t = tally (appendAtEnd cs requests w).requests := by
  unfold appendAtEnd
  cases hlast : requests.getLast? with
  | none => exact appendRequests_tally h
  | some req =>
    dsimp only
    split
    · -- the last request is updated, the ones before it may be promoted
      rcases List.getLast?_eq_some_iff.mp hlast with ⟨before, rfl⟩
      have hstate := updateRequest_state cs w.buf w.offset req
      set u := updateRequest cs w.buf w.offset req
      apply appendRequests_tally
      show logged (w.log ++ promoteLog u.2.2 (before ++ [req])) t = _
      rw [logged_append, h, promoteLog_tally, List.dropLast_concat]
      funext s
      simp only [List.map_append, List.map_cons, List.map_nil, tally_append, tally_cons, tally_nil,
        hstate]
    · exact appendRequests_tally h

/-- The log of a write accounts for all it did to the list. -/
theorem doAppend_tally (fuel : ℕ) : ∀ {requests : List WriteRequest} {w : WriteState},
    logged w.log t = tally requests →
    logged (doAppend cs fuel requests w).state.log t = tally (doAppend cs fuel requests w).requests := by
  induction fuel with
  | zero => exact fun h => h
  | succ fuel ih =>
    intro requests w h
    unfold doAppend
    dsimp only
    split
    · exact appendAtEnd_tally h
    · have hwalk := walk_logs cs requests.length
        (show Logs t { w with passed := [], prev := none, skipped := [] } requests from h)
      revert hwalk
      cases walk cs requests.length { w with passed := [], prev := none, skipped := [] } requests with
      | out w' after => exact fun h => h
      | restart w' after => exact fun h => h
      | noMemory w' after => exact fun h => h
      | next w' after =>
        intro hwalk
        dsimp only
        split
        · exact ih hwalk
        · exact hwalk

end Walk

end Ltfs.Sched
