import Ltfs.Sched.WriteError
import Ltfs.Sched.Tally

/-!
# A recorded write error stands alone

`_unified_handle_write_error` drops every request for the data partition whenever it records an
error, and `unified_write` returns a recorded error before it inserts anything. So a file whose
error nobody has been told about yet waits for the index partition at most.

* `DentryPriv.Alone` — what this says of one dentry.
* `alone_of_run` — it holds in every state the scheduler can get into, whatever the tape answers.
-/

namespace Ltfs.Sched

open RequestState

/-- Nothing of the list goes to the data partition. -/
def OnlyIp (l : List WriteRequest) : Prop := ∀ r ∈ l, r.state = requestIp

/-- While an error is recorded, nothing waits for the data partition. -/
def DentryPriv.Alone (dpr : DentryPriv) : Prop := dpr.writeError < 0 → OnlyIp dpr.requests

theorem OnlyIp.append {l l' : List WriteRequest} (h : OnlyIp l) (h' : OnlyIp l') :
    OnlyIp (l ++ l') := by
  intro r hr
  rcases List.mem_append.mp hr with hr | hr
  · exact h r hr
  · exact h' r hr

theorem OnlyIp.of_append {l l' : List WriteRequest} (h : OnlyIp (l ++ l')) :
    OnlyIp l ∧ OnlyIp l' :=
  ⟨fun r hr => h r (List.mem_append_left _ hr), fun r hr => h r (List.mem_append_right _ hr)⟩

theorem onlyIp_singleton {r : WriteRequest} : OnlyIp [r] ↔ r.state = requestIp := by
  simp [OnlyIp]

section Alone

variable {V : Type} {L : Libltfs V} {d : ℕ}

/-- Every recorded error stands alone. -/
def ErrorsAlone (u : Unified V) : Prop := ∀ d dpr, u.priv d = some dpr → dpr.Alone

theorem alone_of_nonneg {dpr : DentryPriv} (h : 0 ≤ dpr.writeError) : dpr.Alone :=
  fun hneg => absurd hneg (not_lt.mpr h)

theorem ErrorsAlone.congr {u u' : Unified V} (h : ErrorsAlone u) (hpriv : u'.priv = u.priv) :
    ErrorsAlone u' := by
  intro e dpr hd
  rw [hpriv] at hd
  exact h e dpr hd

/-- An operation on `d` puts its `dentry_priv` back. -/
theorem ErrorsAlone.setPriv {u c : Unified V} (h : ErrorsAlone u)
    (hpriv : ∀ e, e ≠ d → c.priv e = u.priv e) {p : Option DentryPriv}
    (hp : ∀ dpr, p = some dpr → dpr.Alone) : ErrorsAlone (c.setPriv d p) := by
  intro e dpr hd
  by_cases he : e = d
  · subst he
    rw [setPriv_self] at hd
    exact hp dpr hd
  · rw [setPriv_ne _ _ he, hpriv e he] at hd
    exact h e dpr hd

theorem ErrorsAlone.store {u : Unified V} (h : ErrorsAlone u) {c : Ctx V}
    (hpriv : c.u.priv = u.priv) (hc : c.dpr.Alone) : ErrorsAlone (c.store d) :=
  h.setPriv (fun e _ => congrFun hpriv e) fun _ hd => Option.some.inj hd ▸ hc

/-! ## The handler -/

/-- Whoever records an error drops what waits for the data partition. -/
theorem handleWriteError_alone {ret : ℤ} {failed : WriteRequest} {c : Ctx V} (h : c.dpr.Alone) :
    (handleWriteError L ret failed d c).dpr.Alone := by
  intro hneg
  have hreq := (handleWriteError_spec L ret failed d c).requests
  have hcode : (handleWriteError L ret failed d c).dpr.writeError = _ :=
    handled_writeError (L := L) ⟨d, ret, ret, failed, c, []⟩
  rw [hcode] at hneg
  rw [hreq]
  intro r hr
  rcases List.mem_filter.mp hr with ⟨hmem, hkept⟩
  by_cases hnew : ¬ HandlerCall.Ignored (⟨d, ret, ret, failed, c, []⟩ : HandlerCall V) ∧
      c.dpr.writeError = 0
  · -- the code is recorded now, and the data partition is cleared
    have hclear : (clearFlags L ret failed c.u.vol).1 = true := by
      have hign := hnew.1
      unfold HandlerCall.Ignored OutOfSpace at hign
      unfold clearFlags
      dsimp only at hign ⊢
      split
      · rename_i hip
        have hhard : ret ≠ -ltfsNoSpace ∧ ret ≠ -ltfsLessSpace := by
          constructor
          · exact fun hret => hign ⟨hip, Or.inl hret⟩
          · exact fun hret => hign ⟨hip, Or.inr hret⟩
        simp [hhard]
      · rfl
    by_contra hne
    simp [keepsRequest, hne, hclear] at hkept
  · rw [if_neg hnew] at hneg
    exact h hneg r hmem

/-! ## Merging with the predecessor -/

theorem mergePrev_onlyIp {kept : List WriteRequest} {req : WriteRequest} (c : Ctx V)
    (hkept : OnlyIp kept) (hreq : req.state = requestIp) : OnlyIp (mergePrev d kept req c).1 := by
  unfold mergePrev
  cases hlast : kept.getLast? with
  | none => exact onlyIp_singleton.mpr hreq
  | some dest =>
    rcases List.getLast?_eq_some_iff.mp hlast with ⟨before, heq⟩
    subst heq
    rcases hkept.of_append with ⟨hbefore, hdest⟩
    have hm := mergeRequests_tally c.u.cacheSize dest req
    have hnone : (mergeRequests c.u.cacheSize dest req).promoted = none :=
      mergeRequests_promoted_ip (by simp [WriteRequest.isIp, hreq])
    dsimp only
    generalize mergeRequests c.u.cacheSize dest req = m at hm hnone
    have hd : m.dest.state = requestIp := by
      rw [hm.dest, hnone]
      exact onlyIp_singleton.mp hdest
    rw [List.dropLast_concat]
    by_cases hret : m.ret = 2
    · rw [if_pos hret]
      exact hbefore.append (onlyIp_singleton.mpr hd)
    · rw [if_neg hret]
      have hs : m.src.state = requestIp := by
        rcases hm.kept hret with ⟨-, hs⟩ | ⟨-, hs, -⟩
        · rw [hs, hnone]
          exact hreq
        · rw [hnone] at hs
          have hdp : req.state = requestDp := hs
          rw [hreq] at hdp
          cases hdp
      exact hbefore.append fun r hr => by
        rcases List.mem_cons.mp hr with rfl | hr
        · exact hd
        · exact onlyIp_singleton.mpr hs r hr

/-! ## The loops -/

/-- While a loop works on the list `l`, an error recorded before still stands alone. -/
def AloneOn (l : List WriteRequest) (c : Ctx V) : Prop := c.dpr.writeError < 0 → OnlyIp l

theorem AloneOn.mergePrev {kept rest : List WriteRequest} {req : WriteRequest} {c : Ctx V}
    (h : AloneOn (kept ++ req :: rest) c) (hreq : req.state = requestIp) :
    AloneOn ((mergePrev d kept req c).1 ++ rest) (mergePrev d kept req c).2 := by
  intro hneg
  rw [(mergePrev_sameError d kept req c).writeError] at hneg
  rcases (h hneg).of_append with ⟨hkept, hrest⟩
  exact (mergePrev_onlyIp c hkept hreq).append fun r hr => hrest r (List.mem_cons_of_mem _ hr)

/-- A request for the data partition shows that no error is recorded. -/
theorem AloneOn.nonneg {kept rest : List WriteRequest} {req : WriteRequest} {c : Ctx V}
    (h : AloneOn (kept ++ req :: rest) c) (hreq : req.state ≠ requestIp) : 0 ≤ c.dpr.writeError := by
  by_contra hneg
  exact hreq (h (not_le.mp hneg) req (by simp))

theorem dataLoop_alone (queue : RequestState) (rest : List WriteRequest) :
    ∀ {kept moved : List WriteRequest} {c : Ctx V}, AloneOn (kept ++ rest) c →
      (dataLoop L queue d kept moved rest c).2.dpr.Alone := by
  induction rest with
  | nil =>
    intro kept moved c h
    rw [List.append_nil] at h
    exact h
  | cons req rest ih =>
    intro kept moved c h
    unfold dataLoop
    by_cases hip : req.state = requestIp
    · rw [if_pos hip]
      exact ih (h.mergePrev hip)
    · rw [if_neg hip]
      have hcode := h.nonneg hip
      split
      · split
        · dsimp only
          split
          · exact handleWriteError_alone h
          · have hsame := toIp_sameError d kept req
              { c with u := { c.u with vol := (L.fsrawWrite d req.data req.offset c.u.vol).2 } }
            refine ih fun hneg => absurd hneg ?_
            rw [hsame.writeError]
            exact not_lt.mpr hcode
        · exact ih fun hneg => absurd hneg (not_lt.mpr hcode)
      · exact ih fun hneg => absurd hneg (not_lt.mpr hcode)

theorem indexLoop_alone (rest : List WriteRequest) : ∀ {kept : List WriteRequest} {c : Ctx V},
    AloneOn (kept ++ rest) c → (indexLoop L d kept rest c).dpr.Alone := by
  induction rest with
  | nil =>
    intro kept c h
    rw [List.append_nil] at h
    exact h
  | cons req rest ih =>
    intro kept c h
    unfold indexLoop
    by_cases hip : req.state = requestIp
    · rw [if_pos hip]
      dsimp only
      split
      · exact handleWriteError_alone h
      · split
        · split
          · exact handleWriteError_alone h
          · exact handleWriteError_alone h
        · refine ih fun hneg => ?_
          rw [(updateAltExtentlist_sameError _ d _).writeError] at hneg
          rcases (h hneg).of_append with ⟨hkept, hrest⟩
          exact hkept.append fun r hr => hrest r (List.mem_cons_of_mem _ hr)
    · rw [if_neg hip]
      exact ih fun hneg => absurd hneg (not_lt.mpr (h.nonneg hip))

/-! ## The operations -/

theorem flushUnlocked_alone {u : Unified V} (h : ErrorsAlone u) (d : ℕ) :
    ErrorsAlone (flushUnlocked L d u).2 := by
  unfold flushUnlocked
  cases hd : u.priv d with
  | none => exact h
  | some dpr =>
    dsimp only
    split
    · exact h.setPriv (fun _ _ => rfl) fun _ hp => Option.some.inj hp ▸ alone_of_nonneg (le_refl 0)
    · split
      · exact h.setPriv (fun _ _ => rfl) fun _ hp => Option.some.inj hp ▸ alone_of_nonneg (le_refl 0)
      · -- the code is read again at the end, so none is left
        have hq := (updateQueueMembership_queueOnly false true requestDp d
          (Ctx.mk u (getWriteError dpr).2)).trans
            (updateQueueMembership_queueOnly false true requestPartial d _)
        set c := updateQueueMembership false true requestPartial d
          (updateQueueMembership false true requestDp d ⟨u, (getWriteError dpr).2⟩)
        have hloop := (flushLoop_call (L := L) d c.dpr.requests [] c).priv
        exact h.setPriv (fun e _ => congrFun (hloop.trans hq.priv) e)
          fun _ hp => Option.some.inj hp ▸ alone_of_nonneg (le_refl 0)

theorem flushEach_alone (l : List ℕ) : ∀ {u : Unified V}, ErrorsAlone u →
    ErrorsAlone (flushEach L l u).2 := by
  induction l with
  | nil => exact fun h => h
  | cons d rest ih =>
    intro u h
    unfold flushEach
    dsimp only
    split
    · exact flushUnlocked_alone h d
    · exact ih (flushUnlocked_alone h d)

theorem flushAll_alone {u : Unified V} (h : ErrorsAlone u) : ErrorsAlone (flushAll L u).2 := by
  unfold flushAll
  dsimp only
  split
  · exact flushEach_alone _ h
  · exact flushEach_alone _ (flushEach_alone _ h)

theorem processDataEntry_alone (queue : RequestState) {u : Unified V} (h : ErrorsAlone u) (d : ℕ) :
    ErrorsAlone (processDataEntry L queue d u) := by
  unfold processDataEntry
  cases hd : u.priv d with
  | none => exact h
  | some dpr =>
    dsimp only
    have hq := leaveQueues_queueOnly queue d (Ctx.mk u dpr)
    set c := if queue = requestPartial then updateQueueMembership false true requestDp d
      (updateQueueMembership false true queue d ⟨u, dpr⟩)
      else updateQueueMembership false true queue d ⟨u, dpr⟩
    have hstart : AloneOn ([] ++ c.dpr.requests) c := by
      intro hneg
      rw [List.nil_append, hq.requests]
      exact h d dpr hd (hq.writeError ▸ hneg)
    have hloop := @dataLoop_alone V L d queue c.dpr.requests [] [] c hstart
    have hpriv := (dataLoop_call (L := L) queue d c.dpr.requests [] [] c).priv.trans hq.priv
    generalize dataLoop L queue d [] [] c.dpr.requests c = l at hloop hpriv
    have hsend := (sendLoop_frame L d l.1 l.2.u).2.trans hpriv
    split
    · rename_i u' heq
      rw [heq] at hsend
      exact h.setPriv (fun e _ => congrFun hsend e) fun _ hp => Option.some.inj hp ▸ hloop
    · rename_i ret req rest' u' heq
      rw [heq] at hsend
      have hspec := handleWriteError_spec L ret req d ⟨u', l.2.dpr⟩
      refine h.setPriv (fun e _ => ?_) fun _ hp => Option.some.inj hp ▸
        handleWriteError_alone (c := ⟨u', l.2.dpr⟩) hloop
      rw [freeRequests_priv, hspec.priv]
      exact congrFun hsend e

theorem processDataLoop_alone (queue : RequestState) (n : ℕ) : ∀ {u : Unified V}, ErrorsAlone u →
    ErrorsAlone (processDataLoop L queue n u) := by
  induction n with
  | zero => exact fun h => h
  | succ n ih =>
    intro u h
    unfold processDataLoop
    split
    · exact h
    · exact ih (processDataEntry_alone queue h _)

theorem freeDentryPrivConditional_alone {u : Unified V} (h : ErrorsAlone u) (d n : ℕ) :
    ErrorsAlone (freeDentryPrivConditional L d n u) := by
  unfold freeDentryPrivConditional
  split
  · exact h
  · split
    · have hnone : ErrorsAlone (u.setPriv d none) :=
        h.setPriv (fun _ _ => rfl) fun _ hp => absurd hp (by simp)
      exact hnone.congr rfl
    · exact h

theorem processIndexEntry_alone {u : Unified V} (h : ErrorsAlone u) (d : ℕ) :
    ErrorsAlone (processIndexEntry L d u) := by
  unfold processIndexEntry
  cases hd : u.priv d with
  | none => exact h
  | some dpr =>
    dsimp only
    have hq := updateQueueMembership_queueOnly false true requestIp d (Ctx.mk u dpr)
    set c := updateQueueMembership false true requestIp d ⟨u, dpr⟩
    have hstart : AloneOn ([] ++ c.dpr.requests) c := by
      intro hneg
      rw [List.nil_append, hq.requests]
      exact h d dpr hd (hq.writeError ▸ hneg)
    have hpriv := (indexLoop_call (L := L) d c.dpr.requests [] c).priv.trans hq.priv
    exact freeDentryPrivConditional_alone (h.store hpriv (indexLoop_alone _ hstart)) d 2

theorem processQueue_alone (queue : RequestState) {u : Unified V} (h : ErrorsAlone u) :
    ErrorsAlone (processQueue L queue u) := by
  unfold processQueue
  split
  · unfold processIndexQueue
    generalize u.ipQueue = l
    induction l generalizing u with
    | nil => exact h
    | cons d l ih => exact ih (processIndexEntry_alone h d)
  · exact processDataLoop_alone queue _ h

/-- Truncation changes no state of a request. -/
theorem truncateLoop_onlyIp (length d : ℕ) (l : List WriteRequest) : ∀ c : Ctx V, OnlyIp l →
    OnlyIp (truncateLoop length d l c).1 := by
  induction l with
  | nil => exact fun _ h => h
  | cons req before ih =>
    intro c h
    have hreq := h req (by simp)
    have hbefore : OnlyIp before := fun r hr => h r (List.mem_cons_of_mem _ hr)
    unfold truncateLoop
    split
    · exact ih _ hbefore
    · split
      · intro r hr
        rcases List.mem_cons.mp hr with rfl | hr
        · exact hreq
        · exact ih c hbefore r hr
      · exact h

theorem truncateCached_alone (length d : ℕ) {c : Ctx V} (h : c.dpr.Alone) :
    (truncateCached length d c).dpr.Alone := by
  intro hneg
  rw [(truncateCached_sameError length d c).writeError] at hneg
  have hip := h hneg
  unfold truncateCached
  split
  · intro r hr
    refine truncateLoop_onlyIp length d c.dpr.requests.reverse c ?_ r (List.mem_reverse.mp hr)
    exact fun s hs => hip s (List.mem_reverse.mp hs)
  · exact hip

theorem unsetWriteIp_alone (d : ℕ) {c : Ctx V} (h : c.dpr.Alone) : (unsetWriteIp d c).dpr.Alone := by
  intro hneg
  rw [(unsetWriteIp_sameError d c).writeError] at hneg
  have hip := h hneg
  have hdrop : ∀ c' : Ctx V, OnlyIp c'.dpr.requests → OnlyIp (dropAltExtentlist d c').dpr.requests := by
    intro c' h'
    unfold dropAltExtentlist
    split
    · exact h'
    · exact h'
  unfold unsetWriteIp
  refine hdrop _ ?_
  dsimp only
  split
  · rw [(updateQueueMembership_queueOnly false true requestIp d _).requests]
    exact fun r hr => hip r (List.mem_filter.mp hr).1
  · exact hip

theorem recomputeWriteIp_alone (small : Bool) (d : ℕ) {c : Ctx V} (h : c.dpr.Alone) :
    (recomputeWriteIp L small d c).dpr.Alone := by
  unfold recomputeWriteIp
  dsimp only
  split
  · exact h
  · split
    · exact unsetWriteIp_alone d h
    · exact h

theorem unifiedTruncate_alone {u : Unified V} (h : ErrorsAlone u) (d length : ℕ) :
    ErrorsAlone (unifiedTruncate L d length u).2 := by
  unfold unifiedTruncate
  dsimp only
  split
  · exact h
  · cases hd : u.priv d with
    | none => exact h.congr rfl
    | some dpr =>
      have hsame := (truncateCached_sameError length d (Ctx.mk u dpr)).trans
        (recomputeWriteIp_sameError (L := L) (decide (length = 0)) d _)
      have hcut := truncateCached_alone length d (c := ⟨u, dpr⟩) (h d dpr hd)
      exact (h.store hsame.priv (recomputeWriteIp_alone _ d hcut)).congr rfl

theorem updateDataPlacement_alone {u : Unified V} (h : ErrorsAlone u) (d : ℕ) :
    ErrorsAlone (updateDataPlacement L d u) := by
  unfold updateDataPlacement
  cases hd : u.priv d with
  | none => exact h
  | some dpr =>
    exact h.store (recomputeWriteIp_sameError _ d (Ctx.mk u dpr)).priv
      (recomputeWriteIp_alone _ d (h d dpr hd))

theorem unifiedClose_alone {u : Unified V} (h : ErrorsAlone u) (d : ℕ) (flushes : Bool) :
    ErrorsAlone (unifiedClose L d flushes u).2 := by
  unfold unifiedClose
  dsimp only
  have hf : ErrorsAlone (if flushes then flushUnlocked L d u else (0, u)).2 := by
    split
    · exact flushUnlocked_alone h d
    · exact h
  generalize (if flushes then flushUnlocked L d u else (0, u)) = f at hf
  have hreset : ErrorsAlone
      (f.2.setPriv d ((f.2.priv d).map fun dpr => { dpr with writeError := 0 })) := by
    refine hf.setPriv (fun _ _ => rfl) fun dpr hp => ?_
    rcases Option.map_eq_some_iff.mp hp with ⟨dpr', -, heq⟩
    rw [← heq]
    exact alone_of_nonneg (le_refl 0)
  exact (freeDentryPrivConditional_alone hreset d 3).congr rfl

/-- An attempt to write leaves no error recorded. -/
theorem writeAttempt_alone {u : Unified V} (h : ErrorsAlone u) (d size : ℕ) (call : WriteCall) :
    ErrorsAlone (writeAttempt L d size call u).2 := by
  have hget : ErrorsAlone (getDentryPriv L d u).2 := by
    unfold getDentryPriv
    cases hd : u.priv d with
    | some dpr => exact h
    | none =>
      dsimp only
      split
      · exact h.congr rfl
      · have hnew : ∀ p : DentryPriv, p.writeError = 0 →
            ErrorsAlone (u.allocates.2.setPriv d (some p)) := fun p hp =>
          h.setPriv (fun _ _ => rfl) fun _ heq => Option.some.inj heq ▸ alone_of_nonneg hp.ge
        exact (hnew _ rfl).congr rfl
  unfold writeAttempt
  rcases heq : getDentryPriv L d u with ⟨_ | dpr, u'⟩
  · rw [heq] at hget
    exact hget.congr (freeSpare_priv call.spare u')
  · rw [heq] at hget
    dsimp only at hget ⊢
    have hreset : ErrorsAlone (u'.setPriv d (some (getWriteError dpr).2)) :=
      hget.setPriv (fun _ _ => rfl) fun _ hp => Option.some.inj hp ▸ alone_of_nonneg (le_refl 0)
    split
    · exact hreset
    · split
      · exact hreset
      · have hplace := placeWrite_sameError (L := L) d call ⟨u', (getWriteError dpr).2⟩
        set c := placeWrite L d call ⟨u', (getWriteError dpr).2⟩
        set r := doAppend c.u.cacheSize (appendFuel c.dpr.requests) c.dpr.requests
          { passed := [], prev := none, skipped := [], buf := call.buf, offset := call.offset
            spare := call.spare, fileSize := c.dpr.fileSize, pool := c.u.pool, mem := c.u.mem
            log := [] }
        have hfin := hplace.trans (finishWrite_sameError d r c)
        have hstore : ErrorsAlone ((finishWrite d r c).store d) :=
          hget.store hfin.priv (alone_of_nonneg hfin.writeError.ge)
        split
        · exact hstore.congr (freeSpare_priv _ _)
        · exact hstore.congr (freeSpare_priv _ _)
        · exact hstore
        · exact hstore

theorem unifiedWrite_alone {u : Unified V} (h : ErrorsAlone u) (d : ℕ) (buf : List UInt8)
    (offset : ℕ) : ErrorsAlone (unifiedWrite L d buf offset u).2 := by
  unfold unifiedWrite
  dsimp only
  split
  · exact h
  · split
    · exact h.congr rfl
    · have hlock : ErrorsAlone { u with vol := (L.getVolumeLock u.vol).2 } := h.congr rfl
      exact writeAttempt_alone hlock d _ _

/-! ## Runs -/

theorem Op.exec_alone {u : Unified V} (h : ErrorsAlone u) (op : Op V) :
    ErrorsAlone (op.exec L u) := by
  cases op with
  | write d buf offset => exact unifiedWrite_alone h d buf offset
  | resume d size call => exact writeAttempt_alone h d size call
  | truncate d length => exact unifiedTruncate_alone h d length
  | flush d => exact flushUnlocked_alone h d
  | flushAll => exact flushAll_alone h
  | processQueue queue => exact processQueue_alone queue h
  | updateDataPlacement d => exact updateDataPlacement_alone h d
  | close d flushes => exact unifiedClose_alone h d flushes
  | outside vol mem pool => exact h.congr rfl

/-- Whatever the tape answers, a recorded error stands alone. -/
theorem alone_of_run (ops : List (Op V)) : ∀ {u : Unified V}, ErrorsAlone u →
    ErrorsAlone (run L ops u) := by
  induction ops with
  | nil => exact fun h => h
  | cons op ops ih => exact fun h => ih (Op.exec_alone h op)

theorem init_alone (cacheSize maxCapacity : ℕ) (vol : V) :
    ErrorsAlone (Unified.init cacheSize maxCapacity vol) := by
  intro d dpr hd
  cases hd

end Alone

end Ltfs.Sched
