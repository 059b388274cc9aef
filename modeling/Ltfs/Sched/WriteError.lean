import Ltfs.Sched.Lists

/-!
# Write errors reach the application

A failed tape write is handed to `_unified_handle_write_error`, which drops
requests and leaves a code in the `dentry_priv` for the next operation on the
file to return. `write_failures_reported` says when no failure is silent.

* `HandlerCall` and `flushCall`, `dataCall`, `sendCall`, `indexCall` — the call
  of the handler that a drain loop makes, if it makes one; the `_spec` lemmas
  connect them to the loops.
* `Act`, `runActs` — runs in steps that work on one dentry; `Op.exec_eq_runActs`
  takes every operation of the scheduler apart into such steps.
* `writeCode` — the code a dentry has recorded, and `Reported` — it is returned
  by one later operation.
* `permanent_error_unrecorded` — after a permanent error on the index partition
  the handler is given the result of the lock status update instead.
-/

namespace Ltfs.Sched

open RequestState

/-! ## Calls of the handler -/

/-- A call of `_unified_handle_write_error`: `code` is what the handler is given,
`tapeRet` what the tape answered, `moved` the private list that is dropped with
the request. -/
structure HandlerCall (V : Type) where
  d : ℕ
  tapeRet : ℤ
  code : ℤ
  req : WriteRequest
  ctx : Ctx V
  moved : List WriteRequest

section Calls

variable {V : Type} (L : Libltfs V)

/-- The requests that are gone after the call. -/
def HandlerCall.discarded (h : HandlerCall V) : List WriteRequest :=
  (h.ctx.dpr.requests.filter fun r => ! keepsRequest (clearFlags L h.code h.req h.ctx.u.vol) r) ++
    h.moved

/-- The state the handler leaves. -/
def HandlerCall.handled (h : HandlerCall V) : Ctx V :=
  handleWriteError L h.code h.req h.d h.ctx

/-- After the call an error is recorded. -/
def HandlerCall.Records (h : HandlerCall V) : Prop := (h.handled L).dpr.writeError < 0

/-- The code says that a partition is out of space. -/
def OutOfSpace (code : ℤ) : Prop := code = -ltfsNoSpace ∨ code = -ltfsLessSpace

instance (code : ℤ) : Decidable (OutOfSpace code) := inferInstanceAs (Decidable (_ ∨ _))

/-- The call `flushLoop` makes. -/
def flushCall (d : ℕ) : List WriteRequest → List WriteRequest → Ctx V → Option (HandlerCall V)
  | _, [], _ => none
  | kept, req :: rest, c =>
    if req.state = requestIp then
      flushCall d (mergePrev d kept req c).1 rest (mergePrev d kept req c).2
    else
      let w := L.fsrawWrite d req.data req.offset c.u.vol
      if w.1 < 0 then
        some ⟨d, w.1, w.1, req,
          { u := { c.u with vol := L.writeIndexAfterPerm w.1 w.2 }
            dpr := { c.dpr with requests := kept ++ req :: rest } }, []⟩
      else
        let c := { c with u := { c.u with vol := w.2 } }
        if c.dpr.writeIp then
          flushCall d (toIp d kept req c).1 rest (toIp d kept req c).2
        else
          flushCall d kept rest { c with u := freeRequest req c.u }

/-- The call `dataLoop` makes. -/
def dataCall (queue : RequestState) (d : ℕ) :
    List WriteRequest → List WriteRequest → Ctx V → Option (HandlerCall V)
  | _, [], _ => none
  | kept, req :: rest, c =>
    if req.state = requestIp then
      dataCall queue d (mergePrev d kept req c).1 rest (mergePrev d kept req c).2
    else if req.state = requestDp ∨ queue = requestPartial then
      if c.dpr.writeIp then
        let w := L.fsrawWrite d req.data req.offset c.u.vol
        if w.1 < 0 then
          some ⟨d, w.1, w.1, req,
            { u := { c.u with vol := L.writeIndexAfterPerm w.1 w.2 }
              dpr := { c.dpr with requests := kept ++ req :: rest } }, []⟩
        else
          let c := { c with u := { c.u with vol := w.2 } }
          dataCall queue d (toIp d kept req c).1 rest (toIp d kept req c).2
      else
        dataCall queue d kept rest c
    else
      dataCall queue d (kept ++ [req]) rest c

/-- The call after `sendLoop`, with the `dentry_priv` found then. -/
def sendCall (d : ℕ) (l : List WriteRequest) (c : Ctx V) : Option (HandlerCall V) :=
  match sendLoop L d l c.u with
  | (none, _) => none
  | (some (ret, req, rest), u) => some ⟨d, ret, ret, req, ⟨u, c.dpr⟩, req :: rest⟩

/-- The call `indexLoop` makes. -/
def indexCall (d : ℕ) : List WriteRequest → List WriteRequest → Ctx V → Option (HandlerCall V)
  | _, [], _ => none
  | kept, req :: rest, c =>
    if req.state = requestIp then
      let call := fun (tapeRet code : ℤ) (u : Unified V) => some (HandlerCall.mk d tapeRet code req
        { u := u, dpr := { c.dpr with requests := kept ++ req :: rest } } [])
      let a := c.u.allocates
      if ! a.1 then
        call (-enomem) (-enomem) a.2
      else
        match L.fsrawWriteData req.data a.2.vol with
        | (.error ret, vol) =>
          if isWritePerm (-ret) then
            let s := L.setCartVolumeLockStatus vol
            call ret s.1 { a.2 with vol := s.2 }
          else
            call ret ret { a.2 with vol := vol }
        | (.ok block, vol) =>
          let new : ExtentInfo := ⟨⟨some .ip, block⟩, 0, req.count, req.offset⟩
          let c := updateAltExtentlist L new d { u := { a.2 with vol := vol }, dpr := c.dpr }
          indexCall d kept rest { c with u := freeRequest req c.u }
    else
      indexCall d (kept ++ [req]) rest c

end Calls

/-! ## What the loops do to the recorded errors -/

section Specs

variable {V : Type} {L : Libltfs V}

/-- The two contexts agree on every recorded error. -/
structure SameError (c c' : Ctx V) : Prop where
  priv : c'.u.priv = c.u.priv
  writeError : c'.dpr.writeError = c.dpr.writeError

theorem SameError.refl (c : Ctx V) : SameError c c := ⟨rfl, rfl⟩

theorem SameError.trans {c₁ c₂ c₃ : Ctx V} (h : SameError c₁ c₂) (h' : SameError c₂ c₃) :
    SameError c₁ c₃ :=
  ⟨h'.priv.trans h.priv, h'.writeError.trans h.writeError⟩

theorem SameError.vol (c : Ctx V) (vol : V) : SameError c { c with u := { c.u with vol := vol } } :=
  ⟨rfl, rfl⟩

theorem SameError.free {c c' : Ctx V} (h : SameError c c') (req : WriteRequest) :
    SameError c { c' with u := freeRequest req c'.u } :=
  ⟨h.priv, h.writeError⟩

theorem QueueOnly.sameError {c c' : Ctx V} (h : QueueOnly c c') : SameError c c' :=
  ⟨h.priv, h.writeError⟩

theorem mergePrev_sameError (d : ℕ) (kept : List WriteRequest) (req : WriteRequest) (c : Ctx V) :
    SameError c (mergePrev d kept req c).2 := by
  unfold mergePrev
  cases kept.getLast? with
  | none => exact SameError.refl c
  | some dest =>
    dsimp only
    set m := mergeRequests c.u.cacheSize dest req
    set size := if m.updated = true then max c.dpr.fileSize m.dest.limit else c.dpr.fileSize
    have hlog := (applyLog_queueOnly m.srcLog d
      { c with dpr := { c.dpr with fileSize := size } }).sameError
    split
    · exact ⟨hlog.priv, hlog.writeError⟩
    · exact ⟨hlog.priv, hlog.writeError⟩

theorem toIp_sameError (d : ℕ) (kept : List WriteRequest) (req : WriteRequest) (c : Ctx V) :
    SameError c (toIp d kept req c).2 :=
  (updateQueueMembership_queueOnly true false requestIp d c).sameError.trans
    (mergePrev_sameError d kept _ _)

/-- What a loop from `c` to `c'` does, with the call it makes. -/
def LoopCall (L : Libltfs V) (d : ℕ) (call : Option (HandlerCall V)) (c c' : Ctx V) : Prop :=
  match call with
  | none => SameError c c'
  | some h => SameError c h.ctx ∧ h.d = d ∧ c' = h.handled L

theorem LoopCall.of_sameError {d : ℕ} {call : Option (HandlerCall V)} {c₁ c₂ c' : Ctx V}
    (h : SameError c₁ c₂) (hcall : LoopCall L d call c₂ c') : LoopCall L d call c₁ c' := by
  cases call with
  | none => exact h.trans hcall
  | some h' => exact ⟨h.trans hcall.1, hcall.2⟩

theorem flushLoop_call (d : ℕ) (rest : List WriteRequest) : ∀ (kept : List WriteRequest)
    (c : Ctx V), LoopCall L d (flushCall L d kept rest c) c (flushLoop L d kept rest c) := by
  induction rest with
  | nil => exact fun kept c => ⟨rfl, rfl⟩
  | cons req rest ih =>
    intro kept c
    unfold flushCall flushLoop
    split_ifs with hip
    · exact LoopCall.of_sameError (mergePrev_sameError d kept req c) (ih _ _)
    · dsimp only
      split_ifs with hneg hwip
      · exact ⟨⟨rfl, rfl⟩, rfl, rfl⟩
      · exact LoopCall.of_sameError
          ((SameError.vol c _).trans (toIp_sameError d kept req _)) (ih _ _)
      · exact LoopCall.of_sameError ((SameError.vol c _).free req) (ih _ _)

theorem dataLoop_call (queue : RequestState) (d : ℕ) (rest : List WriteRequest) :
    ∀ (kept moved : List WriteRequest) (c : Ctx V),
      LoopCall L d (dataCall L queue d kept rest c) c (dataLoop L queue d kept moved rest c).2 := by
  induction rest with
  | nil => exact fun kept moved c => ⟨rfl, rfl⟩
  | cons req rest ih =>
    intro kept moved c
    unfold dataCall dataLoop
    split_ifs with hip htaken hwip
    · exact LoopCall.of_sameError (mergePrev_sameError d kept req c) (ih _ _ _)
    · dsimp only
      split_ifs with hneg
      · exact ⟨⟨rfl, rfl⟩, rfl, rfl⟩
      · exact LoopCall.of_sameError
          ((SameError.vol c _).trans (toIp_sameError d kept req _)) (ih _ _ _)
    · exact ih _ _ _
    · exact ih _ _ _

theorem updateAltExtentlist_sameError (new : ExtentInfo) (d : ℕ) (c : Ctx V) :
    SameError c (updateAltExtentlist L new d c) := by
  unfold updateAltExtentlist
  split <;> exact ⟨rfl, rfl⟩

theorem indexLoop_call (d : ℕ) (rest : List WriteRequest) : ∀ (kept : List WriteRequest)
    (c : Ctx V), LoopCall L d (indexCall L d kept rest c) c (indexLoop L d kept rest c) := by
  induction rest with
  | nil => exact fun kept c => ⟨rfl, rfl⟩
  | cons req rest ih =>
    intro kept c
    unfold indexCall indexLoop
    split_ifs with hip
    · dsimp only
      split_ifs with halloc
      · exact ⟨⟨rfl, rfl⟩, rfl, rfl⟩
      · cases hw : L.fsrawWriteData req.data c.u.allocates.2.vol with
        | mk result vol =>
          cases result with
          | error ret =>
            dsimp only
            split_ifs with hperm
            · exact ⟨⟨rfl, rfl⟩, rfl, rfl⟩
            · exact ⟨⟨rfl, rfl⟩, rfl, rfl⟩
          | ok block =>
            dsimp only
            have hstart : SameError c
                { u := { c.u.allocates.2 with vol := vol }, dpr := c.dpr } := ⟨rfl, rfl⟩
            exact LoopCall.of_sameError
              ((hstart.trans (updateAltExtentlist_sameError _ d _)).free req) (ih _ _)
    · exact ih _ _

/-! ## What the handler records -/

/-- The error is not reported: the index partition is out of space. -/
def HandlerCall.Ignored (h : HandlerCall V) : Prop :=
  h.req.state = requestIp ∧ OutOfSpace h.code

instance (h : HandlerCall V) : Decidable h.Ignored := inferInstanceAs (Decidable (_ ∧ _))

/-- The first code that is not ignored is recorded. -/
theorem handled_writeError (h : HandlerCall V) :
    (h.handled L).dpr.writeError =
      if ¬ h.Ignored ∧ h.ctx.dpr.writeError = 0 then h.code else h.ctx.dpr.writeError := by
  unfold HandlerCall.handled handleWriteError HandlerCall.Ignored OutOfSpace
  dsimp only
  generalize hc₁ : (if ¬ (h.req.state = requestIp ∧
      (h.code = -ltfsNoSpace ∨ h.code = -ltfsLessSpace)) ∧ h.ctx.dpr.writeError = 0 then
        { h.ctx with dpr := { h.ctx.dpr with writeError := h.code } } else h.ctx) = c₁
  have hcode : c₁.dpr.writeError = if ¬ (h.req.state = requestIp ∧
      (h.code = -ltfsNoSpace ∨ h.code = -ltfsLessSpace)) ∧ h.ctx.dpr.writeError = 0 then
        h.code else h.ctx.dpr.writeError := by
    rw [← hc₁]
    split <;> rfl
  refine Eq.trans ?_ (hcode.trans (by congr))
  split
  · rfl
  · -- the rest of the handler works on queues and requests
    set c₂ : Ctx V := ⟨c₁.u, { c₁.dpr with fileSize := L.dentrySize h.d c₁.u.vol }⟩ with hc₂
    have h2 : c₂.dpr.writeError = c₁.dpr.writeError := rfl
    rw [← h2]
    split <;> split <;>
      simp only [(updateQueueMembership_queueOnly _ _ _ _ _).writeError]

theorem handled_priv (h : HandlerCall V) : (h.handled L).u.priv = h.ctx.u.priv :=
  (handleWriteError_spec L h.code h.req h.d h.ctx).priv

/-- A recorded error stays. -/
theorem handled_of_neg {h : HandlerCall V} (hneg : h.ctx.dpr.writeError < 0) :
    (h.handled L).dpr.writeError = h.ctx.dpr.writeError := by
  rw [handled_writeError, if_neg]
  rintro ⟨-, hzero⟩
  omega

/-- A call that is not ignored leaves an error recorded. -/
theorem records_of_not_ignored {h : HandlerCall V} (hle : h.ctx.dpr.writeError ≤ 0)
    (hcode : h.code < 0) (hign : ¬ h.Ignored) : h.Records L := by
  unfold HandlerCall.Records
  rw [handled_writeError]
  split_ifs with hrec
  · exact hcode
  · have : h.ctx.dpr.writeError ≠ 0 := fun hz => hrec ⟨hign, hz⟩
    omega

/-- An ignored call drops nothing but requests of the index partition while the
data partition can be written. -/
theorem discarded_of_ignored {h : HandlerCall V} (hign : h.Ignored) (hmoved : h.moved = [])
    (hdp : 0 ≤ L.partitionReadonly .dp h.ctx.u.vol) :
    ∀ r ∈ h.discarded L, r.state = requestIp := by
  obtain ⟨hip, hspace⟩ := hign
  unfold OutOfSpace at hspace
  have hflags : (clearFlags L h.code h.req h.ctx.u.vol).1 = false := by
    unfold clearFlags
    dsimp only
    rw [if_pos hip]
    simp only [decide_eq_false_iff_not, not_or, not_and_or, not_not]
    exact ⟨hspace, by omega⟩
  intro r hr
  rw [HandlerCall.discarded, hmoved, List.append_nil, List.mem_filter] at hr
  by_contra hne
  simp [keepsRequest, hne, hflags] at hr

/-! ## Which calls there are -/

/-- A failed write to the data partition. -/
structure DpCall (h : HandlerCall V) : Prop where
  neg : h.tapeRet < 0
  code : h.code = h.tapeRet
  state : h.req.state ≠ requestIp

/-- A failed write to the index partition, or a failed allocation before it. -/
structure IpCall (h : HandlerCall V) : Prop where
  neg : h.tapeRet < 0
  code : isWritePerm (-h.tapeRet) = true ∨ h.code = h.tapeRet
  state : h.req.state = requestIp
  moved : h.moved = []

/-- What libltfs promises: a failed write gives a negative code, and writing to
the index partition opens and closes no file. -/
structure Lawful (L : Libltfs V) : Prop where
  write_neg : ∀ data vol ret, (L.fsrawWriteData data vol).1 = .error ret → ret < 0
  write_handles : ∀ data vol d,
    L.numhandles d (L.fsrawWriteData data vol).2 = L.numhandles d vol
  lock_handles : ∀ vol d,
    L.numhandles d (L.setCartVolumeLockStatus vol).2 = L.numhandles d vol

theorem flushCall_dp {d : ℕ} (rest : List WriteRequest) : ∀ {kept : List WriteRequest}
    {c : Ctx V} {h : HandlerCall V}, flushCall L d kept rest c = some h → DpCall h := by
  induction rest with
  | nil => exact fun h => nomatch h
  | cons req rest ih =>
    intro kept c h hcall
    unfold flushCall at hcall
    dsimp only at hcall
    split_ifs at hcall with hip hneg hwip
    · exact ih hcall
    · cases hcall
      exact ⟨hneg, rfl, hip⟩
    · exact ih hcall
    · exact ih hcall

theorem dataCall_dp {queue : RequestState} {d : ℕ} (rest : List WriteRequest) :
    ∀ {kept : List WriteRequest} {c : Ctx V} {h : HandlerCall V},
      dataCall L queue d kept rest c = some h → DpCall h := by
  induction rest with
  | nil => exact fun h => nomatch h
  | cons req rest ih =>
    intro kept c h hcall
    unfold dataCall at hcall
    dsimp only at hcall
    split_ifs at hcall with hip htaken hwip hneg
    · exact ih hcall
    · cases hcall
      exact ⟨hneg, rfl, hip⟩
    · exact ih hcall
    · exact ih hcall
    · exact ih hcall

/-- Requests on the private list still have to go to the data partition. -/
theorem dataLoop_moved {queue : RequestState} {d : ℕ} (rest : List WriteRequest) :
    ∀ {kept moved : List WriteRequest} {c : Ctx V}, (∀ r ∈ moved, r.state ≠ requestIp) →
      ∀ r ∈ (dataLoop L queue d kept moved rest c).1, r.state ≠ requestIp := by
  induction rest with
  | nil => exact fun h => h
  | cons req rest ih =>
    intro kept moved c h
    unfold dataLoop
    dsimp only
    split_ifs with hip htaken hwip hneg
    · exact ih h
    · exact h
    · exact ih h
    · refine ih fun r hr => ?_
      rcases List.mem_append.mp hr with hr | hr
      · exact h r hr
      · rw [List.mem_singleton.mp hr]
        exact hip
    · exact ih h

theorem sendLoop_failed {d : ℕ} (l : List WriteRequest) : ∀ {u u' : Unified V} {ret : ℤ}
    {req : WriteRequest} {rest : List WriteRequest},
      sendLoop L d l u = (some (ret, req, rest), u') → ret < 0 ∧ req ∈ l := by
  induction l with
  | nil => exact fun h => nomatch h
  | cons r l ih =>
    intro u u' ret req rest h
    unfold sendLoop at h
    dsimp only at h
    split_ifs at h with hneg
    · cases h
      exact ⟨hneg, List.mem_cons_self⟩
    · obtain ⟨hret, hmem⟩ := ih h
      exact ⟨hret, List.mem_cons_of_mem _ hmem⟩

theorem sendCall_dp {d : ℕ} {l : List WriteRequest} {c : Ctx V} {h : HandlerCall V}
    (hl : ∀ r ∈ l, r.state ≠ requestIp) (hcall : sendCall L d l c = some h) : DpCall h := by
  unfold sendCall at hcall
  cases hsend : sendLoop L d l c.u with
  | mk failed u =>
    rw [hsend] at hcall
    cases failed with
    | none => cases hcall
    | some f =>
      obtain ⟨ret, req, rest⟩ := f
      obtain ⟨hneg, hmem⟩ := sendLoop_failed l hsend
      cases hcall
      exact ⟨hneg, rfl, hl req hmem⟩

theorem updateAltExtentlist_vol (new : ExtentInfo) (d : ℕ) (c : Ctx V) :
    (updateAltExtentlist L new d c).u.vol = c.u.vol := by
  unfold updateAltExtentlist
  split <;> rfl

theorem indexCall_ip (hL : Lawful L) {d : ℕ} (rest : List WriteRequest) :
    ∀ {kept : List WriteRequest} {c : Ctx V} {h : HandlerCall V},
      indexCall L d kept rest c = some h → IpCall h := by
  induction rest with
  | nil => exact fun h => nomatch h
  | cons req rest ih =>
    intro kept c h hcall
    unfold indexCall at hcall
    dsimp only at hcall
    split_ifs at hcall with hip halloc
    · cases hcall
      exact ⟨show -enomem < 0 by decide, Or.inr rfl, hip, rfl⟩
    · cases hw : L.fsrawWriteData req.data c.u.allocates.2.vol with
      | mk result vol =>
        rw [hw] at hcall
        cases result with
        | error ret =>
          have hneg : ret < 0 := hL.write_neg _ _ ret (congrArg Prod.fst hw)
          dsimp only at hcall
          split_ifs at hcall with hperm
          · cases hcall
            exact ⟨hneg, Or.inl hperm, hip, rfl⟩
          · cases hcall
            exact ⟨hneg, Or.inr rfl, hip, rfl⟩
        | ok block => exact ih hcall
    · exact ih hcall

/-- The index loop opens and closes no file. -/
theorem indexLoop_handles (hL : Lawful L) (d e : ℕ) (rest : List WriteRequest) :
    ∀ (kept : List WriteRequest) (c : Ctx V),
      L.numhandles e (indexLoop L d kept rest c).u.vol = L.numhandles e c.u.vol := by
  induction rest with
  | nil => exact fun kept c => rfl
  | cons req rest ih =>
    intro kept c
    unfold indexLoop
    dsimp only
    split_ifs with hip halloc
    · rw [(handleWriteError_spec L _ _ _ _).vol]
      rfl
    · have hvol := hL.write_handles req.data c.u.allocates.2.vol e
      cases hw : L.fsrawWriteData req.data c.u.allocates.2.vol with
      | mk result vol =>
        rw [hw] at hvol
        cases result with
        | error ret =>
          dsimp only
          split_ifs with hperm
          · rw [(handleWriteError_spec L _ _ _ _).vol]
            exact (hL.lock_handles vol e).trans hvol
          · rw [(handleWriteError_spec L _ _ _ _).vol]
            exact hvol
        | ok block =>
          dsimp only
          rw [ih]
          show L.numhandles e (updateAltExtentlist L _ d _).u.vol = _
          rw [updateAltExtentlist_vol]
          exact hvol
    · exact ih _ _

end Specs

/-! ## Steps on one dentry -/

/-- The steps of a run: operations on one dentry, and the rounds that
`_unified_process_data_queue` and `_unified_process_index_queue` consist of. -/
inductive Act (V : Type) where
  | write (d : ℕ) (buf : List UInt8) (offset : ℕ)
  | resume (d size : ℕ) (call : WriteCall)
  | truncate (d length : ℕ)
  | flush (d : ℕ)
  | dataRound (queue : RequestState) (d : ℕ)
  | indexRound (d : ℕ)
  | updateDataPlacement (d : ℕ)
  | close (d : ℕ) (flushes : Bool)
  | outside (vol : V) (mem : List Bool) (pool : CachePool)

section Acts

variable {V : Type} (L : Libltfs V)

/-- One step. -/
def Act.exec : Act V → Unified V → Unified V
  | .write d buf offset, u => (unifiedWrite L d buf offset u).2
  | .resume d size call, u => (writeAttempt L d size call u).2
  | .truncate d length, u => (unifiedTruncate L d length u).2
  | .flush d, u => (flushUnlocked L d u).2
  | .dataRound queue d, u => processDataEntry L queue d u
  | .indexRound d, u => processIndexEntry L d u
  | .updateDataPlacement d, u => Sched.updateDataPlacement L d u
  | .close d flushes, u => (unifiedClose L d flushes u).2
  | .outside vol mem pool, u => { u with vol := vol, mem := mem, pool := pool }

/-- The state after a run. -/
def runActs (acts : List (Act V)) (u : Unified V) : Unified V :=
  acts.foldl (fun u act => act.exec L u) u

@[simp] theorem runActs_nil (u : Unified V) : runActs L [] u = u := rfl

@[simp] theorem runActs_cons (act : Act V) (acts : List (Act V)) (u : Unified V) :
    runActs L (act :: acts) u = runActs L acts (act.exec L u) := rfl

theorem runActs_append (acts acts' : List (Act V)) (u : Unified V) :
    runActs L (acts ++ acts') u = runActs L acts' (runActs L acts u) :=
  List.foldl_append

/-- The code an attempt to write returns, if it returns. -/
def WriteReturn.code : WriteReturn → Option ℤ
  | .returned ret => some ret
  | _ => none

/-- What a step returns to the application that works on `d`. -/
def Act.result : Act V → Unified V → Option ℤ
  | .write d buf offset, u => (unifiedWrite L d buf offset u).1.code
  | .resume d size call, u => (writeAttempt L d size call u).1.code
  | .flush d, u => some (flushUnlocked L d u).1
  | .close d flushes, u => some (unifiedClose L d flushes u).1
  | _, _ => none

/-- The step is a `unified_write`, `unified_flush` or `unified_close` on `d`. -/
def Act.Asks (d : ℕ) : Act V → Prop
  | .write e _ _ => e = d
  | .resume e _ _ => e = d
  | .flush e => e = d
  | .close e _ => e = d
  | _ => False

/-- The calls of the handler a flush makes. -/
def flushCalls (d : ℕ) (u : Unified V) : List (HandlerCall V) :=
  match u.priv d with
  | none => []
  | some dpr =>
    let e := getWriteError dpr
    if e.1 < 0 ∨ e.2.requests.isEmpty then []
    else
      let c := updateQueueMembership false true requestPartial d
        (updateQueueMembership false true requestDp d ⟨u, e.2⟩)
      (flushCall L d [] c.dpr.requests c).toList

/-- The calls of the handler a round on the data queue makes. -/
def dataCalls (queue : RequestState) (d : ℕ) (u : Unified V) : List (HandlerCall V) :=
  match u.priv d with
  | none => []
  | some dpr =>
    let c := updateQueueMembership false true queue d ⟨u, dpr⟩
    let c := if queue = requestPartial then updateQueueMembership false true requestDp d c else c
    let l := dataLoop L queue d [] [] c.dpr.requests c
    (dataCall L queue d [] c.dpr.requests c).toList ++ (sendCall L d l.1 l.2).toList

/-- The calls of the handler a round on the index queue makes. -/
def indexCalls (d : ℕ) (u : Unified V) : List (HandlerCall V) :=
  match u.priv d with
  | none => []
  | some dpr =>
    let c := updateQueueMembership false true requestIp d ⟨u, dpr⟩
    (indexCall L d [] c.dpr.requests c).toList

/-- The calls of the handler a step makes. -/
def Act.calls : Act V → Unified V → List (HandlerCall V)
  | .flush d, u => flushCalls L d u
  | .dataRound queue d, u => dataCalls L queue d u
  | .indexRound d, u => indexCalls L d u
  | .close d flushes, u => if flushes then flushCalls L d u else []
  | _, _ => []

/-! ### Every operation is a run of steps -/

theorem flushEach_eq_runActs (l : List ℕ) : ∀ u : Unified V,
    ∃ acts, (flushEach L l u).2 = runActs L acts u := by
  induction l with
  | nil => exact fun u => ⟨[], rfl⟩
  | cons d rest ih =>
    intro u
    unfold flushEach
    dsimp only
    split_ifs with hneg
    · exact ⟨[.flush d], rfl⟩
    · obtain ⟨acts, hacts⟩ := ih (flushUnlocked L d u).2
      exact ⟨.flush d :: acts, hacts⟩

theorem processDataLoop_eq_runActs (queue : RequestState) (n : ℕ) : ∀ u : Unified V,
    ∃ acts, processDataLoop L queue n u = runActs L acts u := by
  induction n with
  | zero => exact fun u => ⟨[], rfl⟩
  | succ n ih =>
    intro u
    unfold processDataLoop
    split
    · exact ⟨[], rfl⟩
    · rename_i d _
      obtain ⟨acts, hacts⟩ := ih (processDataEntry L queue d u)
      exact ⟨.dataRound queue d :: acts, hacts⟩

theorem processIndexQueue_eq_runActs (u : Unified V) :
    processIndexQueue L u = runActs L (u.ipQueue.map .indexRound) u := by
  unfold processIndexQueue runActs
  rw [List.foldl_map]
  rfl

/-- Every operation of the scheduler is a run of steps. -/
theorem Op.exec_eq_runActs (op : Op V) (u : Unified V) :
    ∃ acts, op.exec L u = runActs L acts u := by
  cases op with
  | write d buf offset => exact ⟨[.write d buf offset], rfl⟩
  | resume d size call => exact ⟨[.resume d size call], rfl⟩
  | truncate d length => exact ⟨[.truncate d length], rfl⟩
  | flush d => exact ⟨[.flush d], rfl⟩
  | flushAll =>
    show ∃ acts, (Sched.flushAll L u).2 = runActs L acts u
    obtain ⟨acts, hacts⟩ := flushEach_eq_runActs L u.dpQueue u
    unfold Sched.flushAll
    dsimp only
    split_ifs with hneg
    · exact ⟨acts, hacts⟩
    · obtain ⟨acts', hacts'⟩ := flushEach_eq_runActs L
        (flushEach L u.dpQueue u).2.workingSet (flushEach L u.dpQueue u).2
      refine ⟨acts ++ acts', ?_⟩
      rw [runActs_append, ← hacts]
      exact hacts'
  | processQueue queue =>
    show ∃ acts, Sched.processQueue L queue u = runActs L acts u
    unfold Sched.processQueue
    split_ifs with hip
    · exact ⟨_, processIndexQueue_eq_runActs L u⟩
    · exact processDataLoop_eq_runActs L queue _ u
  | updateDataPlacement d => exact ⟨[.updateDataPlacement d], rfl⟩
  | close d flushes => exact ⟨[.close d flushes], rfl⟩
  | outside vol mem pool => exact ⟨[.outside vol mem pool], rfl⟩

end Acts

/-! ## The recorded code of a dentry -/

section Codes

variable {V : Type} {L : Libltfs V}

/-- The code of a `dentry_priv`; without one there is none. -/
def codeOf (dpr : Option DentryPriv) : ℤ := (dpr.map DentryPriv.writeError).getD 0

/-- The write error that waits for the next operation on `d`. -/
def writeCode (u : Unified V) (d : ℕ) : ℤ := codeOf (u.priv d)

@[simp] theorem codeOf_none : codeOf none = 0 := rfl

@[simp] theorem codeOf_some (dpr : DentryPriv) : codeOf (some dpr) = dpr.writeError := rfl

theorem writeCode_setPriv (u : Unified V) (d e : ℕ) (dpr : Option DentryPriv) :
    writeCode (u.setPriv d dpr) e = if e = d then codeOf dpr else writeCode u e := by
  unfold writeCode
  by_cases h : e = d
  · subst h
    simp
  · rw [setPriv_ne u dpr h, if_neg h]

/-- The step changes the recorded code of `d` to `code`, and no other. -/
def SetsCode (d : ℕ) (code : ℤ) (u u' : Unified V) : Prop :=
  ∀ e, writeCode u' e = if e = d then code else writeCode u e

theorem SetsCode.of_same {u u' : Unified V} (h : u'.priv = u.priv) (d : ℕ) :
    SetsCode d (writeCode u d) u u' := by
  intro e
  unfold writeCode
  rw [h]
  split_ifs with hed
  · rw [hed]
  · rfl

theorem SetsCode.setPriv {u c : Unified V} (h : c.priv = u.priv) (d : ℕ)
    (dpr : Option DentryPriv) : SetsCode d (codeOf dpr) u (c.setPriv d dpr) := by
  intro e
  rw [writeCode_setPriv]
  unfold writeCode
  rw [h]

theorem SetsCode.congr {d : ℕ} {code : ℤ} {u u' u'' : Unified V} (h : SetsCode d code u u')
    (hpriv : u''.priv = u'.priv) : SetsCode d code u u'' := by
  intro e
  rw [← h e]
  unfold writeCode
  rw [hpriv]

/-! ### Operations without tape writes -/

theorem dropAltExtentlist_sameError (d : ℕ) (c : Ctx V) : SameError c (dropAltExtentlist d c) := by
  unfold dropAltExtentlist
  split <;> exact ⟨rfl, rfl⟩

theorem unsetWriteIp_sameError (d : ℕ) (c : Ctx V) : SameError c (unsetWriteIp d c) := by
  unfold unsetWriteIp
  dsimp only
  refine SameError.trans ?_ (dropAltExtentlist_sameError d _)
  split
  · have hq := (updateQueueMembership_queueOnly false true requestIp d
      { u := freeRequests (c.dpr.requests.filter fun r => decide (r.state = requestIp)) c.u
        dpr := { c.dpr with
          writeIp := false
          requests := c.dpr.requests.filter fun r => decide (r.state ≠ requestIp) } }).sameError
    exact ⟨hq.priv.trans (freeRequests_priv _ _), hq.writeError⟩
  · exact ⟨rfl, rfl⟩

theorem recomputeWriteIp_sameError (small : Bool) (d : ℕ) (c : Ctx V) :
    SameError c (recomputeWriteIp L small d c) := by
  unfold recomputeWriteIp setWriteIp
  dsimp only
  split_ifs
  · exact ⟨rfl, rfl⟩
  · exact unsetWriteIp_sameError d c
  · exact SameError.refl c

theorem placeWrite_sameError (d : ℕ) (call : WriteCall) (c : Ctx V) :
    SameError c (placeWrite L d call c) := by
  unfold placeWrite
  split
  · exact unsetWriteIp_sameError d c
  · exact SameError.refl c

theorem finishWrite_sameError (d : ℕ) (r : WriteResult) (c : Ctx V) :
    SameError c (finishWrite d r c) := by
  have hq := (applyLog_queueOnly r.state.log d
    { u := { c.u with pool := r.state.pool, mem := r.state.mem }
      dpr := { c.dpr with requests := r.requests, fileSize := r.state.fileSize } }).sameError
  exact ⟨hq.priv, hq.writeError⟩

theorem truncateLoop_sameError (length d : ℕ) (l : List WriteRequest) : ∀ c : Ctx V,
    SameError c (truncateLoop length d l c).2 := by
  induction l with
  | nil => exact fun c => SameError.refl c
  | cons req before ih =>
    intro c
    unfold truncateLoop
    dsimp only
    split_ifs
    · exact (((updateQueueMembership_queueOnly false false req.state d c).sameError).free
        req).trans (ih _)
    · exact ih c
    · exact SameError.refl c

theorem truncateCached_sameError (length d : ℕ) (c : Ctx V) :
    SameError c (truncateCached length d c) := by
  unfold truncateCached
  split_ifs
  · have h := truncateLoop_sameError length d c.dpr.requests.reverse c
    exact ⟨h.priv, h.writeError⟩
  · exact ⟨rfl, rfl⟩

theorem freeSpare_priv (spare : Option ℕ) (u : Unified V) : (freeSpare spare u).priv = u.priv := by
  cases spare <;> rfl

/-- An attempt to write reports the recorded error and leaves none. -/
theorem writeAttempt_code (d size : ℕ) (call : WriteCall) (u : Unified V) :
    SetsCode d 0 u (writeAttempt L d size call u).2 ∧
    (writeCode u d < 0 → (writeAttempt L d size call u).1 = .returned (writeCode u d)) := by
  -- the `dentry_priv` that is found or made carries the code of `d`
  have hget : (getDentryPriv L d u).1 = none ∧ writeCode u d = 0 ∧
        (getDentryPriv L d u).2.priv = u.priv ∨
      ∃ dpr, (getDentryPriv L d u).1 = some dpr ∧ dpr.writeError = writeCode u d ∧
        ∀ e, e ≠ d → (getDentryPriv L d u).2.priv e = u.priv e := by
    unfold getDentryPriv writeCode
    cases hd : u.priv d with
    | some dpr => exact Or.inr ⟨dpr, rfl, rfl, fun e _ => rfl⟩
    | none =>
      dsimp only
      split
      · exact Or.inl ⟨rfl, rfl, rfl⟩
      · exact Or.inr ⟨_, rfl, rfl, fun e he => setPriv_ne _ _ he⟩
  unfold writeAttempt
  rcases hget with ⟨hnone, hzero, hpriv⟩ | ⟨dpr, hsome, hcode, hother⟩
  · have heq : getDentryPriv L d u = (none, (getDentryPriv L d u).2) := Prod.ext hnone rfl
    rw [heq]
    dsimp only
    constructor
    · rw [← hzero]
      exact SetsCode.of_same ((freeSpare_priv _ _).trans hpriv) d
    · intro hneg
      omega
  · have heq : getDentryPriv L d u = (some dpr, (getDentryPriv L d u).2) := Prod.ext hsome rfl
    rw [heq]
    set u' := (getDentryPriv L d u).2
    -- whatever is stored at the end, it carries no code
    have hset : ∀ (v : Unified V) (p : DentryPriv), v.priv = u'.priv → p.writeError = 0 →
        SetsCode d 0 u (v.setPriv d (some p)) := by
      intro v p hv hp e
      rw [writeCode_setPriv]
      split_ifs with hed
      · exact hp
      · unfold writeCode
        rw [hv, hother e hed]
    dsimp only
    split_ifs with hneg hro
    · exact ⟨hset u' _ rfl rfl, fun _ => by rw [← hcode]; rfl⟩
    · refine ⟨hset u' _ rfl rfl, fun hlt => ?_⟩
      exact absurd (hcode.trans_lt hlt) hneg
    · have hplace := placeWrite_sameError (L := L) d call ⟨u', (getWriteError dpr).2⟩
      set c := placeWrite L d call ⟨u', (getWriteError dpr).2⟩
      set r := doAppend c.u.cacheSize (appendFuel c.dpr.requests) c.dpr.requests
        { passed := [], prev := none, skipped := [], buf := call.buf, offset := call.offset
          spare := call.spare, fileSize := c.dpr.fileSize, pool := c.u.pool, mem := c.u.mem
          log := [] }
      have hfin := hplace.trans (finishWrite_sameError d r c)
      have hstore : SetsCode d 0 u ((finishWrite d r c).store d) :=
        hset _ _ hfin.priv hfin.writeError
      constructor
      · split
        · exact hstore.congr (freeSpare_priv _ _)
        · exact hstore.congr (freeSpare_priv _ _)
        · exact hstore
        · exact hstore
      · intro hlt
        exact absurd (hcode.trans_lt hlt) hneg

theorem unifiedWrite_code (d : ℕ) (buf : List UInt8) (offset : ℕ) (u : Unified V) :
    SetsCode d (writeCode u d) u (unifiedWrite L d buf offset u).2 ∨
    SetsCode d 0 u (unifiedWrite L d buf offset u).2 ∧
      (writeCode u d < 0 → (unifiedWrite L d buf offset u).1.code = some (writeCode u d)) := by
  unfold unifiedWrite
  dsimp only
  split_ifs with hempty hlock
  · exact Or.inl (SetsCode.of_same rfl d)
  · exact Or.inl (SetsCode.of_same rfl d)
  · right
    obtain ⟨hset, hret⟩ := writeAttempt_code (L := L) d buf.length ⟨buf, offset, none, false⟩
      { u with vol := (L.getVolumeLock u.vol).2 }
    refine ⟨hset, fun hlt => ?_⟩
    rw [hret hlt]
    rfl

theorem unifiedTruncate_code (d length : ℕ) (u : Unified V) :
    SetsCode d (writeCode u d) u (unifiedTruncate L d length u).2 := by
  unfold unifiedTruncate
  dsimp only
  split_ifs
  · exact SetsCode.of_same rfl d
  · cases hd : u.priv d with
    | none => exact SetsCode.of_same rfl d
    | some dpr =>
      have h := (truncateCached_sameError length d (Ctx.mk u dpr)).trans
        (recomputeWriteIp_sameError (L := L) (decide (length = 0)) d _)
      have hset := SetsCode.setPriv h.priv d (some (recomputeWriteIp L (decide (length = 0)) d
        (truncateCached length d ⟨u, dpr⟩)).dpr)
      have hcode : writeCode u d = (recomputeWriteIp L (decide (length = 0)) d
          (truncateCached length d ⟨u, dpr⟩)).dpr.writeError := by
        rw [h.writeError]
        unfold writeCode
        rw [hd]
        rfl
      rw [hcode]
      exact hset.congr rfl

theorem updateDataPlacement_code (d : ℕ) (u : Unified V) :
    SetsCode d (writeCode u d) u (updateDataPlacement L d u) := by
  unfold updateDataPlacement
  cases hd : u.priv d with
  | none => exact SetsCode.of_same rfl d
  | some dpr =>
    have h := recomputeWriteIp_sameError (L := L)
      (decide (dpr.fileSize ≤ L.maxFilesize u.vol)) d (Ctx.mk u dpr)
    have hcode : writeCode u d = (recomputeWriteIp L
        (decide (dpr.fileSize ≤ L.maxFilesize u.vol)) d ⟨u, dpr⟩).dpr.writeError := by
      rw [h.writeError]
      unfold writeCode
      rw [hd]
      rfl
    rw [hcode]
    exact SetsCode.setPriv h.priv d _

/-! ### Draining one dentry -/

theorem LoopCall.priv {d : ℕ} {call : Option (HandlerCall V)} {c c' : Ctx V}
    (h : LoopCall L d call c c') : c'.u.priv = c.u.priv := by
  cases call with
  | none => exact SameError.priv h
  | some hc =>
    obtain ⟨hsame, -, rfl⟩ := h
    exact (handled_priv hc).trans hsame.priv

/-- Every call that is not ignored is given an error code. -/
def Coded (calls : List (HandlerCall V)) : Prop := ∀ h ∈ calls, ¬ h.Ignored → h.code < 0

/-- What a drain of `d` that makes the calls `calls` does to its code: a recorded
one stays, and every call that is not ignored leaves one. -/
structure DrainCode (d : ℕ) (calls : List (HandlerCall V)) (before code : ℤ) : Prop where
  dentry : ∀ h ∈ calls, h.d = d
  keeps : before < 0 → code = before
  le : Coded calls → before ≤ 0 → code ≤ 0
  records : Coded calls → before ≤ 0 → ∀ h ∈ calls, ¬ h.Ignored → code < 0
  ctx_le : Coded calls → before ≤ 0 → ∀ h ∈ calls, h.ctx.dpr.writeError ≤ 0

theorem DrainCode.of_loop {d : ℕ} {call : Option (HandlerCall V)} {c c' : Ctx V}
    (h : LoopCall L d call c c') : DrainCode d call.toList c.dpr.writeError c'.dpr.writeError := by
  cases call with
  | none =>
    have herr := h.writeError
    exact ⟨by simp, fun _ => herr, fun _ hle => herr.trans_le hle, by simp, by simp⟩
  | some hc =>
    obtain ⟨hsame, hd, rfl⟩ := h
    have herr := hsame.writeError
    simp only [Option.toList_some]
    constructor
    · intro x hx
      rw [List.mem_singleton.mp hx]
      exact hd
    · intro hneg
      rw [handled_of_neg (herr.trans_lt hneg), herr]
    · intro hcoded hle
      rw [handled_writeError]
      split_ifs with hrec
      · exact (hcoded hc (by simp) hrec.1).le
      · omega
    · intro hcoded hle x hx hign
      rw [List.mem_singleton.mp hx] at hign
      exact records_of_not_ignored (by omega) (hcoded hc (by simp) hign) hign
    · intro _ hle x hx
      rw [List.mem_singleton.mp hx]
      omega

theorem DrainCode.append {d : ℕ} {calls calls' : List (HandlerCall V)} {before mid code : ℤ}
    (h : DrainCode d calls before mid) (h' : DrainCode d calls' mid code) :
    DrainCode d (calls ++ calls') before code := by
  have left : Coded (calls ++ calls') → Coded calls :=
    fun hall x hx => hall x (List.mem_append_left _ hx)
  have right : Coded (calls ++ calls') → Coded calls' :=
    fun hall x hx => hall x (List.mem_append_right _ hx)
  constructor
  · intro x hx
    rcases List.mem_append.mp hx with hx | hx
    · exact h.dentry x hx
    · exact h'.dentry x hx
  · intro hneg
    have hmid := h.keeps hneg
    rw [h'.keeps (by omega), hmid]
  · intro hall hle
    exact h'.le (right hall) (h.le (left hall) hle)
  · intro hall hle x hx hign
    rcases List.mem_append.mp hx with hx | hx
    · -- recorded by the first part, kept by the second
      have hmid := h.records (left hall) hle x hx hign
      rw [h'.keeps hmid]
      exact hmid
    · exact h'.records (right hall) (h.le (left hall) hle) x hx hign
  · intro hall hle x hx
    rcases List.mem_append.mp hx with hx | hx
    · exact h.ctx_le (left hall) hle x hx
    · exact h'.ctx_le (right hall) (h.le (left hall) hle) x hx

/-- Sending the private list and handling a failure. -/
theorem sendLoop_call (d : ℕ) (l : List WriteRequest) (c : Ctx V) :
    LoopCall L d (sendCall L d l c) c
      (match sendLoop L d l c.u with
        | (none, u) => ⟨u, c.dpr⟩
        | (some (ret, req, _), u) => handleWriteError L ret req d ⟨u, c.dpr⟩) := by
  have hpriv := (sendLoop_frame L d l c.u).2
  unfold sendCall
  cases hsend : sendLoop L d l c.u with
  | mk failed u =>
    rw [hsend] at hpriv
    cases failed with
    | none => exact ⟨hpriv, rfl⟩
    | some f => exact ⟨⟨hpriv, rfl⟩, rfl, rfl⟩

/-- Leaving the queues that a round on the data queue works on. -/
theorem leaveQueues_queueOnly (queue : RequestState) (d : ℕ) (c : Ctx V) :
    QueueOnly c (if queue = requestPartial then
      updateQueueMembership false true requestDp d (updateQueueMembership false true queue d c)
    else updateQueueMembership false true queue d c) := by
  have h := updateQueueMembership_queueOnly false true queue d c
  split
  · exact h.trans (updateQueueMembership_queueOnly _ _ _ _ _)
  · exact h

/-- A round on the data queue. -/
theorem processDataEntry_code (queue : RequestState) (d : ℕ) (u : Unified V) :
    ∃ code, SetsCode d code u (processDataEntry L queue d u) ∧
      DrainCode d (dataCalls L queue d u) (writeCode u d) code := by
  unfold processDataEntry dataCalls
  cases hd : u.priv d with
  | none => exact ⟨writeCode u d, SetsCode.of_same rfl d, by simp, fun _ => rfl, fun _ h => h,
      by simp, by simp⟩
  | some dpr =>
    dsimp only
    have hstart := (leaveQueues_queueOnly queue d (Ctx.mk u dpr)).sameError
    set c := if queue = requestPartial then updateQueueMembership false true requestDp d
      (updateQueueMembership false true queue d ⟨u, dpr⟩)
        else updateQueueMembership false true queue d ⟨u, dpr⟩
    have hbefore : writeCode u d = c.dpr.writeError := by
      rw [hstart.writeError]
      unfold writeCode
      rw [hd]
      rfl
    set l := dataLoop L queue d [] [] c.dpr.requests c
    have hloop : LoopCall L d (dataCall L queue d [] c.dpr.requests c) c l.2 :=
      dataLoop_call queue d c.dpr.requests [] [] c
    have hsend := sendLoop_call (L := L) d l.1 l.2
    have hpriv : l.2.u.priv = u.priv := hloop.priv.trans hstart.priv
    have hsendPriv := (sendLoop_frame L d l.1 l.2.u).2
    rw [hbefore]
    have hdrain := (DrainCode.of_loop hloop).append (DrainCode.of_loop hsend)
    cases hres : sendLoop L d l.1 l.2.u with
    | mk failed u' =>
      rw [hres] at hdrain hsendPriv
      cases failed with
      | none =>
        exact ⟨_, SetsCode.setPriv (hsendPriv.trans hpriv) d _, hdrain⟩
      | some f =>
        refine ⟨_, SetsCode.setPriv ?_ d _, hdrain⟩
        rw [freeRequests_priv, (handleWriteError_spec L _ _ _ _).priv]
        exact hsendPriv.trans hpriv

/-- A round on the index queue; at its end the `dentry_priv` of a file nobody has
open may be freed. -/
theorem processIndexEntry_code (hL : Lawful L) (d : ℕ) (u : Unified V) :
    ∃ code, DrainCode d (indexCalls L d u) (writeCode u d) code ∧
      (SetsCode d code u (processIndexEntry L d u) ∨
        SetsCode d 0 u (processIndexEntry L d u) ∧ L.numhandles d u.vol ≤ 2) := by
  unfold processIndexEntry indexCalls
  cases hd : u.priv d with
  | none => exact ⟨writeCode u d, ⟨by simp, fun _ => rfl, fun _ h => h, by simp, by simp⟩,
      Or.inl (SetsCode.of_same rfl d)⟩
  | some dpr =>
    dsimp only
    have hq := updateQueueMembership_queueOnly false true requestIp d (Ctx.mk u dpr)
    set c := updateQueueMembership false true requestIp d ⟨u, dpr⟩
    have hloop := indexLoop_call (L := L) d c.dpr.requests [] c
    have hbefore : writeCode u d = c.dpr.writeError := by
      rw [hq.writeError]
      unfold writeCode
      rw [hd]
      rfl
    have hhandles := indexLoop_handles hL d d c.dpr.requests [] c
    set c' := indexLoop L d [] c.dpr.requests c
    have hpriv : c'.u.priv = u.priv := hloop.priv.trans hq.priv
    rw [hbefore]
    refine ⟨_, DrainCode.of_loop hloop, ?_⟩
    unfold freeDentryPrivConditional Ctx.store
    rw [setPriv_self]
    dsimp only
    split_ifs with hfree
    · right
      constructor
      · intro e
        show writeCode ((c'.u.setPriv d (some c'.dpr)).setPriv d none) e = _
        rw [writeCode_setPriv, writeCode_setPriv]
        split_ifs with hed
        · rfl
        · unfold writeCode
          rw [hpriv]
      · rw [← hq.vol, ← hhandles]
        exact hfree.1
    · exact Or.inl (SetsCode.setPriv hpriv d _)

/-- A flush reports what is recorded; else what it runs into. -/
theorem flushUnlocked_code (d : ℕ) (u : Unified V) :
    (writeCode u d ≤ 0 → SetsCode d 0 u (flushUnlocked L d u).2) ∧
    (writeCode u d < 0 → (flushUnlocked L d u).1 = writeCode u d ∧ flushCalls L d u = []) ∧
    ∃ code, DrainCode d (flushCalls L d u) 0 code ∧
      (0 ≤ writeCode u d → (flushUnlocked L d u).1 = if code < 0 then code else 0) := by
  have hnil : DrainCode d ([] : List (HandlerCall V)) 0 0 :=
    ⟨by simp, fun _ => rfl, fun _ h => h, by simp, by simp⟩
  unfold flushUnlocked flushCalls
  cases hd : u.priv d with
  | none =>
    have hzero : writeCode u d = 0 := by
      unfold writeCode
      rw [hd]
      rfl
    refine ⟨fun _ => ?_, fun hneg => by omega, 0, hnil, fun _ => rfl⟩
    have hsame := SetsCode.of_same (u := u) rfl d
    rwa [hzero] at hsame
  | some dpr =>
    have hcode : (getWriteError dpr).1 = writeCode u d := by
      unfold writeCode
      rw [hd]
      rfl
    dsimp only
    by_cases hneg : (getWriteError dpr).1 < 0
    · simp only [hneg, if_true, true_or]
      refine ⟨fun _ => SetsCode.setPriv rfl d _, fun _ => ⟨hcode, trivial⟩, 0, hnil, fun hge => ?_⟩
      omega
    · by_cases hempty : (getWriteError dpr).2.requests.isEmpty = true
      · simp only [hneg, hempty, if_true, if_false, or_true]
        refine ⟨fun _ => SetsCode.setPriv rfl d _, fun hlt => ?_, 0, hnil, fun _ => rfl⟩
        omega
      · simp only [hneg, hempty, if_false]
        have hq := (updateQueueMembership_queueOnly false true requestDp d
          (Ctx.mk u (getWriteError dpr).2)).trans
            (updateQueueMembership_queueOnly false true requestPartial d _)
        set c := updateQueueMembership false true requestPartial d
          (updateQueueMembership false true requestDp d ⟨u, (getWriteError dpr).2⟩)
        have hloop := flushLoop_call (L := L) d c.dpr.requests [] c
        refine ⟨fun _ => SetsCode.setPriv (hloop.priv.trans hq.priv) d _, fun hlt => ?_, ?_⟩
        · omega
        · have hdrain := DrainCode.of_loop hloop
          rw [hq.writeError] at hdrain
          exact ⟨_, hdrain, fun _ => rfl⟩

/-- Freeing a `dentry_priv` without a code changes no code. -/
theorem freeDentryPrivConditional_code (d n : ℕ) (u : Unified V) (hzero : writeCode u d = 0) :
    ∀ e, writeCode (freeDentryPrivConditional L d n u) e = writeCode u e := by
  intro e
  unfold freeDentryPrivConditional
  split
  · rfl
  · split_ifs
    · show writeCode (u.setPriv d none) e = _
      rw [writeCode_setPriv]
      split_ifs with hed
      · rw [hed, hzero]
        rfl
      · rfl
    · rfl

/-- Closing reports what is recorded, or what its flush runs into. -/
theorem unifiedClose_code (d : ℕ) (flushes : Bool) (u : Unified V) (hle : writeCode u d ≤ 0) :
    SetsCode d 0 u (unifiedClose L d flushes u).2 ∧
    (unifiedClose L d flushes u).1 =
      if flushes then (flushUnlocked L d u).1 else writeCode u d := by
  set f : ℤ × Unified V := if flushes = true then flushUnlocked L d u else (0, u) with hf
  have hcode : ∀ e, e ≠ d → writeCode f.2 e = writeCode u e := by
    intro e he
    rw [hf]
    split
    · rw [(flushUnlocked_code d u).1 hle e, if_neg he]
    · rfl
  have hafter : SetsCode d 0 u
      (f.2.setPriv d ((f.2.priv d).map fun dpr => { dpr with writeError := 0 })) := by
    intro e
    rw [writeCode_setPriv]
    split_ifs with hed
    · cases f.2.priv d <;> rfl
    · exact hcode e hed
  have hzero := hafter d
  rw [if_pos rfl] at hzero
  constructor
  · intro e
    exact (freeDentryPrivConditional_code d 3 _ hzero e).trans (hafter e)
  · show (if f.1 ≠ 0 then f.1 else writeCode f.2 d) = _
    cases flushes with
    | false =>
      rw [hf]
      simp
    | true =>
      have hd0 : writeCode (flushUnlocked L d u).2 d = 0 := by
        rw [(flushUnlocked_code d u).1 hle d, if_pos rfl]
      rw [hf]
      simp only [if_true, hd0]
      split_ifs with h0
      · rfl
      · omega

end Codes

/-! ## Runs that report every failure -/

section Report

variable {V : Type} (L : Libltfs V)

/-- The step keeps off the paths that lose an error: when the index partition
reports a permanent error, updating the lock status fails as well; when it is out
of space, the data partition can be written; and while an error of a file is
recorded in a round on the index queue, somebody has the file open. -/
structure Act.Sound (act : Act V) (u : Unified V) : Prop where
  perm : ∀ h ∈ act.calls L u, h.req.state = requestIp → isWritePerm (-h.tapeRet) = true →
    h.code < 0 ∧ ¬ OutOfSpace h.code
  space : ∀ h ∈ act.calls L u, h.req.state = requestIp → OutOfSpace h.tapeRet →
    0 ≤ L.partitionReadonly .dp h.ctx.u.vol
  opened : ∀ d, act = .indexRound d → writeCode u d < 0 ∨ act.calls L u ≠ [] →
    2 < L.numhandles d u.vol

/-- Every step of the run meets the condition in the state it starts from. -/
def RunSound : List (Act V) → Unified V → Prop
  | [], _ => True
  | act :: acts, u => act.Sound L u ∧ RunSound acts (act.exec L u)

/-- The code `e` recorded for `d` waits until one later operation on the file
returns it, and is gone then. -/
def Reported (d : ℕ) (e : ℤ) : List (Act V) → Unified V → Prop
  | [], u => writeCode u d = e
  | act :: acts, u => writeCode u d = e ∧
    (Reported d e acts (act.exec L u) ∨
      act.Asks d ∧ act.result L u = some e ∧ writeCode (act.exec L u) d = 0)

/-- No positive code is recorded. -/
def CodesOk (u : Unified V) : Prop := ∀ d, writeCode u d ≤ 0

/-- What one step does to the recorded codes. -/
structure StepSpec (act : Act V) (u : Unified V) : Prop where
  codesOk : CodesOk (act.exec L u)
  keeps : ∀ d, writeCode u d < 0 → writeCode (act.exec L u) d = writeCode u d ∨
    act.Asks d ∧ act.result L u = some (writeCode u d) ∧ writeCode (act.exec L u) d = 0
  records : ∀ h ∈ act.calls L u, ¬ h.Ignored → writeCode (act.exec L u) h.d < 0 ∨
    act.Asks h.d ∧ (∃ e < 0, act.result L u = some e) ∧ writeCode (act.exec L u) h.d = 0
  ctx_le : ∀ h ∈ act.calls L u, h.ctx.dpr.writeError ≤ 0

variable {L}

theorem flushCalls_dp {d : ℕ} {u : Unified V} : ∀ h ∈ flushCalls L d u, DpCall h := by
  intro h hmem
  unfold flushCalls at hmem
  split at hmem
  · cases hmem
  · dsimp only at hmem
    split_ifs at hmem
    · cases hmem
    · exact flushCall_dp _ (by simpa using hmem)

theorem dataCalls_dp {queue : RequestState} {d : ℕ} {u : Unified V} :
    ∀ h ∈ dataCalls L queue d u, DpCall h := by
  intro h hmem
  unfold dataCalls at hmem
  split at hmem
  · cases hmem
  · rcases List.mem_append.mp hmem with hmem | hmem
    · exact dataCall_dp _ (by simpa using hmem)
    · have hsend := Option.mem_toList.mp hmem
      exact sendCall_dp (dataLoop_moved _ (by simp)) hsend

theorem indexCalls_ip (hL : Lawful L) {d : ℕ} {u : Unified V} :
    ∀ h ∈ indexCalls L d u, IpCall h := by
  intro h hmem
  unfold indexCalls at hmem
  split at hmem
  · cases hmem
  · exact indexCall_ip hL _ (by simpa using hmem)

/-- Only rounds on the index queue write to the index partition. -/
theorem calls_dp {act : Act V} {u : Unified V} (hact : ∀ d, act ≠ .indexRound d) :
    ∀ h ∈ act.calls L u, DpCall h := by
  intro h hmem
  cases act with
  | flush d => exact flushCalls_dp h hmem
  | close d flushes =>
    cases flushes with
    | true => exact flushCalls_dp h hmem
    | false => cases hmem
  | dataRound queue d => exact dataCalls_dp h hmem
  | indexRound d => exact absurd rfl (hact d)
  | write d buf offset => cases hmem
  | resume d size call => cases hmem
  | truncate d length => cases hmem
  | updateDataPlacement d => cases hmem
  | outside vol mem pool => cases hmem

/-- The calls of a step: failed writes to either partition. -/
theorem calls_cases (hL : Lawful L) (act : Act V) (u : Unified V) :
    ∀ h ∈ act.calls L u, DpCall h ∨ IpCall h := by
  intro h hmem
  by_cases hact : ∃ d, act = .indexRound d
  · obtain ⟨d, rfl⟩ := hact
    exact Or.inr (indexCalls_ip hL h hmem)
  · exact Or.inl (calls_dp (fun d hd => hact ⟨d, hd⟩) h hmem)

/-- No other step can lose an error. -/
theorem Act.sound_of_ne_indexRound {act : Act V} {u : Unified V}
    (hact : ∀ d, act ≠ .indexRound d) : act.Sound L u :=
  ⟨fun h hmem hip => absurd hip (calls_dp hact h hmem).state,
    fun h hmem hip => absurd hip (calls_dp hact h hmem).state, fun d hd => absurd hd (hact d)⟩

/-- In a sound step every call that is not ignored is given an error code. -/
theorem Act.Sound.coded (hL : Lawful L) {act : Act V} {u : Unified V} (h : act.Sound L u) :
    Coded (act.calls L u) := by
  intro x hx hign
  rcases calls_cases hL act u x hx with hdp | hip
  · rw [hdp.code]
    exact hdp.neg
  · rcases hip.code with hperm | hcode
    · exact (h.perm x hx hip.state hperm).1
    · rw [hcode]
      exact hip.neg

/-- In a sound step an ignored call drops requests of the index partition only. -/
theorem Act.Sound.ignored (hL : Lawful L) {act : Act V} {u : Unified V} (h : act.Sound L u)
    {x : HandlerCall V} (hx : x ∈ act.calls L u) (hign : x.Ignored) :
    OutOfSpace x.tapeRet ∧ ∀ r ∈ x.discarded L, r.state = requestIp := by
  rcases calls_cases hL act u x hx with hdp | hip
  · exact absurd hign.1 hdp.state
  · rcases hip.code with hperm | hcode
    · exact absurd hign.2 (h.perm x hx hip.state hperm).2
    · have hspace : OutOfSpace x.tapeRet := hcode ▸ hign.2
      exact ⟨hspace, discarded_of_ignored hign hip.moved (h.space x hx hip.state hspace)⟩

/-- A step without calls that keeps the codes. -/
theorem StepSpec.of_kept {act : Act V} {u : Unified V} {d : ℕ} (hok : CodesOk u)
    (hcalls : act.calls L u = []) (hset : SetsCode d (writeCode u d) u (act.exec L u)) :
    StepSpec L act u := by
  have hsame : ∀ e, writeCode (act.exec L u) e = writeCode u e := by
    intro e
    rw [hset e]
    split_ifs with hed
    · rw [hed]
    · rfl
  constructor
  · intro e
    rw [hsame e]
    exact hok e
  · exact fun e _ => Or.inl (hsame e)
  · simp [hcalls]
  · simp [hcalls]

/-- An operation that returns the code of `d`, or what it runs into itself. -/
theorem StepSpec.of_asked {act : Act V} {u : Unified V} {d : ℕ} (hok : CodesOk u)
    (hasks : act.Asks d) (hset : SetsCode d 0 u (act.exec L u))
    (hret : writeCode u d < 0 → act.result L u = some (writeCode u d))
    (hcalls : ∀ h ∈ act.calls L u, h.d = d ∧ h.ctx.dpr.writeError ≤ 0 ∧
      (¬ h.Ignored → ∃ e < 0, act.result L u = some e)) :
    StepSpec L act u := by
  have hzero := hset d
  rw [if_pos rfl] at hzero
  constructor
  · intro e
    rw [hset e]
    split_ifs
    · exact le_refl 0
    · exact hok e
  · intro e hneg
    by_cases hed : e = d
    · subst hed
      exact Or.inr ⟨hasks, hret hneg, hzero⟩
    · left
      rw [hset e, if_neg hed]
  · intro h hmem hign
    obtain ⟨hd, -, hcode⟩ := hcalls h hmem
    rw [hd]
    exact Or.inr ⟨hasks, hcode hign, hzero⟩
  · exact fun h hmem => (hcalls h hmem).2.1

/-- A round of the writer thread. -/
theorem StepSpec.of_drain {act : Act V} {u : Unified V} {d : ℕ} {code : ℤ} (hok : CodesOk u)
    (hcoded : Coded (act.calls L u)) (hdrain : DrainCode d (act.calls L u) (writeCode u d) code)
    (hset : SetsCode d code u (act.exec L u)) : StepSpec L act u := by
  have hcode := hset d
  rw [if_pos rfl] at hcode
  constructor
  · intro e
    rw [hset e]
    split_ifs
    · exact hdrain.le hcoded (hok d)
    · exact hok e
  · intro e hneg
    left
    rw [hset e]
    split_ifs with hed
    · rw [hed] at hneg ⊢
      exact hdrain.keeps hneg
    · rfl
  · intro h hmem hign
    left
    rw [hdrain.dentry h hmem, hcode]
    exact hdrain.records hcoded (hok d) h hmem hign
  · exact fun h hmem => hdrain.ctx_le hcoded (hok d) h hmem

/-- A flush of `d`, alone or within a close, returns what its calls leave. -/
theorem flush_reports {d : ℕ} {u : Unified V} (hcoded : Coded (flushCalls L d u)) :
    (writeCode u d < 0 → (flushUnlocked L d u).1 = writeCode u d) ∧
    ∀ h ∈ flushCalls L d u, h.d = d ∧ h.ctx.dpr.writeError ≤ 0 ∧
      (¬ h.Ignored → (flushUnlocked L d u).1 < 0) := by
  obtain ⟨-, hneg, code, hdrain, hret⟩ := flushUnlocked_code (L := L) d u
  refine ⟨fun hlt => (hneg hlt).1, fun h hmem => ⟨hdrain.dentry h hmem, ?_, fun hign => ?_⟩⟩
  · exact hdrain.ctx_le hcoded (le_refl 0) h hmem
  · have hge : 0 ≤ writeCode u d := by
      by_contra hlt
      rw [(hneg (by omega)).2] at hmem
      cases hmem
    have hcode := hdrain.records hcoded (le_refl 0) h hmem hign
    rw [hret hge, if_pos hcode]
    exact hcode

/-- One step. -/
theorem Act.step (hL : Lawful L) {act : Act V} {u : Unified V} (hok : CodesOk u)
    (hsound : act.Sound L u) : StepSpec L act u := by
  have hcoded := hsound.coded hL
  cases act with
  | write d buf offset =>
    rcases unifiedWrite_code (L := L) d buf offset u with hset | ⟨hset, hret⟩
    · exact StepSpec.of_kept hok rfl hset
    · exact StepSpec.of_asked hok rfl hset hret (fun h hmem => nomatch hmem)
  | resume d size call =>
    obtain ⟨hset, hret⟩ := writeAttempt_code (L := L) d size call u
    refine StepSpec.of_asked hok rfl hset (fun hneg => ?_) (fun h hmem => nomatch hmem)
    show (writeAttempt L d size call u).1.code = _
    rw [hret hneg]
    rfl
  | truncate d length => exact StepSpec.of_kept hok rfl (unifiedTruncate_code d length u)
  | updateDataPlacement d => exact StepSpec.of_kept hok rfl (updateDataPlacement_code d u)
  | outside vol mem pool => exact StepSpec.of_kept (d := 0) hok rfl (SetsCode.of_same rfl 0)
  | flush d =>
    obtain ⟨hret, hcalls⟩ := flush_reports hcoded
    refine StepSpec.of_asked hok rfl ((flushUnlocked_code d u).1 (hok d)) ?_ fun h hmem => ?_
    · exact fun hneg => congrArg some (hret hneg)
    · obtain ⟨hd, hle, hneg⟩ := hcalls h hmem
      exact ⟨hd, hle, fun hign => ⟨_, hneg hign, rfl⟩⟩
  | close d flushes =>
    obtain ⟨hset, hres⟩ := unifiedClose_code (L := L) d flushes u (hok d)
    cases flushes with
    | false =>
      refine StepSpec.of_asked hok rfl hset (fun _ => ?_) (fun h hmem => nomatch hmem)
      exact congrArg some hres
    | true =>
      obtain ⟨hret, hcalls⟩ := flush_reports hcoded
      refine StepSpec.of_asked hok rfl hset ?_ fun h hmem => ?_
      · exact fun hneg => congrArg some (hres.trans (hret hneg))
      · obtain ⟨hd, hle, hneg⟩ := hcalls h hmem
        exact ⟨hd, hle, fun hign => ⟨_, hneg hign, congrArg some hres⟩⟩
  | dataRound queue d =>
    obtain ⟨code, hset, hdrain⟩ := processDataEntry_code (L := L) queue d u
    exact StepSpec.of_drain hok hcoded hdrain hset
  | indexRound d =>
    obtain ⟨code, hdrain, hset | ⟨hset, hhandles⟩⟩ := processIndexEntry_code hL d u
    · exact StepSpec.of_drain hok hcoded hdrain hset
    · -- nobody has the file open, so there was no error and no call
      have hno : ¬ (writeCode u d < 0 ∨ (Act.indexRound d).calls L u ≠ []) := fun h =>
        absurd (hsound.opened d rfl h) (by omega)
      simp only [not_or, not_not, not_lt] at hno
      have hzero : writeCode u d = 0 := le_antisymm (hok d) hno.1
      refine StepSpec.of_kept (d := d) hok hno.2 ?_
      rw [hzero]
      exact hset

/-- A recorded code is reported in every continuation of the run. -/
theorem reported_of_sound (hL : Lawful L) (d : ℕ) (e : ℤ) (hneg : e < 0) (acts : List (Act V)) :
    ∀ {u : Unified V}, CodesOk u → RunSound L acts u → writeCode u d = e →
      Reported L d e acts u := by
  induction acts with
  | nil => exact fun _ _ h => h
  | cons act acts ih =>
    intro u hok hsound hcode
    have hstep := Act.step hL hok hsound.1
    refine ⟨hcode, ?_⟩
    rcases hstep.keeps d (by omega) with hkept | ⟨hasks, hret, hzero⟩
    · exact Or.inl (ih hstep.codesOk hsound.2 (hkept.trans hcode))
    · exact Or.inr ⟨hasks, hcode ▸ hret, hzero⟩

theorem RunSound.append {acts acts' : List (Act V)} : ∀ {u : Unified V},
    RunSound L (acts ++ acts') u → RunSound L acts u ∧ RunSound L acts' (runActs L acts u) := by
  induction acts with
  | nil => exact fun h => ⟨trivial, h⟩
  | cons act acts ih =>
    intro u h
    obtain ⟨h1, h2⟩ := ih h.2
    exact ⟨⟨h.1, h1⟩, h2⟩

theorem codesOk_of_sound (hL : Lawful L) (acts : List (Act V)) : ∀ {u : Unified V}, CodesOk u →
    RunSound L acts u → CodesOk (runActs L acts u) := by
  induction acts with
  | nil => exact fun h _ => h
  | cons act acts ih =>
    intro u hok hsound
    exact ih (Act.step hL hok hsound.1).codesOk hsound.2

/-- **Write failures are not silent.** In every run whose steps are sound, a
failed write that makes the handler discard bytes that are not on the data
partition is reported: by the flush or close it happens in, or by its code, which
waits for one later operation on the file. Only an index partition that is out of
space goes unrecorded, and then only requests that are on the data partition are
discarded. -/
theorem write_failures_reported (hL : Lawful L) (u : Unified V) (hok : CodesOk u)
    (before after : List (Act V)) (act : Act V)
    (hsound : RunSound L (before ++ act :: after) u) (h : HandlerCall V)
    (hcall : h ∈ act.calls L (runActs L before u)) :
    ((∃ r ∈ h.discarded L, r.state ≠ requestIp) →
      (act.Asks h.d ∧ (∃ e < 0, act.result L (runActs L before u) = some e) ∧
        writeCode (act.exec L (runActs L before u)) h.d = 0) ∨
      ∃ e < 0, writeCode (act.exec L (runActs L before u)) h.d = e ∧
        Reported L h.d e after (act.exec L (runActs L before u))) ∧
    (¬ h.Records L → h.req.state = requestIp ∧ OutOfSpace h.tapeRet ∧
      ∀ r ∈ h.discarded L, r.state = requestIp) := by
  obtain ⟨hbefore, hact, hafter⟩ := RunSound.append hsound
  have hmid := codesOk_of_sound hL before hok hbefore
  have hstep := Act.step hL hmid hact
  have hcoded := hact.coded hL
  constructor
  · rintro ⟨r, hr, hstate⟩
    have hign : ¬ h.Ignored := fun hign => hstate ((hact.ignored hL hcall hign).2 r hr)
    rcases hstep.records h hcall hign with hneg | hasked
    · exact Or.inr ⟨_, hneg, rfl, reported_of_sound hL h.d _ hneg after hstep.codesOk hafter rfl⟩
    · exact Or.inl hasked
  · intro hrec
    have hign : h.Ignored := by
      by_contra hign
      exact hrec (records_of_not_ignored (hstep.ctx_le h hcall) (hcoded h hcall hign) hign)
    exact ⟨hign.1, hact.ignored hL hcall hign⟩

end Report

/-! ## Two drives -/

/-- A libltfs for a small file on the index partition. `dp` is what a write to the
data partition answers, `ip` an error every write to the index partition gives. -/
def failingLibltfs (dp ip : ℤ) : Libltfs Unit :=
  { idleLibltfs with
    matchesNameCriteria := fun _ _ => true
    numhandles := fun _ _ => 3
    maxFilesize := fun _ => 100
    fsrawWrite := fun _ _ _ v => (dp, v)
    fsrawWriteData := fun _ v => (.error ip, v) }

/-- The data partition fails; the code waits for the close. -/
theorem write_failures_reported_close :
    let L := failingLibltfs (-ltfsWriteError) (-ltfsWriteError)
    let act : Act Unit := .dataRound requestPartial 0
    let u := runActs L [.write 0 [1, 1] 0] (Unified.init 4 64 ())
    ∃ h ∈ act.calls L u,
      ((∃ r ∈ h.discarded L, r.state ≠ requestIp) →
        (act.Asks h.d ∧ (∃ e < 0, act.result L u = some e) ∧ writeCode (act.exec L u) h.d = 0) ∨
        ∃ e < 0, writeCode (act.exec L u) h.d = e ∧
          Reported L h.d e [.close 0 true] (act.exec L u)) ∧
      (¬ h.Records L → h.req.state = requestIp ∧ OutOfSpace h.tapeRet ∧
        ∀ r ∈ h.discarded L, r.state = requestIp) := by
  intro L act u
  have hL : Lawful L := by
    refine ⟨fun data vol ret hret => ?_, fun _ _ _ => rfl, fun _ _ => rfl⟩
    cases hret
    decide
  have hne : act.calls L u ≠ [] := List.isEmpty_eq_false_iff.mp (by decide +kernel)
  refine ⟨(act.calls L u).head hne, List.head_mem hne, ?_⟩
  exact write_failures_reported hL (Unified.init 4 64 ()) (fun d => le_refl 0)
    [.write 0 [1, 1] 0] [.close 0 true] act
    ⟨Act.sound_of_ne_indexRound (fun d => nofun), Act.sound_of_ne_indexRound (fun d => nofun),
      Act.sound_of_ne_indexRound (fun d => nofun), trivial⟩ _ (List.head_mem hne)

/-- A permanent error on the index partition, after which the lock status is
updated: the byte at 8, which is nowhere on tape, is discarded, no code is recorded
and the close reports success. -/
theorem permanent_error_unrecorded :
    let L := failingLibltfs 0 (-edevWritePerm)
    let u := runActs L [.write 0 [1] 0, .dataRound requestPartial 0, .write 0 [2] 8]
      (Unified.init 4 64 ())
    let u' := (Act.indexRound 0).exec L u
    (((Act.indexRound 0).calls L u).any fun h =>
        (h.discarded L).any fun r => decide (r.offset = 8 ∧ r.state ≠ requestIp)) = true ∧
      writeCode u' 0 = 0 ∧ (Act.close 0 true).result L u' = some 0 := by
  decide +kernel

end Ltfs.Sched
