import Mathlib.Data.List.Nodup
import Mathlib.Data.List.TakeWhile
import Ltfs.Sched.Counters
import Ltfs.Sched.PendingErrors

/-!
# Shutdown of the scheduler

`unified_destroy` has the writer thread flush every dentry on the data partition
queue and the working set. `_unified_flush_all` stops at the first dentry whose
flush reports an error, and a flush reports a pending error before it writes
anything. So of an arbitrary state those requests reach the tape whose dentries
stand before the first one with a pending error: `shutdown_writes_iff`.

In the states the scheduler gets into there is no such dentry in the queues, since
whoever records an error takes the dentry out of them: `shutdown_writes_of_run`.

The writes are observed through a log: `Libltfs.traced` is any libltfs with a
record of its successful writes to the data partition.
-/

namespace Ltfs.Sched

open RequestState

/-! ## Logging the writes -/

/-- A write to the data partition. -/
structure Written where
  d : ℕ
  offset : ℕ
  data : List UInt8
deriving DecidableEq, Repr

section Trace

variable {V : Type}

/-- The same libltfs with a log of its successful writes to the data partition. -/
def Libltfs.traced (L : Libltfs V) : Libltfs (V × List Written) where
  blocksize := fun v => L.blocksize v.1
  dentrySize := fun d v => L.dentrySize d v.1
  matchesNameCriteria := fun d v => L.matchesNameCriteria d v.1
  deleted := fun d v => L.deleted d v.1
  numhandles := fun d v => L.numhandles d v.1
  maxFilesize := fun v => L.maxFilesize v.1
  tapeReadonly := fun v => L.tapeReadonly v.1
  partitionReadonly := fun p v => L.partitionReadonly p v.1
  getVolumeLock := fun v => ((L.getVolumeLock v.1).1, (L.getVolumeLock v.1).2, v.2)
  fsrawRead := fun d size offset v =>
    ((L.fsrawRead d size offset v.1).1, (L.fsrawRead d size offset v.1).2, v.2)
  fsrawWrite := fun d data offset v =>
    let w := L.fsrawWrite d data offset v.1
    (w.1, w.2, if w.1 < 0 then v.2 else v.2 ++ [⟨d, offset, data⟩])
  fsrawWriteData := fun data v =>
    ((L.fsrawWriteData data v.1).1, (L.fsrawWriteData data v.1).2, v.2)
  fsrawAddExtent := fun d ext v =>
    ((L.fsrawAddExtent d ext v.1).1, (L.fsrawAddExtent d ext v.1).2, v.2)
  fsrawTruncate := fun d length v =>
    ((L.fsrawTruncate d length v.1).1, (L.fsrawTruncate d length v.1).2, v.2)
  fsrawGetDentry := fun d v => (L.fsrawGetDentry d v.1, v.2)
  fsrawPutDentry := fun d v => (L.fsrawPutDentry d v.1, v.2)
  fsrawClose := fun d v => (L.fsrawClose d v.1, v.2)
  setCartVolumeLockStatus := fun v =>
    ((L.setCartVolumeLockStatus v.1).1, (L.setCartVolumeLockStatus v.1).2, v.2)
  writeIndexAfterPerm := fun ret v => (L.writeIndexAfterPerm ret v.1, v.2)

/-- A scheduler state with an empty log. -/
def Unified.traced (u : Unified V) : Unified (V × List Written) where
  cacheSize := u.cacheSize
  workingSet := u.workingSet
  dpQueue := u.dpQueue
  ipQueue := u.ipQueue
  extQueue := u.extQueue
  wsCount := u.wsCount
  dpCount := u.dpCount
  ipCount := u.ipCount
  wsRequestCount := u.wsRequestCount
  dpRequestCount := u.dpRequestCount
  ipRequestCount := u.ipRequestCount
  pool := u.pool
  mem := u.mem
  priv := u.priv
  vol := (u.vol, [])

/-! ## Which dentries are reached -/

/-- The queues and the per-dentry counters agree with the request lists. -/
structure QueuesOk (u : Unified V) : Prop where
  mem_dpQueue : ∀ d, d ∈ u.dpQueue ↔ ∃ dpr, u.priv d = some dpr ∧ dpr.inDpQueue ≠ 0
  mem_workingSet : ∀ d, d ∈ u.workingSet ↔ ∃ dpr, u.priv d = some dpr ∧ dpr.inWorkingSet ≠ 0
  nodup_dpQueue : u.dpQueue.Nodup
  nodup_workingSet : u.workingSet.Nodup
  count_dp : ∀ d dpr, u.priv d = some dpr →
    dpr.inDpQueue = dpr.requests.countP fun r => decide (r.state = requestDp)
  count_ws : ∀ d dpr, u.priv d = some dpr →
    dpr.inWorkingSet = dpr.requests.countP fun r => decide (r.state = requestPartial)

/-- The dentry has a write error nobody has been told about yet. -/
def pending (u : Unified V) (d : ℕ) : Bool :=
  (u.priv d).any fun dpr => decide (dpr.writeError < 0)

/-- The request still has to go to the data partition. -/
def WriteRequest.dirty (r : WriteRequest) : Bool := decide (r.state ≠ requestIp)

/-- The writes that a list of requests of `d` stands for. -/
def writesOf (d : ℕ) (l : List WriteRequest) : List Written :=
  (l.filter WriteRequest.dirty).map fun r => ⟨d, r.offset, r.data⟩

/-- The writes a dentry has queued. -/
def queuedWrites (u : Unified V) (d : ℕ) : List Written :=
  (u.priv d).elim [] fun dpr => writesOf d dpr.requests

/-- The order in which `_unified_flush_all` goes through the dentries. -/
def walkOrder (u : Unified V) : List ℕ :=
  u.dpQueue ++ u.workingSet.filter fun d => decide (d ∉ u.dpQueue)

/-- The dentries before the first one with a pending error. -/
def reached (u : Unified V) : List ℕ := (walkOrder u).takeWhile fun d => ! pending u d

/-! ## Flushing one dentry -/

/-- The contexts agree on what the shutdown looks at: errors, the two queues it
walks through, and the log. -/
structure SameWalk (c c' : Ctx (V × List Written)) : Prop where
  dpQueue : c'.u.dpQueue = c.u.dpQueue
  workingSet : c'.u.workingSet = c.u.workingSet
  priv : c'.u.priv = c.u.priv
  vol : c'.u.vol = c.u.vol
  writeIp : c'.dpr.writeIp = c.dpr.writeIp
  writeError : c'.dpr.writeError = c.dpr.writeError

theorem SameWalk.trans {c₁ c₂ c₃ : Ctx (V × List Written)} (h : SameWalk c₁ c₂)
    (h' : SameWalk c₂ c₃) : SameWalk c₁ c₃ :=
  ⟨h'.dpQueue.trans h.dpQueue, h'.workingSet.trans h.workingSet, h'.priv.trans h.priv,
    h'.vol.trans h.vol, h'.writeIp.trans h.writeIp, h'.writeError.trans h.writeError⟩

theorem updateQueueMembership_ip_sameWalk (add all : Bool) (d : ℕ) (c : Ctx (V × List Written)) :
    SameWalk c (updateQueueMembership add all requestIp d c) := by
  unfold updateQueueMembership
  cases add <;> exact ⟨rfl, rfl, rfl, rfl, rfl, rfl⟩

/-- Merging an index partition request only updates the index partition queue. -/
theorem srcLog_ip {cs : ℕ} {dest src : WriteRequest} (h : src.state = requestIp) :
    ∀ q ∈ (mergeRequests cs dest src).srcLog, q.queue = requestIp := by
  have htrim : ∀ n d s b p, s.state = requestIp → ∀ q ∈ (trimSource n d s b p).srcLog,
      q.queue = requestIp := by
    intro n d s b p hs q hq
    unfold trimSource at hq
    split at hq
    · split at hq
      · dsimp only at hq
        rw [if_neg (by rw [hs]; decide)] at hq
        cases hq
      · rw [List.mem_singleton.mp hq]
        exact hs
    · cases hq
  unfold mergeRequests
  split
  · simp
  · dsimp only
    split
    · exact htrim _ _ _ _ _ ((promote_state_ip _ _).mpr h)
    · exact htrim _ _ _ _ _ h

theorem mergePrev_sameWalk (d : ℕ) (kept : List WriteRequest) {req : WriteRequest}
    (hip : req.state = requestIp) (c : Ctx (V × List Written)) :
    SameWalk c (mergePrev d kept req c).2 := by
  have hlog : ∀ (log : List QueueUpdate) (c : Ctx (V × List Written)),
      (∀ q ∈ log, q.queue = requestIp) → SameWalk c (applyLog log d c) := by
    intro log
    unfold applyLog
    induction log with
    | nil => exact fun c _ => ⟨rfl, rfl, rfl, rfl, rfl, rfl⟩
    | cons q log ih =>
      intro c hq
      rw [List.foldl_cons, hq q (by simp)]
      exact (updateQueueMembership_ip_sameWalk _ _ d c).trans (ih _ fun p hp => hq p (by simp [hp]))
  unfold mergePrev
  cases kept.getLast? with
  | none => exact ⟨rfl, rfl, rfl, rfl, rfl, rfl⟩
  | some dest =>
    dsimp only
    set m := mergeRequests c.u.cacheSize dest req
    set size := if m.updated = true then max c.dpr.fileSize m.dest.limit else c.dpr.fileSize
    have h := hlog m.srcLog { c with dpr := { c.dpr with fileSize := size } } (srcLog_ip hip)
    split
    · exact ⟨h.dpQueue, h.workingSet, h.priv, h.vol, h.writeIp, h.writeError⟩
    · exact ⟨h.dpQueue, h.workingSet, h.priv, h.vol, h.writeIp, h.writeError⟩

variable {L : Libltfs V}

/-- When every write succeeds, the loop writes all requests that are not on the
data partition yet, in list order, and nothing else happens that the shutdown
would notice. -/
theorem flushLoop_trace (hL : ∀ d data offset v, 0 ≤ (L.fsrawWrite d data offset v).1) (d : ℕ)
    (rest : List WriteRequest) : ∀ (kept : List WriteRequest) (c : Ctx (V × List Written)),
    (flushLoop L.traced d kept rest c).u.vol.2 = c.u.vol.2 ++ writesOf d rest ∧
    (flushLoop L.traced d kept rest c).u.workingSet = c.u.workingSet ∧
    (flushLoop L.traced d kept rest c).u.priv = c.u.priv ∧
    (flushLoop L.traced d kept rest c).dpr.writeError = c.dpr.writeError := by
  induction rest with
  | nil =>
    intro kept c
    simp [flushLoop, writesOf]
  | cons req rest ih =>
    intro kept c
    unfold flushLoop
    by_cases hip : req.state = requestIp
    · -- on the data partition already
      rw [if_pos hip]
      have hm := mergePrev_sameWalk d kept hip c
      rcases ih (mergePrev d kept req c).1 (mergePrev d kept req c).2 with ⟨h1, h2, h3, h4⟩
      refine ⟨?_, h2.trans hm.workingSet, h3.trans hm.priv, h4.trans hm.writeError⟩
      rw [h1, hm.vol]
      simp [writesOf, WriteRequest.dirty, hip]
    · rw [if_neg hip]
      have hok : ¬ (L.fsrawWrite d req.data req.offset c.u.vol.1).1 < 0 := not_lt.mpr (hL _ _ _ _)
      have hw : L.traced.fsrawWrite d req.data req.offset c.u.vol
          = ((L.fsrawWrite d req.data req.offset c.u.vol.1).1,
            (L.fsrawWrite d req.data req.offset c.u.vol.1).2,
            c.u.vol.2 ++ [⟨d, req.offset, req.data⟩]) := by
        simp [Libltfs.traced, hok]
      rw [hw]
      dsimp only
      rw [if_neg hok]
      have hwrites : c.u.vol.2 ++ writesOf d (req :: rest)
          = c.u.vol.2 ++ [⟨d, req.offset, req.data⟩] ++ writesOf d rest := by
        simp [writesOf, WriteRequest.dirty, hip]
      rw [hwrites]
      set c₁ : Ctx (V × List Written) := { c with u := { c.u with
        vol := ((L.fsrawWrite d req.data req.offset c.u.vol.1).2,
          c.u.vol.2 ++ [⟨d, req.offset, req.data⟩]) } } with hc₁
      split
      · have hm : SameWalk c₁ (toIp d kept req c₁).2 :=
          (updateQueueMembership_ip_sameWalk true false d c₁).trans (mergePrev_sameWalk d kept rfl _)
        rcases ih (toIp d kept req c₁).1 (toIp d kept req c₁).2 with ⟨h1, h2, h3, h4⟩
        refine ⟨?_, h2.trans hm.workingSet, h3.trans hm.priv, h4.trans hm.writeError⟩
        rw [h1, hm.vol]
      · rcases ih kept { c₁ with u := freeRequest req c₁.u } with ⟨h1, h2, h3, h4⟩
        exact ⟨h1, h2, h3, h4⟩

/-- The flush of a dentry with a pending error does nothing but report it. -/
theorem flushUnlocked_pending {u : Unified (V × List Written)} {d : ℕ} (h : pending u d = true) :
    (flushUnlocked L.traced d u).1 < 0 ∧ (flushUnlocked L.traced d u).2.vol = u.vol := by
  unfold pending at h
  unfold flushUnlocked
  cases hd : u.priv d with
  | none =>
    rw [hd] at h
    cases h
  | some dpr =>
    rw [hd] at h
    have herr : dpr.writeError < 0 := by simpa using h
    dsimp only
    rw [if_pos (show (getWriteError dpr).1 < 0 from herr)]
    exact ⟨herr, rfl⟩

/-- The dentry's place in the working set is right. -/
def InPlace (u : Unified V) (d : ℕ) : Prop :=
  ∀ dpr, u.priv d = some dpr →
    (dpr.inWorkingSet ≠ 0 ↔ d ∈ u.workingSet) ∧ (dpr.requests = [] → dpr.inWorkingSet = 0)

/-- The flush of a dentry without one writes its requests and takes it off the
working set; the others do not change. -/
structure FlushSpec (u u' : Unified (V × List Written)) (d : ℕ) : Prop where
  vol : u'.vol.2 = u.vol.2 ++ queuedWrites u d
  workingSet : u'.workingSet = u.workingSet.erase d
  priv : ∀ e, e ≠ d → u'.priv e = u.priv e

theorem flushUnlocked_clean (hL : ∀ d data offset v, 0 ≤ (L.fsrawWrite d data offset v).1)
    {u : Unified (V × List Written)} {d : ℕ} (hp : pending u d = false) (hin : InPlace u d)
    (hsome : u.priv d ≠ none) :
    ¬ (flushUnlocked L.traced d u).1 < 0 ∧ FlushSpec u (flushUnlocked L.traced d u).2 d := by
  unfold pending at hp
  unfold flushUnlocked
  cases hd : u.priv d with
  | none => exact absurd hd hsome
  | some dpr =>
    rw [hd] at hp
    have herr : ¬ dpr.writeError < 0 := by simpa using hp
    rcases hin dpr hd with ⟨hmem, hempty⟩
    dsimp only
    rw [if_neg (show ¬ (getWriteError dpr).1 < 0 from herr)]
    by_cases hnil : (getWriteError dpr).2.requests.isEmpty
    · -- nothing to do, and not on the working set either
      rw [if_pos hnil]
      have hreq : dpr.requests = [] := List.isEmpty_iff.mp hnil
      have hout : d ∉ u.workingSet := by
        rw [← hmem, not_not]
        exact hempty hreq
      refine ⟨by simp, ?_, ?_, fun e he => setPriv_ne u _ he⟩
      · simp [queuedWrites, hd, hreq, writesOf, Unified.setPriv]
      · rw [List.erase_of_not_mem hout]
        rfl
    · rw [if_neg hnil]
      set c₀ : Ctx (V × List Written) := ⟨u, (getWriteError dpr).2⟩ with hc₀
      set c₁ := updateQueueMembership false true requestPartial d
        (updateQueueMembership false true requestDp d c₀) with hc₁
      have hq : QueueOnly c₀ c₁ := (updateQueueMembership_queueOnly _ _ _ _ _).trans
        (updateQueueMembership_queueOnly _ _ _ _ _)
      have hws : c₁.u.workingSet = u.workingSet.erase d := by
        have hstep : c₁.u.workingSet = if dpr.inWorkingSet ≠ 0 ∨ dpr.inWorkingSet = 1 then
            u.workingSet.erase d else u.workingSet := by
          simp [hc₁, hc₀, updateQueueMembership, getWriteError]
        rw [hstep]
        by_cases hz : dpr.inWorkingSet = 0
        · rw [if_neg (by omega), List.erase_of_not_mem (by rw [← hmem]; omega)]
        · rw [if_pos (by omega)]
      rcases flushLoop_trace hL d c₁.dpr.requests [] c₁ with ⟨h1, h2, h3, h4⟩
      have hzero : (flushLoop L.traced d [] c₁.dpr.requests c₁).dpr.writeError = 0 := by
        rw [h4, hq.writeError]
        rfl
      refine ⟨?_, ?_, ?_, ?_⟩
      · simp [getWriteError, hzero]
      · show (flushLoop L.traced d [] c₁.dpr.requests c₁).u.vol.2 = _
        rw [h1, hq.vol, hq.requests]
        simp [queuedWrites, hd, hc₀, getWriteError]
      · show (flushLoop L.traced d [] c₁.dpr.requests c₁).u.workingSet = _
        rw [h2, hws]
      · intro e he
        rw [setPriv_ne _ _ he, h3, hq.priv]

/-! ## Flushing all of them -/

theorem pending_congr {u u' : Unified (V × List Written)} {e : ℕ} (h : u'.priv e = u.priv e) :
    pending u' e = pending u e := by
  unfold pending
  rw [h]

theorem queuedWrites_congr {u u' : Unified (V × List Written)} {e : ℕ}
    (h : u'.priv e = u.priv e) : queuedWrites u' e = queuedWrites u e := by
  unfold queuedWrites
  rw [h]

theorem takeWhile_congr_of_mem {α : Type} {p q : α → Bool} {l : List α}
    (h : ∀ a ∈ l, p a = q a) : l.takeWhile p = l.takeWhile q := by
  induction l with
  | nil => rfl
  | cons a l ih =>
    rw [List.takeWhile_cons, List.takeWhile_cons, h a (by simp), ih fun b hb => h b (by simp [hb])]

/-- One of the loops of `_unified_flush_all`: the dentries before the first pending
error are written, and only they. -/
structure EachSpec (u : Unified (V × List Written)) (l : List ℕ)
    (r : ℤ × Unified (V × List Written)) : Prop where
  vol : r.2.vol.2 = u.vol.2 ++ (l.takeWhile fun d => ! pending u d).flatMap (queuedWrites u)
  stops : (∃ d ∈ l, pending u d = true) → r.1 < 0
  goes : (∀ d ∈ l, pending u d = false) →
    ¬ r.1 < 0 ∧ r.2.workingSet = u.workingSet.diff l ∧ ∀ e, e ∉ l → r.2.priv e = u.priv e

theorem flushEach_spec (hL : ∀ d data offset v, 0 ≤ (L.fsrawWrite d data offset v).1)
    (l : List ℕ) : ∀ u : Unified (V × List Written), l.Nodup → (∀ d ∈ l, u.priv d ≠ none) →
    (∀ d ∈ l, InPlace u d) → EachSpec u l (flushEach L.traced l u) := by
  induction l with
  | nil =>
    intro u _ _ _
    exact ⟨by simp [flushEach], by simp, fun _ => ⟨by simp [flushEach], by simp [flushEach],
      fun _ _ => rfl⟩⟩
  | cons d rest ih =>
    intro u hnodup hsome hin
    rcases List.nodup_cons.mp hnodup with ⟨hnotin, hnodup'⟩
    unfold flushEach
    dsimp only
    cases hp : pending u d with
    | true =>
      -- the loop ends here
      rcases flushUnlocked_pending (L := L) hp with ⟨hret, hvol⟩
      rw [if_pos hret]
      refine ⟨?_, fun _ => hret, ?_⟩
      · rw [hvol, List.takeWhile_cons_of_neg (by simp [hp])]
        simp
      · intro hall
        rw [hall d (by simp)] at hp
        cases hp
    | false =>
      rcases flushUnlocked_clean hL hp (hin d (by simp)) (hsome d (by simp)) with ⟨hret, hf⟩
      rw [if_neg hret]
      set u' := (flushUnlocked L.traced d u).2
      have hne : ∀ e ∈ rest, e ≠ d := by
        rintro e he rfl
        exact hnotin he
      have hpriv : ∀ e ∈ rest, u'.priv e = u.priv e := fun e he => hf.priv e (hne e he)
      have hpend : ∀ e ∈ rest, pending u' e = pending u e := fun e he => pending_congr (hpriv e he)
      have hr := ih u' hnodup' (fun e he => by rw [hpriv e he]; exact hsome e (by simp [he]))
        (by
          intro e he dpr hdpr
          rw [hpriv e he] at hdpr
          rw [hf.workingSet, List.mem_erase_of_ne (hne e he)]
          exact hin e (by simp [he]) dpr hdpr)
      refine ⟨?_, ?_, ?_⟩
      · have htake : rest.takeWhile (fun e => ! pending u' e)
            = rest.takeWhile (fun e => ! pending u e) :=
          takeWhile_congr_of_mem fun e he => by rw [hpend e he]
        have hsub : ∀ e ∈ rest.takeWhile (fun e => ! pending u e),
            queuedWrites u' e = queuedWrites u e := fun e he =>
          queuedWrites_congr (hpriv e ((List.takeWhile_sublist _).subset he))
        rw [hr.vol, hf.vol, htake, List.flatMap_congr hsub,
          List.takeWhile_cons_of_pos (by simp [hp]), List.flatMap_cons, List.append_assoc]
      · rintro ⟨e, he, hpe⟩
        rcases List.mem_cons.mp he with rfl | he
        · rw [hp] at hpe
          cases hpe
        · exact hr.stops ⟨e, he, by rw [hpend e he]; exact hpe⟩
      · intro hall
        rcases hr.goes (fun e he => by rw [hpend e he]; exact hall e (by simp [he])) with ⟨h1, h2, h3⟩
        refine ⟨h1, ?_, ?_⟩
        · rw [h2, hf.workingSet, List.diff_cons]
        · intro e he
          simp only [List.mem_cons, not_or] at he
          rw [h3 e he.2, hf.priv e he.1]

theorem QueuesOk.priv_ne_none {u : Unified (V × List Written)} (h : QueuesOk u) {d : ℕ}
    (hd : d ∈ walkOrder u) : u.priv d ≠ none := by
  unfold walkOrder at hd
  rcases List.mem_append.mp hd with hd | hd
  · rcases (h.mem_dpQueue d).mp hd with ⟨dpr, hdpr, -⟩
    simp [hdpr]
  · rcases (h.mem_workingSet d).mp (List.mem_of_mem_filter hd) with ⟨dpr, hdpr, -⟩
    simp [hdpr]

theorem QueuesOk.inPlace {u : Unified (V × List Written)} (h : QueuesOk u) (d : ℕ) :
    InPlace u d := by
  intro dpr hd
  constructor
  · rw [h.mem_workingSet]
    constructor
    · intro hz
      exact ⟨dpr, hd, hz⟩
    · rintro ⟨dpr', hd', hz⟩
      rw [hd] at hd'
      cases hd'
      exact hz
  · intro hnil
    rw [h.count_ws d dpr hd, hnil]
    rfl

/-- `_unified_flush_all` writes the requests of the dentries it reaches, and no
others; without a pending error among them it gets through. -/
theorem flushAll_trace (hL : ∀ d data offset v, 0 ≤ (L.fsrawWrite d data offset v).1)
    {u : Unified (V × List Written)} (h : QueuesOk u) :
    (flushAll L.traced u).2.vol.2 = u.vol.2 ++ (reached u).flatMap (queuedWrites u) ∧
    ((∀ d ∈ walkOrder u, pending u d = false) → ¬ (flushAll L.traced u).1 < 0) := by
  have hsub : ∀ d ∈ u.dpQueue, d ∈ walkOrder u := fun d hd => List.mem_append_left _ hd
  have h₁ := flushEach_spec hL u.dpQueue u h.nodup_dpQueue
    (fun d hd => h.priv_ne_none (hsub d hd)) (fun d _ => h.inPlace d)
  unfold flushAll reached walkOrder
  dsimp only
  set r := flushEach L.traced u.dpQueue u
  by_cases hall : ∀ d ∈ u.dpQueue, pending u d = false
  · -- the first loop gets through; the second one sees who is still on the working set
    rcases h₁.goes hall with ⟨hret, hws, hpriv⟩
    rw [if_neg hret]
    have hrest : r.2.workingSet = u.workingSet.filter fun d => decide (d ∉ u.dpQueue) := by
      rw [hws, h.nodup_workingSet.sdiff_eq_filter]
    have hout : ∀ d ∈ r.2.workingSet, d ∉ u.dpQueue := by
      intro d hd
      rw [hrest] at hd
      simpa using (List.mem_filter.mp hd).2
    have hsame : ∀ d ∈ r.2.workingSet, r.2.priv d = u.priv d := fun d hd => hpriv d (hout d hd)
    have h₂ := flushEach_spec hL r.2.workingSet r.2
      (by rw [hrest]; exact h.nodup_workingSet.filter _)
      (by
        intro d hd
        rw [hsame d hd]
        apply h.priv_ne_none
        rw [hrest] at hd
        exact List.mem_append_right _ hd)
      (by
        intro d hd dpr hdpr
        rw [hsame d hd] at hdpr
        have hmem : d ∈ u.workingSet := by
          rw [hrest] at hd
          exact List.mem_of_mem_filter hd
        rcases h.inPlace d dpr hdpr with ⟨hi1, hi2⟩
        exact ⟨⟨fun _ => hd, fun _ => hi1.mpr hmem⟩, hi2⟩)
    have htake : r.2.workingSet.takeWhile (fun d => ! pending r.2 d)
        = r.2.workingSet.takeWhile (fun d => ! pending u d) :=
      takeWhile_congr_of_mem fun d hd => by rw [pending_congr (hsame d hd)]
    have hsubset : ∀ d ∈ r.2.workingSet.takeWhile (fun d => ! pending u d),
        queuedWrites r.2 d = queuedWrites u d := fun d hd =>
      queuedWrites_congr (hsame d ((List.takeWhile_sublist _).subset hd))
    have hfirst : u.dpQueue.takeWhile (fun d => ! pending u d) = u.dpQueue :=
      List.takeWhile_eq_self_iff.mpr fun d hd => by simp [hall d hd]
    constructor
    · rw [h₂.vol, h₁.vol, htake, List.flatMap_congr hsubset, hfirst,
        List.takeWhile_append_of_pos (by simpa using hall), List.flatMap_append, List.append_assoc,
        hrest]
    · intro hnone
      refine (h₂.goes fun d hd => ?_).1
      rw [pending_congr (hsame d hd)]
      rw [hrest] at hd
      exact hnone d (List.mem_append_right _ hd)
  · -- the first loop stops at a pending error
    have hstop : ∃ d ∈ u.dpQueue, pending u d = true := by
      push Not at hall
      rcases hall with ⟨d, hd, hp⟩
      exact ⟨d, hd, by simpa using hp⟩
    rw [if_pos (h₁.stops hstop), h₁.vol]
    refine ⟨?_, fun hnone => absurd (fun d hd => hnone d (hsub d hd)) hall⟩
    rw [List.takeWhile_append, if_neg]
    intro hlen
    have hself := List.takeWhile_eq_self_iff.mp
      ((List.takeWhile_sublist fun d => ! pending u d).eq_of_length hlen)
    rcases hstop with ⟨d, hd, hp⟩
    have := hself d hd
    simp [hp] at this

/-! ## The rest of the shutdown -/

/-- Writing to the index partition does not show in the log. -/
theorem indexLoop_trace (d : ℕ) (rest : List WriteRequest) :
    ∀ (kept : List WriteRequest) (c : Ctx (V × List Written)),
    (indexLoop L.traced d kept rest c).u.vol.2 = c.u.vol.2 := by
  induction rest with
  | nil => exact fun _ _ => rfl
  | cons req rest ih =>
    intro kept c
    unfold indexLoop
    by_cases hip : req.state = requestIp
    · rw [if_pos hip]
      dsimp only
      split
      · rw [(handleWriteError_spec _ _ _ _ _).vol]
        rfl
      · split
        · rename_i ret vol hwrite
          have hvol : vol.2 = c.u.vol.2 := by
            simp only [Libltfs.traced, Prod.mk.injEq] at hwrite
            rw [← hwrite.2]
            rfl
          split
          · rw [(handleWriteError_spec _ _ _ _ _).vol]
            exact hvol
          · rw [(handleWriteError_spec _ _ _ _ _).vol]
            exact hvol
        · rename_i block vol hwrite
          have hvol : vol.2 = c.u.vol.2 := by
            simp only [Libltfs.traced, Prod.mk.injEq] at hwrite
            rw [← hwrite.2]
            rfl
          rw [ih]
          show (updateAltExtentlist L.traced _ d _).u.vol.2 = _
          unfold updateAltExtentlist
          split <;> exact hvol
    · rw [if_neg hip]
      exact ih _ _

theorem processIndexEntry_trace (d : ℕ) (u : Unified (V × List Written)) :
    (processIndexEntry L.traced d u).vol.2 = u.vol.2 := by
  unfold processIndexEntry
  cases hd : u.priv d with
  | none => rfl
  | some dpr =>
    dsimp only
    have hq := updateQueueMembership_queueOnly false true requestIp d
      (⟨u, dpr⟩ : Ctx (V × List Written))
    set c := updateQueueMembership false true requestIp d (⟨u, dpr⟩ : Ctx (V × List Written))
    have hl : ((indexLoop L.traced d [] c.dpr.requests c).store d).vol.2 = u.vol.2 := by
      show (indexLoop L.traced d [] c.dpr.requests c).u.vol.2 = _
      rw [indexLoop_trace, hq.vol]
    unfold freeDentryPrivConditional
    split
    · exact hl
    · split
      · exact hl
      · exact hl

theorem freeDentryPriv_trace (d : ℕ) (u : Unified (V × List Written)) :
    (freeDentryPriv L.traced d u).vol.2 = u.vol.2 := by
  have hsave : ∀ (l : List ExtentInfo) (v : V × List Written),
      (l.foldl (fun vol ext => (L.traced.fsrawAddExtent d ext vol).2) v).2 = v.2 := by
    intro l
    induction l with
    | nil => exact fun _ => rfl
    | cons ext l ih =>
      intro v
      rw [List.foldl_cons, ih]
      rfl
  unfold freeDentryPriv
  cases hd : u.priv d with
  | none => rfl
  | some dpr =>
    show (ite _ _ _ : Ctx (V × List Written)).u.vol.2 = _
    split
    · unfold saveAltExtentlist
      split
      · rfl
      · exact hsave _ _
    · rfl

/-- After the flush nothing is written to the data partition any more. -/
theorem unifiedDestroy_trace (u : Unified (V × List Written)) :
    (unifiedDestroy L.traced u).vol.2 = (flushAll L.traced u).2.vol.2 := by
  have hindex : ∀ (l : List ℕ) (u : Unified (V × List Written)),
      (l.foldl (fun u d => processIndexEntry L.traced d u) u).vol.2 = u.vol.2 := by
    intro l
    induction l with
    | nil => exact fun _ => rfl
    | cons d l ih =>
      intro u
      rw [List.foldl_cons, ih, processIndexEntry_trace]
  have hfree : ∀ (l : List ℕ) (u : Unified (V × List Written)),
      (l.foldl (fun u d => freeDentryPriv L.traced d u) u).vol.2 = u.vol.2 := by
    intro l
    induction l with
    | nil => exact fun _ => rfl
    | cons d l ih =>
      intro u
      rw [List.foldl_cons, ih, freeDentryPriv_trace]
  unfold unifiedDestroy writerShutdown processIndexQueue
  rw [hfree, hindex]

theorem QueuesOk.traced {u : Unified V} (h : QueuesOk u) : QueuesOk u.traced :=
  ⟨h.mem_dpQueue, h.mem_workingSet, h.nodup_dpQueue, h.nodup_workingSet, h.count_dp, h.count_ws⟩

/-- At shutdown, with every further tape write succeeding, all queued requests of
all dentries without a pending error are written to the data partition exactly
if each such dentry is reached: if none with a pending error stands before it in
the order of the walk. -/
theorem shutdown_writes_iff (hL : ∀ d data offset v, 0 ≤ (L.fsrawWrite d data offset v).1)
    (u : Unified V) (h : QueuesOk u) :
    (∀ d dpr, u.priv d = some dpr → ¬ dpr.writeError < 0 → ∀ r ∈ dpr.requests,
      r.state ≠ requestIp → ⟨d, r.offset, r.data⟩ ∈ (unifiedDestroy L.traced u.traced).vol.2) ↔
    ∀ d dpr, u.priv d = some dpr → ¬ dpr.writeError < 0 →
      (∃ r ∈ dpr.requests, r.state ≠ requestIp) → d ∈ reached u := by
  have htrace : (unifiedDestroy L.traced u.traced).vol.2
      = (reached u).flatMap (queuedWrites u) := by
    rw [unifiedDestroy_trace, (flushAll_trace hL h.traced).1]
    rfl
  rw [htrace]
  constructor
  · rintro hall d dpr hd herr ⟨r, hr, hstate⟩
    rcases List.mem_flatMap.mp (hall d dpr hd herr r hr hstate) with ⟨e, he, hw⟩
    -- a logged write names the dentry it was queued for
    have hde : d = e := by
      unfold queuedWrites writesOf at hw
      cases hpriv : u.priv e with
      | none =>
        rw [hpriv] at hw
        cases hw
      | some dpr' =>
        rw [hpriv] at hw
        rcases List.mem_map.mp hw with ⟨r', -, heq⟩
        exact (congrArg Written.d heq).symm
    rw [hde]
    exact he
  · intro hall d dpr hd herr r hr hstate
    refine List.mem_flatMap.mpr ⟨d, hall d dpr hd herr ⟨r, hr, hstate⟩, ?_⟩
    unfold queuedWrites writesOf
    rw [hd]
    refine List.mem_map.mpr ⟨r, List.mem_filter.mpr ⟨hr, ?_⟩, rfl⟩
    simpa [WriteRequest.dirty] using hstate

/-! ## After a run -/

/-- The counters and the queues that go with them. -/
theorem CountersOk.queuesOk {u : Unified V} (h : CountersOk u) : QueuesOk u := by
  rcases h with ⟨live, hacc, hown⟩
  have hmem : ∀ s d, d ∈ u.queue s ↔ ∃ dpr, u.priv d = some dpr ∧ dpr.counter s ≠ 0 := by
    intro s d
    rw [← List.count_pos_iff, hacc.queue s d]
    cases hd : u.priv d with
    | none => simp [counterOf]
    | some dpr =>
      simp only [counterOf, Option.elim_some, Option.some.injEq, exists_eq_left', ne_eq,
        ← Nat.pos_iff_ne_zero]
      by_cases hpos : 0 < dpr.counter s
      · simp [hpos]
      · simp [hpos]
  have hnodup : ∀ s, (u.queue s).Nodup := by
    intro s
    rw [List.nodup_iff_count_le_one]
    intro d
    rw [hacc.queue s d]
    split
    · exact le_refl 1
    · exact Nat.zero_le 1
  exact ⟨hmem requestDp, hmem requestPartial, hnodup requestDp, hnodup requestPartial,
    fun d dpr hd => congrFun (hown d dpr hd) requestDp,
    fun d dpr hd => congrFun (hown d dpr hd) requestPartial⟩

/-- The walk comes to every dentry that has something to write. -/
theorem QueuesOk.mem_walkOrder {u : Unified V} (h : QueuesOk u) {d : ℕ} {dpr : DentryPriv}
    (hd : u.priv d = some dpr) {r : WriteRequest} (hr : r ∈ dpr.requests)
    (hstate : r.state ≠ requestIp) : d ∈ walkOrder u := by
  have hcount : ∀ s, r.state = s → dpr.requests.countP (fun r => decide (r.state = s)) ≠ 0 :=
    fun s hs => (List.countP_pos_iff.mpr ⟨r, hr, decide_eq_true hs⟩).ne'
  cases hs : r.state with
  | requestIp => exact absurd hs hstate
  | requestDp =>
    refine List.mem_append_left _ ((h.mem_dpQueue d).mpr ⟨dpr, hd, ?_⟩)
    rw [h.count_dp d dpr hd]
    exact hcount requestDp hs
  | requestPartial =>
    have hmem : d ∈ u.workingSet := by
      refine (h.mem_workingSet d).mpr ⟨dpr, hd, ?_⟩
      rw [h.count_ws d dpr hd]
      exact hcount requestPartial hs
    by_cases hdp : d ∈ u.dpQueue
    · exact List.mem_append_left _ hdp
    · exact List.mem_append_right _ (List.mem_filter.mpr ⟨hmem, decide_eq_true hdp⟩)

/-- A dentry the walk comes to has no pending error if errors stand alone. -/
theorem QueuesOk.not_pending {u : Unified V} (h : QueuesOk u) (halone : ErrorsAlone u) {d : ℕ}
    (hd : d ∈ walkOrder u) : pending u d = false := by
  have hqueued : ∃ dpr, u.priv d = some dpr ∧ ∃ r ∈ dpr.requests, r.state ≠ requestIp := by
    have hfind : ∀ (dpr : DentryPriv) (s : RequestState), s ≠ requestIp →
        dpr.requests.countP (fun r => decide (r.state = s)) ≠ 0 →
        ∃ r ∈ dpr.requests, r.state ≠ requestIp := by
      intro dpr s hs hcount
      rcases List.countP_pos_iff.mp (Nat.pos_of_ne_zero hcount) with ⟨r, hr, hstate⟩
      refine ⟨r, hr, ?_⟩
      rw [of_decide_eq_true hstate]
      exact hs
    rcases List.mem_append.mp hd with hd | hd
    · rcases (h.mem_dpQueue d).mp hd with ⟨dpr, hdpr, hne⟩
      rw [h.count_dp d dpr hdpr] at hne
      exact ⟨dpr, hdpr, hfind dpr requestDp (by decide) hne⟩
    · rcases (h.mem_workingSet d).mp (List.mem_of_mem_filter hd) with ⟨dpr, hdpr, hne⟩
      rw [h.count_ws d dpr hdpr] at hne
      exact ⟨dpr, hdpr, hfind dpr requestPartial (by decide) hne⟩
  rcases hqueued with ⟨dpr, hdpr, r, hr, hstate⟩
  have hcode : ¬ dpr.writeError < 0 := fun hneg => hstate (halone d dpr hdpr hneg r hr)
  simpa [pending, hdpr] using hcode

/-- Whatever has gone wrong before, at shutdown, with every further tape write succeeding, the
flush gets through and all queued requests of all dentries are written to the data partition; a
dentry with a pending error has none. -/
theorem shutdown_writes_of_run (L L' : Libltfs V)
    (hL' : ∀ d data offset v, 0 ≤ (L'.fsrawWrite d data offset v).1)
    (cacheSize maxCapacity : ℕ) (vol : V) (ops : List (Op V)) :
    let u := run L ops (Unified.init cacheSize maxCapacity vol)
    ¬ (flushAll L'.traced u.traced).1 < 0 ∧
    ∀ d dpr, u.priv d = some dpr →
      (dpr.writeError < 0 → ∀ r ∈ dpr.requests, r.state = requestIp) ∧
      ∀ r ∈ dpr.requests, r.state ≠ requestIp →
        ⟨d, r.offset, r.data⟩ ∈ (unifiedDestroy L'.traced u.traced).vol.2 := by
  intro u
  have hqueues : QueuesOk u :=
    (run_counters L ops (init_counters cacheSize maxCapacity vol)).queuesOk
  have halone : ErrorsAlone u := alone_of_run ops (init_alone cacheSize maxCapacity vol)
  have hclear : ∀ d ∈ walkOrder u, pending u d = false := fun d hd => hqueues.not_pending halone hd
  refine ⟨(flushAll_trace hL' hqueues.traced).2 hclear, fun d dpr hd => ⟨halone d dpr hd, ?_⟩⟩
  intro r hr hstate
  have hcode : ¬ dpr.writeError < 0 := fun hneg => hstate (halone d dpr hd hneg r hr)
  refine (shutdown_writes_iff hL' u hqueues).mpr ?_ d dpr hd hcode r hr hstate
  rintro e dpr' he - ⟨r', hr', hstate'⟩
  have hall : reached u = walkOrder u :=
    List.takeWhile_eq_self_iff.mpr fun d hd => by simp [hclear d hd]
  rw [hall]
  exact hqueues.mem_walkOrder he hr' hstate'

end Trace

/-! ## Two dentries -/

/-- Two files with one unwritten byte each; no run leads to this with an error of the first one. -/
def twoFiles (err : ℤ) : Unified Unit :=
  let dpr := fun (err : ℤ) (byte : UInt8) => (⟨1, false, err, 1, 0, 0,
    [⟨0, [byte], requestPartial, 0⟩], []⟩ : DentryPriv)
  { Unified.init 16 64 () with
    workingSet := [0, 1]
    wsCount := 2
    wsRequestCount := 2
    priv := fun d => if d = 0 then some (dpr err 7) else if d = 1 then some (dpr 0 8) else none }

theorem twoFiles_queuesOk (err : ℤ) : QueuesOk (twoFiles err) := by
  have hpriv : ∀ d dpr, (twoFiles err).priv d = some dpr →
      (d = 0 ∨ d = 1) ∧ dpr.inWorkingSet = 1 ∧ dpr.inDpQueue = 0 ∧
      dpr.requests.map WriteRequest.state = [requestPartial] := by
    intro d dpr h
    simp only [twoFiles] at h
    split at h
    · cases h
      exact ⟨Or.inl ‹_›, rfl, rfl, rfl⟩
    · split at h
      · cases h
        exact ⟨Or.inr ‹_›, rfl, rfl, rfl⟩
      · cases h
  have hcount : ∀ (l : List WriteRequest) (s : RequestState), l.map WriteRequest.state = [requestPartial] →
      (l.countP fun r => decide (r.state = s)) = if s = requestPartial then 1 else 0 := by
    intro l s h
    have hc : (l.countP fun r => decide (r.state = s))
        = (l.map WriteRequest.state).countP fun t => decide (t = s) := by
      rw [List.countP_map]
      rfl
    rw [hc, h]
    cases s <;> rfl
  refine ⟨?_, ?_, by simp [twoFiles, Unified.init], by simp [twoFiles], ?_, ?_⟩
  · intro d
    constructor
    · intro hd
      cases hd
    · rintro ⟨dpr, hd, hz⟩
      exact absurd (hpriv d dpr hd).2.2.1 hz
  · intro d
    constructor
    · intro hd
      simp only [twoFiles, List.mem_cons, List.not_mem_nil, or_false] at hd
      rcases hd with rfl | rfl
      · exact ⟨_, rfl, one_ne_zero⟩
      · exact ⟨_, rfl, one_ne_zero⟩
    · rintro ⟨dpr, hd, -⟩
      rcases (hpriv d dpr hd).1 with rfl | rfl
      · simp [twoFiles]
      · simp [twoFiles]
  · intro d dpr hd
    rw [(hpriv d dpr hd).2.2.1, hcount _ _ (hpriv d dpr hd).2.2.2]
    rfl
  · intro d dpr hd
    rw [(hpriv d dpr hd).2.1, hcount _ _ (hpriv d dpr hd).2.2.2]
    rfl

/-- A pending error of the first file would keep the second one from being written. -/
theorem shutdown_loses_second_file : QueuesOk (twoFiles (-ltfsWriteError)) ∧
    ¬ ∀ d dpr, (twoFiles (-ltfsWriteError)).priv d = some dpr → ¬ dpr.writeError < 0 →
      ∀ r ∈ dpr.requests, r.state ≠ requestIp → ⟨d, r.offset, r.data⟩ ∈
        (unifiedDestroy idleLibltfs.traced (twoFiles (-ltfsWriteError)).traced).vol.2 := by
  refine ⟨twoFiles_queuesOk _, fun h => ?_⟩
  have hin := h 1 _ rfl (by decide) ⟨0, [8], requestPartial, 0⟩ (by decide) (by decide)
  revert hin
  decide

/-- The first file runs into an error, the second one is written to afterwards. -/
def failedThenWritten : Unified Unit :=
  run (failingLibltfs (-ltfsWriteError) 0)
    [.write 0 [7] 0, .processQueue requestPartial, .write 1 [8] 0] (Unified.init 16 64 ())

/-- The error is still pending, and the byte of the second file is written. -/
theorem shutdown_writes_beside_error : writeCode failedThenWritten 0 = -ltfsWriteError ∧
    ⟨1, 0, [8]⟩ ∈ (unifiedDestroy idleLibltfs.traced failedThenWritten.traced).vol.2 := by
  refine ⟨by decide, ?_⟩
  exact ((shutdown_writes_of_run (failingLibltfs (-ltfsWriteError) 0) idleLibltfs
    (fun _ _ _ _ => le_refl 0) 16 64 ()
    [.write 0 [7] 0, .processQueue requestPartial, .write 1 [8] 0]).2 1
      ⟨1, true, 0, 1, 0, 0, [⟨0, [8], requestPartial, 1⟩], []⟩ rfl).2
      ⟨0, [8], requestPartial, 1⟩ (by simp) (by decide)

end Ltfs.Sched
