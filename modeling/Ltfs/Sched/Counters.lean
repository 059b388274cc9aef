import Mathlib.Algebra.BigOperators.Group.Finset.Basic
import Ltfs.Sched.Tally
import Ltfs.Sched.Lists

/-!
# Counters and queues of the scheduler

Every `dentry_priv` counts its requests by state, the scheduler has a queue of the dentries
whose counter is positive and global counters beside it. None of these numbers is ever
recomputed: each place that changes a request pairs the change with an update of its own.

* `Accounted` — queues and global counters agree with the counters of the dentries.
* `Counted` — the same while an operation works on one dentry, whose counters are at `t`.
  The loops clear a counter first and then take the requests out one by one, so in between
  `t` counts another list than the one in the `dentry_priv`.
* `counters_of_run` — after every operation everything agrees with the request lists.
-/

namespace Ltfs.Sched

open RequestState

variable {V : Type}

/-! ## The numbers -/

/-- `in_working_set`, `in_dp_queue` and `in_ip_queue`. -/
def DentryPriv.counter (dpr : DentryPriv) : RequestState → ℕ
  | requestPartial => dpr.inWorkingSet
  | requestDp => dpr.inDpQueue
  | requestIp => dpr.inIpQueue

/-- What the dentry contributes to the global request counter: requests that will go to the
index partition as well are no `dp_request_count` ones. -/
def DentryPriv.weight (dpr : DentryPriv) (s : RequestState) : ℕ :=
  if s = requestDp ∧ dpr.writeIp = true then 0 else dpr.counter s

def Unified.queue (u : Unified V) : RequestState → List ℕ
  | requestPartial => u.workingSet
  | requestDp => u.dpQueue
  | requestIp => u.ipQueue

def Unified.queueCount (u : Unified V) : RequestState → ℤ
  | requestPartial => u.wsCount
  | requestDp => u.dpCount
  | requestIp => u.ipCount

def Unified.requestCount (u : Unified V) : RequestState → ℤ
  | requestPartial => u.wsRequestCount
  | requestDp => u.dpRequestCount
  | requestIp => u.ipRequestCount

def counterOf (p : Option DentryPriv) (s : RequestState) : ℕ := p.elim 0 fun dpr => dpr.counter s

def weightOf (p : Option DentryPriv) (s : RequestState) : ℕ := p.elim 0 fun dpr => dpr.weight s

/-- Queues and global counters agree with the counters of the `dentry_priv`s, which are those
of the dentries in `live`. -/
structure Accounted (live : Finset ℕ) (u : Unified V) : Prop where
  members : ∀ d, d ∈ live ↔ (u.priv d).isSome
  queue : ∀ s d, (u.queue s).count d = if 0 < counterOf (u.priv d) s then 1 else 0
  queueCount : ∀ s, u.queueCount s = (u.queue s).length
  requestCount : ∀ s, u.requestCount s = ((∑ d ∈ live, weightOf (u.priv d) s : ℕ) : ℤ)

/-- And the counters agree with the request lists. -/
def CountersOk (u : Unified V) : Prop :=
  ∃ live, Accounted live u ∧ ∀ d dpr, u.priv d = some dpr → dpr.counter = tally dpr.requests

/-- An operation works on `d`, whose counters are at `t`. -/
structure Counted (live : Finset ℕ) (d : ℕ) (t : RequestState → ℕ) (c : Ctx V) : Prop where
  accounted : Accounted live (c.store d)
  own : c.dpr.counter = t
  others : ∀ e ≠ d, ∀ dpr, c.u.priv e = some dpr → dpr.counter = tally dpr.requests

/-! ## One membership update -/

/-- What a change of a counter from `n` to `m` does to the queue. -/
def requeue (d n m : ℕ) (queue : List ℕ) : List ℕ :=
  if n = 0 ∧ 0 < m then queue ++ [d] else if 0 < n ∧ m = 0 then queue.erase d else queue

/-- Counters of `d` may change, and queues and global counters have followed. -/
structure Follows (d : ℕ) (c c' : Ctx V) : Prop where
  priv : c'.u.priv = c.u.priv
  queue : ∀ s, c'.u.queue s = requeue d (c.dpr.counter s) (c'.dpr.counter s) (c.u.queue s)
  queueCount : ∀ s, c'.u.queueCount s = c.u.queueCount s
    + (if 0 < c'.dpr.counter s then 1 else 0) - (if 0 < c.dpr.counter s then 1 else 0)
  requestCount : ∀ s, c'.u.requestCount s = c.u.requestCount s + c'.dpr.weight s - c.dpr.weight s

theorem requeue_stay {d n m : ℕ} (h : 0 < n ↔ 0 < m) (queue : List ℕ) :
    requeue d n m queue = queue := by
  unfold requeue
  rw [if_neg (by omega), if_neg (by omega)]

theorem requeue_enter {d n m : ℕ} (hn : n = 0) (hm : 0 < m) (queue : List ℕ) :
    requeue d n m queue = queue ++ [d] :=
  if_pos ⟨hn, hm⟩

theorem requeue_leave {d n m : ℕ} (hn : 0 < n) (hm : m = 0) (queue : List ℕ) :
    requeue d n m queue = queue.erase d := by
  unfold requeue
  rw [if_neg (by omega), if_pos ⟨hn, hm⟩]

theorem requeue_count_ne {d e n m : ℕ} (h : e ≠ d) (queue : List ℕ) :
    (requeue d n m queue).count e = queue.count e := by
  unfold requeue
  split
  · simp [List.count_append, Ne.symm h]
  · split
    · exact List.count_erase_of_ne h
    · rfl

/-- The dentry stays in the queue as often as its counter says, and the length follows. -/
theorem requeue_self {d n : ℕ} (m : ℕ) {queue : List ℕ}
    (h : queue.count d = if 0 < n then 1 else 0) :
    (requeue d n m queue).count d = (if 0 < m then 1 else 0) ∧
      ((requeue d n m queue).length : ℤ)
        = queue.length + (if 0 < m then 1 else 0) - (if 0 < n then 1 else 0) := by
  by_cases hn : 0 < n
  · rw [if_pos hn] at h
    have hmem : d ∈ queue := List.count_pos_iff.mp (by omega)
    have hpos := List.length_pos_of_mem hmem
    by_cases hm : 0 < m
    · rw [requeue_stay (by simp [hn, hm]), if_pos hm, if_pos hm, if_pos hn]
      exact ⟨h, by omega⟩
    · rw [requeue_leave hn (by omega), List.count_erase_self, List.length_erase_of_mem hmem,
        if_neg hm, if_neg hm, if_pos hn]
      exact ⟨by omega, by omega⟩
  · rw [if_neg hn] at h
    by_cases hm : 0 < m
    · rw [requeue_enter (by omega) hm, if_pos hm, if_pos hm, if_neg hn]
      constructor
      · simp [h]
      · simp
    · rw [requeue_stay (by simp [hn, hm]), if_neg hm, if_neg hm, if_neg hn]
      exact ⟨h, by omega⟩

theorem store_priv_self (c : Ctx V) (d : ℕ) : (c.store d).priv d = some c.dpr := setPriv_self _ _ _

theorem store_priv_ne (c : Ctx V) {d e : ℕ} (h : e ≠ d) : (c.store d).priv e = c.u.priv e :=
  setPriv_ne _ _ h

theorem Follows.accounted {live : Finset ℕ} {d : ℕ} {c c' : Ctx V} (hf : Follows d c c')
    (h : Accounted live (c.store d)) : Accounted live (c'.store d) := by
  have hself : ∀ s, (c.u.queue s).count d = if 0 < c.dpr.counter s then 1 else 0 := by
    intro s
    have := h.queue s d
    rw [store_priv_self] at this
    exact this
  have hother : ∀ e ≠ d, (c'.store d).priv e = (c.store d).priv e := by
    intro e he
    rw [store_priv_ne _ he, store_priv_ne _ he, hf.priv]
  have hd : d ∈ live := by
    rw [h.members, store_priv_self]
    rfl
  constructor
  · intro e
    rw [h.members]
    by_cases he : e = d
    · subst he
      rw [store_priv_self, store_priv_self]
      rfl
    · rw [hother e he]
  · intro s e
    show (c'.u.queue s).count e = _
    rw [hf.queue]
    by_cases he : e = d
    · subst he
      rw [store_priv_self]
      exact (requeue_self _ (hself s)).1
    · rw [requeue_count_ne he, hother e he]
      exact h.queue s e
  · intro s
    show c'.u.queueCount s = ((c'.u.queue s).length : ℤ)
    have hcount : c.u.queueCount s = ((c.u.queue s).length : ℤ) := h.queueCount s
    rw [hf.queueCount, hf.queue, (requeue_self _ (hself s)).2, hcount]
  · intro s
    show c'.u.requestCount s = _
    have hcount : c.u.requestCount s = _ := h.requestCount s
    -- only the summand of `d` changes
    have hrest : ∑ e ∈ live.erase d, weightOf ((c'.store d).priv e) s
        = ∑ e ∈ live.erase d, weightOf ((c.store d).priv e) s := by
      apply Finset.sum_congr rfl
      intro e he
      rw [hother e (Finset.ne_of_mem_erase he)]
    rw [hf.requestCount, hcount, ← Finset.add_sum_erase live _ hd, ← Finset.add_sum_erase live _ hd,
      hrest, store_priv_self, store_priv_self]
    simp only [weightOf, Option.elim_some]
    omega

/-- The counters after an update that clears one of them. -/
def without (queue : RequestState) (t : RequestState → ℕ) (s : RequestState) : ℕ :=
  if s = queue then 0 else t s

theorem updateQueueMembership_counter (add all : Bool) (queue : RequestState) (d : ℕ) (c : Ctx V) :
    (updateQueueMembership add all queue d c).dpr.counter
      = if all ∧ ! add then without queue c.dpr.counter
        else (QueueUpdate.mk add queue).apply c.dpr.counter := by
  funext s
  cases queue <;> cases add <;> cases all <;> cases s <;>
    simp [updateQueueMembership, DentryPriv.counter, without, QueueUpdate.apply]

theorem updateQueueMembership_follows (add all : Bool) (queue : RequestState) (d : ℕ) (c : Ctx V) :
    Follows d c (updateQueueMembership add all queue d c) := by
  constructor
  · cases queue <;> cases add <;> rfl
  · intro s
    cases queue <;> cases add <;> cases all <;> cases s <;>
      simp only [updateQueueMembership, DentryPriv.counter, Unified.queue, requeue] <;>
      grind
  · intro s
    cases queue <;> cases add <;> cases all <;> cases s <;>
      simp only [updateQueueMembership, DentryPriv.counter, Unified.queueCount] <;>
      grind
  · intro s
    cases queue <;> cases add <;> cases all <;> cases s <;>
      simp only [updateQueueMembership, DentryPriv.counter, DentryPriv.weight,
        Unified.requestCount] <;>
      grind

/-! ## Steps of an operation -/

/-- Nothing that is counted has changed. -/
structure SameBooks (c c' : Ctx V) : Prop where
  queue : c'.u.queue = c.u.queue
  queueCount : c'.u.queueCount = c.u.queueCount
  requestCount : c'.u.requestCount = c.u.requestCount
  priv : c'.u.priv = c.u.priv
  counter : c'.dpr.counter = c.dpr.counter
  writeIp : c'.dpr.writeIp = c.dpr.writeIp

theorem SameBooks.weight {c c' : Ctx V} (h : SameBooks c c') (s : RequestState) :
    c'.dpr.weight s = c.dpr.weight s := by
  unfold DentryPriv.weight
  rw [h.writeIp, h.counter]

theorem SameBooks.follows {c c' : Ctx V} (h : SameBooks c c') (d : ℕ) : Follows d c c' := by
  constructor
  · exact h.priv
  · intro s
    rw [h.queue, h.counter, requeue_stay Iff.rfl]
  · intro s
    rw [h.queueCount, h.counter]
    omega
  · intro s
    rw [h.requestCount, h.weight]
    omega

section Counted

variable {live : Finset ℕ} {d : ℕ} {t : RequestState → ℕ} {c : Ctx V}

theorem Counted.follows {c' : Ctx V} (h : Counted live d t c) (hf : Follows d c c') :
    Counted live d c'.dpr.counter c' := by
  refine ⟨hf.accounted h.accounted, rfl, ?_⟩
  rw [hf.priv]
  exact h.others

theorem Counted.same {c' : Ctx V} (h : Counted live d t c) (hs : SameBooks c c') :
    Counted live d t c' := by
  have hc := h.follows (hs.follows d)
  rw [hs.counter, h.own] at hc
  exact hc

theorem Counted.congr {t' : RequestState → ℕ} (h : Counted live d t c) (ht : ∀ s, t s = t' s) :
    Counted live d t' c := by
  rw [← funext ht]
  exact h

/-- The update for one request. -/
theorem Counted.update (h : Counted live d t c) (add : Bool) (queue : RequestState) :
    Counted live d ((QueueUpdate.mk add queue).apply t)
      (updateQueueMembership add false queue d c) := by
  have hc := h.follows (updateQueueMembership_follows add false queue d c)
  rw [updateQueueMembership_counter, h.own] at hc
  exact hc

/-- The update for all requests in a state. -/
theorem Counted.clear (h : Counted live d t c) (queue : RequestState) :
    Counted live d (without queue t) (updateQueueMembership false true queue d c) := by
  have hc := h.follows (updateQueueMembership_follows false true queue d c)
  rw [updateQueueMembership_counter, h.own] at hc
  exact hc

theorem Counted.log (log : List QueueUpdate) : ∀ {t : RequestState → ℕ} {c : Ctx V},
    Counted live d t c → Counted live d (logged log t) (applyLog log d c) := by
  induction log with
  | nil => exact fun h => h
  | cons q log ih => exact fun h => ih (h.update q.add q.queue)

theorem Counted.free (h : Counted live d t c) (req : WriteRequest) :
    Counted live d t { c with u := freeRequest req c.u } :=
  h.same ⟨rfl, rfl, rfl, rfl, rfl, rfl⟩

theorem sameBooks_freeRequests (l : List WriteRequest) (u : Unified V) (dpr dpr' : DentryPriv)
    (hcounter : dpr'.counter = dpr.counter) (hip : dpr'.writeIp = dpr.writeIp) :
    SameBooks ⟨u, dpr⟩ ⟨freeRequests l u, dpr'⟩ := by
  rcases freeRequests_eq l u with ⟨pool, h⟩
  rw [h]
  exact ⟨rfl, rfl, rfl, rfl, hcounter, hip⟩

theorem Counted.store (h : Counted live d t c) (ht : t = tally c.dpr.requests) :
    CountersOk (c.store d) := by
  subst ht
  refine ⟨live, h.accounted, ?_⟩
  intro e dpr he
  by_cases hed : e = d
  · subst hed
    rw [store_priv_self, Option.some.injEq] at he
    rw [← he]
    exact h.own
  · rw [store_priv_ne _ hed] at he
    exact h.others e hed dpr he

theorem setPriv_priv (u : Unified V) (d : ℕ) : u.setPriv d (u.priv d) = u := by
  have hpriv : (fun e => if e = d then u.priv d else u.priv e) = u.priv := by
    funext e
    split
    · rename_i he
      rw [he]
    · rfl
  unfold Unified.setPriv
  rw [hpriv]

theorem CountersOk.ctx {u : Unified V} (h : CountersOk u) {dpr : DentryPriv}
    (hd : u.priv d = some dpr) : ∃ live, Counted live d (tally dpr.requests) ⟨u, dpr⟩ := by
  rcases h with ⟨live, hacc, hown⟩
  refine ⟨live, ?_, hown d dpr hd, fun e _ => hown e⟩
  unfold Ctx.store
  dsimp only
  rw [← hd, setPriv_priv]
  exact hacc

end Counted

/-! ## Placement -/

section Steps

variable {live : Finset ℕ} {d : ℕ} {t : RequestState → ℕ} {c : Ctx V}

theorem dropAltExtentlist_sameBooks (d : ℕ) (c : Ctx V) : SameBooks c (dropAltExtentlist d c) := by
  unfold dropAltExtentlist
  split
  · exact ⟨rfl, rfl, rfl, rfl, rfl, rfl⟩
  · exact ⟨rfl, rfl, rfl, rfl, rfl, rfl⟩

/-- A change of `write_ip` that moves the requests for the data partition into or out of
`dp_request_count`. -/
theorem Counted.flip {c' : Ctx V} (h : Counted live d t c) (hpriv : c'.u.priv = c.u.priv)
    (hqueue : c'.u.queue = c.u.queue) (hcount : c'.u.queueCount = c.u.queueCount)
    (hcounter : c'.dpr.counter = c.dpr.counter)
    (hrequests : ∀ s, c'.u.requestCount s = c.u.requestCount s + c'.dpr.weight s - c.dpr.weight s) :
    Counted live d t c' := by
  have hf : Follows d c c' := by
    constructor
    · exact hpriv
    · intro s
      rw [hqueue, hcounter, requeue_stay Iff.rfl]
    · intro s
      rw [hcount, hcounter]
      omega
    · exact hrequests
  have hc := h.follows hf
  rw [hcounter, h.own] at hc
  exact hc

/-- Setting `write_ip` takes the requests for the data partition out of `dp_request_count`. -/
theorem setWriteIp_counted (h : Counted live d t c) (hip : c.dpr.writeIp = false) :
    Counted live d t (setWriteIp c) := by
  refine h.flip rfl rfl rfl rfl fun s => ?_
  cases s <;> simp [setWriteIp, DentryPriv.weight, DentryPriv.counter, Unified.requestCount, hip]

/-- The second half of `_unified_unset_write_ip`, which puts them back. -/
def backToDp (c : Ctx V) : Ctx V :=
  { u := { c.u with dpRequestCount := c.u.dpRequestCount + c.dpr.inDpQueue }
    dpr := { c.dpr with writeIp := false } }

theorem backToDp_counted (h : Counted live d t c) (hip : c.dpr.writeIp = true) :
    Counted live d t (backToDp c) := by
  refine h.flip rfl rfl rfl rfl fun s => ?_
  cases s <;> simp [backToDp, DentryPriv.weight, DentryPriv.counter, Unified.requestCount, hip]

/-- Unsetting it drops the requests for the index partition and counts the others again. -/
theorem unsetWriteIp_counted (h : Counted live d (tally c.dpr.requests) c)
    (hip : c.dpr.writeIp = true) :
    Counted live d (tally (unsetWriteIp d c).dpr.requests) (unsetWriteIp d c) := by
  have hdrop : ∀ c' : Ctx V, Counted live d (tally c'.dpr.requests) c' →
      Counted live d (tally (dropAltExtentlist d c').dpr.requests) (dropAltExtentlist d c') := by
    intro c' h'
    have hreq : (dropAltExtentlist d c').dpr.requests = c'.dpr.requests := by
      unfold dropAltExtentlist
      split <;> rfl
    rw [hreq]
    exact h'.same (dropAltExtentlist_sameBooks d c')
  unfold unsetWriteIp
  apply hdrop
  dsimp only
  by_cases hq : c.dpr.inIpQueue ≠ 0
  · rw [if_pos hq]
    set gone := c.dpr.requests.filter fun r => decide (r.state = requestIp)
    set kept := c.dpr.requests.filter fun r => decide (r.state ≠ requestIp) with hkept
    -- the queue update does not look at `write_ip`, so the flag may change after it
    have hleft : Counted live d (without requestIp (tally c.dpr.requests))
        (updateQueueMembership false true requestIp d
          ⟨freeRequests gone c.u, { c.dpr with requests := kept }⟩) :=
      (h.same (sameBooks_freeRequests gone c.u c.dpr { c.dpr with requests := kept } rfl rfl)).clear
        requestIp
    refine (backToDp_counted hleft hip).congr fun s => ?_
    show without requestIp (tally c.dpr.requests) s = tally kept s
    rw [hkept, tally_filter _ _ s (decide (s ≠ requestIp)) (by rintro r - rfl; rfl)]
    by_cases hs : s = requestIp
    · simp [without, hs]
    · simp [without, hs]
  · rw [if_neg hq]
    have hback := backToDp_counted h hip
    exact hback

variable (L : Libltfs V)

theorem recomputeWriteIp_counted (small : Bool) (h : Counted live d (tally c.dpr.requests) c) :
    Counted live d (tally (recomputeWriteIp L small d c).dpr.requests)
      (recomputeWriteIp L small d c) := by
  unfold recomputeWriteIp
  dsimp only
  split
  · rename_i hset
    simp only [Bool.and_eq_true, Bool.not_eq_true'] at hset
    exact setWriteIp_counted h hset.1.1.1.1
  · split
    · rename_i hunset
      rw [Bool.and_eq_true] at hunset
      exact unsetWriteIp_counted h hunset.1
    · exact h

theorem placeWrite_counted (call : WriteCall) (h : Counted live d (tally c.dpr.requests) c) :
    Counted live d (tally (placeWrite L d call c).dpr.requests) (placeWrite L d call c) := by
  unfold placeWrite
  split
  · rename_i hleaves
    unfold leavesIp at hleaves
    rw [Bool.and_eq_true] at hleaves
    exact unsetWriteIp_counted h hleaves.1
  · exact h

/-! ## Merging and error handling -/

/-- Merging a request for the index partition with its predecessor; `rest` is what else the
counters still count. -/
theorem mergePrev_counted {kept rest : List WriteRequest} {req : WriteRequest}
    (hip : req.state = requestIp) (h : Counted live d (tally (kept ++ req :: rest)) c) :
    Counted live d (tally ((mergePrev d kept req c).1 ++ rest)) (mergePrev d kept req c).2 := by
  unfold mergePrev
  cases hlast : kept.getLast? with
  | none =>
    rw [List.getLast?_eq_none_iff.mp hlast] at h
    exact h
  | some dest =>
    rcases List.getLast?_eq_some_iff.mp hlast with ⟨before, hkept⟩
    subst hkept
    have hm := mergeRequests_tally c.u.cacheSize dest req
    have hnone : (mergeRequests c.u.cacheSize dest req).promoted = none :=
      mergeRequests_promoted_ip (by simp [WriteRequest.isIp, hip])
    dsimp only
    generalize mergeRequests c.u.cacheSize dest req = m at hm hnone
    generalize (if m.updated = true then max c.dpr.fileSize m.dest.limit else c.dpr.fileSize) = size
    have hsize : Counted live d (tally (before ++ [dest] ++ req :: rest))
        { c with dpr := { c.dpr with fileSize := size } } :=
      h.same ⟨rfl, rfl, rfl, rfl, rfl, rfl⟩
    have hdest : m.dest.state = dest.state := by
      rw [hm.dest, hnone]
      rfl
    have hreq : (promote m.promoted req).state = req.state := by
      rw [hnone]
      rfl
    -- everything but `req` is counted beside it
    have hlogged := hm.srcLog fun s => tally before s + (if dest.state = s then 1 else 0) + tally rest s
    rw [hreq] at hlogged
    have hsplit : tally (before ++ [dest] ++ req :: rest)
        = fun s => (tally before s + (if dest.state = s then 1 else 0) + tally rest s)
          + if req.state = s then 1 else 0 := by
      funext s
      simp only [tally_append, tally_cons, tally_nil]
      omega
    have hmerged := hsize.log m.srcLog
    rw [hsplit, hlogged] at hmerged
    rw [List.dropLast_concat]
    by_cases hret : m.ret = 2
    · rw [if_pos hret]
      refine (hmerged.free req).congr fun s => ?_
      simp only [hret, ne_eq, not_true_eq_false, false_and, if_false, tally_append, tally_cons,
        tally_nil, hdest]
      omega
    · rw [if_neg hret]
      refine hmerged.congr fun s => ?_
      simp only [hret, ne_eq, not_false_eq_true, true_and, tally_append, tally_cons, tally_nil, hdest]
      omega

theorem toIp_counted {kept rest : List WriteRequest} (req : WriteRequest)
    (h : Counted live d (tally (kept ++ rest)) c) :
    Counted live d (tally ((toIp d kept req c).1 ++ rest)) (toIp d kept req c).2 := by
  unfold toIp
  apply mergePrev_counted rfl
  refine (h.update true requestIp).congr fun s => ?_
  simp only [QueueUpdate.apply, tally_append, tally_cons]
  cases s <;> simp
  omega

/-- The state is one whose requests error handling with these flags drops. -/
def dropsState (clear : Bool × Bool) (s : RequestState) : Bool :=
  if s = requestIp then clear.2 else clear.1

theorem keepsRequest_eq (clear : Bool × Bool) (r : WriteRequest) :
    keepsRequest clear r = ! dropsState clear r.state := by
  unfold keepsRequest dropsState
  split
  · rfl
  · rfl

/-- Error handling puts the counters right, if they were right for the states it keeps. -/
theorem handleWriteError_counted {ret : ℤ} {failed : WriteRequest} (h : Counted live d t c)
    (ht : ∀ s, t s = tally c.dpr.requests s ∨
      (c.dpr.requests ≠ [] ∧ dropsState (clearFlags L ret failed c.u.vol) s = true)) :
    Counted live d (tally (handleWriteError L ret failed d c).dpr.requests)
      (handleWriteError L ret failed d c) := by
  unfold handleWriteError
  dsimp only
  -- recording the code changes nothing that is counted
  generalize hc₁ : (if ¬ (failed.state = requestIp ∧ (ret = -ltfsNoSpace ∨ ret = -ltfsLessSpace)) ∧
      c.dpr.writeError = 0 then { c with dpr := { c.dpr with writeError := ret } } else c) = c₁
  have hbooks : SameBooks c c₁ ∧ c₁.u = c.u ∧ c₁.dpr.requests = c.dpr.requests := by
    rw [← hc₁]
    split <;> exact ⟨⟨rfl, rfl, rfl, rfl, rfl, rfl⟩, rfl, rfl⟩
  clear hc₁
  rcases hbooks with ⟨hsame, hu, hreq⟩
  rw [hu]
  set clear := clearFlags L ret failed c.u.vol with hclear
  set c₂ : Ctx V := ⟨c.u, { c₁.dpr with fileSize := L.dentrySize d c.u.vol }⟩ with hc₂
  have h₂ : Counted live d t c₂ := by
    refine (h.same hsame).same ?_
    rw [hc₂, ← hu]
    exact ⟨rfl, rfl, rfl, rfl, rfl, rfl⟩
  by_cases hempty : c₁.dpr.requests.isEmpty
  · rw [if_pos hempty]
    have hnil : c.dpr.requests = [] := by
      rw [← hreq]
      exact List.isEmpty_iff.mp hempty
    refine h₂.congr fun s => ?_
    show t s = tally c₁.dpr.requests s
    rw [hreq]
    exact (ht s).resolve_right fun hdrop => hdrop.1 hnil
  · rw [if_neg hempty]
    set c₃ := if clear.1 = true then updateQueueMembership false true requestPartial d
      (updateQueueMembership false true requestDp d c₂) else c₂ with hc₃
    have h₃ : Counted live d
        (if clear.1 = true then without requestPartial (without requestDp t) else t) c₃ := by
      rw [hc₃]
      split
      · exact (h₂.clear requestDp).clear requestPartial
      · exact h₂
    set c₄ := if clear.2 = true then updateQueueMembership false true requestIp d c₃ else c₃ with hc₄
    have h₄ : Counted live d (fun s => if dropsState clear s = true then 0 else t s) c₄ := by
      rw [hc₄]
      by_cases h2 : clear.2 = true
      · rw [if_pos h2]
        refine (h₃.clear requestIp).congr fun s => ?_
        cases s <;> by_cases h1 : clear.1 = true <;> simp [without, dropsState, h1, h2]
      · rw [if_neg h2]
        refine h₃.congr fun s => ?_
        cases s <;> by_cases h1 : clear.1 = true <;> simp [without, dropsState, h1, h2]
    have hreq₄ : c₄.dpr.requests = c.dpr.requests := by
      have h23 : c₃.dpr.requests = c₂.dpr.requests := by
        rw [hc₃]
        split
        · exact (updateQueueMembership_queueOnly _ _ _ _ _).requests.trans
            (updateQueueMembership_queueOnly _ _ _ _ _).requests
        · rfl
      rw [← hreq]
      refine Eq.trans ?_ h23
      rw [hc₄]
      split
      · exact (updateQueueMembership_queueOnly _ _ _ _ _).requests
      · rfl
    set kept := c₄.dpr.requests.filter (keepsRequest clear) with hkept
    have hfreed := h₄.same (sameBooks_freeRequests
      (c₄.dpr.requests.filter fun r => ! keepsRequest clear r) c₄.u c₄.dpr
      { c₄.dpr with
        requests := kept
        fileSize := kept.foldl (fun n r => max n r.limit) c₄.dpr.fileSize } rfl rfl)
    refine hfreed.congr fun s => ?_
    show _ = tally kept s
    rw [hkept, hreq₄, tally_filter _ _ s (! dropsState clear s) (by
      rintro r - rfl
      exact keepsRequest_eq clear r)]
    rcases ht s with hs | ⟨-, hdrop⟩
    · cases hdrop : dropsState clear s <;> simp [hs]
    · simp [hdrop]

/-- A write to a partition that failed makes error handling clear that partition. -/
theorem dropsState_failed {ret : ℤ} {failed : WriteRequest} {s : RequestState} (vol : V)
    (h : s = requestIp ↔ failed.state = requestIp) :
    dropsState (clearFlags L ret failed vol) s = true := by
  unfold dropsState clearFlags
  by_cases hip : failed.state = requestIp
  · simp [hip, h.mpr hip]
  · have hs : s ≠ requestIp := fun hs => hip (h.mp hs)
    simp [hip, hs]

theorem failedWrite_counted {ret : ℤ} {req : WriteRequest} {l : List WriteRequest} (vol : V)
    (h : Counted live d t c) (hmem : req ∈ l)
    (ht : ∀ s, t s = tally l s ∨ (s = requestIp ↔ req.state = requestIp)) :
    Counted live d (tally (failedWrite L d ret req l vol c).dpr.requests)
      (failedWrite L d ret req l vol c) := by
  have hset : Counted live d t
      { u := { c.u with vol := L.writeIndexAfterPerm ret vol }
        dpr := { c.dpr with requests := l } } := h.same ⟨rfl, rfl, rfl, rfl, rfl, rfl⟩
  refine handleWriteError_counted L hset fun s => ?_
  rcases ht s with hs | hs
  · exact .inl hs
  · exact .inr ⟨List.ne_nil_of_mem hmem, dropsState_failed L _ hs⟩

/-! ## The loops -/

/-- The counters for the data partition are cleared before the loop, so only requests for the
index partition are counted in the part to visit. -/
theorem flushLoop_counted (rest : List WriteRequest) : ∀ {kept : List WriteRequest} {c : Ctx V},
    Counted live d (tally (kept ++ rest.filter WriteRequest.isIp)) c →
    Counted live d (tally (flushLoop L d kept rest c).dpr.requests) (flushLoop L d kept rest c) := by
  induction rest with
  | nil =>
    intro kept c h
    rw [List.filter_nil, List.append_nil] at h
    exact h.same ⟨rfl, rfl, rfl, rfl, rfl, rfl⟩
  | cons req rest ih =>
    intro kept c h
    unfold flushLoop
    by_cases hip : req.state = requestIp
    · rw [if_pos hip]
      rw [List.filter_cons_of_pos (by simp [WriteRequest.isIp, hip])] at h
      exact ih (mergePrev_counted hip h)
    · rw [if_neg hip]
      rw [List.filter_cons_of_neg (by simp [WriteRequest.isIp, hip])] at h
      dsimp only
      split
      · refine failedWrite_counted L _ h (by simp) fun s => ?_
        by_cases hs : s = requestIp
        · -- the failed request is not counted here
          left
          rw [tally_append, tally_append, tally_cons, if_neg (by rw [hs]; exact hip), hs,
            tally_filter _ _ _ true (by
              intro r _ hr
              simp [WriteRequest.isIp, hr])]
          rfl
        · exact .inr (by simp [hs, hip])
      · have hvol : Counted live d (tally (kept ++ rest.filter WriteRequest.isIp))
            { c with u := { c.u with vol := (L.fsrawWrite d req.data req.offset c.u.vol).2 } } :=
          h.same ⟨rfl, rfl, rfl, rfl, rfl, rfl⟩
        split
        · exact ih (toIp_counted req hvol)
        · exact ih (hvol.free req)

/-- The requests that a round of `_unified_process_data_queue` takes out of the list. -/
def taken (queue : RequestState) (r : WriteRequest) : Bool :=
  decide (r.state ≠ requestIp ∧ (r.state = requestDp ∨ queue = requestPartial))

/-- The counters of the taken requests are cleared before the loop. -/
theorem dataLoop_counted (queue : RequestState) (rest : List WriteRequest) :
    ∀ {kept moved : List WriteRequest} {c : Ctx V},
      Counted live d (tally (kept ++ rest.filter fun r => ! taken queue r)) c →
      Counted live d (tally (dataLoop L queue d kept moved rest c).2.dpr.requests)
        (dataLoop L queue d kept moved rest c).2 := by
  induction rest with
  | nil =>
    intro kept moved c h
    rw [List.filter_nil, List.append_nil] at h
    exact h.same ⟨rfl, rfl, rfl, rfl, rfl, rfl⟩
  | cons req rest ih =>
    intro kept moved c h
    unfold dataLoop
    by_cases hip : req.state = requestIp
    · rw [if_pos hip]
      rw [List.filter_cons_of_pos (by simp [taken, hip])] at h
      exact ih (mergePrev_counted hip h)
    · rw [if_neg hip]
      by_cases htaken : req.state = requestDp ∨ queue = requestPartial
      · rw [if_pos htaken]
        rw [List.filter_cons_of_neg (by simp [taken, hip, htaken])] at h
        dsimp only
        split
        · split
          · refine failedWrite_counted L _ h (by simp) fun s => ?_
            by_cases hs : s = requestIp
            · left
              rw [tally_append, tally_append, tally_cons, if_neg (by rw [hs]; exact hip), hs,
                tally_filter _ _ _ true (by
                  intro r _ hr
                  simp [taken, hr])]
              rfl
            · exact .inr (by simp [hs, hip])
          · have hvol : Counted live d (tally (kept ++ rest.filter fun r => ! taken queue r))
                { c with u := { c.u with vol := (L.fsrawWrite d req.data req.offset c.u.vol).2 } } :=
              h.same ⟨rfl, rfl, rfl, rfl, rfl, rfl⟩
            exact ih (toIp_counted req hvol)
        · exact ih h
      · rw [if_neg htaken]
        rw [List.filter_cons_of_pos (by simp [taken, htaken])] at h
        apply ih
        rw [List.append_assoc]
        exact h

theorem sendLoop_sameBooks (dpr : DentryPriv) (l : List WriteRequest) : ∀ u : Unified V,
    SameBooks ⟨u, dpr⟩ ⟨(sendLoop L d l u).2, dpr⟩ := by
  induction l with
  | nil => exact fun u => ⟨rfl, rfl, rfl, rfl, rfl, rfl⟩
  | cons req rest ih =>
    intro u
    unfold sendLoop
    dsimp only
    split
    · exact ⟨rfl, rfl, rfl, rfl, rfl, rfl⟩
    · have hrest := ih (freeRequest req
        { u with vol := (L.fsrawWrite d req.data req.offset u.vol).2 })
      exact ⟨hrest.queue, hrest.queueCount, hrest.requestCount, hrest.priv, rfl, rfl⟩

theorem updateAltExtentlist_sameBooks (new : ExtentInfo) (d : ℕ) (c : Ctx V) :
    SameBooks c (updateAltExtentlist L new d c) := by
  unfold updateAltExtentlist
  split
  · exact ⟨rfl, rfl, rfl, rfl, rfl, rfl⟩
  · exact ⟨rfl, rfl, rfl, rfl, rfl, rfl⟩

/-- The counter for the index partition is cleared before the loop. -/
theorem indexLoop_counted (rest : List WriteRequest) : ∀ {kept : List WriteRequest} {c : Ctx V},
    Counted live d (tally (kept ++ rest.filter fun r => ! r.isIp)) c →
    Counted live d (tally (indexLoop L d kept rest c).dpr.requests) (indexLoop L d kept rest c) := by
  induction rest with
  | nil =>
    intro kept c h
    rw [List.filter_nil, List.append_nil] at h
    exact h.same ⟨rfl, rfl, rfl, rfl, rfl, rfl⟩
  | cons req rest ih =>
    intro kept c h
    unfold indexLoop
    by_cases hip : req.state = requestIp
    · rw [if_pos hip]
      rw [List.filter_cons_of_neg (by simp [WriteRequest.isIp, hip])] at h
      have hfailed : ∀ (ret : ℤ) (mem : List Bool) (vol : V), Counted live d
          (tally (handleWriteError L ret req d
            { u := { c.u with mem := mem, vol := vol }
              dpr := { c.dpr with requests := kept ++ req :: rest } }).dpr.requests)
          (handleWriteError L ret req d
            { u := { c.u with mem := mem, vol := vol }
              dpr := { c.dpr with requests := kept ++ req :: rest } }) := by
        intro ret mem vol
        have hset : Counted live d (tally (kept ++ rest.filter fun r => ! r.isIp))
            { u := { c.u with mem := mem, vol := vol }
              dpr := { c.dpr with requests := kept ++ req :: rest } } :=
          h.same ⟨rfl, rfl, rfl, rfl, rfl, rfl⟩
        refine handleWriteError_counted L hset fun s => ?_
        by_cases hs : s = requestIp
        · exact .inr ⟨by simp, dropsState_failed L _ (by simp [hs, hip])⟩
        · left
          show tally (kept ++ rest.filter fun r => ! r.isIp) s = tally (kept ++ req :: rest) s
          rw [tally_append, tally_append, tally_cons, if_neg (by rw [hip]; exact Ne.symm hs),
            tally_filter _ _ s true (by
              rintro r - rfl
              simp [WriteRequest.isIp, hs])]
          rfl
      dsimp only
      split
      · exact hfailed _ _ _
      · split
        · split
          · exact hfailed _ _ _
          · exact hfailed _ _ _
        · rename_i block vol _
          apply ih
          have hvol : Counted live d (tally (kept ++ rest.filter fun r => ! r.isIp))
              ⟨{ c.u.allocates.2 with vol := vol }, c.dpr⟩ := h.same ⟨rfl, rfl, rfl, rfl, rfl, rfl⟩
          exact (hvol.same (updateAltExtentlist_sameBooks L _ d _)).free req
    · rw [if_neg hip]
      rw [List.filter_cons_of_pos (by simp [WriteRequest.isIp, hip])] at h
      apply ih
      rw [List.append_assoc]
      exact h

/-- Requests behind the new end leave one by one, each with its update. -/
theorem truncateLoop_counted (length : ℕ) (rest : List WriteRequest) (l : List WriteRequest) :
    ∀ {c : Ctx V}, Counted live d (tally (rest ++ l)) c →
      Counted live d (tally (rest ++ (truncateLoop length d l c).1)) (truncateLoop length d l c).2 := by
  induction l generalizing rest with
  | nil => exact fun h => h
  | cons req before ih =>
    intro c h
    unfold truncateLoop
    dsimp only
    split
    · apply ih
      refine ((h.update false req.state).congr fun s => ?_).free req
      simp only [QueueUpdate.apply, tally_append, tally_cons]
      by_cases hs : s = req.state
      · simp [hs]
      · simp [hs, Ne.symm hs]
    · split
      · have hcut := ih (rest ++ [{ req with data := req.data.take (length - req.offset) }])
          (h.congr fun s => by simp only [tally_append, tally_cons, tally_nil]; omega)
        refine hcut.congr fun s => ?_
        simp only [tally_append, tally_cons, tally_nil]
        omega
      · exact h

end Steps

/-! ## The operations -/

section Ops

variable (L : Libltfs V)

theorem flushUnlocked_counters {u : Unified V} (h : CountersOk u) (d : ℕ) :
    CountersOk (flushUnlocked L d u).2 := by
  unfold flushUnlocked
  cases hd : u.priv d with
  | none => exact h
  | some dpr =>
    rcases h.ctx hd with ⟨live, hc⟩
    have hread : Counted live d (tally dpr.requests) ⟨u, (getWriteError dpr).2⟩ :=
      hc.same ⟨rfl, rfl, rfl, rfl, rfl, rfl⟩
    dsimp only
    split
    · exact hread.store rfl
    · split
      · exact hread.store rfl
      · have hzero := (updateQueueMembership_queueOnly false true requestDp d
          ⟨u, (getWriteError dpr).2⟩).trans (updateQueueMembership_queueOnly false true
            requestPartial d _)
        have hcleared := (hread.clear requestDp).clear requestPartial
        set c := updateQueueMembership false true requestPartial d
          (updateQueueMembership false true requestDp d ⟨u, (getWriteError dpr).2⟩)
        have hrequests : c.dpr.requests = dpr.requests := hzero.requests
        have hstart : Counted live d
            (tally ([] ++ c.dpr.requests.filter WriteRequest.isIp)) c := by
          refine hcleared.congr fun s => ?_
          rw [List.nil_append, hrequests, tally_filter _ _ s (decide (s = requestIp)) (by
            rintro r - rfl
            rfl)]
          cases s <;> simp [without]
        have hloop := flushLoop_counted L c.dpr.requests hstart
        have hend : Counted live d (tally (flushLoop L d [] c.dpr.requests c).dpr.requests)
            ⟨(flushLoop L d [] c.dpr.requests c).u,
              (getWriteError (flushLoop L d [] c.dpr.requests c).dpr).2⟩ :=
          hloop.same ⟨rfl, rfl, rfl, rfl, rfl, rfl⟩
        exact hend.store rfl

theorem flushEach_counters (l : List ℕ) : ∀ {u : Unified V}, CountersOk u →
    CountersOk (flushEach L l u).2 := by
  induction l with
  | nil => exact fun h => h
  | cons d rest ih =>
    intro u h
    unfold flushEach
    dsimp only
    split
    · exact flushUnlocked_counters L h d
    · exact ih (flushUnlocked_counters L h d)

theorem flushAll_counters {u : Unified V} (h : CountersOk u) : CountersOk (flushAll L u).2 := by
  unfold flushAll
  dsimp only
  split
  · exact flushEach_counters L _ h
  · exact flushEach_counters L _ (flushEach_counters L _ h)

/-- One round; the requests on the private list are neither counted nor in the list. -/
theorem processDataEntry_counters {queue : RequestState} (hqueue : queue ≠ requestIp)
    {u : Unified V} (h : CountersOk u) (d : ℕ) : CountersOk (processDataEntry L queue d u) := by
  unfold processDataEntry
  cases hd : u.priv d with
  | none => exact h
  | some dpr =>
    rcases h.ctx hd with ⟨live, hc⟩
    dsimp only
    set c := if queue = requestPartial then updateQueueMembership false true requestDp d
      (updateQueueMembership false true queue d ⟨u, dpr⟩)
      else updateQueueMembership false true queue d ⟨u, dpr⟩ with hcdef
    have hrequests : c.dpr.requests = dpr.requests := by
      rw [hcdef]
      split
      · exact (updateQueueMembership_queueOnly _ _ _ _ _).requests.trans
          (updateQueueMembership_queueOnly _ _ _ _ _).requests
      · exact (updateQueueMembership_queueOnly _ _ _ _ _).requests
    have hstart : Counted live d
        (tally ([] ++ c.dpr.requests.filter fun r => ! taken queue r)) c := by
      -- which states are cleared depends on the queue, and so does what is taken
      have hcleared : Counted live d
          (fun s => if s = queue ∨ s = requestDp ∧ queue = requestPartial then 0
            else tally dpr.requests s) c := by
        rw [hcdef]
        by_cases hp : queue = requestPartial
        · rw [if_pos hp]
          refine ((hc.clear queue).clear requestDp).congr fun s => ?_
          cases s <;> simp [without, hp]
        · rw [if_neg hp]
          refine (hc.clear queue).congr fun s => ?_
          simp [without, hp]
      refine hcleared.congr fun s => ?_
      rw [List.nil_append, hrequests, tally_filter _ _ s
        (decide (¬ (s = queue ∨ s = requestDp ∧ queue = requestPartial))) (by
          rintro r - rfl
          cases queue <;> cases hs : r.state <;> simp_all [taken])]
      by_cases hs : s = queue ∨ s = requestDp ∧ queue = requestPartial
      · simp [hs]
      · simp [hs]
    have hloop : Counted live d _ (dataLoop L queue d [] [] c.dpr.requests c).2 :=
      dataLoop_counted L queue c.dpr.requests hstart
    set l := dataLoop L queue d [] [] c.dpr.requests c
    have hbooks := sendLoop_sameBooks L (d := d) l.2.dpr l.1 l.2.u
    split
    · rename_i u' hsend
      rw [hsend] at hbooks
      have hsent : Counted live d (tally l.2.dpr.requests) ⟨u', l.2.dpr⟩ := hloop.same hbooks
      exact hsent.store rfl
    · rename_i ret req rest u' hsend
      rw [hsend] at hbooks
      have hsent : Counted live d (tally l.2.dpr.requests) ⟨u', l.2.dpr⟩ := hloop.same hbooks
      have herror : Counted live d _ (handleWriteError L ret req d ⟨u', l.2.dpr⟩) :=
        handleWriteError_counted L hsent fun s => .inl rfl
      set c' := handleWriteError L ret req d ⟨u', l.2.dpr⟩
      have hfreed := herror.same (sameBooks_freeRequests (req :: rest) c'.u c'.dpr c'.dpr rfl rfl)
      exact hfreed.store rfl

theorem processDataLoop_counters {queue : RequestState} (hqueue : queue ≠ requestIp) (n : ℕ) :
    ∀ {u : Unified V}, CountersOk u → CountersOk (processDataLoop L queue n u) := by
  induction n with
  | zero => exact fun h => h
  | succ n ih =>
    intro u h
    unfold processDataLoop
    split
    · exact h
    · exact ih (processDataEntry_counters L hqueue h _)

/-- A change of the volume is nobody's account. -/
theorem CountersOk.vol {u : Unified V} (h : CountersOk u) (vol : V) :
    CountersOk { u with vol := vol } := by
  rcases h with ⟨live, hacc, hown⟩
  exact ⟨live, ⟨hacc.members, hacc.queue, hacc.queueCount, hacc.requestCount⟩, hown⟩

/-- A `dentry_priv` is only freed without requests, so when no queue has it. -/
theorem freeDentryPrivConditional_counters {u : Unified V} (h : CountersOk u) (d n : ℕ) :
    CountersOk (freeDentryPrivConditional L d n u) := by
  unfold freeDentryPrivConditional
  cases hd : u.priv d with
  | none => exact h
  | some dpr =>
    dsimp only
    split
    · rename_i hfree
      rcases h with ⟨live, hacc, hown⟩
      have hzero : ∀ s, dpr.counter s = 0 := by
        intro s
        rw [hown d dpr hd, List.isEmpty_iff.mp hfree.2.1]
        rfl
      have hmem : d ∈ live := by
        rw [hacc.members, hd]
        rfl
      refine CountersOk.vol ⟨live.erase d, ⟨?_, ?_, ?_, ?_⟩, ?_⟩ _
      · intro e
        by_cases he : e = d
        · subst he
          rw [setPriv_self]
          simp
        · rw [setPriv_ne _ _ he, Finset.mem_erase, hacc.members]
          simp [he]
      · intro s e
        have hcount := hacc.queue s e
        by_cases he : e = d
        · subst he
          rw [hd] at hcount
          rw [setPriv_self]
          simp only [counterOf, Option.elim_none, Option.elim_some, hzero] at hcount ⊢
          exact hcount
        · rw [setPriv_ne _ _ he]
          exact hcount
      · exact hacc.queueCount
      · intro s
        have hsum : ∑ e ∈ live.erase d, weightOf ((u.setPriv d none).priv e) s
            = ∑ e ∈ live.erase d, weightOf (u.priv e) s := by
          apply Finset.sum_congr rfl
          intro e he
          rw [setPriv_ne _ _ (Finset.ne_of_mem_erase he)]
        have hweight : weightOf (u.priv d) s = 0 := by
          rw [hd]
          simp [weightOf, DentryPriv.weight, hzero]
        have hall := Finset.add_sum_erase live (fun e => weightOf (u.priv e) s) hmem
        have hcount := hacc.requestCount s
        rw [hsum]
        show u.requestCount s = _
        omega
      · intro e p he
        by_cases hed : e = d
        · subst hed
          rw [setPriv_self] at he
          exact absurd he (by simp)
        · rw [setPriv_ne _ _ hed] at he
          exact hown e p he
    · exact h

/-- A new `dentry_priv` has no requests and is in no queue. -/
theorem getDentryPriv_counters {u : Unified V} (h : CountersOk u) (d : ℕ) :
    CountersOk (getDentryPriv L d u).2 ∧
      ∀ dpr, (getDentryPriv L d u).1 = some dpr → (getDentryPriv L d u).2.priv d = some dpr := by
  unfold getDentryPriv
  cases hd : u.priv d with
  | some dpr =>
    refine ⟨h, ?_⟩
    rintro p ⟨⟩
    exact hd
  | none =>
    rcases h with ⟨live, hacc, hown⟩
    dsimp only
    split
    · exact ⟨⟨live, ⟨hacc.members, hacc.queue, hacc.queueCount, hacc.requestCount⟩, hown⟩, by simp⟩
    · refine ⟨?_, by simp⟩
      apply CountersOk.vol
      have hnew : ∀ p : DentryPriv, p.requests = [] → (∀ s, p.counter s = 0) →
          CountersOk (u.allocates.2.setPriv d (some p)) := by
        intro p hnil hzero
        have hfresh : d ∉ live := by
          rw [hacc.members, hd]
          simp
        refine ⟨insert d live, ⟨?_, ?_, ?_, ?_⟩, ?_⟩
        · intro e
          by_cases he : e = d
          · subst he
            rw [setPriv_self]
            simp
          · rw [setPriv_ne _ _ he, Finset.mem_insert]
            simp only [he, false_or]
            exact hacc.members e
        · intro s e
          have hcount := hacc.queue s e
          by_cases he : e = d
          · subst he
            rw [hd] at hcount
            rw [setPriv_self]
            simp only [counterOf, Option.elim_none, Option.elim_some, hzero] at hcount ⊢
            exact hcount
          · rw [setPriv_ne _ _ he]
            exact hcount
        · exact hacc.queueCount
        · intro s
          have hsum : ∑ e ∈ live, weightOf ((u.allocates.2.setPriv d (some p)).priv e) s
              = ∑ e ∈ live, weightOf (u.priv e) s := by
            apply Finset.sum_congr rfl
            intro e he
            rw [setPriv_ne _ _ (ne_of_mem_of_not_mem he hfresh)]
            rfl
          have hweight : weightOf (some p) s = 0 := by
            simp [weightOf, DentryPriv.weight, hzero]
          have hcount := hacc.requestCount s
          rw [Finset.sum_insert hfresh, hsum, setPriv_self, hweight, Nat.zero_add]
          exact hcount
        · intro e q he
          by_cases hed : e = d
          · subst hed
            rw [setPriv_self, Option.some.injEq] at he
            rw [← he, hnil]
            funext s
            exact hzero s
          · rw [setPriv_ne _ _ hed] at he
            exact hown e q he
      exact hnew _ rfl fun s => by cases s <;> rfl

theorem processIndexEntry_counters {u : Unified V} (h : CountersOk u) (d : ℕ) :
    CountersOk (processIndexEntry L d u) := by
  unfold processIndexEntry
  cases hd : u.priv d with
  | none => exact h
  | some dpr =>
    rcases h.ctx hd with ⟨live, hc⟩
    have hrequests := (updateQueueMembership_queueOnly false true requestIp d ⟨u, dpr⟩).requests
    dsimp only
    set c := updateQueueMembership false true requestIp d ⟨u, dpr⟩
    have hstart : Counted live d
        (tally ([] ++ c.dpr.requests.filter fun r => ! r.isIp)) c := by
      refine (hc.clear requestIp).congr fun s => ?_
      rw [List.nil_append, hrequests, tally_filter _ _ s (decide (s ≠ requestIp)) (by
        rintro r - rfl
        simp [WriteRequest.isIp])]
      cases s <;> simp [without]
    exact freeDentryPrivConditional_counters L
      ((indexLoop_counted L c.dpr.requests hstart).store rfl) d 2

theorem processQueue_counters (queue : RequestState) {u : Unified V} (h : CountersOk u) :
    CountersOk (processQueue L queue u) := by
  unfold processQueue
  split
  · unfold processIndexQueue
    generalize u.ipQueue = l
    induction l generalizing u with
    | nil => exact h
    | cons d l ih => exact ih (processIndexEntry_counters L h d)
  · rename_i hqueue
    exact processDataLoop_counters L hqueue _ h

theorem updateDataPlacement_counters {u : Unified V} (h : CountersOk u) (d : ℕ) :
    CountersOk (updateDataPlacement L d u) := by
  unfold updateDataPlacement
  cases hd : u.priv d with
  | none => exact h
  | some dpr =>
    rcases h.ctx hd with ⟨live, hc⟩
    exact Counted.store (recomputeWriteIp_counted L _ hc) rfl

theorem unifiedTruncate_counters {u : Unified V} (h : CountersOk u) (d length : ℕ) :
    CountersOk (unifiedTruncate L d length u).2 := by
  unfold unifiedTruncate
  dsimp only
  split
  · exact h
  · cases hd : u.priv d with
    | none => exact h.vol _
    | some dpr =>
      rcases h.ctx hd with ⟨live, hc⟩
      have hcut : Counted live d (tally (truncateCached length d ⟨u, dpr⟩).dpr.requests)
          (truncateCached length d ⟨u, dpr⟩) := by
        unfold truncateCached
        split
        · have hloop := truncateLoop_counted length [] dpr.requests.reverse
            (hc.congr fun s => by rw [List.nil_append, tally_reverse])
          rw [List.nil_append] at hloop
          dsimp only
          rw [tally_reverse]
          exact hloop.same ⟨rfl, rfl, rfl, rfl, rfl, rfl⟩
        · exact hc.same ⟨rfl, rfl, rfl, rfl, rfl, rfl⟩
      exact (Counted.store (recomputeWriteIp_counted L _ hcut) rfl).vol _

theorem unifiedClose_counters {u : Unified V} (h : CountersOk u) (d : ℕ) (flushes : Bool) :
    CountersOk (unifiedClose L d flushes u).2 := by
  unfold unifiedClose
  dsimp only
  set f := if flushes then flushUnlocked L d u else (0, u)
  have hf : CountersOk f.2 := by
    rcases Bool.eq_false_or_eq_true flushes with hflush | hflush
    · simp only [f, hflush, if_true]
      exact flushUnlocked_counters L h d
    · simpa [f, hflush] using h
  have hreset : CountersOk
      (f.2.setPriv d ((f.2.priv d).map fun dpr => { dpr with writeError := 0 })) := by
    cases hd : f.2.priv d with
    | none =>
      rw [Option.map_none, ← hd, setPriv_priv]
      exact hf
    | some dpr =>
      rcases hf.ctx hd with ⟨live, hc⟩
      have hzero : Counted live d (tally dpr.requests) ⟨f.2, { dpr with writeError := 0 }⟩ :=
        hc.same ⟨rfl, rfl, rfl, rfl, rfl, rfl⟩
      exact hzero.store rfl
  exact (freeDentryPrivConditional_counters L hreset d 3).vol _

theorem freeSpare_counters (spare : Option ℕ) {u : Unified V} (h : CountersOk u) :
    CountersOk (freeSpare spare u) := by
  cases spare with
  | none => exact h
  | some cache =>
    rcases h with ⟨live, hacc, hown⟩
    exact ⟨live, ⟨hacc.members, hacc.queue, hacc.queueCount, hacc.requestCount⟩, hown⟩

/-- The log of the list walk brings the counters to the new list. -/
theorem writeAttempt_counters {u : Unified V} (h : CountersOk u) (d size : ℕ) (call : WriteCall) :
    CountersOk (writeAttempt L d size call u).2 := by
  obtain ⟨hget, hpriv⟩ := getDentryPriv_counters L h d
  unfold writeAttempt
  dsimp only
  split
  · rename_i u' heq
    rw [heq] at hget
    exact freeSpare_counters _ hget
  · rename_i dpr u' heq
    rw [heq] at hget hpriv
    rcases hget.ctx (hpriv dpr rfl) with ⟨live, hc⟩
    have hread : Counted live d (tally dpr.requests) ⟨u', (getWriteError dpr).2⟩ :=
      hc.same ⟨rfl, rfl, rfl, rfl, rfl, rfl⟩
    split
    · exact hread.store rfl
    · split
      · exact hread.store rfl
      · have hplace : Counted live d _ (placeWrite L d call ⟨u', (getWriteError dpr).2⟩) :=
          placeWrite_counted L call hread
        set c := placeWrite L d call ⟨u', (getWriteError dpr).2⟩
        set r := doAppend c.u.cacheSize (appendFuel c.dpr.requests) c.dpr.requests
          { passed := [], prev := none, skipped := [], buf := call.buf, offset := call.offset,
            spare := call.spare, fileSize := c.dpr.fileSize, pool := c.u.pool, mem := c.u.mem,
            log := [] } with hr
        have hlog : logged r.state.log (tally c.dpr.requests) = tally r.requests :=
          doAppend_tally _ rfl
        have hset : Counted live d (tally c.dpr.requests)
            { u := { c.u with pool := r.state.pool, mem := r.state.mem }
              dpr := { c.dpr with requests := r.requests, fileSize := r.state.fileSize } } :=
          hplace.same ⟨rfl, rfl, rfl, rfl, rfl, rfl⟩
        have hfin : CountersOk ((finishWrite d r c).store d) := by
          have hrequests : (finishWrite d r c).dpr.requests = r.requests :=
            (applyLog_queueOnly _ _ _).requests
          refine Counted.store (hset.log r.state.log) ?_
          rw [hlog]
          exact congrArg tally hrequests.symm
        split
        · exact freeSpare_counters _ (hfin.vol _)
        · exact freeSpare_counters _ hfin
        · exact hfin
        · exact hfin

theorem unifiedWrite_counters {u : Unified V} (h : CountersOk u) (d : ℕ) (buf : List UInt8)
    (offset : ℕ) : CountersOk (unifiedWrite L d buf offset u).2 := by
  unfold unifiedWrite
  dsimp only
  split
  · exact h
  · split
    · exact h.vol _
    · exact writeAttempt_counters L (h.vol _) d _ _

/-- Every operation of the scheduler keeps the counters right. -/
theorem Op.exec_counters {u : Unified V} (h : CountersOk u) (op : Op V) :
    CountersOk (op.exec L u) := by
  cases op with
  | write d buf offset => exact unifiedWrite_counters L h d buf offset
  | resume d size call => exact writeAttempt_counters L h d size call
  | truncate d length => exact unifiedTruncate_counters L h d length
  | flush d => exact flushUnlocked_counters L h d
  | flushAll => exact flushAll_counters L h
  | processQueue queue => exact processQueue_counters L queue h
  | updateDataPlacement d => exact updateDataPlacement_counters L h d
  | close d flushes => exact unifiedClose_counters L h d flushes
  | outside vol mem pool =>
    rcases h with ⟨live, hacc, hown⟩
    exact ⟨live, ⟨hacc.members, hacc.queue, hacc.queueCount, hacc.requestCount⟩, hown⟩

theorem run_counters (ops : List (Op V)) : ∀ {u : Unified V}, CountersOk u →
    CountersOk (run L ops u) := by
  induction ops with
  | nil => exact fun h => h
  | cons op ops ih => exact fun h => ih (Op.exec_counters L h op)

theorem init_counters (cacheSize maxCapacity : ℕ) (vol : V) :
    CountersOk (Unified.init cacheSize maxCapacity vol) := by
  refine ⟨∅, ⟨?_, ?_, ?_, ?_⟩, ?_⟩
  · intro d
    simp [Unified.init]
  · intro s d
    cases s <;> rfl
  · intro s
    cases s <;> rfl
  · intro s
    cases s <;> rfl
  · intro d dpr hd
    exact absurd hd (by simp [Unified.init])

/-- After every run of operations the counters of a dentry are the numbers of its requests, it
is in each queue once or not at all as they say, and the global counters add up. -/
theorem counters_of_run (cacheSize maxCapacity : ℕ) (vol : V) (ops : List (Op V)) :
    ∃ live : Finset ℕ,
      let u := run L ops (Unified.init cacheSize maxCapacity vol)
      (∀ d, d ∈ live ↔ (u.priv d).isSome) ∧
      (∀ d dpr, u.priv d = some dpr →
        (dpr.inWorkingSet = dpr.requests.countP (fun r => decide (r.state = requestPartial)) ∧
          dpr.inDpQueue = dpr.requests.countP (fun r => decide (r.state = requestDp)) ∧
          dpr.inIpQueue = dpr.requests.countP (fun r => decide (r.state = requestIp))) ∧
        u.workingSet.count d = (if 0 < dpr.inWorkingSet then 1 else 0) ∧
        u.dpQueue.count d = (if 0 < dpr.inDpQueue then 1 else 0) ∧
        u.ipQueue.count d = (if 0 < dpr.inIpQueue then 1 else 0)) ∧
      (∀ d, u.priv d = none → d ∉ u.workingSet ∧ d ∉ u.dpQueue ∧ d ∉ u.ipQueue) ∧
      (u.wsCount = u.workingSet.length ∧ u.dpCount = u.dpQueue.length ∧
        u.ipCount = u.ipQueue.length) ∧
      u.wsRequestCount = ((∑ d ∈ live, (u.priv d).elim 0 DentryPriv.inWorkingSet : ℕ) : ℤ) ∧
      u.ipRequestCount = ((∑ d ∈ live, (u.priv d).elim 0 DentryPriv.inIpQueue : ℕ) : ℤ) ∧
      u.dpRequestCount = ((∑ d ∈ live, (u.priv d).elim 0 fun dpr =>
        if dpr.writeIp then 0 else dpr.inDpQueue : ℕ) : ℤ) := by
  rcases run_counters L ops (init_counters cacheSize maxCapacity vol) with ⟨live, hacc, hown⟩
  have hweight : ∀ (p : Option DentryPriv) (s : RequestState), s ≠ requestDp →
      weightOf p s = counterOf p s := by
    intro p s hs
    simp [weightOf, counterOf, DentryPriv.weight, hs]
  refine ⟨live, hacc.members, ?_, ?_, ?_, ?_, ?_, ?_⟩
  · intro d dpr hd
    have hc := hown d dpr hd
    have hq := fun s => hacc.queue s d
    simp only [hd, counterOf, Option.elim_some] at hq
    exact ⟨⟨congrFun hc requestPartial, congrFun hc requestDp, congrFun hc requestIp⟩,
      hq requestPartial, hq requestDp, hq requestIp⟩
  · intro d hd
    have hq := fun s => hacc.queue s d
    simp only [hd, counterOf, Option.elim_none, Nat.lt_irrefl, if_false, List.count_eq_zero] at hq
    exact ⟨hq requestPartial, hq requestDp, hq requestIp⟩
  · exact ⟨hacc.queueCount requestPartial, hacc.queueCount requestDp, hacc.queueCount requestIp⟩
  · refine (hacc.requestCount requestPartial).trans ?_
    simp only [hweight _ _ (show requestPartial ≠ requestDp by decide)]
    rfl
  · refine (hacc.requestCount requestIp).trans ?_
    simp only [hweight _ _ (show requestIp ≠ requestDp by decide)]
    rfl
  · refine (hacc.requestCount requestDp).trans ?_
    simp only [weightOf, DentryPriv.weight, DentryPriv.counter, true_and]

end Ops

end Ltfs.Sched
