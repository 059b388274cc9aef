import Ltfs.Sched.Blocks
import Ltfs.Sched.Counters

/-!
# The ledger of the cache blocks

Every cache block that was ever handed out is at one place: with a request of some file,
in the hands of a call of `unified_write`, or back in the pool. The operations of the
scheduler keep it so.

* `own` — the blocks at each place.
* `LedgerOk` — the places hold all blocks handed out so far, each once.
* `Stock` — the same while an operation works on one file.
* `Op.exec_ledger` — an operation that is no write keeps the ledger.
-/

namespace Ltfs.Sched

open Lib RequestState

/-- Where a cache block can be. -/
inductive Place where
  /-- With a request of the file `d`. -/
  | file (d : ℕ)
  /-- In the hands of the call number `i` of `unified_write`. -/
  | call (i : ℕ)
  /-- Given back. -/
  | pool
deriving DecidableEq

section Ledger

variable {V : Type}

/-- The cache blocks of the requests of a file. -/
def held (u : Unified V) (d : ℕ) : Multiset ℕ := (u.priv d).elim 0 fun dpr => blocks dpr.requests

/-- The blocks at each place; `spare` are those in the hands of the calls. -/
def own (spare : ℕ → Multiset ℕ) (u : Unified V) : Place → Multiset ℕ
  | .file d => held u d
  | .call i => spare i
  | .pool => (u.pool.freed : List ℕ)

/-- All blocks handed out so far are at some place. -/
def LedgerOk (spare : ℕ → Multiset ℕ) (u : Unified V) : Prop :=
  Ledger (own spare u) (Multiset.Ico 0 u.pool.fresh)

theorem nodup_handedOut (n : ℕ) : (Multiset.Ico 0 n).Nodup := Multiset.nodup_Ico

/-! ## Work on one file -/

/-- The blocks `listed` of the file at hand, and those given back, make up `stock`; the other
files are still `priv`, and no block was handed out since the pool was `pool₀`. -/
structure Stock (priv : ℕ → Option DentryPriv) (pool₀ : CachePool) (stock listed : Multiset ℕ)
    (u : Unified V) : Prop where
  priv : u.priv = priv
  fresh : u.pool.fresh = pool₀.fresh
  freed : (pool₀.freed : Multiset ℕ) ≤ (u.pool.freed : List ℕ)
  ledger : listed + (u.pool.freed : List ℕ) = stock

variable {priv : ℕ → Option DentryPriv} {pool₀ : CachePool} {stock listed : Multiset ℕ} {u u' : Unified V}

theorem Stock.init (u : Unified V) (listed : Multiset ℕ) :
    Stock u.priv u.pool (listed + (u.pool.freed : List ℕ)) listed u :=
  ⟨rfl, rfl, le_refl _, rfl⟩

/-- The stock only looks at the files and the pool. -/
theorem Stock.same (h : Stock priv pool₀ stock listed u) (hpriv : u'.priv = u.priv)
    (hpool : u'.pool = u.pool) : Stock priv pool₀ stock listed u' :=
  ⟨hpriv.trans h.priv, hpool ▸ h.fresh, hpool ▸ h.freed, hpool ▸ h.ledger⟩

theorem Stock.vol (h : Stock priv pool₀ stock listed u) (vol : V) :
    Stock priv pool₀ stock listed { u with vol := vol } := h.same rfl rfl

theorem Stock.congr {listed' : Multiset ℕ} (h : Stock priv pool₀ stock listed u)
    (hl : listed = listed') : Stock priv pool₀ stock listed' u := hl ▸ h

/-- A freed request gives its block back. -/
theorem Stock.free {req : WriteRequest} (h : Stock priv pool₀ stock ({req.writeCache} + listed) u) :
    Stock priv pool₀ stock listed (freeRequest req u) := by
  refine ⟨h.priv, h.fresh, h.freed.trans (Multiset.le_cons_self _ _), ?_⟩
  rw [← h.ledger]
  show listed + ({req.writeCache} + (u.pool.freed : Multiset ℕ)) = _
  ac_rfl

theorem Stock.frees (l : List WriteRequest) : ∀ {listed : Multiset ℕ} {u : Unified V},
    Stock priv pool₀ stock (blocks l + listed) u → Stock priv pool₀ stock listed (freeRequests l u) := by
  induction l with
  | nil =>
    intro listed u h
    rw [blocks_nil, zero_add] at h
    exact h
  | cons req l ih =>
    intro listed u h
    apply ih
    apply Stock.free
    rw [blocks_cons, add_assoc] at h
    exact h

theorem updateQueueMembership_pool (add all : Bool) (queue : RequestState) (d : ℕ) (c : Ctx V) :
    (updateQueueMembership add all queue d c).u.pool = c.u.pool := by
  unfold updateQueueMembership
  cases queue with
  | requestPartial => cases add <;> rfl
  | requestDp => cases add <;> rfl
  | requestIp => cases add <;> rfl

theorem Stock.update {c : Ctx V} (h : Stock priv pool₀ stock listed c.u) (add all : Bool)
    (queue : RequestState) (d : ℕ) :
    Stock priv pool₀ stock listed (updateQueueMembership add all queue d c).u :=
  h.same (updateQueueMembership_queueOnly add all queue d c).priv
    (updateQueueMembership_pool add all queue d c)

theorem applyLog_pool (log : List QueueUpdate) (d : ℕ) : ∀ c : Ctx V,
    (applyLog log d c).u.pool = c.u.pool := by
  induction log with
  | nil => exact fun _ => rfl
  | cons q log ih =>
    intro c
    exact (ih _).trans (updateQueueMembership_pool q.add false q.queue d c)

theorem Stock.log {c : Ctx V} (h : Stock priv pool₀ stock listed c.u) (log : List QueueUpdate) (d : ℕ) :
    Stock priv pool₀ stock listed (applyLog log d c).u :=
  h.same (applyLog_queueOnly log d c).priv (applyLog_pool log d c)

/-- The file goes back into its place. -/
theorem LedgerOk.put {spare : ℕ → Multiset ℕ} {d : ℕ} (h : LedgerOk spare u)
    (hs : Stock u.priv u.pool (held u d + (u.pool.freed : List ℕ)) listed u')
    {dpr : Option DentryPriv} (hdpr : (dpr.elim 0 fun dpr => blocks dpr.requests) = listed) :
    LedgerOk spare (u'.setPriv d dpr) := by
  have hpost : Ledger (own spare (u'.setPriv d dpr)) (Multiset.Ico 0 u.pool.fresh + 0) :=
    h.post {.file d, .pool}
    (by
      rintro (e | i | -) hi
      · -- another file
        have hne : e ≠ d := by
          rintro rfl
          simp at hi
        show held (u'.setPriv d dpr) e = held u e
        unfold held
        rw [setPriv_ne _ _ hne, hs.priv]
      · rfl
      · simp at hi)
    (by
      rw [Finset.sum_pair (by simp), Finset.sum_pair (by simp), add_zero]
      show held (u'.setPriv d dpr) d + (u'.pool.freed : Multiset ℕ) = held u d + _
      rw [held, setPriv_self, hdpr]
      exact hs.ledger)
  rw [add_zero, ← hs.fresh] at hpost
  exact hpost

theorem LedgerOk.same {spare : ℕ → Multiset ℕ} (h : LedgerOk spare u) (hpriv : u'.priv = u.priv)
    (hpool : u'.pool = u.pool) : LedgerOk spare u' := by
  have hown : own spare u' = own spare u := by
    funext p
    cases p with
    | file d =>
      show held u' d = held u d
      unfold held
      rw [hpriv]
    | call i => rfl
    | pool =>
      show (u'.pool.freed : Multiset ℕ) = _
      rw [hpool]
      rfl
  unfold LedgerOk
  rw [hown, hpool]
  exact h

/-- The ledger, with `n` blocks handed out. -/
structure LedgerAt (spare : ℕ → Multiset ℕ) (n : ℕ) (u : Unified V) : Prop where
  ledger : LedgerOk spare u
  fresh : u.pool.fresh = n

theorem LedgerAt.put {spare : ℕ → Multiset ℕ} {n d : ℕ} (h : LedgerAt spare n u)
    (hs : Stock u.priv u.pool (held u d + (u.pool.freed : List ℕ)) listed u')
    {dpr : Option DentryPriv} (hdpr : (dpr.elim 0 fun dpr => blocks dpr.requests) = listed) :
    LedgerAt spare n (u'.setPriv d dpr) :=
  ⟨h.ledger.put hs hdpr, hs.fresh.trans h.fresh⟩

theorem LedgerAt.same {spare : ℕ → Multiset ℕ} {n : ℕ} (h : LedgerAt spare n u)
    (hpriv : u'.priv = u.priv) (hpool : u'.pool = u.pool) : LedgerAt spare n u' :=
  ⟨h.ledger.same hpriv hpool, hpool ▸ h.fresh⟩

theorem held_some {d : ℕ} {dpr : DentryPriv} (hd : u.priv d = some dpr) :
    held u d = blocks dpr.requests := by
  rw [held, hd, Option.elim_some]

/-- Take the `dentry_priv` of a file out to work on it. -/
theorem Stock.ofPriv {d : ℕ} {dpr : DentryPriv} (hd : u.priv d = some dpr) :
    Stock u.priv u.pool (held u d + (u.pool.freed : List ℕ)) (blocks dpr.requests) u := by
  rw [held_some hd]
  exact Stock.init u _

end Ledger

/-! ## Placement, merging and error handling -/

section Steps

variable {V : Type} {priv : ℕ → Option DentryPriv} {pool₀ : CachePool} {stock : Multiset ℕ} {d : ℕ}
  {c : Ctx V}

theorem dropAltExtentlist_stock (h : Stock priv pool₀ stock (blocks c.dpr.requests) c.u) :
    Stock priv pool₀ stock (blocks (dropAltExtentlist d c).dpr.requests) (dropAltExtentlist d c).u := by
  unfold dropAltExtentlist
  split
  · exact h
  · exact h.same rfl rfl

theorem unsetWriteIp_stock (h : Stock priv pool₀ stock (blocks c.dpr.requests) c.u) :
    Stock priv pool₀ stock (blocks (unsetWriteIp d c).dpr.requests) (unsetWriteIp d c).u := by
  unfold unsetWriteIp
  apply dropAltExtentlist_stock
  dsimp only
  by_cases hq : c.dpr.inIpQueue ≠ 0
  · rw [if_pos hq]
    set gone := c.dpr.requests.filter fun r => decide (r.state = requestIp)
    set kept := c.dpr.requests.filter fun r => decide (r.state ≠ requestIp) with hkept
    have hfilter : blocks gone + blocks kept = blocks c.dpr.requests := by
      have hparts := blocks_filter (fun r => decide (r.state = requestIp)) c.dpr.requests
      simp only [← decide_not] at hparts
      exact hparts
    have hfree : Stock priv pool₀ stock (blocks kept) (freeRequests gone c.u) := by
      apply Stock.frees
      rw [hfilter]
      exact h
    set c' : Ctx V := ⟨freeRequests gone c.u, { c.dpr with writeIp := false, requests := kept }⟩
    have hupdate := (show Stock priv pool₀ stock (blocks kept) c'.u from hfree).update
      false true requestIp d
    have hrequests := (updateQueueMembership_queueOnly false true requestIp d c').requests
    show Stock priv pool₀ stock
      (blocks (updateQueueMembership false true requestIp d c').dpr.requests) _
    rw [hrequests]
    exact hupdate.same rfl rfl
  · rw [if_neg hq]
    exact h.same rfl rfl

variable (L : Libltfs V)

theorem recomputeWriteIp_stock (small : Bool)
    (h : Stock priv pool₀ stock (blocks c.dpr.requests) c.u) :
    Stock priv pool₀ stock (blocks (recomputeWriteIp L small d c).dpr.requests)
      (recomputeWriteIp L small d c).u := by
  unfold recomputeWriteIp
  dsimp only
  split
  · exact h.same rfl rfl
  · split
    · exact unsetWriteIp_stock h
    · exact h

theorem placeWrite_stock (call : WriteCall)
    (h : Stock priv pool₀ stock (blocks c.dpr.requests) c.u) :
    Stock priv pool₀ stock (blocks (placeWrite L d call c).dpr.requests) (placeWrite L d call c).u := by
  unfold placeWrite
  split
  · exact unsetWriteIp_stock h
  · exact h

/-- Merging with the predecessor; `extra` are the blocks that are elsewhere in the list. -/
theorem mergePrev_stock {kept : List WriteRequest} {req : WriteRequest} {extra : Multiset ℕ}
    (h : Stock priv pool₀ stock (blocks kept + ({req.writeCache} + extra)) c.u) :
    Stock priv pool₀ stock (blocks (mergePrev d kept req c).1 + extra) (mergePrev d kept req c).2.u := by
  unfold mergePrev
  cases hlast : kept.getLast? with
  | none =>
    rw [List.getLast?_eq_none_iff.mp hlast] at h
    refine h.congr ?_
    simp
  | some dest =>
    rcases List.getLast?_eq_some_iff.mp hlast with ⟨before, rfl⟩
    rcases mergeRequests_writeCache c.u.cacheSize dest req with ⟨hdest, hsrc⟩
    dsimp only
    generalize mergeRequests c.u.cacheSize dest req = m at hdest hsrc
    set c' : Ctx V := { c with dpr := { c.dpr with
      fileSize := if m.updated = true then max c.dpr.fileSize m.dest.limit else c.dpr.fileSize } }
    have hlog := (show Stock priv pool₀ stock _ c'.u from h).log m.srcLog d
    by_cases hret : m.ret = 2
    · rw [if_pos hret, List.dropLast_concat]
      apply Stock.free
      refine hlog.congr ?_
      simp only [blocks_append, blocks_cons, blocks_nil, hdest, add_zero]
      ac_rfl
    · rw [if_neg hret, List.dropLast_concat]
      refine hlog.congr ?_
      simp only [blocks_append, blocks_cons, blocks_nil, hdest, hsrc, add_zero]
      ac_rfl

theorem toIp_stock {kept : List WriteRequest} {req : WriteRequest} {extra : Multiset ℕ}
    (h : Stock priv pool₀ stock (blocks kept + ({req.writeCache} + extra)) c.u) :
    Stock priv pool₀ stock (blocks (toIp d kept req c).1 + extra) (toIp d kept req c).2.u := by
  unfold toIp
  exact mergePrev_stock (h.update true false requestIp d)

theorem handleWriteError_stock {ret : ℤ} {failed : WriteRequest} {extra : Multiset ℕ}
    (h : Stock priv pool₀ stock (blocks c.dpr.requests + extra) c.u) :
    Stock priv pool₀ stock (blocks (handleWriteError L ret failed d c).dpr.requests + extra)
      (handleWriteError L ret failed d c).u := by
  unfold handleWriteError
  dsimp only
  -- recording the code and the size changes neither the list nor the pool
  generalize hc₁ : (if ¬ (failed.state = requestIp ∧ (ret = -ltfsNoSpace ∨ ret = -ltfsLessSpace)) ∧
      c.dpr.writeError = 0 then { c with dpr := { c.dpr with writeError := ret } } else c) = c₁
  have h₁ : c₁.u = c.u ∧ c₁.dpr.requests = c.dpr.requests := by
    rw [← hc₁]
    split
    · exact ⟨rfl, rfl⟩
    · exact ⟨rfl, rfl⟩
  rw [← h₁.1, ← h₁.2] at h
  set c₂ : Ctx V := { c₁ with dpr := { c₁.dpr with fileSize := L.dentrySize d c₁.u.vol } }
  have h₂ : Stock priv pool₀ stock (blocks c₂.dpr.requests + extra) c₂.u := h
  by_cases hempty : c₁.dpr.requests.isEmpty = true
  · rw [if_pos hempty]
    exact h₂
  · rw [if_neg hempty]
    generalize hclear : clearFlags L ret failed c₁.u.vol = clear
    -- the counters are put right first, then the dropped requests are freed
    generalize hc₃ : (if clear.1 = true then updateQueueMembership false true requestPartial d
      (updateQueueMembership false true requestDp d c₂) else c₂) = c₃
    have h₃ : Stock priv pool₀ stock (blocks c₂.dpr.requests + extra) c₃.u ∧
        c₃.dpr.requests = c₂.dpr.requests := by
      rw [← hc₃]
      split
      · refine ⟨(h₂.update _ _ _ _).update _ _ _ _, ?_⟩
        exact (updateQueueMembership_queueOnly _ _ _ _ _).requests.trans
          (updateQueueMembership_queueOnly _ _ _ _ _).requests
      · exact ⟨h₂, rfl⟩
    generalize hc₄ : (if clear.2 = true then updateQueueMembership false true requestIp d c₃ else c₃)
      = c₄
    have h₄ : Stock priv pool₀ stock (blocks c₄.dpr.requests + extra) c₄.u := by
      rw [← hc₄]
      split
      · rw [(updateQueueMembership_queueOnly _ _ _ _ _).requests, h₃.2]
        exact h₃.1.update _ _ _ _
      · rw [h₃.2]
        exact h₃.1
    apply Stock.frees
    refine h₄.congr ?_
    rw [← blocks_filter (keepsRequest clear) c₄.dpr.requests]
    dsimp only
    ac_rfl

theorem failedWrite_stock {ret : ℤ} {req : WriteRequest} {l : List WriteRequest} (vol : V)
    {extra : Multiset ℕ} (h : Stock priv pool₀ stock (blocks l + extra) c.u) :
    Stock priv pool₀ stock (blocks (failedWrite L d ret req l vol c).dpr.requests + extra)
      (failedWrite L d ret req l vol c).u := by
  unfold failedWrite
  exact handleWriteError_stock L (h.same rfl rfl)

/-! ## The loops -/

theorem flushLoop_stock (rest : List WriteRequest) : ∀ {kept : List WriteRequest} {c : Ctx V},
    Stock priv pool₀ stock (blocks kept + blocks rest) c.u →
    Stock priv pool₀ stock (blocks (flushLoop L d kept rest c).dpr.requests)
      (flushLoop L d kept rest c).u := by
  induction rest with
  | nil =>
    intro kept c h
    rw [blocks_nil, add_zero] at h
    exact h
  | cons req rest ih =>
    intro kept c h
    rw [blocks_cons] at h
    unfold flushLoop
    dsimp only
    split
    · exact ih (mergePrev_stock h)
    · split
      · -- the write failed: the whole list goes to error handling
        have hlist : Stock priv pool₀ stock (blocks (kept ++ req :: rest) + 0) c.u :=
          h.congr (by simp)
        exact (failedWrite_stock L _ hlist).congr (add_zero _)
      · split
        · exact ih (toIp_stock (h.same rfl rfl))
        · apply ih
          apply Stock.free
          refine (h.vol _).congr ?_
          ac_rfl

/-- The requests on the private list of the writer are neither in the file's list nor freed. -/
theorem dataLoop_stock (queue : RequestState) (rest : List WriteRequest) :
    ∀ {kept moved : List WriteRequest} {c : Ctx V},
      Stock priv pool₀ stock (blocks kept + (blocks moved + blocks rest)) c.u →
      Stock priv pool₀ stock (blocks (dataLoop L queue d kept moved rest c).2.dpr.requests
        + blocks (dataLoop L queue d kept moved rest c).1) (dataLoop L queue d kept moved rest c).2.u := by
  induction rest with
  | nil =>
    intro kept moved c h
    rw [blocks_nil, add_zero] at h
    exact h
  | cons req rest ih =>
    intro kept moved c h
    have hreq : blocks kept + (blocks moved + blocks (req :: rest))
        = blocks kept + ({req.writeCache} + (blocks moved + blocks rest)) := by
      rw [blocks_cons]
      ac_rfl
    unfold dataLoop
    dsimp only
    split
    · exact ih (mergePrev_stock (h.congr hreq))
    · split
      · split
        · split
          · have hlist : Stock priv pool₀ stock (blocks (kept ++ req :: rest) + blocks moved) c.u := by
              refine h.congr ?_
              rw [blocks_append]
              ac_rfl
            exact failedWrite_stock L _ hlist
          · exact ih (toIp_stock ((h.congr hreq).same rfl rfl))
        · apply ih
          refine h.congr ?_
          simp only [blocks_append, blocks_cons, blocks_nil, add_zero]
          ac_rfl
      · apply ih
        refine h.congr ?_
        simp only [blocks_append, blocks_cons, blocks_nil, add_zero]
        ac_rfl

/-- The private list: what is not sent is still to be freed. -/
theorem sendLoop_stock (l : List WriteRequest) : ∀ {listed : Multiset ℕ} {u : Unified V},
    Stock priv pool₀ stock (listed + blocks l) u →
    match sendLoop L d l u with
    | (none, u') => Stock priv pool₀ stock listed u'
    | (some (_, req, rest), u') => Stock priv pool₀ stock (listed + blocks (req :: rest)) u' := by
  induction l with
  | nil =>
    intro listed u h
    rw [blocks_nil, add_zero] at h
    exact h
  | cons req rest ih =>
    intro listed u h
    unfold sendLoop
    dsimp only
    by_cases hfail : (L.fsrawWrite d req.data req.offset u.vol).1 < 0
    · rw [if_pos hfail]
      exact h.same rfl rfl
    · rw [if_neg hfail]
      apply ih
      apply Stock.free
      refine (h.vol _).congr ?_
      rw [blocks_cons]
      ac_rfl

theorem updateAltExtentlist_stock {listed : Multiset ℕ} (new : ExtentInfo)
    (h : Stock priv pool₀ stock listed c.u) :
    Stock priv pool₀ stock listed (updateAltExtentlist L new d c).u := by
  unfold updateAltExtentlist
  split
  · exact h.same rfl rfl
  · exact h.same rfl rfl

theorem indexLoop_stock (rest : List WriteRequest) : ∀ {kept : List WriteRequest} {c : Ctx V},
    Stock priv pool₀ stock (blocks kept + blocks rest) c.u →
    Stock priv pool₀ stock (blocks (indexLoop L d kept rest c).dpr.requests)
      (indexLoop L d kept rest c).u := by
  induction rest with
  | nil =>
    intro kept c h
    rw [blocks_nil, add_zero] at h
    exact h
  | cons req rest ih =>
    intro kept c h
    unfold indexLoop
    split
    · have hfailed : ∀ (ret : ℤ) (mem : List Bool) (vol : V), Stock priv pool₀ stock
          (blocks (handleWriteError L ret req d
            { u := { c.u with mem := mem, vol := vol }
              dpr := { c.dpr with requests := kept ++ req :: rest } }).dpr.requests)
          (handleWriteError L ret req d
            { u := { c.u with mem := mem, vol := vol }
              dpr := { c.dpr with requests := kept ++ req :: rest } }).u := by
        intro ret mem vol
        set c' : Ctx V := { u := { c.u with mem := mem, vol := vol }
                            dpr := { c.dpr with requests := kept ++ req :: rest } }
        have hset : Stock priv pool₀ stock (blocks c'.dpr.requests + 0) c'.u := by
          have hsame : Stock priv pool₀ stock (blocks kept + blocks (req :: rest)) c'.u := h.same rfl rfl
          refine hsame.congr ?_
          rw [add_zero]
          exact (blocks_append kept (req :: rest)).symm
        exact (handleWriteError_stock L hset).congr (add_zero _)
      dsimp only
      split
      · exact hfailed _ _ _
      · split
        · split
          · exact hfailed _ _ _
          · exact hfailed _ _ _
        · rename_i block vol _
          apply ih
          apply Stock.free
          have hvol : Stock priv pool₀ stock ({req.writeCache} + (blocks kept + blocks rest))
              (⟨{ c.u.allocates.2 with vol := vol }, c.dpr⟩ : Ctx V).u := by
            have hsame : Stock priv pool₀ stock (blocks kept + blocks (req :: rest))
                { c.u.allocates.2 with vol := vol } := h.same rfl rfl
            refine hsame.congr ?_
            rw [blocks_cons]
            ac_rfl
          exact updateAltExtentlist_stock L _ hvol
    · apply ih
      refine h.congr ?_
      simp only [blocks_append, blocks_cons, blocks_nil, add_zero]
      ac_rfl

theorem truncateLoop_stock (length : ℕ) (l : List WriteRequest) : ∀ {extra : Multiset ℕ} {c : Ctx V},
    Stock priv pool₀ stock (blocks l + extra) c.u →
    Stock priv pool₀ stock (blocks (truncateLoop length d l c).1 + extra)
      (truncateLoop length d l c).2.u := by
  induction l with
  | nil => exact fun h => h
  | cons req before ih =>
    intro extra c h
    unfold truncateLoop
    dsimp only
    split
    · apply ih
      apply Stock.free
      refine (h.update false false req.state d).congr ?_
      rw [blocks_cons, add_assoc]
    · split
      · -- a request that is cut keeps its block
        have hcut : Stock priv pool₀ stock (blocks before + ({req.writeCache} + extra)) c.u := by
          refine h.congr ?_
          rw [blocks_cons]
          ac_rfl
        refine (ih hcut).congr ?_
        rw [blocks_cons]
        ac_rfl
      · exact h

end Steps

/-! ## The operations -/

section Ops

variable {V : Type} {spare : ℕ → Multiset ℕ} {n : ℕ} {u : Unified V} (L : Libltfs V)

theorem flushUnlocked_ledger (h : LedgerAt spare n u) (d : ℕ) :
    LedgerAt spare n (flushUnlocked L d u).2 := by
  unfold flushUnlocked
  cases hd : u.priv d with
  | none => exact h
  | some dpr =>
    have hs := Stock.ofPriv hd
    dsimp only
    split
    · exact h.put hs rfl
    · split
      · exact h.put hs rfl
      · set c₀ : Ctx V := ⟨u, (getWriteError dpr).2⟩
        have hupdates := ((show Stock u.priv u.pool _ _ c₀.u from hs).update false true
          requestDp d).update false true requestPartial d
        have hrequests := ((updateQueueMembership_queueOnly false true requestDp d c₀).trans
          (updateQueueMembership_queueOnly false true requestPartial d _)).requests
        set c := updateQueueMembership false true requestPartial d
          (updateQueueMembership false true requestDp d c₀)
        have hstart : Stock u.priv u.pool (held u d + (u.pool.freed : List ℕ))
            (blocks [] + blocks c.dpr.requests) c.u := by
          refine hupdates.congr ?_
          rw [hrequests, blocks_nil, zero_add]
          rfl
        exact h.put (flushLoop_stock L (d := d) _ hstart) rfl

theorem flushEach_ledger (l : List ℕ) : ∀ {u : Unified V}, LedgerAt spare n u →
    LedgerAt spare n (flushEach L l u).2 := by
  induction l with
  | nil => exact fun h => h
  | cons d rest ih =>
    intro u h
    unfold flushEach
    dsimp only
    split
    · exact flushUnlocked_ledger L h d
    · exact ih (flushUnlocked_ledger L h d)

theorem flushAll_ledger (h : LedgerAt spare n u) : LedgerAt spare n (flushAll L u).2 := by
  unfold flushAll
  dsimp only
  split
  · exact flushEach_ledger L _ h
  · exact flushEach_ledger L _ (flushEach_ledger L _ h)

/-- One round of the writer: what is on the private list is freed in the end, sent or not. -/
theorem processDataEntry_ledger (queue : RequestState) (h : LedgerAt spare n u) (d : ℕ) :
    LedgerAt spare n (processDataEntry L queue d u) := by
  unfold processDataEntry
  cases hd : u.priv d with
  | none => exact h
  | some dpr =>
    have hs := Stock.ofPriv hd
    dsimp only
    set c₀ : Ctx V := ⟨u, dpr⟩
    set c := if queue = requestPartial then updateQueueMembership false true requestDp d
      (updateQueueMembership false true queue d c₀)
      else updateQueueMembership false true queue d c₀ with hc
    have hstart : Stock u.priv u.pool (held u d + (u.pool.freed : List ℕ))
        (blocks dpr.requests) c.u ∧ c.dpr.requests = dpr.requests := by
      have hone := (show Stock u.priv u.pool _ _ c₀.u from hs).update false true queue d
      have hrequests := (updateQueueMembership_queueOnly false true queue d c₀).requests
      rw [hc]
      split
      · exact ⟨hone.update _ _ _ _,
          (updateQueueMembership_queueOnly _ _ _ _ _).requests.trans hrequests⟩
      · exact ⟨hone, hrequests⟩
    have hlists : Stock u.priv u.pool (held u d + (u.pool.freed : List ℕ))
        (blocks [] + (blocks [] + blocks c.dpr.requests)) c.u := by
      refine hstart.1.congr ?_
      rw [hstart.2, blocks_nil, zero_add, zero_add]
    have hloop := dataLoop_stock L (d := d) queue c.dpr.requests hlists
    set l := dataLoop L queue d [] [] c.dpr.requests c
    have hsend := sendLoop_stock L (d := d) l.1 hloop
    split
    · rename_i u' heq
      rw [heq] at hsend
      exact h.put hsend rfl
    · rename_i ret req rest u' heq
      rw [heq] at hsend
      set c' := handleWriteError L ret req d ⟨u', l.2.dpr⟩
      have herror : Stock u.priv u.pool (held u d + (u.pool.freed : List ℕ))
          (blocks c'.dpr.requests + blocks (req :: rest)) c'.u :=
        handleWriteError_stock L (c := ⟨u', l.2.dpr⟩) hsend
      have hfree : Stock u.priv u.pool (held u d + (u.pool.freed : List ℕ))
          (blocks c'.dpr.requests) (freeRequests (req :: rest) c'.u) := by
        apply Stock.frees
        exact herror.congr (add_comm _ _)
      exact h.put hfree rfl

theorem processDataLoop_ledger (queue : RequestState) (rounds : ℕ) : ∀ {u : Unified V},
    LedgerAt spare n u → LedgerAt spare n (processDataLoop L queue rounds u) := by
  induction rounds with
  | zero => exact fun h => h
  | succ rounds ih =>
    intro u h
    unfold processDataLoop
    split
    · exact h
    · exact ih (processDataEntry_ledger L queue h _)

/-- A `dentry_priv` is only freed when it has no requests. -/
theorem freeDentryPrivConditional_ledger (h : LedgerAt spare n u) (d handles : ℕ) :
    LedgerAt spare n (freeDentryPrivConditional L d handles u) := by
  unfold freeDentryPrivConditional
  cases hd : u.priv d with
  | none => exact h
  | some dpr =>
    dsimp only
    split
    · rename_i hfree
      have hempty : blocks dpr.requests = 0 := by
        rw [List.isEmpty_iff.mp hfree.2.1]
        rfl
      have hput : LedgerAt spare n (u.setPriv d none) := h.put (Stock.ofPriv hd) hempty.symm
      exact hput.same rfl rfl
    · exact h

theorem processIndexEntry_ledger (h : LedgerAt spare n u) (d : ℕ) :
    LedgerAt spare n (processIndexEntry L d u) := by
  unfold processIndexEntry
  cases hd : u.priv d with
  | none => exact h
  | some dpr =>
    set c₀ : Ctx V := ⟨u, dpr⟩
    have hupdate := (show Stock u.priv u.pool _ _ c₀.u from Stock.ofPriv hd).update false true
      requestIp d
    have hrequests := (updateQueueMembership_queueOnly false true requestIp d c₀).requests
    dsimp only
    set c := updateQueueMembership false true requestIp d c₀
    have hstart : Stock u.priv u.pool (held u d + (u.pool.freed : List ℕ))
        (blocks [] + blocks c.dpr.requests) c.u := by
      refine hupdate.congr ?_
      rw [hrequests, blocks_nil, zero_add]
    exact freeDentryPrivConditional_ledger L (h.put (indexLoop_stock L _ hstart) rfl) d 2

theorem processQueue_ledger (queue : RequestState) (h : LedgerAt spare n u) :
    LedgerAt spare n (processQueue L queue u) := by
  unfold processQueue
  split
  · unfold processIndexQueue
    generalize u.ipQueue = l
    induction l generalizing u with
    | nil => exact h
    | cons d l ih => exact ih (processIndexEntry_ledger L h d)
  · exact processDataLoop_ledger L queue _ h

theorem updateDataPlacement_ledger (h : LedgerAt spare n u) (d : ℕ) :
    LedgerAt spare n (updateDataPlacement L d u) := by
  unfold updateDataPlacement
  cases hd : u.priv d with
  | none => exact h
  | some dpr => exact h.put (recomputeWriteIp_stock L (c := ⟨u, dpr⟩) _ (Stock.ofPriv hd)) rfl

theorem unifiedTruncate_ledger (h : LedgerAt spare n u) (d length : ℕ) :
    LedgerAt spare n (unifiedTruncate L d length u).2 := by
  unfold unifiedTruncate
  dsimp only
  split
  · exact h
  · cases hd : u.priv d with
    | none => exact h.same rfl rfl
    | some dpr =>
      have hs := Stock.ofPriv hd
      have hcut : Stock u.priv u.pool (held u d + (u.pool.freed : List ℕ))
          (blocks (truncateCached length d ⟨u, dpr⟩).dpr.requests) (truncateCached length d ⟨u, dpr⟩).u := by
        unfold truncateCached
        split
        · have hback : Stock u.priv u.pool (held u d + (u.pool.freed : List ℕ))
              (blocks dpr.requests.reverse + 0) (⟨u, dpr⟩ : Ctx V).u := by
            refine hs.congr ?_
            rw [blocks_reverse, add_zero]
          dsimp only
          rw [blocks_reverse]
          exact (truncateLoop_stock length _ hback).congr (add_zero _)
        · exact hs
      have hplace := recomputeWriteIp_stock L (d := d) (decide (length = 0)) hcut
      exact (h.put hplace rfl).same rfl rfl

theorem unifiedClose_ledger (h : LedgerAt spare n u) (d : ℕ) (flushes : Bool) :
    LedgerAt spare n (unifiedClose L d flushes u).2 := by
  unfold unifiedClose
  dsimp only
  set f := if flushes then flushUnlocked L d u else (0, u)
  have hf : LedgerAt spare n f.2 := by
    rcases Bool.eq_false_or_eq_true flushes with hflush | hflush
    · simp only [f, hflush, if_true]
      exact flushUnlocked_ledger L h d
    · simpa [f, hflush] using h
  have hreset : LedgerAt spare n
      (f.2.setPriv d ((f.2.priv d).map fun dpr => { dpr with writeError := 0 })) := by
    refine hf.put (Stock.init f.2 _) ?_
    unfold held
    cases f.2.priv d with
    | none => rfl
    | some dpr => rfl
  exact (freeDentryPrivConditional_ledger L hreset d 3).same rfl rfl

/-- Not a write, and nothing that touches the cache pool from outside. -/
def Op.Quiet (op : Op V) (u : Unified V) : Prop :=
  match op with
  | .write _ _ _ => False
  | .resume _ _ _ => False
  | .outside _ _ pool => pool = u.pool
  | _ => True

/-- Every operation of the scheduler that is no write keeps the ledger, and hands out no block. -/
theorem Op.exec_ledger (h : LedgerAt spare n u) (op : Op V) (hquiet : op.Quiet u) :
    LedgerAt spare n (op.exec L u) := by
  cases op with
  | write d buf offset => exact hquiet.elim
  | resume d size call => exact hquiet.elim
  | truncate d length => exact unifiedTruncate_ledger L h d length
  | flush d => exact flushUnlocked_ledger L h d
  | flushAll => exact flushAll_ledger L h
  | processQueue queue => exact processQueue_ledger L queue h
  | updateDataPlacement d => exact updateDataPlacement_ledger L h d
  | close d flushes => exact unifiedClose_ledger L h d flushes
  | outside vol mem pool => exact h.same rfl hquiet

end Ops

end Ltfs.Sched
