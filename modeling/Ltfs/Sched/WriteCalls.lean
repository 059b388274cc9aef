import Ltfs.Sched.BlockLedger
import Ltfs.Sched.Chunks
import Ltfs.Sched.WriteError

/-!
# Calls of `unified_write` that wait for a cache block

Under cache pressure a call of `unified_write` releases its locks, waits until the cache
manager gives it a block, and starts again with that block in hand. Other calls and the
other operations of the scheduler go on meanwhile.

* `Writers` — the scheduler and the calls that have not returned.
* `WriteEvent.exec` — a call begins, gets its block, goes on, or something else happens.
* `writeAttempt_ledger` — where the cache blocks are after an attempt.
* `blocks_accounted_iff` — when a call returns, all blocks it had to do with are with one
  request or were given back once, except if it found a pending write error while it had a
  block in hand, or if the allocation of a request failed.
-/

namespace Ltfs.Sched

open Lib RequestState

/-- A call that has not returned. `touched` is no data of the program: the blocks that the
call allocated so far, and those of the requests that it found in the list. -/
structure InProgress where
  d : ℕ
  size : ℕ
  call : WriteCall
  touched : Finset ℕ

/-- The scheduler and the calls in progress. -/
structure Writers (V : Type) where
  u : Unified V
  calls : ℕ → Option InProgress

/-- What can happen. -/
inductive WriteEvent (V : Type) where
  /-- The call number `i` begins. -/
  | start (i d : ℕ) (buf : List UInt8) (offset : ℕ)
  /-- The waiting call `i` gets a cache block. -/
  | wake (i : ℕ)
  /-- It takes the locks again and goes on at `write_start`. -/
  | resume (i : ℕ)
  /-- Another operation of the scheduler, or of the system around it. -/
  | other (op : Op V)

/-- An attempt of a call: what it has touched up to now, and how the attempt ends. -/
structure Attempt (V : Type) where
  i : ℕ
  d : ℕ
  size : ℕ
  touched : Finset ℕ
  result : WriteReturn × Unified V

section Events

variable {V : Type} (L : Libltfs V)

/-- The blocks allocated by an attempt, and those of the requests that were in the list. -/
def touchedBy (d : ℕ) (u u' : Unified V) : Finset ℕ :=
  (held u d).toFinset ∪ Finset.Ico u.pool.fresh u'.pool.fresh

/-- The attempt that an event makes. -/
def WriteEvent.attempt : WriteEvent V → Writers V → Option (Attempt V)
  | .start i d buf offset, s =>
    if (s.calls i).isSome then
      none
    else
      let r := unifiedWrite L d buf offset s.u
      some ⟨i, d, buf.length, touchedBy d s.u r.2, r⟩
  | .resume i, s =>
    match s.calls i with
    | none => none
    | some c =>
      if c.call.spare.isSome then
        let r := writeAttempt L c.d c.size c.call s.u
        some ⟨i, c.d, c.size, c.touched ∪ touchedBy c.d s.u r.2, r⟩
      else
        none
  | _, _ => none

/-- After an attempt the call is over, or it waits. An attempt that does not end is none. -/
def Attempt.settle (a : Attempt V) (s : Writers V) : Writers V :=
  match a.result.1 with
  | .returned _ => ⟨a.result.2, Function.update s.calls a.i none⟩
  | .restart call => ⟨a.result.2, Function.update s.calls a.i (some ⟨a.d, a.size, call, a.touched⟩)⟩
  | .diverges => s

/-- `cache_manager_allocate_object` for a waiting call. -/
def Writers.wake (i : ℕ) (s : Writers V) : Writers V :=
  match s.calls i with
  | none => s
  | some c =>
    match c.call.spare, s.u.pool.allocateObject with
    | none, some (cache, pool) =>
      ⟨{ s.u with pool := pool }, Function.update s.calls i (some { c with
        call := { c.call with spare := some cache }
        touched := insert cache c.touched })⟩
    | _, _ => s

instance (op : Op V) (u : Unified V) : Decidable (op.Quiet u) := by
  unfold Op.Quiet
  cases op <;> infer_instance

/-- One event. -/
def WriteEvent.exec (e : WriteEvent V) (s : Writers V) : Writers V :=
  match e.attempt L s with
  | some a => a.settle s
  | none =>
    match e with
    | .wake i => s.wake i
    | .other op => if op.Quiet s.u then { s with u := op.exec L s.u } else s
    | _ => s

/-- A run. -/
def runWriters (events : List (WriteEvent V)) (s : Writers V) : Writers V :=
  events.foldl (fun s e => e.exec L s) s

/-- The answers of `calloc` to the requests that an attempt made. The first answer of an
attempt that has to make the `dentry_priv` is for that. -/
def requestResults (d : ℕ) (u u' : Unified V) : List Bool :=
  let used := u.mem.take (u.mem.length - u'.mem.length)
  if (u.priv d).isSome then used else used.tail

/-- A call that goes on with a block in hand meets no pending write error, and no allocation
of a request fails. -/
def WriteEvent.Clean (e : WriteEvent V) (s : Writers V) : Prop :=
  ∀ a, e.attempt L s = some a →
    ((s.calls a.i).isSome → 0 ≤ writeCode s.u a.d) ∧
      ∀ ok ∈ requestResults a.d s.u a.result.2, ok = true

/-- All events of a run are so. -/
def CleanRun : List (WriteEvent V) → Writers V → Prop
  | [], _ => True
  | e :: events, s => e.Clean L s ∧ CleanRun events (e.exec L s)

/-- The block belongs to exactly one request of exactly one list and was not given back, or
to none and was given back exactly once. -/
def BlockAccounted (u : Unified V) (b : ℕ) : Prop :=
  ((∃ d, (held u d).count b = 1 ∧ ∀ e, e ≠ d → b ∉ held u e) ∧ u.pool.freed.count b = 0) ∨
    ((∀ d, b ∉ held u d) ∧ u.pool.freed.count b = 1)

end Events

/-! ## An attempt -/

section Attempt

variable {V : Type} (L : Libltfs V) {spare : ℕ → Multiset ℕ} {u : Unified V} {i d : ℕ}

/-- The block in hand after an attempt. -/
def WriteReturn.spareAfter : WriteReturn → Option ℕ
  | .restart call => call.spare
  | _ => none

/-- Where the blocks are after an attempt. -/
inductive AttemptLedger (spare : ℕ → Multiset ℕ) (i d : ℕ) (call : WriteCall) (u : Unified V) :
    WriteReturn × Unified V → Prop where
  /-- All blocks are where they belong. -/
  | kept (r : WriteReturn × Unified V)
    (hledger : LedgerOk (Function.update spare i (spareBlocks r.1.spareAfter)) r.2)
    (hfresh : u.pool.fresh ≤ r.2.pool.fresh)
    (hcode : call.spare = none ∨ 0 ≤ writeCode u d)
    (hmem : ∀ ok ∈ requestResults d u r.2, ok = true)
    (hwaits : ∀ rest, r.1 = .restart rest → rest.spare = none ∧ rest.checkedReadonly = true) :
    AttemptLedger spare i d call u r
  /-- The call returns with its block. -/
  | leaked (ret : ℤ) (u' : Unified V) (cache : ℕ) (hspare : call.spare = some cache)
    (hcode : writeCode u d < 0) (hledger : LedgerOk spare u') :
    AttemptLedger spare i d call u (.returned ret, u')
  /-- The call gives a block back twice. -/
  | twice (ret : ℤ) (u' : Unified V) (cache : ℕ) (hfreed : 2 ≤ u'.pool.freed.count cache)
    (htouched : call.spare = some cache ∨ cache ∈ touchedBy d u u')
    (hmem : false ∈ requestResults d u u') :
    AttemptLedger spare i d call u (.returned ret, u')
  | diverges (u' : Unified V) : AttemptLedger spare i d call u (.diverges, u')

theorem freeSpare_eq (spare : Option ℕ) (u : Unified V) :
    ((freeSpare spare u).pool.freed : Multiset ℕ) = spareBlocks spare + (u.pool.freed : List ℕ) ∧
      (freeSpare spare u).pool.fresh = u.pool.fresh ∧ (freeSpare spare u).mem = u.mem := by
  cases spare with
  | none => exact ⟨(zero_add _).symm, rfl, rfl⟩
  | some cache => exact ⟨rfl, rfl, rfl⟩

/-- The blocks of one file and one call are exchanged, and blocks may be allocated. -/
theorem LedgerOk.exchange {u' : Unified V} (h : LedgerOk spare u) {mine' : Multiset ℕ}
    (hpriv : ∀ e, e ≠ d → held u' e = held u e) (hfresh : u.pool.fresh ≤ u'.pool.fresh)
    (hledger : held u' d + (mine' + (u'.pool.freed : List ℕ))
      = held u d + (spare i + (u.pool.freed : List ℕ))
        + Multiset.Ico u.pool.fresh u'.pool.fresh) :
    LedgerOk (Function.update spare i mine') u' := by
  have hpost : Ledger (own (Function.update spare i mine') u')
      (Multiset.Ico 0 u.pool.fresh + Multiset.Ico u.pool.fresh u'.pool.fresh) :=
    h.post {.file d, .call i, .pool}
    (by
      rintro (e | j | -) hp
      · refine hpriv e ?_
        rintro rfl
        simp at hp
      · show Function.update spare i mine' j = spare j
        refine Function.update_of_ne ?_ _ _
        rintro rfl
        simp at hp
      · simp at hp)
    (by
      simp only [Finset.sum_insert, Finset.mem_insert, Finset.mem_singleton, reduceCtorEq, or_self,
        not_false_eq_true, Finset.sum_singleton]
      show held u' d + (Function.update spare i mine' i + _) = _
      rw [Function.update_self]
      exact hledger)
  rw [Multiset.Ico_add_Ico_eq_Ico (Nat.zero_le _) hfresh] at hpost
  exact hpost

/-- The answers of `calloc` for requests are the ones after that for the `dentry_priv`. -/
theorem requestResults_eq {u' : Unified V} {used : List Bool}
    (h : (if (u.priv d).isSome then u.mem else u.mem.tail) = used ++ u'.mem) :
    requestResults d u u' = used := by
  unfold requestResults
  dsimp only
  by_cases hd : (u.priv d).isSome = true
  · rw [if_pos hd] at h ⊢
    rw [h, List.length_append, Nat.add_sub_cancel, List.take_left]
  · rw [if_neg hd] at h ⊢
    cases hmem : u.mem with
    | nil =>
      rw [hmem] at h
      have hnil : used = [] := (List.append_eq_nil_iff.mp h.symm).1
      simp [hnil]
    | cons ok rest =>
      rw [hmem] at h
      have hrest : rest = used ++ u'.mem := h
      have hlen : (ok :: rest).length - u'.mem.length = used.length + 1 := by
        rw [hrest, List.length_cons, List.length_append]
        omega
      rw [hlen, List.take_succ_cons, List.tail_cons, hrest, List.take_left]

/-- What `_unified_get_dentry_priv` does to blocks and allocations. -/
structure GotDentryPriv (d : ℕ) (u : Unified V) (r : Option DentryPriv × Unified V) : Prop where
  pool : r.2.pool = u.pool
  held : ∀ e, held r.2 e = held u e
  mem : r.2.mem = if (u.priv d).isSome then u.mem else u.mem.tail
  priv : ∀ dpr, r.1 = some dpr → r.2.priv d = some dpr ∧ dpr.writeError = writeCode u d
  failed : r.1 = none → writeCode u d = 0

theorem getDentryPriv_blocks (d : ℕ) (u : Unified V) : GotDentryPriv d u (getDentryPriv L d u) := by
  unfold getDentryPriv
  cases hd : u.priv d with
  | some dpr =>
    refine ⟨rfl, fun _ => rfl, by rw [hd]; rfl, ?_, fun h => (nomatch h)⟩
    rintro p ⟨⟩
    refine ⟨hd, ?_⟩
    rw [writeCode, hd]
    rfl
  | none =>
    have hcode : writeCode u d = 0 := by
      rw [writeCode, hd]
      rfl
    dsimp only
    split
    · exact ⟨rfl, fun _ => rfl, by rw [hd]; rfl, fun dpr h => (nomatch h), fun _ => hcode⟩
    · refine ⟨rfl, ?_, by rw [hd]; rfl, ?_, fun h => (nomatch h)⟩
      · intro e
        unfold Sched.held
        by_cases he : e = d
        · -- the new list is empty
          subst he
          simp only [setPriv_self, hd, Option.elim_some, Option.elim_none, blocks_nil]
        · simp only [setPriv_ne _ _ he]
          rfl
      · rintro p ⟨⟩
        exact ⟨setPriv_self _ _ _, hcode.symm⟩

theorem LedgerOk.getDentryPriv (h : LedgerOk spare u) (d : ℕ) :
    LedgerOk spare (getDentryPriv L d u).2 := by
  have hg := getDentryPriv_blocks L d u
  have hown : own spare (Sched.getDentryPriv L d u).2 = own spare u := by
    funext p
    cases p with
    | file e => exact hg.held e
    | call i => rfl
    | pool =>
      show ((Sched.getDentryPriv L d u).2.pool.freed : Multiset ℕ) = _
      rw [hg.pool]
      rfl
  unfold LedgerOk
  rw [hown, hg.pool]
  exact h

/-- The edit of the list in an attempt, with its blocks. -/
theorem editRequests_books (call : WriteCall) (c : Ctx V) :
    ResultBooks (blocks c.dpr.requests + (startWrite call c).purse) c.u.pool c.u.mem
      (editRequests call c) :=
  doAppend_books _ (Books.init (startWrite call c) (blocks c.dpr.requests))

theorem unsetWriteIp_mem (d : ℕ) (c : Ctx V) : (unsetWriteIp d c).u.mem = c.u.mem := by
  have hdrop : ∀ c' : Ctx V, (dropAltExtentlist d c').u.mem = c'.u.mem := by
    intro c'
    unfold dropAltExtentlist
    split
    · rfl
    · rfl
  unfold unsetWriteIp
  dsimp only
  rw [hdrop]
  split
  · exact (updateQueueMembership_queueOnly false true requestIp d _).mem.trans (freeRequests_mem _ _)
  · rfl

theorem placeWrite_mem (d : ℕ) (call : WriteCall) (c : Ctx V) :
    (placeWrite L d call c).u.mem = c.u.mem := by
  unfold placeWrite
  split
  · exact unsetWriteIp_mem d c
  · rfl

/-- The scheduler with the edited list put back. -/
structure PutBack (d : ℕ) (r : WriteResult) (c : Ctx V) (u : Unified V) : Prop where
  pool : u.pool = r.state.pool
  mem : u.mem = r.state.mem
  file : held u d = blocks r.requests
  others : ∀ e, e ≠ d → held u e = held c.u e

theorem finishWrite_putBack (d : ℕ) (r : WriteResult) (c : Ctx V) :
    PutBack d r c ((finishWrite d r c).store d) := by
  set c' : Ctx V :=
    { u := { c.u with pool := r.state.pool, mem := r.state.mem }
      dpr := { c.dpr with requests := r.requests, fileSize := r.state.fileSize } } with hc'
  have hq := applyLog_queueOnly r.state.log d c'
  constructor
  · exact applyLog_pool r.state.log d c'
  · exact hq.mem
  · rw [held_some (store_priv_self (finishWrite d r c) d)]
    exact congrArg blocks hq.requests
  · intro e he
    unfold held
    rw [store_priv_ne _ he]
    show (Option.elim ((applyLog r.state.log d c').u.priv e) _ _) = _
    rw [hq.priv]


/-- A call that ends gives back the block it has in hand. -/
theorem LedgerOk.release {cache : Option ℕ} (h : LedgerOk spare u)
    (hspare : spare i = spareBlocks cache) :
    LedgerOk (Function.update spare i 0) (freeSpare cache u) := by
  rcases freeSpare_eq cache u with ⟨hfreed, hfresh, -⟩
  have hheld : ∀ e, held (freeSpare cache u) e = held u e := by
    intro e
    unfold held
    rw [freeSpare_priv]
  refine LedgerOk.exchange (d := 0) h (fun e _ => hheld e) hfresh.ge ?_
  rw [hheld, hfreed, hfresh, Multiset.Ico_self, add_zero, zero_add, hspare]

/-- The blocks of a file, of a call and of the pool are all different, and differ from those
allocated later. -/
theorem LedgerOk.exchange_nodup {fresh : ℕ} (h : LedgerOk spare u) (hfresh : u.pool.fresh ≤ fresh) :
    (held u d + (spare i + (u.pool.freed : List ℕ)) + Multiset.Ico u.pool.fresh fresh).Nodup := by
  have hle := h.sum_le {.file d, .call i, .pool}
  simp only [Finset.sum_insert, Finset.mem_insert, Finset.mem_singleton, reduceCtorEq, or_self,
    not_false_eq_true, Finset.sum_singleton] at hle
  refine Multiset.nodup_of_le ?_ (nodup_handedOut fresh)
  rw [← Multiset.Ico_add_Ico_eq_Ico (Nat.zero_le _) hfresh]
  exact add_le_add_left hle _

/-- An edit that keeps its books keeps the ledger. -/
theorem LedgerOk.edit (h : LedgerOk spare u) {call : WriteCall} (hspare : spare i = spareBlocks call.spare)
    {c : Ctx V} (hs : Stock u.priv u.pool (held u d + (u.pool.freed : List ℕ))
      (blocks c.dpr.requests) c.u)
    (hb : Books (blocks c.dpr.requests + (startWrite call c).purse) c.u.pool c.u.mem
      (blocks (editRequests call c).requests) (editRequests call c).state) :
    LedgerOk (Function.update spare i (spareBlocks (editRequests call c).state.spare))
      ((finishWrite d (editRequests call c) c).store d) := by
  have hput := finishWrite_putBack d (editRequests call c) c
  set u₂ := (finishWrite d (editRequests call c) c).store d
  refine LedgerOk.exchange (d := d) h ?_ ?_ ?_
  · intro e he
    rw [hput.others e he]
    unfold held
    rw [hs.priv]
  · rw [hput.pool, ← hs.fresh]
    exact hb.fresh
  · have hledger := hb.ledger
    have hstart : blocks c.dpr.requests + (startWrite call c).purse
        = held u d + (spareBlocks call.spare + (u.pool.freed : List ℕ)) := by
      show blocks c.dpr.requests + (spareBlocks call.spare + (c.u.pool.freed : Multiset ℕ)) = _
      rw [add_left_comm, hs.ledger, add_left_comm]
    rw [hput.file, hput.pool, ← hs.fresh, hspare, ← hstart]
    exact hledger

/-- Where the cache blocks are after an attempt of the call number `i`. -/
theorem writeAttempt_ledger (h : LedgerOk spare u) {call : WriteCall} (size : ℕ)
    (hspare : spare i = spareBlocks call.spare)
    (hchecked : call.spare = none ∨ call.checkedReadonly = true) :
    AttemptLedger spare i d call u (writeAttempt L d size call u) := by
  have hg := getDentryPriv_blocks L d u
  have hgot := h.getDentryPriv L d
  cases hget : getDentryPriv L d u with
  | mk p u₁ =>
    rw [hget] at hg hgot
    -- no request was allocated if the memory is that after `_unified_get_dentry_priv`
    have hnone : ∀ u' : Unified V, u'.mem = u₁.mem → ∀ ok ∈ requestResults d u u', ok = true := by
      intro u' hmem
      have hused : requestResults d u u' = [] := by
        apply requestResults_eq
        rw [← hg.mem, hmem]
        rfl
      simp [hused]
    cases p with
    | none =>
      have hres : writeAttempt L d size call u
          = (.returned (-ltfsNoMemory), freeSpare call.spare u₁) := by
        unfold writeAttempt
        rw [hget]
      rw [hres]
      rcases freeSpare_eq call.spare u₁ with ⟨-, hfresh, hmem⟩
      exact .kept _ (hgot.release hspare) (by rw [hfresh, hg.pool]) (.inr (hg.failed rfl).ge)
        (hnone _ hmem) (fun rest hr => (nomatch hr))
    | some dpr =>
      rcases hg.priv dpr rfl with ⟨hpriv, hcode⟩
      -- the state in which the error was read and reset
      have hread : LedgerOk spare (u₁.setPriv d (some (getWriteError dpr).2)) :=
        hgot.put (Stock.ofPriv hpriv) rfl
      -- an early return leaves the block in hand where it is
      have hkeep : ∀ ret : ℤ, call.spare = none → AttemptLedger spare i d call u
          (.returned ret, u₁.setPriv d (some (getWriteError dpr).2)) := by
        intro ret hsp
        refine .kept _ ?_ (congrArg CachePool.fresh hg.pool).ge (.inl hsp) (hnone _ rfl) (fun rest hr => (nomatch hr))
        have hsame : Function.update spare i (spareBlocks none) = spare := by
          rw [← hsp, ← hspare]
          exact Function.update_eq_self i spare
        show LedgerOk (Function.update spare i (spareBlocks none)) _
        rw [hsame]
        exact hread
      by_cases herror : dpr.writeError < 0
      · have hres : writeAttempt L d size call u
            = (.returned dpr.writeError, u₁.setPriv d (some (getWriteError dpr).2)) := by
          have herror' : (getWriteError dpr).1 < 0 := herror
          unfold writeAttempt
          rw [hget]
          dsimp only
          rw [if_pos herror']
          rfl
        rw [hres]
        cases hsp : call.spare with
        | none => exact hkeep _ hsp
        | some cache => exact .leaked _ _ cache hsp (by rw [← hcode]; exact herror) hread
      · by_cases hreadonly : ¬ call.checkedReadonly ∧ L.tapeReadonly u₁.vol < 0
        · have hres : writeAttempt L d size call u
              = (.returned (L.tapeReadonly u₁.vol), u₁.setPriv d (some (getWriteError dpr).2)) := by
            have herror' : ¬ (getWriteError dpr).1 < 0 := herror
            unfold writeAttempt
            rw [hget]
            dsimp only
            rw [if_neg herror', if_pos hreadonly]
          rw [hres]
          -- the medium is only checked in the first attempt
          exact hkeep _ (hchecked.resolve_right hreadonly.1)
        · rw [writeAttempt_edit L size hget herror hreadonly]
          dsimp only
          have hs := Stock.ofPriv hpriv
          have hstock : Stock u₁.priv u₁.pool (held u₁ d + (u₁.pool.freed : List ℕ))
              (blocks (placeWrite L d call ⟨u₁, (getWriteError dpr).2⟩).dpr.requests)
              (placeWrite L d call ⟨u₁, (getWriteError dpr).2⟩).u :=
            placeWrite_stock L call (c := ⟨u₁, (getWriteError dpr).2⟩) hs
          have hcmem := placeWrite_mem L d call ⟨u₁, (getWriteError dpr).2⟩
          set c := placeWrite L d call ⟨u₁, (getWriteError dpr).2⟩
          have hbooks := editRequests_books call c
          have hput := finishWrite_putBack d (editRequests call c) c
          set u₂ := (finishWrite d (editRequests call c) c).store d with hu₂
          have hnonneg : 0 ≤ writeCode u d := by
            rw [← hcode]
            omega
          have hmono : c.u.pool.fresh = u.pool.fresh := by
            rw [hstock.fresh]
            exact congrArg CachePool.fresh hg.pool
          -- with its books in order, an attempt only leaves its own block to be dealt with
          have hclean : Books (blocks c.dpr.requests + (startWrite call c).purse) c.u.pool c.u.mem
              (blocks (editRequests call c).requests) (editRequests call c).state →
              LedgerOk (Function.update spare i (spareBlocks (editRequests call c).state.spare)) u₂ ∧
                u.pool.fresh ≤ u₂.pool.fresh ∧
                ∀ u' : Unified V, u'.mem = u₂.mem → ∀ ok ∈ requestResults d u u', ok = true := by
            intro hb
            refine ⟨hgot.edit hspare hstock hb, ?_, ?_⟩
            · rw [hput.pool, ← hmono]
              exact hb.fresh
            · rcases hb.mem with ⟨used, hmem, hused⟩
              intro u' hu'
              have hresults : requestResults d u u' = used := by
                apply requestResults_eq
                rw [← hg.mem, hu', hput.mem, ← hmem, hcmem]
              rw [hresults]
              exact hused
          revert hbooks
          unfold ResultBooks
          cases hout : (editRequests call c).outcome with
          | done =>
            intro hb
            rcases hclean hb with ⟨hl, hf, hm⟩
            set u₃ : Unified V := { u₂ with vol := (L.getVolumeLock u₂.vol).2 }
            have hl₃ : LedgerOk _ u₃ := hl.same rfl rfl
            have hrelease := LedgerOk.release hl₃ (Function.update_self i _ spare)
            rw [Function.update_idem] at hrelease
            rcases freeSpare_eq (editRequests call c).state.spare u₃ with ⟨-, hfresh, hmem⟩
            exact .kept _ hrelease (by rw [hfresh]; exact hf) (.inr hnonneg) (hm _ hmem)
              (fun rest hr => (nomatch hr))
          | restart =>
            intro hb
            rcases hclean hb.1 with ⟨hl, hf, hm⟩
            refine .kept _ hl hf (.inr hnonneg) (hm _ rfl) ?_
            rintro rest ⟨⟩
            exact ⟨hb.2, rfl⟩
          | noMemory =>
            rintro ⟨cache, rest, hfail⟩
            rw [hfail.spare]
            have hstart : blocks c.dpr.requests + (startWrite call c).purse
                = held u d + (spare i + (u.pool.freed : List ℕ)) := by
              show blocks c.dpr.requests + (spareBlocks call.spare + (c.u.pool.freed : Multiset ℕ)) = _
              rw [add_left_comm, hstock.ledger, add_left_comm, hg.held d, hg.pool, hspare]
            have hfresh : u.pool.fresh ≤ u₂.pool.fresh := by
              rw [hput.pool, ← hmono]
              exact hfail.fresh
            have hledger := hfail.ledger
            rw [hstart, hmono, ← hput.pool] at hledger
            refine .twice _ _ cache ?_ ?_ ?_
            · show 2 ≤ (cache :: u₂.pool.freed).count cache
              have hmem : cache ∈ (u₂.pool.freed : Multiset ℕ) := by
                rw [hput.pool, hfail.twice]
                exact Multiset.mem_add.mpr (.inl (Multiset.mem_singleton_self cache))
              have hcount := List.one_le_count_iff.mpr (Multiset.mem_coe.mp hmem)
              rw [List.count_cons_self]
              omega
            · -- the block came from a place of the call, it was not given back before
              have hnodup := h.exchange_nodup (i := i) (d := d) hfresh
              rw [← hledger] at hnodup
              have hone := Multiset.nodup_iff_count_le_one.mp hnodup cache
              have hnot : cache ∉ (u.pool.freed : Multiset ℕ) := by
                intro hmem
                have hrest : cache ∈ rest := by
                  rw [← hg.pool] at hmem
                  exact Multiset.mem_of_le (hstock.freed.trans hfail.freed) hmem
                have hin := Multiset.one_le_count_iff_mem.mpr hrest
                simp only [Multiset.count_add, Multiset.count_singleton_self] at hone
                omega
              have hmem : cache ∈ held u d + (spare i + (u.pool.freed : List ℕ))
                  + Multiset.Ico u.pool.fresh u₂.pool.fresh := by
                rw [← hledger]
                simp
              rw [hspare] at hmem
              simp only [Multiset.mem_add, Multiset.mem_Ico] at hmem
              rcases hmem with (hheld | hsp | hfreed) | hnew
              · right
                exact Finset.mem_union_left _ (Multiset.mem_toFinset.mpr hheld)
              · left
                cases hcs : call.spare with
                | none =>
                  rw [hcs] at hsp
                  exact absurd hsp (Multiset.notMem_zero cache)
                | some other =>
                  rw [hcs] at hsp
                  rw [Multiset.mem_singleton.mp hsp]
              · exact absurd hfreed hnot
              · right
                exact Finset.mem_union_right _ (Finset.mem_Ico.mpr hnew)
            · rcases hfail.mem with ⟨used, hused⟩
              have hresults : requestResults d u (freeSpare (some cache) u₂) = used ++ [false] := by
                apply requestResults_eq
                rw [← hg.mem, (freeSpare_eq (some cache) u₂).2.2, hput.mem, List.append_assoc]
                rw [← hcmem]
                exact hused
              rw [hresults]
              simp
          | diverges => exact fun _ => .diverges _

end Attempt

/-! ## Runs -/

section Run

variable {V : Type} (L : Libltfs V)

/-- The blocks in the hands of the calls. -/
def spares (calls : ℕ → Option InProgress) (i : ℕ) : Multiset ℕ :=
  (calls i).elim 0 fun c => spareBlocks c.call.spare

/-- What holds between two events of a run. -/
structure WritersOk (s : Writers V) : Prop where
  ledger : LedgerOk (spares s.calls) s.u
  /-- What a call has touched was handed out, and its block in hand is among it. -/
  touched : ∀ i c, s.calls i = some c → ∀ b ∈ c.touched, b < s.u.pool.fresh
  spare : ∀ i c, s.calls i = some c → ∀ b, c.call.spare = some b → b ∈ c.touched
  /-- The block that a call has in hand is nothing another call has to do with. -/
  apart : ∀ i j c c', i ≠ j → s.calls i = some c → s.calls j = some c' →
    ∀ b, c'.call.spare = some b → b ∉ c.touched
  checked : ∀ i c, s.calls i = some c → c.call.checkedReadonly = true

variable {L} {s : Writers V}

theorem spares_update (calls : ℕ → Option InProgress) (i : ℕ) (c : Option InProgress) :
    spares (Function.update calls i c)
      = Function.update (spares calls) i (c.elim 0 fun c => spareBlocks c.call.spare) := by
  funext j
  by_cases hj : j = i
  · subst hj
    simp [spares]
  · simp [spares, hj]

theorem spares_some {calls : ℕ → Option InProgress} {i : ℕ} {c : InProgress}
    (h : calls i = some c) : spares calls i = spareBlocks c.call.spare := by
  rw [spares, h, Option.elim_some]

theorem unifiedWrite_ledger {spare : ℕ → Multiset ℕ} {u : Unified V} {i : ℕ} (h : LedgerOk spare u)
    (hspare : spare i = 0) (d : ℕ) (buf : List UInt8) (offset : ℕ) :
    AttemptLedger spare i d ⟨buf, offset, none, false⟩ u (unifiedWrite L d buf offset u) := by
  -- a call that returns at once has not done anything
  have hkeep : ∀ (ret : ℤ) (vol : V), AttemptLedger spare i d ⟨buf, offset, none, false⟩ u
      (.returned ret, { u with vol := vol }) := by
    intro ret vol
    refine .kept _ ?_ (le_refl _) (.inl rfl) ?_ (fun rest hr => (nomatch hr))
    · have hsame : Function.update spare i (spareBlocks none) = spare := by
        rw [spareBlocks_none, ← hspare]
        exact Function.update_eq_self i spare
      show LedgerOk (Function.update spare i (spareBlocks none)) _
      rw [hsame]
      exact h.same rfl rfl
    · have hnil : requestResults d u { u with vol := vol } = [] := by
        unfold requestResults
        simp
      rw [hnil]
      simp
  unfold unifiedWrite
  dsimp only
  split
  · exact hkeep 0 u.vol
  · split
    · exact hkeep _ _
    · have hvol : LedgerOk spare { u with vol := (L.getVolumeLock u.vol).2 } := h.same rfl rfl
      have hattempt : AttemptLedger spare i d ⟨buf, offset, none, false⟩
          { u with vol := (L.getVolumeLock u.vol).2 }
          (writeAttempt L d buf.length ⟨buf, offset, none, false⟩
            { u with vol := (L.getVolumeLock u.vol).2 }) :=
        writeAttempt_ledger L hvol buf.length hspare (.inl rfl)
      generalize writeAttempt L d buf.length ⟨buf, offset, none, false⟩
        { u with vol := (L.getVolumeLock u.vol).2 } = r at hattempt
      cases hattempt with
      | kept _ hl hf hc hm hw => exact .kept _ hl hf hc hm hw
      | leaked ret u' cache hsp _ _ => exact absurd hsp (by simp)
      | twice ret u' cache hfreed htouched hm => exact .twice ret u' cache hfreed htouched hm
      | diverges u' => exact .diverges u'

/-- An attempt of a run: the call that makes it, and what it touches. -/
structure AttemptOf (s : Writers V) (a : Attempt V) (call : WriteCall) : Prop where
  spare : spares s.calls a.i = spareBlocks call.spare
  resumed : (s.calls a.i).isSome ↔ call.spare ≠ none
  ledger : AttemptLedger (spares s.calls) a.i a.d call s.u a.result
  inHand : ∀ b, call.spare = some b → b ∈ a.touched
  touches : touchedBy a.d s.u a.result.2 ⊆ a.touched
  touched : ∀ b ∈ a.touched, b ∈ touchedBy a.d s.u a.result.2 ∨
    ∃ c, s.calls a.i = some c ∧ b ∈ c.touched

/-- Every attempt of a run follows the ledger, with what its call had before. -/
theorem WritersOk.attempt (h : WritersOk s) {e : WriteEvent V} {a : Attempt V}
    (ha : e.attempt L s = some a) : ∃ call, AttemptOf s a call := by
  cases e with
  | start i d buf offset =>
    unfold WriteEvent.attempt at ha
    dsimp only at ha
    by_cases hbusy : (s.calls i).isSome = true
    · rw [if_pos hbusy] at ha
      cases ha
    · rw [if_neg hbusy] at ha
      cases ha
      have hnone : s.calls i = none := by
        simpa using hbusy
      have hspares : spares s.calls i = 0 := by
        rw [spares, hnone]
        rfl
      refine ⟨⟨buf, offset, none, false⟩, hspares, ?_,
        unifiedWrite_ledger h.ledger hspares d buf offset, fun b hb => (nomatch hb),
        Finset.Subset.refl _, fun b hb => .inl hb⟩
      simp [hnone]
  | resume i =>
    unfold WriteEvent.attempt at ha
    dsimp only at ha
    cases hc : s.calls i with
    | none =>
      rw [hc] at ha
      cases ha
    | some c =>
      rw [hc] at ha
      dsimp only at ha
      by_cases hsp : c.call.spare.isSome = true
      · rw [if_pos hsp] at ha
        cases ha
        refine ⟨c.call, spares_some hc, ?_,
          writeAttempt_ledger L h.ledger c.size (spares_some hc) (.inr (h.checked i c hc)), ?_,
          Finset.subset_union_right, ?_⟩
        · simp [hc, Option.isSome_iff_ne_none.mp hsp]
        · intro b hb
          exact Finset.mem_union_left _ (h.spare i c hc b hb)
        · intro b hb
          rcases Finset.mem_union.mp hb with hb | hb
          · exact .inr ⟨c, hc, hb⟩
          · exact .inl hb
      · rw [if_neg hsp] at ha
        cases ha
  | wake i => cases ha
  | other op => cases ha

/-- A block that no call has in hand is accounted for. -/
theorem LedgerOk.accounted {spare : ℕ → Multiset ℕ} {u : Unified V} (h : LedgerOk spare u) {b : ℕ}
    (hb : b < u.pool.fresh) (hspare : ∀ j, b ∉ spare j) : BlockAccounted u b := by
  have hin : b ∈ Multiset.Ico 0 u.pool.fresh := Multiset.mem_Ico.mpr ⟨Nat.zero_le b, hb⟩
  rcases h.exists_owner (nodup_handedOut _) hin with ⟨place, hone, hother⟩
  cases place with
  | file d =>
    left
    refine ⟨⟨d, hone, fun e he => ?_⟩, ?_⟩
    · apply hother (.file e)
      simpa using he
    · exact List.count_eq_zero.mpr (hother .pool (by simp))
  | call j =>
    exfalso
    have hmem := Multiset.one_le_count_iff_mem.mp hone.ge
    exact hspare j hmem
  | pool =>
    right
    refine ⟨fun d => hother (.file d) (by simp), ?_⟩
    rw [← Multiset.coe_count]
    exact hone

/-- A block that a call has in hand is not. -/
theorem LedgerOk.not_accounted {spare : ℕ → Multiset ℕ} {u : Unified V} (h : LedgerOk spare u)
    {b i : ℕ} (hb : b ∈ spare i) : ¬ BlockAccounted u b := by
  have hnodup := nodup_handedOut u.pool.fresh
  have hother : ∀ place, place ≠ .call i → b ∉ own spare u place :=
    fun place hne => h.notMem_of_mem hnodup (show b ∈ own spare u (.call i) from hb) hne
  rintro (⟨⟨d, hone, -⟩, -⟩ | ⟨-, hone⟩)
  · apply hother (.file d) (by simp)
    exact Multiset.one_le_count_iff_mem.mp hone.ge
  · apply hother .pool (by simp)
    exact Multiset.mem_coe.mpr (List.one_le_count_iff.mp hone.ge)

/-- What an attempt touches has been handed out. -/
theorem WritersOk.touched_lt (h : WritersOk s) {a : Attempt V} {call : WriteCall}
    (ha : AttemptOf s a call) (hfresh : s.u.pool.fresh ≤ a.result.2.pool.fresh) :
    ∀ b ∈ a.touched, b < a.result.2.pool.fresh := by
  intro b hb
  rcases ha.touched b hb with hnow | ⟨c, hc, hbefore⟩
  · rcases Finset.mem_union.mp hnow with hheld | hnew
    · have hin := Multiset.mem_of_le (h.ledger.le_total (.file a.d)) (Multiset.mem_toFinset.mp hheld)
      exact lt_of_lt_of_le (Multiset.mem_Ico.mp hin).2 hfresh
    · exact (Finset.mem_Ico.mp hnew).2
  · exact lt_of_lt_of_le (h.touched _ c hc b hbefore) hfresh

/-- What another call has in hand is nothing the attempt touches. -/
theorem WritersOk.untouched (h : WritersOk s) {a : Attempt V} {call : WriteCall}
    (ha : AttemptOf s a call) {j : ℕ} (hj : j ≠ a.i) {c' : InProgress} (hc' : s.calls j = some c')
    {b : ℕ} (hb : c'.call.spare = some b) : b ∉ a.touched := by
  intro hmem
  rcases ha.touched b hmem with hnow | ⟨c, hc, hbefore⟩
  · rcases Finset.mem_union.mp hnow with hheld | hnew
    · -- a block in hand is with no request
      have hspare : b ∈ own (spares s.calls) s.u (.call j) := by
        show b ∈ spares s.calls j
        rw [spares_some hc', hb]
        exact Multiset.mem_singleton_self b
      exact h.ledger.notMem_of_mem (nodup_handedOut _) hspare (by simp : Place.file a.d ≠ .call j)
        (Multiset.mem_toFinset.mp hheld)
    · have hlt := h.touched j c' hc' b (h.spare j c' hc' b hb)
      have hge := (Finset.mem_Ico.mp hnew).1
      omega
  · exact h.apart a.i j c c' hj.symm hc hc' b hb hbefore

/-- A clean attempt leaves all blocks where they belong. -/
theorem AttemptOf.kept {a : Attempt V} {call : WriteCall} (ha : AttemptOf s a call)
    (hcode : (s.calls a.i).isSome → 0 ≤ writeCode s.u a.d)
    (hmem : ∀ ok ∈ requestResults a.d s.u a.result.2, ok = true) (hends : a.result.1 ≠ .diverges) :
    LedgerOk (Function.update (spares s.calls) a.i (spareBlocks a.result.1.spareAfter)) a.result.2 ∧
      s.u.pool.fresh ≤ a.result.2.pool.fresh ∧
      ∀ rest, a.result.1 = .restart rest → rest.spare = none ∧ rest.checkedReadonly = true := by
  have hl := ha.ledger
  generalize a.result = r at hl hmem hends
  cases hl with
  | kept _ hledger hfresh _ _ hwaits => exact ⟨hledger, hfresh, hwaits⟩
  | leaked ret u' cache hspare hneg _ =>
    have hnonneg := hcode (ha.resumed.mpr (by simp [hspare]))
    omega
  | twice ret u' cache _ _ hfalse => exact absurd (hmem false hfalse) (by simp)
  | diverges u' => exact absurd rfl hends

theorem Attempt.settle_ok (h : WritersOk s) {a : Attempt V} {call : WriteCall}
    (ha : AttemptOf s a call) (hcode : (s.calls a.i).isSome → 0 ≤ writeCode s.u a.d)
    (hmem : ∀ ok ∈ requestResults a.d s.u a.result.2, ok = true) : WritersOk (a.settle s) := by
  have hsettle : ∀ c : Option InProgress,
      (∀ p, c = some p → p.touched = a.touched ∧ p.call.spare = none ∧ p.call.checkedReadonly = true) →
      LedgerOk (Function.update (spares s.calls) a.i 0) a.result.2 →
      s.u.pool.fresh ≤ a.result.2.pool.fresh →
      WritersOk ⟨a.result.2, Function.update s.calls a.i c⟩ := by
    intro c hc hl hfresh
    -- the call of the attempt, or another one
    have hcalls : ∀ j p, Function.update s.calls a.i c j = some p →
        (j = a.i ∧ c = some p) ∨ (j ≠ a.i ∧ s.calls j = some p) := by
      intro j p hp
      by_cases hj : j = a.i
      · rw [hj, Function.update_self] at hp
        exact .inl ⟨hj, hp⟩
      · rw [Function.update_of_ne hj] at hp
        exact .inr ⟨hj, hp⟩
    constructor
    · have hnone : (c.elim 0 fun c => spareBlocks c.call.spare) = 0 := by
        cases c with
        | none => rfl
        | some p =>
          rw [Option.elim_some, (hc p rfl).2.1]
          rfl
      show LedgerOk (spares (Function.update s.calls a.i c)) a.result.2
      rw [spares_update, hnone]
      exact hl
    · intro j p hp b hb
      rcases hcalls j p hp with ⟨-, hcp⟩ | ⟨-, hold⟩
      · rw [(hc p hcp).1] at hb
        exact h.touched_lt ha hfresh b hb
      · exact lt_of_lt_of_le (h.touched j p hold b hb) hfresh
    · intro j p hp b hb
      rcases hcalls j p hp with ⟨-, hcp⟩ | ⟨-, hold⟩
      · rw [(hc p hcp).2.1] at hb
        cases hb
      · exact h.spare j p hold b hb
    · intro j k p q hjk hp hq b hb
      rcases hcalls k q hq with ⟨-, hcq⟩ | ⟨hk, hqold⟩
      · rw [(hc q hcq).2.1] at hb
        cases hb
      · rcases hcalls j p hp with ⟨-, hcp⟩ | ⟨-, hpold⟩
        · rw [(hc p hcp).1]
          exact h.untouched ha hk hqold hb
        · exact h.apart j k p q hjk hpold hqold b hb
    · intro j p hp
      rcases hcalls j p hp with ⟨-, hcp⟩ | ⟨-, hold⟩
      · exact (hc p hcp).2.2
      · exact h.checked j p hold
  unfold Attempt.settle
  cases hres : a.result.1 with
  | returned ret =>
    rcases ha.kept hcode hmem (by simp [hres]) with ⟨hl, hfresh, -⟩
    rw [hres] at hl
    exact hsettle none (fun p hp => (nomatch hp)) hl hfresh
  | restart rest =>
    rcases ha.kept hcode hmem (by simp [hres]) with ⟨hl, hfresh, hwaits⟩
    rcases hwaits rest hres with ⟨hspare, hchecked⟩
    rw [hres] at hl
    have hzero : spareBlocks (WriteReturn.restart rest).spareAfter = 0 := by
      show spareBlocks rest.spare = 0
      rw [hspare]
      rfl
    rw [hzero] at hl
    refine hsettle (some ⟨a.d, a.size, rest, a.touched⟩) ?_ hl hfresh
    rintro p ⟨⟩
    exact ⟨rfl, hspare, hchecked⟩
  | diverges => exact h

/-- A waiting call gets a fresh block. -/
theorem Writers.wake_ok (h : WritersOk s) (i : ℕ) : WritersOk (s.wake i) := by
  unfold Writers.wake
  cases hc : s.calls i with
  | none => exact h
  | some c =>
    dsimp only
    unfold CachePool.allocateObject
    cases hsp : c.call.spare with
    | some cache => exact h
    | none =>
      by_cases hroom : s.u.pool.outstanding.length < s.u.pool.maxCapacity
      · rw [if_pos hroom]
        dsimp only
        set b₀ := s.u.pool.fresh with hb₀
        set u' : Unified V := { s.u with pool := { s.u.pool with
          outstanding := b₀ :: s.u.pool.outstanding, fresh := b₀ + 1 } } with hu'
        set c₁ : InProgress := { c with
          call := { c.call with spare := some b₀ }, touched := insert b₀ c.touched }
        have hcalls : ∀ j p, Function.update s.calls i (some c₁) j = some p →
            (j = i ∧ p = c₁) ∨ (j ≠ i ∧ s.calls j = some p) := by
          intro j p hp
          by_cases hj : j = i
          · rw [hj, Function.update_self] at hp
            cases hp
            exact .inl ⟨hj, rfl⟩
          · rw [Function.update_of_ne hj] at hp
            exact .inr ⟨hj, hp⟩
        constructor
        · show LedgerOk (spares (Function.update s.calls i (some c₁))) u'
          rw [spares_update]
          refine LedgerOk.exchange (d := 0) h.ledger (fun e _ => rfl) (Nat.le_succ _) ?_
          show held s.u 0 + ({b₀} + (s.u.pool.freed : Multiset ℕ))
            = held s.u 0 + (spares s.calls i + (s.u.pool.freed : Multiset ℕ)) + Multiset.Ico b₀ (b₀ + 1)
          rw [spares_some hc, hsp, ico_succ, spareBlocks_none, zero_add]
          ac_rfl
        · intro j p hp b hb
          show b < b₀ + 1
          rcases hcalls j p hp with ⟨-, rfl⟩ | ⟨-, hold⟩
          · rcases Finset.mem_insert.mp hb with rfl | hb
            · exact Nat.lt_succ_self _
            · exact Nat.lt_succ_of_lt (h.touched i c hc b hb)
          · exact Nat.lt_succ_of_lt (h.touched j p hold b hb)
        · intro j p hp b hb
          rcases hcalls j p hp with ⟨-, rfl⟩ | ⟨-, hold⟩
          · cases hb
            exact Finset.mem_insert_self _ _
          · exact h.spare j p hold b hb
        · intro j k p q hjk hp hq b hb
          rcases hcalls k q hq with ⟨hk, rfl⟩ | ⟨hk, hqold⟩
          · -- the block is new, so no other call has touched it
            cases hb
            rcases hcalls j p hp with ⟨hj, -⟩ | ⟨-, hpold⟩
            · exact absurd (hj.trans hk.symm) hjk
            · intro hmem
              exact absurd (h.touched j p hpold b₀ hmem) (Nat.lt_irrefl _)
          · rcases hcalls j p hp with ⟨hj, rfl⟩ | ⟨-, hpold⟩
            · intro hmem
              rcases Finset.mem_insert.mp hmem with rfl | hmem
              · exact absurd (h.touched k q hqold _ (h.spare k q hqold _ hb)) (Nat.lt_irrefl _)
              · exact h.apart i k c q hk.symm hc hqold b hb hmem
            · exact h.apart j k p q hjk hpold hqold b hb
        · intro j p hp
          rcases hcalls j p hp with ⟨-, rfl⟩ | ⟨-, hold⟩
          · exact h.checked i c hc
          · exact h.checked j p hold
      · rw [if_neg hroom]
        exact h

/-- One event that is clean keeps the ledger. -/
theorem WriteEvent.exec_ok (h : WritersOk s) {e : WriteEvent V} (hclean : e.Clean L s) :
    WritersOk (e.exec L s) := by
  unfold WriteEvent.exec
  cases ha : e.attempt L s with
  | some a =>
    rcases h.attempt ha with ⟨call, hof⟩
    rcases hclean a ha with ⟨hcode, hmem⟩
    exact Attempt.settle_ok h hof hcode hmem
  | none =>
    cases e with
    | start i d buf offset => exact h
    | wake i => exact Writers.wake_ok h i
    | resume i => exact h
    | other op =>
      dsimp only
      split
      · rename_i hquiet
        have hop := Op.exec_ledger L ⟨h.ledger, rfl⟩ op hquiet
        refine ⟨hop.ledger, ?_, h.spare, h.apart, h.checked⟩
        intro i c hc b hb
        rw [hop.fresh]
        exact h.touched i c hc b hb
      · exact h

theorem runWriters_ok (events : List (WriteEvent V)) : ∀ {s : Writers V}, WritersOk s →
    CleanRun L events s → WritersOk (runWriters L events s) := by
  induction events with
  | nil => exact fun h _ => h
  | cons e events ih =>
    intro s h hclean
    exact ih (WriteEvent.exec_ok h hclean.1) hclean.2

/-- A call that returns has accounted for its blocks if the attempt was clean, and only then. -/
theorem AttemptOf.accounted_iff (h : WritersOk s) {a : Attempt V} {call : WriteCall}
    (ha : AttemptOf s a call) {ret : ℤ} (hret : a.result.1 = .returned ret) :
    (∀ b ∈ a.touched, BlockAccounted a.result.2 b) ↔
      ((s.calls a.i).isSome → 0 ≤ writeCode s.u a.d) ∧
        ∀ ok ∈ requestResults a.d s.u a.result.2, ok = true := by
  constructor
  · -- each of the two defects leaves a block of the call unaccounted for
    intro hall
    have hl := ha.ledger
    have htouches := ha.touches
    generalize a.result = r at hl hall hret htouches ⊢
    cases hl with
    | kept _ _ _ hcode hmem _ =>
      refine ⟨fun hresumed => ?_, hmem⟩
      exact hcode.resolve_left (ha.resumed.mp hresumed)
    | leaked ret u' cache hspare _ hledger =>
      exfalso
      have hin : cache ∈ spares s.calls a.i := by
        rw [ha.spare, hspare]
        exact Multiset.mem_singleton_self cache
      exact hledger.not_accounted hin (hall cache (ha.inHand cache hspare))
    | twice ret u' cache hfreed hfrom _ =>
      exfalso
      have hin : cache ∈ a.touched := by
        rcases hfrom with hspare | htouched
        · exact ha.inHand cache hspare
        · exact htouches htouched
      rcases hall cache hin with ⟨-, hzero⟩ | ⟨-, hone⟩
      · dsimp only at hzero
        omega
      · dsimp only at hone
        omega
    | diverges u' => cases hret
  · rintro ⟨hcode, hmem⟩ b hb
    rcases ha.kept hcode hmem (by simp [hret]) with ⟨hledger, hfresh, -⟩
    refine hledger.accounted (h.touched_lt ha hfresh b hb) fun j hmem => ?_
    by_cases hj : j = a.i
    · -- the call that returns has nothing in hand any more
      rw [hj, Function.update_self, hret] at hmem
      exact absurd hmem (Multiset.notMem_zero b)
    · rw [Function.update_of_ne hj] at hmem
      cases hc : s.calls j with
      | none =>
        rw [spares, hc] at hmem
        exact absurd hmem (Multiset.notMem_zero b)
      | some c' =>
        rw [spares_some hc] at hmem
        cases hsp : c'.call.spare with
        | none =>
          rw [hsp] at hmem
          exact absurd hmem (Multiset.notMem_zero b)
        | some cache =>
          rw [hsp] at hmem
          have hcache : cache ∈ a.touched := by
            rw [← Multiset.mem_singleton.mp hmem]
            exact hb
          exact h.untouched ha hj hc hsp hcache

/-- Nothing cached and no call in progress. -/
def Writers.init (cacheSize maxCapacity : ℕ) (vol : V) : Writers V where
  u := Unified.init cacheSize maxCapacity vol
  calls := fun _ => none

theorem init_ok (cacheSize maxCapacity : ℕ) (vol : V) :
    WritersOk (Writers.init cacheSize maxCapacity vol) := by
  constructor
  · show Ledger _ (Multiset.Ico 0 0)
    rw [Multiset.Ico_self]
    apply Ledger.empty
    intro place
    cases place with
    | file d => rfl
    | call i => rfl
    | pool => rfl
  · exact fun i c hc => (nomatch hc)
  · exact fun i c hc => (nomatch hc)
  · exact fun i j c c' _ hc => (nomatch hc)
  · exact fun i c hc => (nomatch hc)

variable (L) in
/-- In every run whose events were clean so far: when a call of `unified_write` returns, each
cache block that it allocated, or that belonged to a request it found in the list, is with
exactly one request or was given back exactly once, if and only if the call did not go on with
a block in hand to find a pending write error, and no allocation of a request failed. -/
theorem blocks_accounted_iff (cacheSize maxCapacity : ℕ) (vol : V) (events : List (WriteEvent V))
    (hclean : CleanRun L events (Writers.init cacheSize maxCapacity vol)) (e : WriteEvent V)
    (a : Attempt V) (ret : ℤ)
    (ha : e.attempt L (runWriters L events (Writers.init cacheSize maxCapacity vol)) = some a)
    (hret : a.result.1 = .returned ret) :
    (∀ b ∈ a.touched, BlockAccounted a.result.2 b) ↔
      e.Clean L (runWriters L events (Writers.init cacheSize maxCapacity vol)) := by
  have hok := runWriters_ok events (init_ok cacheSize maxCapacity vol) hclean
  rcases hok.attempt ha with ⟨call, hof⟩
  rw [hof.accounted_iff hok hret]
  constructor
  · intro h a' ha'
    rw [ha] at ha'
    cases ha'
    exact h
  · exact fun h => h a ha

end Run


/-! ## A call that waits -/

/-- A libltfs whose writes to the data partition give the code. -/
def answeringLibltfs (code : ℤ) : Libltfs Unit :=
  { idleLibltfs with fsrawWrite := fun _ _ _ v => (code, v) }

/-- Two calls for one file with a pool of one block: the second call waits until the writer
thread has dealt with the request of the first. -/
def waitingRun : List (WriteEvent Unit) :=
  [.start 0 0 [1] 0, .start 1 0 [2] 1, .other (.processQueue requestDp), .wake 1]

/-- Where nothing is said about `calloc`, it succeeds. -/
theorem requestResults_nil {u u' : Unified Unit} {d : ℕ} (h : u.mem = []) :
    requestResults d u u' = [] := by
  unfold requestResults
  simp [h]

/-- The first attempt of a call is clean if no allocation fails. -/
theorem clean_start {L : Libltfs Unit} {i d : ℕ} {buf : List UInt8} {offset : ℕ} {s : Writers Unit}
    (hmem : s.u.mem = []) : WriteEvent.Clean L (.start i d buf offset) s := by
  intro a ha
  unfold WriteEvent.attempt at ha
  dsimp only at ha
  split at ha
  · cases ha
  · rename_i hbusy
    cases ha
    refine ⟨fun h => absurd h hbusy, ?_⟩
    rw [requestResults_nil hmem]
    simp

theorem waitingRun_clean (code : ℤ) :
    CleanRun (answeringLibltfs code) waitingRun (Writers.init 1 1 ()) := by
  refine ⟨clean_start rfl, clean_start rfl, ?_, ?_, trivial⟩
  · intro a ha
    cases ha
  · intro a ha
    cases ha

/-- The writes succeed: the second call puts its block into a request. -/
theorem blocks_accounted_after_wait :
    ∃ a, WriteEvent.attempt (answeringLibltfs 0) (.resume 1)
        (runWriters (answeringLibltfs 0) waitingRun (Writers.init 1 1 ())) = some a ∧
      a.result.1 = .returned 1 ∧ ∀ b ∈ a.touched, BlockAccounted a.result.2 b := by
  refine ⟨_, rfl, rfl, ?_⟩
  refine (blocks_accounted_iff (answeringLibltfs 0) 1 1 () waitingRun (waitingRun_clean 0)
    (.resume 1) _ 1 rfl rfl).mpr ?_
  intro a ha
  cases ha
  refine ⟨fun _ => le_refl 0, ?_⟩
  rw [requestResults_nil rfl]
  simp

/-- They fail: the writer thread drops the request and leaves its code, and the second call
finds it and returns with the block it got. -/
theorem blocks_not_accounted_after_error :
    ∃ a, WriteEvent.attempt (answeringLibltfs (-5)) (.resume 1)
        (runWriters (answeringLibltfs (-5)) waitingRun (Writers.init 1 1 ())) = some a ∧
      a.result.1 = .returned (-5) ∧ ¬ ∀ b ∈ a.touched, BlockAccounted a.result.2 b := by
  refine ⟨_, rfl, rfl, ?_⟩
  intro hall
  have hok := runWriters_ok waitingRun (init_ok 1 1 ()) (waitingRun_clean (-5))
  rcases hok.attempt (e := .resume 1) rfl with ⟨call, hof⟩
  have hcode := ((hof.accounted_iff hok rfl).mp hall).1 rfl
  exact absurd hcode (by decide)

end Ltfs.Sched
