import Ltfs.Lib.Ledger
import Ltfs.Sched.Tally
import Mathlib.Order.Interval.Multiset
import Mathlib.Order.Interval.Finset.Nat

/-!
# The cache blocks of a list edit

Where the cache blocks are while `unified_write` edits a request list: a block belongs to
a request of the list, is the spare one, or has been given back to the pool.

* `Books` — the blocks of the requests, the spare one and those given back add up to what
  there was before and what was allocated since, and no `calloc` has failed.
* `FailedBooks` — a `calloc` has failed: the books are right but for one block, which was
  given back and is still the spare one.
* `doAppend_books` — every edit ends with one or the other.
-/

namespace Ltfs.Sched

open RequestState

/-- The cache blocks of the requests of a list. -/
def blocks (l : List WriteRequest) : Multiset ℕ := (l.map WriteRequest.writeCache : List ℕ)

@[simp] theorem blocks_nil : blocks [] = 0 := rfl

@[simp] theorem blocks_cons (r : WriteRequest) (l : List WriteRequest) :
    blocks (r :: l) = {r.writeCache} + blocks l := rfl

@[simp] theorem blocks_append (l l' : List WriteRequest) : blocks (l ++ l') = blocks l + blocks l' := by
  simp only [blocks, List.map_append, Multiset.coe_add]

theorem blocks_reverse (l : List WriteRequest) : blocks l.reverse = blocks l := by
  unfold blocks
  rw [List.map_reverse, Multiset.coe_reverse]

/-- The requests that a filter keeps and the ones it drops. -/
theorem blocks_filter (p : WriteRequest → Bool) (l : List WriteRequest) :
    blocks (l.filter p) + blocks (l.filter fun r => ! p r) = blocks l := by
  induction l with
  | nil => rfl
  | cons r l ih =>
    by_cases hp : p r
    · simp only [List.filter_cons, hp, if_true, Bool.not_true, Bool.false_eq_true, if_false,
        blocks_cons, add_assoc, ih]
    · simp only [List.filter_cons, hp, Bool.not_false, if_true, Bool.false_eq_true, if_false,
        blocks_cons, ← ih]
      exact add_left_comm _ _ _

@[simp] theorem promote_writeCache (p : Option ℕ) (r : WriteRequest) :
    (promote p r).writeCache = r.writeCache := by
  cases p with
  | none => rfl
  | some offset =>
    unfold promote
    dsimp only
    split
    · rfl
    · rfl

@[simp] theorem blocks_map_promote (p : Option ℕ) (l : List WriteRequest) :
    blocks (l.map (promote p)) = blocks l := by
  simp [blocks, Function.comp_def]

theorem ico_succ (n : ℕ) : Multiset.Ico n (n + 1) = {n} :=
  congrArg Finset.val (Nat.Ico_succ_singleton n)

/-- The block that a call has in hand. -/
def spareBlocks : Option ℕ → Multiset ℕ
  | none => 0
  | some cache => {cache}

@[simp] theorem spareBlocks_none : spareBlocks none = 0 := rfl

@[simp] theorem spareBlocks_some (cache : ℕ) : spareBlocks (some cache) = {cache} := rfl

/-! ## Blocks of single requests -/

theorem updateRequest_writeCache (cs : ℕ) (buf : List UInt8) (offset : ℕ) (req : WriteRequest) :
    (updateRequest cs buf offset req).2.1.writeCache = req.writeCache := by
  unfold updateRequest
  split
  · rfl
  · exact promote_writeCache _ _

/-- Merging moves bytes, not blocks. -/
theorem mergeRequests_writeCache (cs : ℕ) (dest src : WriteRequest) :
    (mergeRequests cs dest src).dest.writeCache = dest.writeCache ∧
      (mergeRequests cs dest src).src.writeCache = src.writeCache := by
  have htrim : ∀ (n : ℕ) (d s : WriteRequest) (updated : Bool) (p : Option ℕ),
      (trimSource n d s updated p).dest.writeCache = d.writeCache ∧
        (trimSource n d s updated p).src.writeCache = s.writeCache := by
    intro n d s updated p
    unfold trimSource
    split
    · split
      · dsimp only
        split
        · exact ⟨rfl, rfl⟩
        · exact ⟨rfl, rfl⟩
      · exact ⟨rfl, rfl⟩
    · exact ⟨rfl, rfl⟩
  unfold mergeRequests
  dsimp only
  split
  · exact ⟨rfl, rfl⟩
  · split
    · rcases htrim _ _ _ true _ with ⟨hd, hs⟩
      rw [hd, hs]
      exact ⟨updateRequest_writeCache _ _ _ _, promote_writeCache _ _⟩
    · exact htrim _ _ _ false none

/-! ## The books of an edit -/

/-- The blocks of a running write that no request has: the spare one, and those given
back so far. -/
def WriteState.purse (w : WriteState) : Multiset ℕ := spareBlocks w.spare + (w.pool.freed : List ℕ)

/-- The books of a write that started with the blocks `start`, the pool `pool₀` and the
allocations `mem₀` to come: `listed` are the blocks of its list now. -/
structure Books (start : Multiset ℕ) (pool₀ : CachePool) (mem₀ : List Bool) (listed : Multiset ℕ)
    (w : WriteState) : Prop where
  fresh : pool₀.fresh ≤ w.pool.fresh
  freed : (pool₀.freed : Multiset ℕ) ≤ (w.pool.freed : List ℕ)
  ledger : listed + w.purse = start + Multiset.Ico pool₀.fresh w.pool.fresh
  mem : ∃ used, mem₀ = used ++ w.mem ∧ ∀ ok ∈ used, ok = true

/-- The books after a failed `calloc`: the block `cache` was given back and is still the
spare one; without it, `rest` has been given back. -/
structure FailedWith (start : Multiset ℕ) (pool₀ : CachePool) (mem₀ : List Bool)
    (listed : Multiset ℕ) (w : WriteState) (cache : ℕ) (rest : Multiset ℕ) : Prop where
  spare : w.spare = some cache
  twice : (w.pool.freed : Multiset ℕ) = {cache} + rest
  fresh : pool₀.fresh ≤ w.pool.fresh
  freed : (pool₀.freed : Multiset ℕ) ≤ rest
  ledger : listed + ({cache} + rest) = start + Multiset.Ico pool₀.fresh w.pool.fresh
  mem : ∃ used, mem₀ = used ++ false :: w.mem

def FailedBooks (start : Multiset ℕ) (pool₀ : CachePool) (mem₀ : List Bool)
    (listed : Multiset ℕ) (w : WriteState) : Prop :=
  ∃ cache rest, FailedWith start pool₀ mem₀ listed w cache rest

section Books

variable {start : Multiset ℕ} {pool₀ : CachePool} {mem₀ : List Bool}

theorem Books.init (w : WriteState) (listed : Multiset ℕ) :
    Books (listed + w.purse) w.pool w.mem listed w := by
  refine ⟨le_refl _, le_refl _, ?_, [], rfl, by simp⟩
  rw [Multiset.Ico_self, add_zero]

/-- The books only look at the spare block, the pool and the allocations. -/
theorem Books.congr {listed : Multiset ℕ} {w w' : WriteState}
    (h : Books start pool₀ mem₀ listed w) (hspare : w'.spare = w.spare) (hpool : w'.pool = w.pool)
    (hmem : w'.mem = w.mem) : Books start pool₀ mem₀ listed w' := by
  refine ⟨hpool ▸ h.fresh, hpool ▸ h.freed, ?_, hmem ▸ h.mem⟩
  unfold WriteState.purse
  rw [hspare, hpool]
  exact h.ledger

/-- A request that left the list brings its block in. -/
theorem Books.release {listed : Multiset ℕ} {w : WriteState} {req : WriteRequest}
    (h : Books start pool₀ mem₀ ({req.writeCache} + listed) w) :
    Books start pool₀ mem₀ listed (w.release req) := by
  have hledger := h.ledger
  unfold WriteState.purse at hledger
  unfold WriteState.release
  cases hspare : w.spare with
  | none =>
    refine ⟨h.fresh, h.freed, ?_, h.mem⟩
    rw [hspare, spareBlocks_none, zero_add] at hledger
    rw [← hledger]
    show listed + ({req.writeCache} + (w.pool.freed : Multiset ℕ)) = _
    ac_rfl
  | some cache =>
    dsimp only
    refine ⟨h.fresh, h.freed.trans (Multiset.le_cons_self _ _), ?_, h.mem⟩
    rw [hspare] at hledger
    show listed + ({cache} + ({req.writeCache} + (w.pool.freed : Multiset ℕ))) = _
    refine Eq.trans ?_ hledger
    rw [spareBlocks_some]
    ac_rfl

/-- What `_unified_insert_new_request` does to the books. -/
theorem insertNewRequest_books (cs : ℕ) (buf : List UInt8) (offset : ℕ) (ip : Bool)
    {w : WriteState} {listed : Multiset ℕ} (h : Books start pool₀ mem₀ listed w) :
    match insertNewRequest cs buf offset ip w with
    | .inserted req w' => Books start pool₀ mem₀ ({req.writeCache} + listed) w'
    | .wait w' => Books start pool₀ mem₀ listed w' ∧ w'.spare = none
    | .noMemory w' => FailedBooks start pool₀ mem₀ listed w' := by
  -- with a cache block at hand
  have hstore : ∀ (cache : ℕ) (w : WriteState), Books start pool₀ mem₀ listed w →
      w.spare = some cache →
      match storeRequest cs buf offset ip cache w with
      | .inserted req w' => Books start pool₀ mem₀ ({req.writeCache} + listed) w'
      | .wait w' => Books start pool₀ mem₀ listed w' ∧ w'.spare = none
      | .noMemory w' => FailedBooks start pool₀ mem₀ listed w' := by
    intro cache w h hspare
    have hledger := h.ledger
    rw [WriteState.purse, hspare, spareBlocks_some] at hledger
    rcases h.mem with ⟨used, hmem, hused⟩
    unfold storeRequest
    dsimp only
    by_cases hok : w.mem.headD true = true
    · rw [if_pos hok]
      refine ⟨h.fresh, h.freed, ?_, ?_⟩
      · rw [← hledger]
        show {cache} + listed + (0 + (w.pool.freed : Multiset ℕ)) = _
        rw [zero_add]
        ac_rfl
      · -- an exhausted script stays so
        cases hw : w.mem with
        | nil => exact ⟨used, by rw [hmem, hw]; rfl, hused⟩
        | cons ok rest =>
          rw [hw] at hok
          refine ⟨used ++ [ok], by rw [hmem, hw]; simp, ?_⟩
          intro x hx
          rcases List.mem_append.mp hx with hx | hx
          · exact hused x hx
          · rw [List.mem_singleton.mp hx]
            exact hok
    · rw [if_neg hok]
      refine ⟨cache, w.pool.freed, rfl, rfl, h.fresh, h.freed, hledger, used, ?_⟩
      cases hw : w.mem with
      | nil =>
        rw [hw] at hok
        exact absurd rfl hok
      | cons ok rest =>
        rw [hw] at hok
        rw [hmem, hw]
        cases ok with
        | true => exact absurd rfl hok
        | false => rfl
  unfold insertNewRequest
  cases hspare : w.spare with
  | some cache => exact hstore cache w h hspare
  | none =>
    unfold CachePool.allocateObject
    by_cases hroom : w.pool.outstanding.length < w.pool.maxCapacity
    · -- a fresh block: it joins the books as the spare one
      rw [if_pos hroom]
      dsimp only
      have hledger := h.ledger
      rw [WriteState.purse, hspare, spareBlocks_none, zero_add] at hledger
      set pool : CachePool := { w.pool with
        outstanding := w.pool.fresh :: w.pool.outstanding, fresh := w.pool.fresh + 1 } with hpool
      have hbooks : Books start pool₀ mem₀ listed
          { w with pool := pool, spare := some w.pool.fresh } := by
        refine ⟨Nat.le_succ_of_le h.fresh, h.freed, ?_, h.mem⟩
        show listed + ({w.pool.fresh} + (w.pool.freed : Multiset ℕ))
          = start + Multiset.Ico pool₀.fresh (w.pool.fresh + 1)
        rw [add_left_comm, hledger, ← Multiset.Ico_add_Ico_eq_Ico h.fresh (Nat.le_succ _),
          ico_succ]
        ac_rfl
      have hnew := hstore w.pool.fresh _ hbooks rfl
      exact hnew
    · rw [if_neg hroom]
      exact ⟨h, hspare⟩

end Books

/-! ## The walk -/

/-- The books of an edit at the cursor, with `after` still to visit. -/
def BooksAt (start : Multiset ℕ) (pool₀ : CachePool) (mem₀ : List Bool) (w : WriteState)
    (after : List WriteRequest) : Prop :=
  Books start pool₀ mem₀ (blocks (w.before ++ after)) w

/-- The books after whatever a visit has decided. -/
def VisitBooks (start : Multiset ℕ) (pool₀ : CachePool) (mem₀ : List Bool) : Visit → Prop
  | .next w after => BooksAt start pool₀ mem₀ w after
  | .out w after => BooksAt start pool₀ mem₀ w after
  | .restart w after => BooksAt start pool₀ mem₀ w after ∧ w.spare = none
  | .noMemory w after => FailedBooks start pool₀ mem₀ (blocks (w.before ++ after)) w

section Walk

variable {start : Multiset ℕ} {pool₀ : CachePool} {mem₀ : List Bool} {cs : ℕ}

theorem finishVisit_books {didMerge : Bool} {w : WriteState} {req : WriteRequest}
    {after : List WriteRequest} (h : BooksAt start pool₀ mem₀ w (req :: after)) :
    VisitBooks start pool₀ mem₀ (finishVisit didMerge w req after) := by
  have hadv : BooksAt start pool₀ mem₀ (w.advance req) after := by
    unfold BooksAt at h ⊢
    rw [before_advance, List.append_assoc]
    exact h.congr rfl rfl rfl
  unfold finishVisit
  split
  · exact hadv
  · exact hadv

/-- And for the result of the merge step. -/
def StepBooks (start : Multiset ℕ) (pool₀ : CachePool) (mem₀ : List Bool) :
    Option (Bool × WriteRequest) × WriteState × List WriteRequest → Prop
  | (none, w, after) => BooksAt start pool₀ mem₀ w after
  | (some (_, req), w, after) => BooksAt start pool₀ mem₀ w (req :: after)

theorem mergeStep_books (cs : ℕ) {w : WriteState} {req : WriteRequest} {after : List WriteRequest}
    (h : BooksAt start pool₀ mem₀ w (req :: after)) :
    StepBooks start pool₀ mem₀ (mergeStep cs w req after) := by
  unfold mergeStep
  cases hprev : w.prev with
  | none => exact h
  | some dest =>
    rcases mergeRequests_writeCache cs dest req with ⟨hdest, hsrc⟩
    dsimp only
    generalize mergeRequests cs dest req = m at hdest hsrc
    -- both requests keep their blocks, whatever bytes have moved
    have hbefore : blocks (w.merged m req after).before = blocks w.before := by
      simp only [WriteState.before, WriteState.merged, hprev, Option.toList_some, blocks_append,
        blocks_map_promote, blocks_cons, hdest]
    have hmerged : Books start pool₀ mem₀ (blocks (w.before ++ req :: after)) (w.merged m req after) :=
      h.congr rfl rfl rfl
    by_cases hret : m.ret = 2
    · rw [if_pos hret]
      show Books start pool₀ mem₀ (blocks (((w.merged m req after).release req).before
        ++ after.map (promote m.promoted))) _
      rw [blocks_append, (release_frame _ req).2, hbefore, blocks_map_promote]
      apply Books.release
      have hlisted : {req.writeCache} + (blocks w.before + blocks after)
          = blocks (w.before ++ req :: after) := by
        rw [blocks_append, blocks_cons]
        ac_rfl
      rw [hlisted]
      exact hmerged
    · rw [if_neg hret]
      show Books start pool₀ mem₀ (blocks ((w.merged m req after).before
        ++ m.src :: after.map (promote m.promoted))) _
      rw [blocks_append, hbefore, blocks_cons, hsrc, blocks_map_promote, ← blocks_cons,
        ← blocks_append]
      exact hmerged

theorem insertBefore_books {w : WriteState} {req : WriteRequest} {after : List WriteRequest}
    (h : BooksAt start pool₀ mem₀ w (req :: after)) :
    VisitBooks start pool₀ mem₀ (insertBefore cs w req after) := by
  have hnew := insertNewRequest_books cs w.buf w.offset false h
  have hlog := insertNewRequest_log cs w.buf w.offset false w
  unfold insertBefore
  revert hnew hlog
  cases insertNewRequest cs w.buf w.offset false w with
  | noMemory w' =>
    intro hnew hlog
    show FailedBooks start pool₀ mem₀ (blocks (w'.before ++ req :: after)) w'
    rw [hlog.before]
    exact hnew
  | wait w' =>
    intro hnew hlog
    refine ⟨?_, hnew.2⟩
    unfold BooksAt
    rw [hlog.before]
    exact hnew.1
  | inserted new w' =>
    intro hnew hlog
    dsimp only at hnew hlog ⊢
    set w₂ : WriteState := { w'.advance new with buf := [], offset := w'.offset + w'.buf.length }
    -- the new request is the previous one now
    have h₂ : BooksAt start pool₀ mem₀ w₂ (req :: after) := by
      have hb : w₂.before = w'.before ++ [new] := before_advance w' new
      have hlisted : blocks (w₂.before ++ req :: after)
          = {new.writeCache} + blocks (w.before ++ req :: after) := by
        rw [hb, hlog.before]
        simp only [blocks_append, blocks_cons, blocks_nil, add_zero]
        ac_rfl
      unfold BooksAt
      rw [hlisted]
      exact hnew.congr rfl rfl rfl
    have hmerge := mergeStep_books cs h₂
    revert hmerge
    rcases mergeStep cs w₂ req after with ⟨_ | m, w₃, after₃⟩
    · exact fun h => h
    · exact fun h => finishVisit_books h

theorem updateVisit_books {w : WriteState} {req : WriteRequest} {after : List WriteRequest}
    (h : BooksAt start pool₀ mem₀ w (req :: after)) :
    VisitBooks start pool₀ mem₀ (updateVisit cs w req after) := by
  have hcache := updateRequest_writeCache cs w.buf w.offset req
  unfold updateVisit
  set u := updateRequest cs w.buf w.offset req
  apply finishVisit_books
  have hprev : blocks (w.prev.map (promote u.2.2)).toList = blocks w.prev.toList := by
    cases w.prev with
    | none => rfl
    | some r => simp
  have hlisted : blocks ((w.updated u req after).before ++ u.2.1 :: after.map (promote u.2.2))
      = blocks (w.before ++ req :: after) := by
    simp only [WriteState.updated, WriteState.promoteBefore, WriteState.before, blocks_append,
      blocks_cons, blocks_map_promote, hprev, hcache]
  unfold BooksAt
  rw [hlisted]
  exact h.congr rfl rfl rfl

theorem overlapIp_books {didMerge : Bool} {w : WriteState} {req : WriteRequest}
    {after : List WriteRequest} (h : BooksAt start pool₀ mem₀ w (req :: after)) :
    VisitBooks start pool₀ mem₀ (overlapIp cs didMerge w req after) := by
  -- a request that is only cut keeps its block
  have hcut : ∀ r : WriteRequest, r.writeCache = req.writeCache →
      BooksAt start pool₀ mem₀ w (r :: after) := by
    intro r hr
    unfold BooksAt at h ⊢
    rw [blocks_append, blocks_cons, hr, ← blocks_cons, ← blocks_append]
    exact h
  unfold overlapIp
  dsimp only
  split
  · -- the request is removed
    have hlisted : {req.writeCache} + blocks (w.before ++ after)
        = blocks (w.before ++ req :: after) := by
      simp only [blocks_append, blocks_cons]
      ac_rfl
    have hrelease : Books start pool₀ mem₀ (blocks (w.before ++ after)) (w.release req) := by
      apply Books.release
      rw [hlisted]
      exact h
    show Books start pool₀ mem₀ (blocks ((w.release req).before ++ after)) _
    rw [(release_frame w req).2]
    exact hrelease.congr rfl rfl rfl
  · split
    · exact insertBefore_books (hcut _ rfl)
    · split
      · exact finishVisit_books (hcut _ rfl)
      · -- the request is split: its front is skipped and keeps the block, its end is a new request
        set buf := req.data.drop (w.offset - req.offset + w.buf.length)
        set offset := req.offset + (w.offset - req.offset + w.buf.length)
        have hnew := insertNewRequest_books cs buf offset true h
        have hlog := insertNewRequest_log cs buf offset true w
        revert hnew hlog
        cases insertNewRequest cs buf offset true w with
        | inserted piece w' =>
          intro hnew hlog
          apply insertBefore_books
          set front : WriteRequest := { req with data := req.data.take (w'.offset - req.offset) }
          have hb : ({ w' with skipped := w'.skipped ++ [front] } : WriteState).before
              = w'.before ++ [front] := by
            simp [WriteState.before]
          have hlisted : blocks (({ w' with skipped := w'.skipped ++ [front] } : WriteState).before
              ++ piece :: after) = {piece.writeCache} + blocks (w.before ++ req :: after) := by
            rw [hb, hlog.before]
            simp only [blocks_append, blocks_cons, blocks_nil, add_zero, front]
            ac_rfl
          unfold BooksAt
          rw [hlisted]
          exact hnew.congr rfl rfl rfl
        | wait w' =>
          intro hnew hlog
          refine ⟨?_, hnew.2⟩
          unfold BooksAt
          rw [hlog.before]
          exact hnew.1
        | noMemory w' =>
          intro hnew hlog
          show FailedBooks start pool₀ mem₀ (blocks (w'.before ++ req :: after)) w'
          rw [hlog.before]
          exact hnew

theorem overlapVisit_books {didMerge : Bool} {w : WriteState} {req : WriteRequest}
    {after : List WriteRequest} (h : BooksAt start pool₀ mem₀ w (req :: after)) :
    VisitBooks start pool₀ mem₀ (overlapVisit cs didMerge w req after) := by
  unfold overlapVisit
  split
  · exact finishVisit_books h
  · split
    · exact insertBefore_books h
    · split
      · exact updateVisit_books h
      · split
        · exact overlapIp_books h
        · exact finishVisit_books h

theorem visit_books (cs : ℕ) {w : WriteState} {req : WriteRequest} {after : List WriteRequest}
    (h : BooksAt start pool₀ mem₀ w (req :: after)) :
    VisitBooks start pool₀ mem₀ (visit cs w req after) := by
  unfold visit
  split
  · have hb : ({ w with skipped := w.skipped ++ [req] } : WriteState).before = w.before ++ [req] := by
      simp [WriteState.before]
    show Books start pool₀ mem₀ (blocks (({ w with skipped := w.skipped ++ [req] } :
      WriteState).before ++ after)) _
    rw [hb, List.append_assoc]
    exact Books.congr h rfl rfl rfl
  · split
    · exact insertBefore_books h
    · have hmerge := mergeStep_books cs h
      revert hmerge
      rcases mergeStep cs w req after with ⟨_ | m, w', after'⟩
      · exact fun h => h
      · exact fun h => overlapVisit_books h

/-- One visit keeps the books, so the whole walk does. -/
theorem walk_books (cs n : ℕ) : ∀ {w : WriteState} {after : List WriteRequest},
    BooksAt start pool₀ mem₀ w after → VisitBooks start pool₀ mem₀ (walk cs n w after) := by
  induction n with
  | zero =>
    intro w after h
    cases after with
    | nil => exact h
    | cons req after => exact h
  | succ n ih =>
    intro w after h
    cases after with
    | nil => exact h
    | cons req after =>
      rw [walk_cons]
      have hvisit := visit_books cs h
      revert hvisit
      cases visit cs w req after with
      | next w' after' => exact fun h => ih h
      | out w' after' => exact fun h => h
      | restart w' after' => exact fun h => h
      | noMemory w' after' => exact fun h => h

/-! ## The write -/

/-- The books after an attempt. -/
def ResultBooks (start : Multiset ℕ) (pool₀ : CachePool) (mem₀ : List Bool) (r : WriteResult) : Prop :=
  match r.outcome with
  | .done => Books start pool₀ mem₀ (blocks r.requests) r.state
  | .restart => Books start pool₀ mem₀ (blocks r.requests) r.state ∧ r.state.spare = none
  | .noMemory => FailedBooks start pool₀ mem₀ (blocks r.requests) r.state
  | .diverges => Books start pool₀ mem₀ (blocks r.requests) r.state

theorem appendRequests_books {requests : List WriteRequest} {w : WriteState}
    (h : Books start pool₀ mem₀ (blocks requests) w) :
    ResultBooks start pool₀ mem₀ (appendRequests cs requests w) := by
  unfold appendRequests
  split
  · have hnew := insertNewRequest_books cs w.buf w.offset false h
    revert hnew
    cases insertNewRequest cs w.buf w.offset false w with
    | inserted new w' =>
      intro hnew
      show Books start pool₀ mem₀ (blocks (requests ++ [new])) _
      rw [blocks_append, blocks_cons, blocks_nil, add_zero, add_comm]
      exact hnew.congr rfl rfl rfl
    | wait w' => exact fun hnew => hnew
    | noMemory w' => exact fun hnew => hnew
  · exact h

theorem appendAtEnd_books {requests : List WriteRequest} {w : WriteState}
    (h : Books start pool₀ mem₀ (blocks requests) w) :
    ResultBooks start pool₀ mem₀ (appendAtEnd cs requests w) := by
  unfold appendAtEnd
  cases hlast : requests.getLast? with
  | none => exact appendRequests_books h
  | some req =>
    dsimp only
    split
    · -- the last request is updated, the ones before it may be promoted
      rcases List.getLast?_eq_some_iff.mp hlast with ⟨before, rfl⟩
      have hcache := updateRequest_writeCache cs w.buf w.offset req
      set u := updateRequest cs w.buf w.offset req
      apply appendRequests_books
      rw [List.dropLast_concat, blocks_append, blocks_map_promote, blocks_cons, hcache, ← blocks_cons,
        ← blocks_append]
      exact h.congr rfl rfl rfl
    · exact appendRequests_books h

/-- Every edit of a write keeps the books, or ends at a failed allocation. -/
theorem doAppend_books (fuel : ℕ) : ∀ {requests : List WriteRequest} {w : WriteState},
    Books start pool₀ mem₀ (blocks requests) w →
    ResultBooks start pool₀ mem₀ (doAppend cs fuel requests w) := by
  induction fuel with
  | zero => exact fun h => h
  | succ fuel ih =>
    intro requests w h
    unfold doAppend
    dsimp only
    split
    · exact appendAtEnd_books h
    · have hwalk := walk_books cs requests.length
        (show BooksAt start pool₀ mem₀ { w with passed := [], prev := none, skipped := [] } requests
          from h.congr rfl rfl rfl)
      revert hwalk
      cases walk cs requests.length { w with passed := [], prev := none, skipped := [] } requests with
      | out w' after => exact fun h => h
      | restart w' after => exact fun h => h
      | noMemory w' after => exact fun h => h
      | next w' after =>
        intro hwalk
        dsimp only
        split
        · exact ih hwalk
        · exact hwalk

end Walk

end Ltfs.Sched
