import Ltfs.Sched.WriteError

/-!
# The writer thread against a close

`_unified_process_data_queue` runs in the writer thread while a client is in
`unified_close`. Both take `iosched_lock` and `io_lock` of a dentry; the writer
writes its private list under `io_lock` alone, and takes `iosched_lock` again
when a write has failed.

* `WriterPc`, `CloserPc` — where the two threads stand. The position of a thread
  says which locks it holds (`WriterPc.holdsIosched`, `WriterPc.holdsIo`,
  `CloserPc.holdsIosched`; the close holds `io_lock` only inside `iosched_lock`).
* `writerStep`, `closerStep` — the code up to the next lock operation or the next
  tape write; a thread whose lock is taken waits.
* `interleave` — a run, for any order of the steps of the two threads.
* `close_loses_error_iff` — a failure is lost exactly in the runs in which the
  close frees the `dentry_priv` while the writer waits to record it.
-/

namespace Ltfs.Sched

open RequestState

/-- Where the writer stands: `n` rounds are left, `e` is the dentry of the round. -/
inductive WriterPc where
  | start
  | next (n : ℕ)
  /-- `e` is chosen; `iosched_lock` comes next. -/
  | chosen (e n : ℕ)
  /-- In the request list, with `iosched_lock` and `io_lock`. -/
  | collecting (e : ℕ) (kept moved rest : List WriteRequest) (n : ℕ)
  /-- In the private list, with `io_lock`. -/
  | sending (e : ℕ) (rest : List WriteRequest) (n : ℕ)
  /-- A write failed; `iosched_lock` comes next. -/
  | failed (e : ℕ) (ret : ℤ) (req : WriteRequest) (rest : List WriteRequest) (n : ℕ)
  /-- The failure is handled; the private list goes, under `io_lock`. -/
  | freeing (e : ℕ) (rest : List WriteRequest) (n : ℕ)
  | done
deriving DecidableEq

/-- Where `unified_close` stands. -/
inductive CloserPc where
  | start
  /-- The flush waits for `io_lock`. -/
  | waitIo
  /-- In the request list, with both locks. -/
  | flushing (kept rest : List WriteRequest)
  /-- The flush is over and returned `ret`. -/
  | closing (ret : ℤ)
  /-- The `dentry_priv` is to be freed; `io_lock` is taken first. -/
  | freeing (ret : ℤ)
  | done (ret : ℤ)
deriving DecidableEq

/-- The writer holds `iosched_lock` of `d`. -/
def WriterPc.holdsIosched (d : ℕ) : WriterPc → Bool
  | .collecting e _ _ _ _ => e == d
  | _ => false

/-- The writer holds `io_lock` of `d`. -/
def WriterPc.holdsIo (d : ℕ) : WriterPc → Bool
  | .collecting e _ _ _ _ => e == d
  | .sending e _ _ => e == d
  | .freeing e _ _ => e == d
  | _ => false

/-- A failed private list of `d` waits for `iosched_lock`. -/
def WriterPc.hasFailed (d : ℕ) : WriterPc → Bool
  | .failed e _ _ _ _ => e == d
  | _ => false

/-- The close holds `iosched_lock` of its dentry. -/
def CloserPc.holdsIosched : CloserPc → Bool
  | .start => false
  | .done _ => false
  | _ => true

/-- The scheduler and its two threads. `failed` and `owed` are no data of the
program: a tape write of the dentry has failed; one has failed that the close
has not returned. -/
structure Conc (V : Type) where
  u : Unified V
  w : WriterPc
  c : CloserPc
  failed : Bool
  owed : Bool

section Threads

variable {V : Type} (L : Libltfs V)

/-! ## The writer -/

/-- One request of the list: an iteration of `dataLoop`. -/
def collectStep (queue : RequestState) (d e : ℕ) (kept moved : List WriteRequest)
    (req : WriteRequest) (rest : List WriteRequest) (n : ℕ) (dpr : DentryPriv) (s : Conc V) :
    Conc V :=
  let c : Ctx V := ⟨s.u, dpr⟩
  if req.state = requestIp then
    let m := mergePrev e kept req c
    { s with u := m.2.store e, w := .collecting e m.1 moved rest n }
  else if req.state = requestDp ∨ queue = requestPartial then
    if dpr.writeIp then
      let w := L.fsrawWrite e req.data req.offset s.u.vol
      if w.1 < 0 then
        let c := failedWrite L e w.1 req (kept ++ req :: rest) w.2 c
        { s with
          u := c.store e
          w := .collecting e c.dpr.requests moved [] n
          failed := s.failed || e == d
          owed := s.owed || e == d }
      else
        let m := toIp e kept req { c with u := { c.u with vol := w.2 } }
        { s with u := m.2.store e, w := .collecting e m.1 moved rest n }
    else
      { s with w := .collecting e kept (moved ++ [req]) rest n }
  else
    { s with w := .collecting e (kept ++ [req]) moved rest n }

/-- A step of `_unified_process_data_queue`, against a close of `d`. -/
def writerStep (queue : RequestState) (d : ℕ) (s : Conc V) : Conc V :=
  match s.w with
  | .start =>
    let count := if queue = requestDp then s.u.dpCount else s.u.dpCount + s.u.wsCount
    { s with w := .next (count % 2 ^ 32).toNat }
  | .next 0 => { s with w := .done }
  | .next (n + 1) =>
    match s.u.dpQueue.head?.or (if queue = requestPartial then s.u.workingSet.head? else none) with
    | none => { s with w := .done }
    | some e => { s with w := .chosen e n }
  | .chosen e n =>
    if e = d ∧ s.c.holdsIosched then
      s
    else
      match s.u.priv e with
      -- someone else took care of this dentry
      | none => { s with w := .next n }
      | some dpr =>
        let c := updateQueueMembership false true queue e ⟨s.u, dpr⟩
        let c := if queue = requestPartial then updateQueueMembership false true requestDp e c else c
        { s with u := c.store e, w := .collecting e [] [] c.dpr.requests n }
  | .collecting e kept moved (req :: rest) n =>
    match s.u.priv e with
    | none => { s with w := .next n }
    | some dpr => collectStep L queue d e kept moved req rest n dpr s
  | .collecting e kept moved [] n =>
    match s.u.priv e with
    | none => { s with w := .next n }
    | some dpr =>
      { s with u := s.u.setPriv e (some { dpr with requests := kept }), w := .sending e moved n }
  | .sending _ [] n => { s with w := .next n }
  | .sending e (req :: rest) n =>
    let w := L.fsrawWrite e req.data req.offset s.u.vol
    if w.1 < 0 then
      { s with
        u := { s.u with vol := L.writeIndexAfterPerm w.1 w.2 }
        w := .failed e w.1 req rest n
        failed := s.failed || e == d
        owed := s.owed || e == d }
    else
      { s with u := freeRequest req { s.u with vol := w.2 }, w := .sending e rest n }
  | .failed e ret req rest n =>
    if e = d ∧ s.c.holdsIosched then
      s
    else
      match s.u.priv e with
      | none => { s with w := .freeing e (req :: rest) n }
      | some dpr =>
        { s with
          u := (handleWriteError L ret req e ⟨s.u, dpr⟩).store e
          w := .freeing e (req :: rest) n }
  | .freeing _ rest n => { s with u := freeRequests rest s.u, w := .next n }
  | .done => s

/-! ## The close -/

/-- `_unified_get_write_error`: the code and the state without it. What was
recorded is no longer owed. -/
def fetchError (d : ℕ) (s : Conc V) : ℤ × Conc V :=
  let code := writeCode s.u d
  (code,
    { s with
      u := s.u.setPriv d ((s.u.priv d).map fun dpr => { dpr with writeError := 0 })
      owed := if code < 0 then s.w.hasFailed d else s.owed })

/-- One request of the list: an iteration of `flushLoop`. -/
def flushStep (d : ℕ) (kept : List WriteRequest) (req : WriteRequest) (rest : List WriteRequest)
    (dpr : DentryPriv) (s : Conc V) : Conc V :=
  let c : Ctx V := ⟨s.u, dpr⟩
  if req.state = requestIp then
    let m := mergePrev d kept req c
    { s with u := m.2.store d, c := .flushing m.1 rest }
  else
    let w := L.fsrawWrite d req.data req.offset s.u.vol
    if w.1 < 0 then
      let c := failedWrite L d w.1 req (kept ++ req :: rest) w.2 c
      { s with u := c.store d, c := .flushing c.dpr.requests [], failed := true, owed := true }
    else if dpr.writeIp then
      let m := toIp d kept req { c with u := { c.u with vol := w.2 } }
      { s with u := m.2.store d, c := .flushing m.1 rest }
    else
      { s with u := freeRequest req { s.u with vol := w.2 }, c := .flushing kept rest }

/-- A step of `unified_close`. -/
def closerStep (d : ℕ) (flush : Bool) (s : Conc V) : Conc V :=
  match s.c with
  | .start =>
    if s.w.holdsIosched d then
      s
    else if ! flush then
      { s with c := .closing 0 }
    else
      let e := fetchError d s
      if e.1 < 0 then
        { e.2 with c := .closing e.1 }
      else
        match e.2.u.priv d with
        | none => { e.2 with c := .closing 0 }
        | some dpr =>
          if dpr.requests.isEmpty then
            { e.2 with c := .closing 0 }
          else
            let c := updateQueueMembership false true requestPartial d
              (updateQueueMembership false true requestDp d ⟨e.2.u, dpr⟩)
            { e.2 with u := c.store d, c := .waitIo }
  | .waitIo =>
    if s.w.holdsIo d then
      s
    else
      { s with c := .flushing [] ((s.u.priv d).elim [] DentryPriv.requests) }
  | .flushing kept (req :: rest) =>
    match s.u.priv d with
    | none => { s with c := .closing 0 }
    | some dpr => flushStep L d kept req rest dpr s
  | .flushing kept [] =>
    let s := { s with
      u := s.u.setPriv d ((s.u.priv d).map fun dpr => { dpr with requests := kept }) }
    let e := fetchError d s
    { e.2 with c := .closing (if e.1 < 0 then e.1 else 0) }
  | .closing ret =>
    let e := fetchError d s
    let ret := if ret ≠ 0 then ret else e.1
    match e.2.u.priv d with
    | none => { e.2 with u := { e.2.u with vol := L.fsrawClose d e.2.u.vol }, c := .done ret }
    | some dpr =>
      if L.numhandles d e.2.u.vol ≤ 3 ∧ dpr.requests.isEmpty ∧ dpr.altExtentlist.isEmpty then
        { e.2 with c := .freeing ret }
      else
        { e.2 with u := { e.2.u with vol := L.fsrawClose d e.2.u.vol }, c := .done ret }
  | .freeing ret =>
    -- take I/O lock first: the background thread could be processing this dentry
    if s.w.holdsIo d then
      s
    else
      { s with
        u := { s.u.setPriv d none with vol := L.fsrawClose d (L.fsrawPutDentry d s.u.vol) }
        c := .done ret }
  | .done _ => s

/-! ## Runs -/

inductive Thread where
  | writer
  | closer
deriving DecidableEq, Repr

/-- A step of one of the threads. -/
def Conc.step (queue : RequestState) (d : ℕ) (flush : Bool) (t : Thread) (s : Conc V) : Conc V :=
  match t with
  | .writer => writerStep L queue d s
  | .closer => closerStep L d flush s

/-- The state after the steps of the two threads in the given order. -/
def interleave (queue : RequestState) (d : ℕ) (flush : Bool) (order : List Thread) (s : Conc V) :
    Conc V :=
  order.foldl (fun s t => s.step L queue d flush t) s

/-- The two threads about to begin. -/
def Conc.begin (u : Unified V) : Conc V :=
  { u := u, w := .start, c := .start, failed := false, owed := false }

/-- Both threads are through; the close returned `ret`. -/
def Conc.Complete (ret : ℤ) (s : Conc V) : Prop := s.w = .done ∧ s.c = .done ret

/-- The close is about to free the `dentry_priv`, and the writer waits to record a
failure in it. -/
def Conc.Races (d : ℕ) (t : Thread) (s : Conc V) : Prop :=
  t = .closer ∧ (∃ ret, s.c = .freeing ret) ∧ s.w.hasFailed d = true

/-- Some step of the run does so. -/
def RunRaces (queue : RequestState) (d : ℕ) (flush : Bool) : List Thread → Conc V → Prop
  | [], _ => False
  | t :: order, s => s.Races d t ∨ RunRaces queue d flush order (s.step L queue d flush t)

end Threads

/-! ## The invariant -/

/-- The writer is busy with requests of `d` it still has to answer for. -/
def WriterPc.worksOn (d : ℕ) : WriterPc → Bool
  | .collecting e _ _ _ _ => e == d
  | .sending e _ _ => e == d
  | .failed e _ _ _ _ => e == d
  | _ => false

/-- The private list of the writer. -/
def WriterPc.moved : WriterPc → List WriteRequest
  | .collecting _ _ moved _ _ => moved
  | .sending _ rest _ => rest
  | .failed _ _ req rest _ => req :: rest
  | _ => []

/-- The code of the failed write the writer wants to record. -/
def WriterPc.ret : WriterPc → Option ℤ
  | .failed _ ret _ _ _ => some ret
  | _ => none

/-- What the close has to return so far. -/
def CloserPc.code : CloserPc → ℤ
  | .closing ret => ret
  | .freeing ret => ret
  | .done ret => ret
  | _ => 0

section Invariant

variable {V : Type}

/-- The invariant of a run; `raced` says that the close has freed the
`dentry_priv` under the writer. -/
structure ConcInv (d : ℕ) (raced : Prop) (s : Conc V) : Prop where
  le : writeCode s.u d ≤ 0
  code_le : s.c.code ≤ 0
  moved : ∀ r ∈ s.w.moved, r.state ≠ requestIp
  ret_neg : ∀ ret, s.w.ret = some ret → ret < 0
  exclusive : s.c.holdsIosched = true → s.w.holdsIosched d = false
  alive : s.w.worksOn d = true → (s.u.priv d).isSome = true ∨ raced
  /-- A failure that is owed is about to be recorded, recorded, or lost. -/
  owed : s.owed = true → s.w.hasFailed d = true ∨ writeCode s.u d < 0 ∨ raced
  waiting : s.w.hasFailed d = true → s.owed = true
  told : s.failed = true → s.owed = true ∨ s.c.code < 0
  clean : ∀ ret, s.c = .freeing ret → writeCode s.u d = 0
  lost : raced → s.owed = true ∧ s.u.priv d = none ∧ ∃ ret, s.c = .done ret

theorem ConcInv.begin {d : ℕ} {u : Unified V} (h : writeCode u d ≤ 0) :
    ConcInv d False (Conc.begin u) where
  le := h
  code_le := le_refl 0
  moved := by simp [Conc.begin, WriterPc.moved]
  ret_neg := by simp [Conc.begin, WriterPc.ret]
  exclusive := by simp [Conc.begin, CloserPc.holdsIosched]
  alive := by simp [Conc.begin, WriterPc.worksOn]
  owed := by simp [Conc.begin]
  waiting := by simp [Conc.begin, WriterPc.hasFailed]
  told := by simp [Conc.begin]
  clean := by simp [Conc.begin]
  lost := False.elim

/-- What a step of the writer may do to the dentry of the close: record an error,
when nobody holds its lock, and fail. -/
structure WriterMove (d : ℕ) (raced : Prop) (s s' : Conc V) : Prop where
  c : s'.c = s.c
  isSome : (s'.u.priv d).isSome = (s.u.priv d).isSome
  code : writeCode s'.u d = writeCode s.u d ∨ writeCode s'.u d < 0 ∧ s.c.holdsIosched = false
  moved : ∀ r ∈ s'.w.moved, r.state ≠ requestIp
  ret_neg : ∀ ret, s'.w.ret = some ret → ret < 0
  exclusive : s'.w.holdsIosched d = true → s.c.holdsIosched = false
  alive : s'.w.worksOn d = true → s.w.worksOn d = true ∨ (s.u.priv d).isSome = true
  hasFailed : s.w.hasFailed d = true → s'.w.hasFailed d = true ∨ writeCode s'.u d < 0 ∨ raced
  waiting : s'.w.hasFailed d = true → s.w.hasFailed d = true ∨ s'.owed = true
  ghost : s'.failed = s.failed ∧ s'.owed = s.owed ∨
    s'.owed = true ∧ (s'.w.hasFailed d = true ∨ writeCode s'.u d < 0)

theorem ConcInv.writer {d : ℕ} {raced : Prop} {s s' : Conc V} (h : ConcInv d raced s)
    (hm : WriterMove d raced s s') : ConcInv d raced s' := by
  have hneg : writeCode s.u d < 0 → writeCode s'.u d < 0 := by
    intro hlt
    rcases hm.code with hcode | ⟨hcode, -⟩
    · rwa [hcode]
    · exact hcode
  constructor
  · rcases hm.code with hcode | ⟨hcode, -⟩
    · rw [hcode]
      exact h.le
    · exact hcode.le
  · rw [hm.c]
    exact h.code_le
  · exact hm.moved
  · exact hm.ret_neg
  · intro hlock
    rw [hm.c] at hlock
    by_contra hw
    simp [hm.exclusive (by simpa using hw)] at hlock
  · intro hworks
    rw [hm.isSome]
    rcases hm.alive hworks with hw | hw
    · exact h.alive hw
    · exact Or.inl hw
  · intro howed
    rcases hm.ghost with ⟨-, hsame⟩ | ⟨-, hnew⟩
    · rcases h.owed (hsame ▸ howed) with hfailed | hcode | hraced
      · exact hm.hasFailed hfailed
      · exact Or.inr (Or.inl (hneg hcode))
      · exact Or.inr (Or.inr hraced)
    · rcases hnew with hfailed | hcode
      · exact Or.inl hfailed
      · exact Or.inr (Or.inl hcode)
  · intro hwaits
    rcases hm.waiting hwaits with hold | hnew
    · rcases hm.ghost with ⟨-, hsame⟩ | ⟨hnew, -⟩
      · rw [hsame]
        exact h.waiting hold
      · exact hnew
    · exact hnew
  · intro hfailed
    rw [hm.c]
    rcases hm.ghost with ⟨hsame, howed⟩ | ⟨howed, -⟩
    · rw [howed]
      exact h.told (hsame ▸ hfailed)
    · exact Or.inl howed
  · intro ret hc
    rw [hm.c] at hc
    rcases hm.code with hcode | ⟨-, hlock⟩
    · rw [hcode]
      exact h.clean ret hc
    · rw [hc] at hlock
      cases hlock
  · intro hraced
    obtain ⟨howed, hnone, hdone⟩ := h.lost hraced
    refine ⟨?_, ?_, hm.c ▸ hdone⟩
    · rcases hm.ghost with ⟨-, hsame⟩ | ⟨hnew, -⟩
      · rw [hsame]
        exact howed
      · exact hnew
    · have hsome := hm.isSome
      rw [hnone] at hsome
      simpa using hsome

variable {L : Libltfs V}

/-- Storing a `dentry_priv` with the same code shows in no code. -/
theorem store_same {u : Unified V} {e : ℕ} {dpr : DentryPriv} {c : Ctx V}
    (hpriv : u.priv e = some dpr) (h : SameError ⟨u, dpr⟩ c) (d : ℕ) :
    ((c.store e).priv d).isSome = (u.priv d).isSome ∧ writeCode (c.store e) d = writeCode u d := by
  unfold Ctx.store
  by_cases hed : d = e
  · subst hed
    unfold writeCode
    rw [setPriv_self, hpriv]
    exact ⟨rfl, h.writeError⟩
  · unfold writeCode
    rw [setPriv_ne _ _ hed, h.priv]
    exact ⟨rfl, rfl⟩

/-- Handling a failed write to the data partition leaves an error recorded. -/
theorem store_handled {u : Unified V} {e d : ℕ} {dpr : DentryPriv} {c : Ctx V} {ret : ℤ}
    {req : WriteRequest} (hpriv : u.priv e = some dpr) (h : SameError ⟨u, dpr⟩ c) (hret : ret < 0)
    (hreq : req.state ≠ requestIp) (hle : writeCode u d ≤ 0) :
    (((handleWriteError L ret req e c).store e).priv d).isSome = (u.priv d).isSome ∧
    (e ≠ d ∧ writeCode ((handleWriteError L ret req e c).store e) d = writeCode u d ∨
      e = d ∧ writeCode ((handleWriteError L ret req e c).store e) d < 0) := by
  let call : HandlerCall V := ⟨e, ret, ret, req, c, []⟩
  have hhandled : handleWriteError L ret req e c = call.handled L := rfl
  unfold Ctx.store
  by_cases hed : d = e
  · subst hed
    unfold writeCode
    rw [setPriv_self, hpriv]
    refine ⟨rfl, Or.inr ⟨rfl, ?_⟩⟩
    rw [hhandled]
    refine records_of_not_ignored (h := call) ?_ hret fun hign => hreq hign.1
    have hcode : writeCode u d = dpr.writeError := by
      unfold writeCode
      rw [hpriv]
      rfl
    exact (h.writeError.trans hcode.symm).trans_le hle
  · unfold writeCode
    rw [setPriv_ne _ _ hed, hhandled, handled_priv]
    exact ⟨congrArg (fun f => (f d).isSome) h.priv,
      Or.inl ⟨fun he => hed he.symm, congrArg (fun f => codeOf (f d)) h.priv⟩⟩

/-- A step of the writer that neither fails nor touches a code. -/
theorem WriterMove.of_quiet {d : ℕ} {raced : Prop} {s : Conc V} (h : ConcInv d raced s)
    {u' : Unified V} {w' : WriterPc}
    (hsome : (u'.priv d).isSome = (s.u.priv d).isSome) (hcode : writeCode u' d = writeCode s.u d)
    (hnot : s.w.hasFailed d = false) (hmoved : ∀ r ∈ w'.moved, r ∈ s.w.moved ∨ r.state ≠ requestIp)
    (hret : w'.ret = none) (hwaits : w'.hasFailed d = false)
    (hexcl : w'.holdsIosched d = true → s.w.holdsIosched d = true ∨ s.c.holdsIosched = false)
    (halive : w'.worksOn d = true → s.w.worksOn d = true ∨ (s.u.priv d).isSome = true) :
    WriterMove d raced s { s with u := u', w := w' } where
  c := rfl
  isSome := hsome
  code := Or.inl hcode
  moved := fun r hr => (hmoved r hr).elim (h.moved r) id
  ret_neg := by simp [hret]
  exclusive := by
    intro hw
    rcases hexcl hw with hw | hc
    · cases hc : s.c.holdsIosched with
      | false => rfl
      | true => rw [h.exclusive hc] at hw; cases hw
    · exact hc
  alive := halive
  hasFailed := by simp [hnot]
  waiting := by simp [hwaits]
  ghost := Or.inl ⟨rfl, rfl⟩

theorem collectStep_move (queue : RequestState) {d e : ℕ} {raced : Prop} {s : Conc V}
    (h : ConcInv d raced s) {kept moved : List WriteRequest} {req : WriteRequest}
    {rest : List WriteRequest} {n : ℕ} {dpr : DentryPriv}
    (hw : s.w = .collecting e kept moved (req :: rest) n) (hpriv : s.u.priv e = some dpr) :
    WriterMove d raced s (collectStep L queue d e kept moved req rest n dpr s) := by
  have hnot : s.w.hasFailed d = false := by rw [hw]; rfl
  have hmoved : s.w.moved = moved := by rw [hw]; rfl
  have hexcl : (e == d) = true → s.w.holdsIosched d = true ∨ s.c.holdsIosched = false := by
    intro he
    left
    rw [hw]
    exact he
  have halive : (e == d) = true → s.w.worksOn d = true ∨ (s.u.priv d).isSome = true := by
    intro he
    left
    rw [hw]
    exact he
  have hkeep : ∀ r ∈ moved, r ∈ s.w.moved ∨ r.state ≠ requestIp := by
    intro r hr
    left
    rw [hmoved]
    exact hr
  unfold collectStep
  dsimp only
  split_ifs with hip htaken hwip hneg
  · have hstore := store_same hpriv (mergePrev_sameError e kept req ⟨s.u, dpr⟩) d
    exact WriterMove.of_quiet h hstore.1 hstore.2 hnot hkeep rfl rfl hexcl halive
  · -- the write fails under the lock, and is recorded at once
    have hsame : SameError ⟨s.u, dpr⟩
        { u := { s.u with
            vol := L.writeIndexAfterPerm (L.fsrawWrite e req.data req.offset s.u.vol).1
              (L.fsrawWrite e req.data req.offset s.u.vol).2 }
          dpr := { dpr with requests := kept ++ req :: rest } } := ⟨rfl, rfl⟩
    obtain ⟨hsome, hcode⟩ := store_handled (L := L) (d := d) hpriv hsame hneg hip h.le
    have hfree : e = d → s.c.holdsIosched = false := by
      intro he
      rcases hexcl (beq_iff_eq.mpr he) with hlock | hlock
      · cases hc : s.c.holdsIosched with
        | false => rfl
        | true => rw [h.exclusive hc] at hlock; cases hlock
      · exact hlock
    constructor
    · rfl
    · exact hsome
    · rcases hcode with ⟨-, hcode⟩ | ⟨he, hcode⟩
      · exact Or.inl hcode
      · exact Or.inr ⟨hcode, hfree he⟩
    · exact fun r hr => (hkeep r hr).elim (h.moved r) id
    · exact fun ret hret => nomatch hret
    · exact fun he => hfree (beq_iff_eq.mp he)
    · exact halive
    · simp [hnot]
    · exact nofun
    · rcases hcode with ⟨he, -⟩ | ⟨he, hcode⟩
      · left
        simp [he]
      · right
        exact ⟨by simp [he], Or.inr hcode⟩
  · have hstore := store_same hpriv ((SameError.vol ⟨s.u, dpr⟩
      (L.fsrawWrite e req.data req.offset s.u.vol).2).trans (toIp_sameError e kept req _)) d
    exact WriterMove.of_quiet h hstore.1 hstore.2 hnot hkeep rfl rfl hexcl halive
  · refine WriterMove.of_quiet h rfl rfl hnot ?_ rfl rfl hexcl halive
    intro r hr
    rcases List.mem_append.mp hr with hr | hr
    · exact hkeep r hr
    · rw [List.mem_singleton.mp hr]
      exact Or.inr hip
  · exact WriterMove.of_quiet h rfl rfl hnot hkeep rfl rfl hexcl halive

theorem writerStep_move (queue : RequestState) {d : ℕ} {raced : Prop} {s : Conc V}
    (h : ConcInv d raced s) : WriterMove d raced s (writerStep L queue d s) := by
  -- a step that stays where it is
  have hstay : WriterMove d raced s s := by
    constructor
    · rfl
    · rfl
    · exact Or.inl rfl
    · exact h.moved
    · exact h.ret_neg
    · intro hw
      cases hc : s.c.holdsIosched with
      | false => rfl
      | true => rw [h.exclusive hc] at hw; cases hw
    · exact Or.inl
    · exact Or.inl
    · exact Or.inl
    · exact Or.inl ⟨rfl, rfl⟩
  -- a step to a position without locks and requests
  have hleave : ∀ w', s.w.hasFailed d = false → w'.moved = [] → w'.ret = none →
      w'.hasFailed d = false → w'.holdsIosched d = false → w'.worksOn d = false →
      WriterMove d raced s { s with w := w' } := by
    intro w' hnot hm hr hf hi ho
    exact WriterMove.of_quiet h rfl rfl hnot (by simp [hm]) hr hf (by simp [hi]) (by simp [ho])
  unfold writerStep
  split
  · rename_i hw
    exact hleave _ (by rw [hw]; rfl) rfl rfl rfl rfl rfl
  · rename_i hw
    exact hleave _ (by rw [hw]; rfl) rfl rfl rfl rfl rfl
  · rename_i n hw
    split
    · exact hleave _ (by rw [hw]; rfl) rfl rfl rfl rfl rfl
    · exact hleave _ (by rw [hw]; rfl) rfl rfl rfl rfl rfl
  · rename_i e n hw
    by_cases hlocked : e = d ∧ s.c.holdsIosched = true
    · rw [if_pos hlocked]
      exact hstay
    · rw [if_neg hlocked]
      split
      · exact hleave _ (by rw [hw]; rfl) rfl rfl rfl rfl rfl
      · rename_i dpr hpriv
        obtain ⟨hsome, hcode⟩ := store_same hpriv
          (leaveQueues_queueOnly queue e (Ctx.mk s.u dpr)).sameError d
        refine WriterMove.of_quiet h hsome hcode (by rw [hw]; rfl) (by simp [WriterPc.moved]) rfl
          rfl (fun he => ?_) (fun he => ?_)
        · right
          have hed : e = d := beq_iff_eq.mp he
          simpa [hed] using hlocked
        · right
          have hed : e = d := beq_iff_eq.mp he
          rw [← hed, hpriv]
          rfl
  · rename_i e kept moved req rest n hw
    split
    · exact hleave _ (by rw [hw]; rfl) rfl rfl rfl rfl rfl
    · rename_i dpr hpriv
      exact collectStep_move queue h hw hpriv
  · rename_i e kept moved n hw
    split
    · exact hleave _ (by rw [hw]; rfl) rfl rfl rfl rfl rfl
    · rename_i dpr hpriv
      obtain ⟨hsome, hcode⟩ := store_same (c := ⟨s.u, { dpr with requests := kept }⟩) hpriv
        ⟨rfl, rfl⟩ d
      refine WriterMove.of_quiet h hsome hcode (by rw [hw]; rfl) (fun r hr => ?_) rfl rfl nofun
        (fun he => ?_)
      · left
        rw [hw]
        exact hr
      · left
        rw [hw]
        exact he
  · rename_i e n hw
    exact hleave _ (by rw [hw]; rfl) rfl rfl rfl rfl rfl
  · rename_i e req rest n hw
    have hmoved : s.w.moved = req :: rest := by rw [hw]; rfl
    dsimp only
    split_ifs with hneg
    · -- the writer lets go of the locks and wants to record the failure
      constructor
      · rfl
      · rfl
      · exact Or.inl rfl
      · exact fun r hr => h.moved r (hmoved ▸ hr)
      · intro ret hret
        cases hret
        exact hneg
      · exact nofun
      · intro he
        left
        rw [hw]
        exact he
      · rw [hw]
        exact nofun
      · intro he
        right
        show (s.owed || e == d) = true
        rw [show (e == d) = true from he, Bool.or_true]
      · cases he : e == d with
        | false =>
          left
          simp
        | true =>
          right
          exact ⟨by simp, Or.inl he⟩
    · refine WriterMove.of_quiet h rfl rfl (by rw [hw]; rfl) (fun r hr => ?_) rfl rfl nofun
        (fun he => ?_)
      · left
        rw [hmoved]
        exact List.mem_cons_of_mem _ hr
      · left
        rw [hw]
        exact he
  · rename_i e ret req rest n hw
    have hneg : ret < 0 := h.ret_neg ret (by rw [hw]; rfl)
    have hreq : req.state ≠ requestIp := h.moved req (by rw [hw]; exact List.mem_cons_self)
    have hworks : s.w.worksOn d = (e == d) := by rw [hw]; rfl
    have hfailed : s.w.hasFailed d = (e == d) := by rw [hw]; rfl
    by_cases hlocked : e = d ∧ s.c.holdsIosched = true
    · rw [if_pos hlocked]
      exact hstay
    · rw [if_neg hlocked]
      have hfree : e = d → s.c.holdsIosched = false := fun he => by simpa [he] using hlocked
      split
      · -- no `dentry_priv`: the close has freed it
        rename_i hnone
        constructor
        · rfl
        · rfl
        · exact Or.inl rfl
        · simp [WriterPc.moved]
        · exact nofun
        · exact nofun
        · exact nofun
        · intro he
          right
          right
          rw [hfailed] at he
          have hed : e = d := beq_iff_eq.mp he
          rcases h.alive (hworks.trans he) with hsome | hraced
          · rw [← hed, hnone] at hsome
            cases hsome
          · exact hraced
        · exact nofun
        · exact Or.inl ⟨rfl, rfl⟩
      · rename_i dpr hpriv
        obtain ⟨hsome, hcode⟩ := store_handled (L := L) (d := d) hpriv (SameError.refl ⟨s.u, dpr⟩)
          hneg hreq h.le
        constructor
        · rfl
        · exact hsome
        · rcases hcode with ⟨-, hcode⟩ | ⟨he, hcode⟩
          · exact Or.inl hcode
          · exact Or.inr ⟨hcode, hfree he⟩
        · simp [WriterPc.moved]
        · exact nofun
        · exact nofun
        · exact nofun
        · intro he
          right
          left
          rw [hfailed] at he
          have hed : e = d := beq_iff_eq.mp he
          rcases hcode with ⟨hne, -⟩ | ⟨-, hcode⟩
          · exact absurd hed hne
          · exact hcode
        · exact nofun
        · exact Or.inl ⟨rfl, rfl⟩
  · rename_i e rest n hw
    refine WriterMove.of_quiet h ?_ ?_ (by rw [hw]; rfl) (by simp [WriterPc.moved]) rfl rfl nofun
      nofun
    · rw [freeRequests_priv]
    · unfold writeCode
      rw [freeRequests_priv]
  · exact hstay

/-- A step of the close that leaves the `dentry_priv` in place. -/
structure CloserMove (d : ℕ) (s s' : Conc V) : Prop where
  w : s'.w = s.w
  isSome : (s'.u.priv d).isSome = (s.u.priv d).isSome
  le : writeCode s'.u d ≤ 0
  code_le : s'.c.code ≤ 0
  exclusive : s'.c.holdsIosched = true → s.c.holdsIosched = true ∨ s.w.holdsIosched d = false
  owed : s'.owed = true → s.w.hasFailed d = true ∨ writeCode s'.u d < 0
  waiting : s.w.hasFailed d = true → s'.owed = true
  told : s'.failed = true → s'.owed = true ∨ s'.c.code < 0
  clean : ∀ ret, s'.c = .freeing ret → writeCode s'.u d = 0

theorem ConcInv.closer {d : ℕ} {raced : Prop} {s s' : Conc V} (h : ConcInv d raced s)
    (hnot : ¬ raced) (hm : CloserMove d s s') : ConcInv d raced s' where
  le := hm.le
  code_le := hm.code_le
  moved := by
    rw [hm.w]
    exact h.moved
  ret_neg := by
    rw [hm.w]
    exact h.ret_neg
  exclusive := by
    intro hlock
    rw [hm.w]
    exact (hm.exclusive hlock).elim h.exclusive id
  alive := by
    rw [hm.w, hm.isSome]
    exact h.alive
  owed := by
    intro howed
    rw [hm.w]
    exact (hm.owed howed).imp_right Or.inl
  waiting := by
    rw [hm.w]
    exact hm.waiting
  told := hm.told
  clean := hm.clean
  lost := fun hraced => absurd hraced hnot

/-- What `_unified_get_write_error` does to the state. -/
structure Fetched (d : ℕ) (s : Conc V) (e : ℤ × Conc V) : Prop where
  fst : e.1 = writeCode s.u d
  zero : writeCode e.2.u d = 0
  isSome : (e.2.u.priv d).isSome = (s.u.priv d).isSome
  w : e.2.w = s.w
  c : e.2.c = s.c
  owed : e.2.owed = true → s.w.hasFailed d = true
  waiting : s.w.hasFailed d = true → e.2.owed = true
  told : e.2.failed = true → e.2.owed = true ∨ e.1 < 0 ∨ s.c.code < 0

theorem fetchError_spec {d : ℕ} {raced : Prop} {s : Conc V} (h : ConcInv d raced s)
    (hnot : ¬ raced) : Fetched d s (fetchError d s) := by
  have hset := writeCode_setPriv s.u d d ((s.u.priv d).map fun dpr => { dpr with writeError := 0 })
  rw [if_pos rfl] at hset
  constructor
  · rfl
  · refine hset.trans ?_
    cases s.u.priv d <;> rfl
  · show ((s.u.setPriv d _).priv d).isSome = _
    rw [setPriv_self]
    cases s.u.priv d <;> rfl
  · rfl
  · rfl
  · show (if writeCode s.u d < 0 then s.w.hasFailed d else s.owed) = true → _
    split_ifs with hneg
    · exact id
    · intro howed
      rcases h.owed howed with hfailed | hcode | hraced
      · exact hfailed
      · exact absurd hcode hneg
      · exact absurd hraced hnot
  · intro hwaits
    show (if writeCode s.u d < 0 then s.w.hasFailed d else s.owed) = true
    split_ifs
    · exact hwaits
    · exact h.waiting hwaits
  · show s.failed = true → (if writeCode s.u d < 0 then s.w.hasFailed d else s.owed) = true ∨
      writeCode s.u d < 0 ∨ s.c.code < 0
    intro hfailed
    split_ifs with hneg
    · exact Or.inr (Or.inl hneg)
    · exact (h.told hfailed).imp_right Or.inr

/-- A step within the flush that changes no code. -/
theorem CloserMove.of_quiet {d : ℕ} {raced : Prop} {s : Conc V} (h : ConcInv d raced s)
    (hnot : ¬ raced) (hlock : s.c.holdsIosched = true) (hcode : s.c.code = 0) {u' : Unified V}
    {c' : CloserPc} (hsome : (u'.priv d).isSome = (s.u.priv d).isSome)
    (hsame : writeCode u' d = writeCode s.u d) (hcode' : c'.code = 0)
    (hfree : ∀ ret, c' ≠ .freeing ret) : CloserMove d s { s with u := u', c := c' } := by
  constructor
  · rfl
  · exact hsome
  · exact hsame.trans_le h.le
  · exact hcode'.le
  · exact fun _ => Or.inl hlock
  · intro howed
    rcases h.owed howed with hfailed | hneg | hraced
    · exact Or.inl hfailed
    · exact Or.inr (hsame.trans_lt hneg)
    · exact absurd hraced hnot
  · exact h.waiting
  · intro hfailed
    rcases h.told hfailed with howed | hneg
    · exact Or.inl howed
    · omega
  · exact fun ret hret => absurd hret (hfree ret)

theorem flushStep_move {d : ℕ} {raced : Prop} {s : Conc V} (h : ConcInv d raced s)
    (hnot : ¬ raced) {kept : List WriteRequest} {req : WriteRequest} {rest : List WriteRequest}
    {dpr : DentryPriv} (hc : s.c = .flushing kept (req :: rest)) (hpriv : s.u.priv d = some dpr) :
    CloserMove d s (flushStep L d kept req rest dpr s) := by
  have hlock : s.c.holdsIosched = true := by rw [hc]; rfl
  have hcode : s.c.code = 0 := by rw [hc]; rfl
  -- a step that changes no code and goes on with the list
  have hquiet : ∀ (u' : Unified V) (kept' rest' : List WriteRequest),
      (u'.priv d).isSome = (s.u.priv d).isSome → writeCode u' d = writeCode s.u d →
      CloserMove d s { s with u := u', c := .flushing kept' rest' } :=
    fun _ _ _ hsome hsame => CloserMove.of_quiet h hnot hlock hcode hsome hsame rfl nofun
  unfold flushStep
  dsimp only
  split_ifs with hip hneg hwip
  · have hstore := store_same hpriv (mergePrev_sameError d kept req ⟨s.u, dpr⟩) d
    exact hquiet _ _ _ hstore.1 hstore.2
  · have hsame : SameError ⟨s.u, dpr⟩
        { u := { s.u with
            vol := L.writeIndexAfterPerm (L.fsrawWrite d req.data req.offset s.u.vol).1
              (L.fsrawWrite d req.data req.offset s.u.vol).2 }
          dpr := { dpr with requests := kept ++ req :: rest } } := ⟨rfl, rfl⟩
    obtain ⟨hsome, hrec⟩ := store_handled (L := L) (d := d) hpriv hsame hneg hip h.le
    have hrec' := hrec.resolve_left fun hne => hne.1 rfl
    constructor
    · rfl
    · exact hsome
    · exact hrec'.2.le
    · exact le_refl 0
    · exact fun _ => Or.inl hlock
    · exact fun _ => Or.inr hrec'.2
    · exact fun _ => rfl
    · exact fun _ => Or.inl rfl
    · exact nofun
  · have hstore := store_same hpriv ((SameError.vol ⟨s.u, dpr⟩
      (L.fsrawWrite d req.data req.offset s.u.vol).2).trans (toIp_sameError d kept req _)) d
    exact hquiet _ _ _ hstore.1 hstore.2
  · exact hquiet _ _ _ rfl rfl

/-- The close after it has fetched the recorded error: whatever it goes on with,
it owes no more than what waits to be recorded. -/
theorem Fetched.move {d : ℕ} {s : Conc V} {e : ℤ × Conc V} (he : Fetched d s e) {u' : Unified V} {c' : CloserPc}
    (hsome : (u'.priv d).isSome = (e.2.u.priv d).isSome) (hzero : writeCode u' d = 0)
    (hcode : c'.code ≤ 0) (htold : e.1 < 0 ∨ s.c.code < 0 → c'.code < 0)
    (hexcl : c'.holdsIosched = true → s.c.holdsIosched = true ∨ s.w.holdsIosched d = false) :
    CloserMove d s { e.2 with u := u', c := c' } where
  w := he.w
  isSome := hsome.trans he.isSome
  le := hzero.le
  code_le := hcode
  exclusive := hexcl
  owed := fun howed => Or.inl (he.owed howed)
  waiting := he.waiting
  told := fun hfailed => (he.told hfailed).imp_right htold
  clean := fun _ _ => hzero

/-- One step of the close; freeing the `dentry_priv` while the writer waits to
record a failure is the race. -/
theorem closerStep_inv {d : ℕ} {raced : Prop} (flush : Bool) {s : Conc V}
    (h : ConcInv d raced s) :
    ConcInv d (raced ∨ s.Races d .closer) (closerStep L d flush s) := by
  -- away from the last step, nothing is raced
  have hgo : (∀ ret, s.c ≠ .freeing ret) → (∀ ret, s.c ≠ .done ret) →
      (¬ raced → ConcInv d raced (closerStep L d flush s)) →
      ConcInv d (raced ∨ s.Races d .closer) (closerStep L d flush s) := by
    intro hfree hdone hmove
    have hnot : ¬ raced := by
      intro hraced
      obtain ⟨-, -, ret, hret⟩ := h.lost hraced
      exact hdone ret hret
    have hraces : (raced ∨ s.Races d .closer) = raced := by
      apply propext
      constructor
      · rintro (hraced | ⟨-, ⟨ret, hret⟩, -⟩)
        · exact hraced
        · exact absurd hret (hfree ret)
      · exact Or.inl
    rw [hraces]
    exact hmove hnot
  cases hc : s.c with
  | start =>
    refine hgo (by simp [hc]) (by simp [hc]) fun hnot => ?_
    have hfetch := fetchError_spec h hnot
    simp only [closerStep, hc]
    split_ifs with hlocked hflush hneg
    · exact h
    · -- no flush
      refine h.closer hnot ?_
      have hcode : s.c.code = 0 := by rw [hc]; rfl
      constructor
      · rfl
      · rfl
      · exact h.le
      · exact le_refl 0
      · exact fun _ => Or.inr (by simpa using hlocked)
      · intro howed
        rcases h.owed howed with hfailed | hrec | hraced
        · exact Or.inl hfailed
        · exact Or.inr hrec
        · exact absurd hraced hnot
      · exact h.waiting
      · intro hfailed
        rcases h.told hfailed with howed | hlt
        · exact Or.inl howed
        · omega
      · exact nofun
    · have hlt : (fetchError d s).1 ≤ 0 := hneg.le
      exact h.closer hnot (hfetch.move rfl hfetch.zero hlt (fun _ => hneg)
        fun _ => Or.inr (by simpa using hlocked))
    · have hnone : ∀ c' : CloserPc, (fetchError d s).1 < 0 ∨ s.c.code < 0 → c'.code < 0 := by
        intro c' hor
        rw [hc] at hor
        rcases hor with hlt | hlt
        · exact absurd hlt hneg
        · exact absurd hlt (lt_irrefl 0)
      have hlock : ∀ c' : CloserPc, c'.holdsIosched = true →
          s.c.holdsIosched = true ∨ s.w.holdsIosched d = false :=
        fun _ _ => Or.inr (by simpa using hlocked)
      split
      · exact h.closer hnot (hfetch.move rfl hfetch.zero (le_refl 0) (hnone _) (hlock _))
      · rename_i dpr hpriv
        split_ifs
        · exact h.closer hnot (hfetch.move rfl hfetch.zero (le_refl 0) (hnone _) (hlock _))
        · obtain ⟨hsome, hsame⟩ := store_same hpriv
            ((updateQueueMembership_queueOnly false true requestDp d
              (Ctx.mk (fetchError d s).2.u dpr)).trans
                (updateQueueMembership_queueOnly false true requestPartial d _)).sameError d
          exact h.closer hnot (hfetch.move hsome (hsame.trans hfetch.zero) (le_refl 0) (hnone _)
            (hlock _))
  | waitIo =>
    refine hgo (by simp [hc]) (by simp [hc]) fun hnot => ?_
    simp only [closerStep, hc]
    split_ifs
    · exact h
    · exact h.closer hnot
        (CloserMove.of_quiet h hnot (by rw [hc]; rfl) (by rw [hc]; rfl) rfl rfl rfl nofun)
  | flushing kept rest =>
    refine hgo (by simp [hc]) (by simp [hc]) fun hnot => ?_
    have hlock : s.c.holdsIosched = true := by rw [hc]; rfl
    have hcode : s.c.code = 0 := by rw [hc]; rfl
    cases rest with
    | cons req rest =>
      simp only [closerStep, hc]
      split
      · exact h.closer hnot (CloserMove.of_quiet h hnot hlock hcode rfl rfl rfl nofun)
      · rename_i dpr hpriv
        exact h.closer hnot (flushStep_move h hnot hc hpriv)
    | nil =>
      -- the list is stored, then the error of the flush is fetched
      have hset := writeCode_setPriv s.u d d
        ((s.u.priv d).map fun dpr => { dpr with requests := kept })
      rw [if_pos rfl] at hset
      have hstored : CloserMove d s { s with
          u := s.u.setPriv d ((s.u.priv d).map fun dpr => { dpr with requests := kept })
          c := .flushing kept [] } := by
        refine CloserMove.of_quiet h hnot hlock hcode ?_ ?_ rfl nofun
        · rw [setPriv_self, Option.isSome_map]
        · rw [hset]
          unfold writeCode
          cases s.u.priv d <;> rfl
      have hinv := h.closer hnot hstored
      have hfetch := fetchError_spec hinv hnot
      have hle : (fetchError d { s with
          u := s.u.setPriv d ((s.u.priv d).map fun dpr => { dpr with requests := kept })
          c := .flushing kept [] }).1 ≤ 0 := by
        rw [hfetch.fst]
        exact hinv.le
      simp only [closerStep, hc]
      refine hinv.closer hnot (hfetch.move rfl hfetch.zero ?_ ?_ fun _ => Or.inl rfl)
      · show (if _ then _ else (0 : ℤ)) ≤ 0
        split_ifs
        · exact hle
        · exact le_refl 0
      · rintro (hlt | hlt)
        · show (if _ then _ else (0 : ℤ)) < 0
          rw [if_pos hlt]
          exact hlt
        · exact absurd hlt (lt_irrefl 0)
  | closing ret =>
    refine hgo (by simp [hc]) (by simp [hc]) fun hnot => ?_
    have hfetch := fetchError_spec h hnot
    have hret : ret ≤ 0 := by
      have hle := h.code_le
      rwa [hc] at hle
    have hcode : (if ret ≠ 0 then ret else (fetchError d s).1) ≤ 0 := by
      split_ifs
      · exact hret
      · rw [hfetch.fst]
        exact h.le
    have htold : (fetchError d s).1 < 0 ∨ s.c.code < 0 →
        (if ret ≠ 0 then ret else (fetchError d s).1) < 0 := by
      intro hor
      have hret' : s.c.code = ret := by rw [hc]; rfl
      rw [hret'] at hor
      split_ifs with hzero
      · omega
      · omega
    have hlock : s.c.holdsIosched = true := by rw [hc]; rfl
    simp only [closerStep, hc]
    generalize (if ret ≠ 0 then ret else (fetchError d s).1) = ret' at hcode htold ⊢
    split
    · exact h.closer hnot (hfetch.move rfl hfetch.zero hcode htold fun _ => Or.inl hlock)
    · split_ifs
      · exact h.closer hnot (hfetch.move rfl hfetch.zero hcode htold fun _ => Or.inl hlock)
      · exact h.closer hnot (hfetch.move rfl hfetch.zero hcode htold fun _ => Or.inl hlock)
  | freeing ret =>
    have hnot : ¬ raced := by
      intro hraced
      obtain ⟨-, -, ret', hret'⟩ := h.lost hraced
      rw [hc] at hret'
      cases hret'
    have hzero := h.clean ret hc
    simp only [closerStep, hc]
    split_ifs with hlocked
    · -- the writer has `io_lock`, so it is not waiting for `iosched_lock`
      have hraces : (raced ∨ s.Races d .closer) = raced := by
        apply propext
        constructor
        · rintro (hraced | ⟨-, -, hwaits⟩)
          · exact hraced
          · cases hw : s.w <;> rw [hw] at hlocked hwaits <;> first | cases hlocked | cases hwaits
        · exact Or.inl
      rw [hraces]
      exact h
    · have hraces : raced ∨ s.Races d .closer ↔ s.w.hasFailed d = true := by
        constructor
        · rintro (hraced | ⟨-, -, hwaits⟩)
          · exact absurd hraced hnot
          · exact hwaits
        · exact fun hwaits => Or.inr ⟨rfl, ⟨ret, hc⟩, hwaits⟩
      have hnone : (s.u.setPriv d none).priv d = none := setPriv_self _ _ _
      have hafter : writeCode (s.u.setPriv d none) d = 0 := by
        unfold writeCode
        rw [hnone]
        rfl
      have hcode : s.c.code = ret := by rw [hc]; rfl
      constructor
      · exact hafter.le
      · exact hcode ▸ h.code_le
      · exact h.moved
      · exact h.ret_neg
      · exact nofun
      · -- of the writer's positions only the one that waits is left
        intro hworks
        right
        rw [hraces]
        cases hw : s.w <;> rw [hw] at hlocked hworks <;>
          first | cases hworks | exact absurd hworks hlocked | exact hworks
      · intro howed
        rcases h.owed howed with hfailed | hneg | hraced
        · exact Or.inl hfailed
        · omega
        · exact absurd hraced hnot
      · exact h.waiting
      · exact fun hfailed => hcode ▸ h.told hfailed
      · exact nofun
      · intro hraced
        exact ⟨h.waiting (hraces.mp hraced), hnone, ret, rfl⟩
  | done ret =>
    have hraces : (raced ∨ s.Races d .closer) = raced := by
      apply propext
      constructor
      · rintro (hraced | ⟨-, ⟨ret', hret'⟩, -⟩)
        · exact hraced
        · rw [hc] at hret'
          cases hret'
      · exact Or.inl
    rw [hraces]
    simp only [closerStep, hc]
    exact h

/-! ## Every interleaving -/

theorem step_inv (queue : RequestState) {d : ℕ} {raced : Prop} (flush : Bool) (t : Thread)
    {s : Conc V} (h : ConcInv d raced s) :
    ConcInv d (raced ∨ s.Races d t) (s.step L queue d flush t) := by
  cases t with
  | writer =>
    have hraces : (raced ∨ s.Races d .writer) = raced := by
      apply propext
      constructor
      · rintro (hraced | ⟨hwriter, -⟩)
        · exact hraced
        · cases hwriter
      · exact Or.inl
    rw [hraces]
    exact h.writer (writerStep_move queue h)
  | closer => exact closerStep_inv flush h

theorem interleave_inv (queue : RequestState) {d : ℕ} (flush : Bool) (order : List Thread) :
    ∀ {raced : Prop} {s : Conc V}, ConcInv d raced s →
      ConcInv d (raced ∨ RunRaces L queue d flush order s) (interleave L queue d flush order s) := by
  induction order with
  | nil =>
    intro raced s h
    have hraces : (raced ∨ RunRaces L queue d flush [] s) = raced := by
      simp [RunRaces]
    rw [hraces]
    exact h
  | cons t order ih =>
    intro raced s h
    have hnext := ih (step_inv (L := L) queue flush t h)
    rw [or_assoc] at hnext
    exact hnext

/-- **Lost errors.** In every interleaving of the writer and a close of `d`, run to
the end: a failure of a write of `d` is returned by the close or owed, and what is
owed is recorded in the `dentry_priv` unless the close has freed that while the
writer waited to record it. A recorded code is never positive. -/
theorem close_loses_error_iff (L : Libltfs V) (queue : RequestState) (d : ℕ) (flush : Bool)
    (u : Unified V) (hle : writeCode u d ≤ 0) (order : List Thread) (ret : ℤ)
    (hdone : (interleave L queue d flush order (Conc.begin u)).Complete ret) :
    ((interleave L queue d flush order (Conc.begin u)).failed = true →
      (interleave L queue d flush order (Conc.begin u)).owed = true ∨ ret < 0) ∧
    (((interleave L queue d flush order (Conc.begin u)).owed = true →
        writeCode (interleave L queue d flush order (Conc.begin u)).u d < 0) ↔
      ¬ RunRaces L queue d flush order (Conc.begin u)) := by
  have h := interleave_inv (L := L) queue flush order (ConcInv.begin hle)
  rw [false_or] at h
  obtain ⟨hw, hc⟩ := hdone
  set s := interleave L queue d flush order (Conc.begin u)
  constructor
  · intro hfailed
    have htold := h.told hfailed
    rw [hc] at htold
    exact htold
  · constructor
    · intro hrec hraces
      -- after the race there is no `dentry_priv` to record anything in
      obtain ⟨howed, hnone, -⟩ := h.lost hraces
      have hneg := hrec howed
      unfold writeCode at hneg
      rw [hnone] at hneg
      exact absurd hneg (lt_irrefl 0)
    · intro hno howed
      rcases h.owed howed with hfailed | hneg | hraces
      · rw [hw] at hfailed
        cases hfailed
      · exact hneg
      · exact absurd hraces hno

end Invariant

/-! ## Two interleavings -/

/-- A drive that takes no data. -/
def brokenLibltfs : Libltfs Unit :=
  { idleLibltfs with fsrawWrite := fun _ _ _ v => (-ltfsWriteError, v) }

/-- A file with one full request on the data queue. -/
def oneRequest : Unified Unit :=
  (unifiedWrite brokenLibltfs 0 [1, 2, 3, 4] 0 (Unified.init 4 64 ())).2

/-- The order in which the writer is through before the close begins. -/
def inTurn : List Thread := List.replicate 9 .writer ++ List.replicate 3 .closer

/-- The order in which the close comes between the failed write and its handling. -/
def inBetween : List Thread :=
  List.replicate 6 .writer ++ List.replicate 3 .closer ++ List.replicate 3 .writer

/-- The writer goes first: the close returns the error. -/
theorem close_loses_error_iff_in_turn :
    ((interleave brokenLibltfs requestDp 0 true inTurn (Conc.begin oneRequest)).failed = true →
      (interleave brokenLibltfs requestDp 0 true inTurn (Conc.begin oneRequest)).owed = true ∨
        -ltfsWriteError < 0) ∧
    (((interleave brokenLibltfs requestDp 0 true inTurn (Conc.begin oneRequest)).owed = true →
        writeCode (interleave brokenLibltfs requestDp 0 true inTurn
          (Conc.begin oneRequest)).u 0 < 0) ↔
      ¬ RunRaces brokenLibltfs requestDp 0 true inTurn (Conc.begin oneRequest)) :=
  close_loses_error_iff brokenLibltfs requestDp 0 true oneRequest (by decide +kernel) inTurn
    (-ltfsWriteError) ⟨by decide +kernel, by decide +kernel⟩

/-- The close returns success, the write has failed, and nothing is left that could
tell. -/
theorem close_between_loses_error :
    let s := interleave brokenLibltfs requestDp 0 true inBetween (Conc.begin oneRequest)
    s.w = .done ∧ s.c = .done 0 ∧ s.failed = true ∧ s.owed = true ∧ writeCode s.u 0 = 0 := by
  decide +kernel

end Ltfs.Sched
