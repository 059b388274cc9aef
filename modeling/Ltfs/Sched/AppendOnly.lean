import Ltfs.Sched.Lists

/-!
# Append-only files

`ltfs_fsops_write` lets a write to an append-only file pass if it starts at
`d->size`, the size of the file on tape, while `ltfs_fsops_getattr` reports
`iosched_get_filesize`, which counts the cached bytes too. As long as the two agree
when a write starts, writes only append (`append_only_of_run`); a write that finds
cached bytes behind `d->size` may overwrite them, and one that starts behind them is
refused (`append_over_cached_bytes`).

1. `unifiedGetFilesize`, `ltfsFsopsWrite` — the two functions.
2. `AppendEvent` — the calls on one file, in turn, with anything in between.
3. `writeAttempt_append` — a write behind all cached bytes leaves them alone.
-/

namespace Ltfs.Sched

open Lib Lib.Segment RequestState

/-- `is_immutable` and `is_appendonly` of a dentry. -/
structure Retention where
  isImmutable : Bool
  isAppendonly : Bool
deriving DecidableEq, Repr

/-- The retention check of `ltfs_fsops_write`; `size` is `d->size`. -/
def writeRefused (f : Retention) (offset size : ℕ) : Bool :=
  f.isImmutable || (f.isAppendonly && decide (offset ≠ size))

section Functions

variable {V : Type} (L : Libltfs V)

/-- `unified_get_filesize`. -/
def unifiedGetFilesize (d : ℕ) (u : Unified V) : ℕ :=
  match u.priv d with
  | some dpr => dpr.fileSize
  | none => L.dentrySize d u.vol

/-- `ltfs_fsops_write` turns byte counts into `0`. -/
def fsopsReturn : WriteReturn → WriteReturn
  | .returned ret => .returned (if ret < 0 then ret else 0)
  | r => r

/-- `ltfs_fsops_write` of a file, with a scheduler. -/
def ltfsFsopsWrite (f : Retention) (d : ℕ) (buf : List UInt8) (offset : ℕ) (u : Unified V) :
    WriteReturn × Unified V :=
  if writeRefused f offset (L.dentrySize d u.vol) then
    (.returned (-ltfsWormEnabled), u)
  else
    let r := unifiedWrite L d buf offset u
    (fsopsReturn r.1, r.2)

/-! ## Calls in turn -/

/-- The scheduler, the call of `ltfs_fsops_write` that is waiting for a cache block
(its offset and bytes, and what is left of it), and the bytes of the file that
finished calls have accepted. -/
structure AppendFile (V : Type) where
  u : Unified V
  pending : Option ((ℕ × List UInt8) × WriteCall)
  accepted : ℕ → Option UInt8

/-- The next call, the waiting call goes on, or something else happens. -/
inductive AppendEvent (V : Type) where
  | write (buf : List UInt8) (offset : ℕ)
  | resume (spare : Option ℕ)
  | other (op : Op V)

/-- The bytes of a write call. -/
def calledByte (call : ℕ × List UInt8) (x : ℕ) : Option UInt8 :=
  if call.1 ≤ x then call.2[x - call.1]? else none

/-- The call goes on with result `r`. -/
def AppendFile.finish (call : ℕ × List UInt8) (r : WriteReturn × Unified V) (s : AppendFile V) :
    AppendFile V :=
  match r.1 with
  | .returned ret =>
    if ret < 0 then ⟨r.2, none, s.accepted⟩
    else ⟨r.2, none, fun x => (calledByte call x).or (s.accepted x)⟩
  | .restart rest => ⟨r.2, some (call, rest), s.accepted⟩
  | .diverges => ⟨r.2, none, s.accepted⟩

/-- One event. Calls on the file come in turn. If the file shrinks (cached bytes are
dropped after a write error, for instance), the bytes past its end are gone. -/
def AppendEvent.exec (f : Retention) (d : ℕ) : AppendEvent V → AppendFile V → AppendFile V
  | .write buf offset, s =>
    match s.pending with
    | some _ => s
    | none => s.finish (offset, buf) (ltfsFsopsWrite L f d buf offset s.u)
  | .resume spare, s =>
    match s.pending with
    | none => s
    | some (call, rest) =>
      let r := writeAttempt L d call.2.length { rest with spare := spare } s.u
      s.finish call (fsopsReturn r.1, r.2)
  | .other op, s =>
    let u := op.exec L s.u
    { s with
      u := u
      accepted := fun x => if x < unifiedGetFilesize L d u then s.accepted x else none }

/-- The condition on the state before an event: a call starts when the scheduler
reports the size on tape, and a waiting call goes on at the end of the file. Writes of
other files in between have a clear way. -/
def AppendEvent.Meets (d : ℕ) : AppendEvent V → AppendFile V → Prop
  | .write buf _, s => buf.length ≤ s.u.cacheSize ∧
      (s.pending = none → L.dentrySize d s.u.vol = unifiedGetFilesize L d s.u)
  | .resume _, s => ∀ call rest, s.pending = some (call, rest) →
      unifiedGetFilesize L d s.u ≤ rest.offset
  | .other op, s => op.Fits s.u.cacheSize ∧ op.ClearWay L s.u

def AppendEvent.isWrite : AppendEvent V → Bool
  | .write _ _ => true
  | .resume _ => true
  | .other _ => false

/-- The cached bytes of a file that still have to go to the data partition. -/
def dpPart (l : List WriteRequest) (x : ℕ) : Option UInt8 :=
  match reqMap l x with
  | some (false, b) => some b
  | _ => none

def dpByte (d : ℕ) (u : Unified V) (x : ℕ) : Option UInt8 :=
  match u.priv d with
  | some dpr => dpPart dpr.requests x
  | none => none

/-- An event of a run is as an append-only file demands: no accepted byte changes,
nor does any byte of the file in the cache or on tape, and a call at the reported end
of the file is not refused. -/
structure AppendOnly (f : Retention) (d : ℕ) (ev : AppendEvent V) (s : AppendFile V) : Prop where
  accepted : ev.isWrite = true → ∀ x b, s.accepted x = some b →
    (ev.exec L f d s).accepted x = some b
  cached : ev.isWrite = true → ∀ x < unifiedGetFilesize L d s.u,
    dpByte d (ev.exec L f d s).u x = dpByte d s.u x
  tape : ev.isWrite = true → ∀ n x,
    (L.fsrawRead d n x (ev.exec L f d s).u.vol).1 = (L.fsrawRead d n x s.u.vol).1
  accepts : f.isImmutable = false → s.pending = none → ∀ buf offset, ev = .write buf offset →
    offset = unifiedGetFilesize L d s.u →
    ltfsFsopsWrite L f d buf offset s.u
      = (fsopsReturn (unifiedWrite L d buf offset s.u).1, (unifiedWrite L d buf offset s.u).2)

/-- Taking the volume lock or a reference to a dentry does not touch the files. -/
structure QuietLocks : Prop where
  lock_read : ∀ d n x vol,
    (L.fsrawRead d n x (L.getVolumeLock vol).2).1 = (L.fsrawRead d n x vol).1
  lock_size : ∀ d vol, L.dentrySize d (L.getVolumeLock vol).2 = L.dentrySize d vol
  get_read : ∀ d e n x vol,
    (L.fsrawRead d n x (L.fsrawGetDentry e vol)).1 = (L.fsrawRead d n x vol).1
  get_size : ∀ d e vol, L.dentrySize d (L.fsrawGetDentry e vol) = L.dentrySize d vol

/-- The events of a run, each with the state it starts from. -/
def AppendRun (P : AppendEvent V → AppendFile V → Prop) (f : Retention) (d : ℕ) :
    List (AppendEvent V) → AppendFile V → Prop
  | [], _ => True
  | ev :: evs, s => P ev s ∧ AppendRun P f d evs (ev.exec L f d s)

end Functions

/-! ## Appending to the request list -/

section Append

variable {cs : ℕ}

/-- Where an append ends and what it leaves over. -/
structure AppendPlace (w : WriteState) (r : WriteResult) : Prop where
  offset_le : w.offset ≤ r.state.offset
  stop_eq : r.state.offset + r.state.buf.length = w.offset + w.buf.length
  fileSize_le : w.fileSize ≤ r.state.fileSize
  pending : r.outcome = .restart → r.state.buf ≠ []

theorem appendRequests_place (requests : List WriteRequest) {w : WriteState}
    (hfits : w.buf.length ≤ cs) : AppendPlace w (appendRequests cs requests w) := by
  unfold appendRequests
  by_cases hbuf : w.buf.length > 0
  · rw [if_pos hbuf]
    have hins := insertNewRequest_spec hfits w.offset false w
    have hne : w.buf ≠ [] := List.ne_nil_of_length_pos hbuf
    cases hres : insertNewRequest cs w.buf w.offset false w with
    | noMemory w' =>
      rw [hres] at hins
      obtain ⟨hsame, hsize⟩ := hins
      constructor
      · exact hsame.offset.ge
      · rw [hsame.offset, hsame.buf]
      · exact hsize.ge
      · intro h
        cases h
    | wait w' =>
      rw [hres] at hins
      obtain ⟨hsame, hsize⟩ := hins
      constructor
      · exact hsame.offset.ge
      · rw [hsame.offset, hsame.buf]
      · exact hsize.ge
      · intro _
        rw [hsame.buf]
        exact hne
    | inserted new w' =>
      rw [hres] at hins
      obtain ⟨hsame, hsize, -⟩ := hins
      constructor
      · show w.offset ≤ w'.offset + w'.buf.length
        rw [hsame.offset]
        omega
      · show w'.offset + w'.buf.length + 0 = _
        rw [hsame.offset, hsame.buf]
        rfl
      · show w.fileSize ≤ w'.fileSize
        omega
      · intro h
        cases h
  · rw [if_neg hbuf]
    constructor
    · exact le_refl _
    · rfl
    · exact le_refl _
    · intro h
      cases h

theorem appendAtEnd_place (requests : List WriteRequest) {w : WriteState}
    (hfits : w.buf.length ≤ cs) : AppendPlace w (appendAtEnd cs requests w) := by
  unfold appendAtEnd
  cases hlast : requests.getLast? with
  | none => exact appendRequests_place requests hfits
  | some req =>
    dsimp only
    split
    · rename_i hup
      have hoff : req.offset ≤ w.offset := by
        have := hup.2.1
        unfold WriteRequest.limit at this
        omega
      have hu := updateRequest_spec cs w.buf hoff hup.2.1.le
      have htaken := hu.taken
      -- the last request takes the first bytes
      set u := updateRequest cs w.buf w.offset req
      set w' : WriteState := { w with
        buf := w.buf.drop u.1
        offset := w.offset + u.1
        fileSize := max w.fileSize u.2.1.limit
        log := w.log ++ promoteLog u.2.2 requests } with hw'
      have hfits' : w'.buf.length ≤ cs := by
        show (w.buf.drop u.1).length ≤ cs
        rw [List.length_drop]
        omega
      have h := appendRequests_place (requests.dropLast.map (promote u.2.2) ++ [u.2.1]) hfits'
      have h1 : w.offset + u.1 ≤ _ := h.offset_le
      have h2 : _ = w.offset + u.1 + (w.buf.drop u.1).length := h.stop_eq
      have h3 : max w.fileSize u.2.1.limit ≤ _ := h.fileSize_le
      rw [List.length_drop] at h2
      constructor
      · omega
      · rw [h2]
        omega
      · omega
      · exact h.pending
    · exact appendRequests_place requests hfits

/-- Behind all requests `doAppend` does not walk the list. -/
theorem doAppend_at_end {fuel : ℕ} {requests : List WriteRequest} {w : WriteState}
    (hend : ∀ r ∈ requests, r.limit ≤ w.offset) :
    doAppend cs (fuel + 1) requests w = appendAtEnd cs requests w := by
  have hlast : (requests.getLast?.map WriteRequest.limit).getD 0 ≤ w.offset := by
    cases h : requests.getLast? with
    | none => exact Nat.zero_le _
    | some req => exact hend req (List.mem_of_getLast? h)
  unfold doAppend
  dsimp only
  rw [if_pos hlast]

/-- A write behind all requests passes over none. -/
theorem overtakes_at_end {requests : List WriteRequest} {offset : ℕ} (h : ReqsOk cs requests)
    (hend : ∀ r ∈ requests, r.limit ≤ offset) (size : ℕ) :
    overtakes cs requests offset size = false := by
  induction requests with
  | nil => rfl
  | cons r rest ih =>
    obtain ⟨hpos, -, hafter, hrest⟩ := reqsOk_cons.mp h
    have hr := hend r (by simp)
    have htail := ih hrest fun q hq => hend q (by simp [hq])
    rw [overtakes]
    by_cases hlt : r.limit < offset
    · rw [if_pos hlt]
      exact htail
    · -- `r` ends at the offset, so nothing can follow it
      have hnil : rest = [] := by
        rcases List.eq_nil_or_concat rest with hnil | ⟨init, q, hq⟩
        · exact hnil
        · exfalso
          have hmem : q ∈ rest := by
            rw [hq]
            simp
          have h1 := hend q (by simp [hmem])
          have h2 := hafter q hmem
          have h3 := hrest.count_pos q hmem
          unfold WriteRequest.limit at *
          omega
      have hoff : r.offset ≤ offset := by
        unfold WriteRequest.limit at hr
        omega
      subst hnil
      rw [if_neg hlt, if_neg (by omega)]
      simp [absorbs, overtakes, overtakesFull, insideAny]

/-- Dropping index partition requests does not touch the others. -/
theorem dpPart_filter {l : List WriteRequest} (h : Ordered l) (x : ℕ) :
    dpPart (l.filter fun r => decide (r.state ≠ requestIp)) x = dpPart l x := by
  set l' := l.filter fun r => decide (r.state ≠ requestIp) with hl'
  have hsub : l'.Sublist l := List.filter_sublist
  have hord : Ordered l' := List.Pairwise.sublist hsub h
  have hnotip : ∀ r ∈ l', r.isIp = false := by
    intro r hr
    have := (List.mem_filter.mp hr).2
    simpa [WriteRequest.isIp] using this
  unfold dpPart reqMap
  cases hx : segMap WriteRequest.value l x with
  | none =>
    have hnone : segMap WriteRequest.value l' x = none := by
      rw [segMap_eq_none_iff] at hx ⊢
      intro r hr
      exact hx r (hsub.subset hr)
    rw [hnone]
  | some v =>
    obtain ⟨r, hr, hcov, hval⟩ := exists_mem_of_segMap_eq_some hx
    by_cases hip : r.isIp = true
    · -- the byte belongs to an index partition request, and no other request covers it
      have hnone : segMap WriteRequest.value l' x = none := by
        rw [segMap_eq_none_iff]
        intro q hq hcov'
        have h1 : segMap WriteRequest.value l x = some (r.value x) :=
          segMap_eq_some_of_mem h hr hcov
        have h2 : segMap WriteRequest.value l x = some (q.value x) :=
          segMap_eq_some_of_mem h (hsub.subset hq) hcov'
        rw [h1, Option.some.injEq, WriteRequest.value, WriteRequest.value, hip, hnotip q hq] at h2
        have hflags : true = false := congrArg Prod.fst h2
        cases hflags
      rw [hnone, ← hval, WriteRequest.value, hip]
    · have hmem : r ∈ l' := by
        apply List.mem_filter.mpr
        refine ⟨hr, ?_⟩
        simpa [WriteRequest.isIp] using hip
      rw [segMap_eq_some_of_mem hord hmem hcov, hval]

end Append

section Attempt

variable {V : Type} (L : Libltfs V) {cs : ℕ}

/-- What the placement update leaves alone. -/
structure PlaceFrame (c c' : Ctx V) : Prop where
  fileSize : c'.dpr.fileSize = c.dpr.fileSize
  vol : c'.u.vol = c.u.vol
  dpPart : ∀ x, dpPart c'.dpr.requests x = dpPart c.dpr.requests x

theorem unsetWriteIp_frame {c : Ctx V} (h : Ordered c.dpr.requests) (d : ℕ) :
    PlaceFrame c (unsetWriteIp d c) := by
  have hdrop : ∀ c' : Ctx V, (dropAltExtentlist d c').dpr.requests = c'.dpr.requests ∧
      (dropAltExtentlist d c').dpr.fileSize = c'.dpr.fileSize ∧
      (dropAltExtentlist d c').u.vol = c'.u.vol := by
    intro c'
    unfold dropAltExtentlist
    split <;> exact ⟨rfl, rfl, rfl⟩
  unfold unsetWriteIp
  dsimp only
  constructor
  · rw [(hdrop _).2.1]
    split
    · exact (updateQueueMembership_queueOnly false true requestIp d _).fileSize
    · rfl
  · rw [(hdrop _).2.2]
    split
    · exact (updateQueueMembership_queueOnly false true requestIp d _).vol.trans
        (freeRequests_vol _ _)
    · rfl
  · intro x
    rw [(hdrop _).1]
    split
    · have hreq := (updateQueueMembership_queueOnly false true requestIp d
        { u := freeRequests (c.dpr.requests.filter fun r => decide (r.state = requestIp)) c.u
          dpr := { c.dpr with
            writeIp := false
            requests := c.dpr.requests.filter fun r => decide (r.state ≠ requestIp) } }).requests
      exact (congrArg (fun l => Ltfs.Sched.dpPart l x) hreq).trans (dpPart_filter h x)
    · rfl

theorem placeWrite_frame {c : Ctx V} (h : Ordered c.dpr.requests) (d : ℕ) (call : WriteCall) :
    PlaceFrame c (placeWrite L d call c) := by
  unfold placeWrite
  split
  · exact unsetWriteIp_frame h d
  · exact ⟨rfl, rfl, fun _ => rfl⟩

/-- An attempt to append. -/
structure Appended (cs d : ℕ) (call : WriteCall) (u : Unified V) (r : WriteReturn × Unified V) :
    Prop where
  lists : ListsOk cs r.2
  cached : ∀ x < call.offset, dpByte d r.2 x = dpByte d u x
  tape : ∀ n x, (L.fsrawRead d n x r.2.vol).1 = (L.fsrawRead d n x u.vol).1
  size_le : unifiedGetFilesize L d u ≤ unifiedGetFilesize L d r.2
  returned : ∀ ret, r.1 = .returned ret → 0 ≤ ret →
    call.offset + call.buf.length ≤ unifiedGetFilesize L d r.2
  restart : ∀ rest, r.1 = .restart rest → rest.buf ≠ [] ∧ call.offset ≤ rest.offset ∧
    rest.offset + rest.buf.length = call.offset + call.buf.length

/-- The byte count of `getDentryPriv`'s `dentry_priv` is the reported size. -/
theorem getDentryPriv_frame (hquiet : QuietLocks L) (d : ℕ) (u : Unified V) :
    (∀ n x, (L.fsrawRead d n x (getDentryPriv L d u).2.vol).1 = (L.fsrawRead d n x u.vol).1) ∧
    match (getDentryPriv L d u).1 with
    | none => (getDentryPriv L d u).2.priv = u.priv ∧ (getDentryPriv L d u).2.vol = u.vol
    | some dpr => (getDentryPriv L d u).2.priv d = some dpr ∧
        dpr.fileSize = unifiedGetFilesize L d u ∧ ∀ x, dpPart dpr.requests x = dpByte d u x := by
  unfold getDentryPriv unifiedGetFilesize dpByte
  cases hd : u.priv d with
  | some dpr => exact ⟨fun _ _ => rfl, hd, rfl, fun _ => rfl⟩
  | none =>
    dsimp only
    split
    · exact ⟨fun _ _ => rfl, rfl, rfl⟩
    · refine ⟨fun n x => hquiet.get_read d d n x u.vol, ?_, rfl, fun _ => rfl⟩
      simp

theorem freeSpare_frame (spare : Option ℕ) (u : Unified V) :
    (freeSpare spare u).priv = u.priv ∧ (freeSpare spare u).vol = u.vol := by
  cases spare <;> exact ⟨rfl, rfl⟩

theorem getFilesize_of_priv {d : ℕ} {u : Unified V} {dpr : DentryPriv} (h : u.priv d = some dpr) :
    unifiedGetFilesize L d u = dpr.fileSize := by
  unfold unifiedGetFilesize
  rw [h]

theorem dpByte_of_priv {d : ℕ} {u : Unified V} {dpr : DentryPriv} (h : u.priv d = some dpr)
    (x : ℕ) : dpByte d u x = dpPart dpr.requests x := by
  unfold dpByte
  rw [h]

/-- Behind everything the file has, the way is clear. -/
theorem clearWay_at_end {u : Unified V} (h : ListsOk cs u) (d : ℕ) (call : WriteCall)
    (hend : unifiedGetFilesize L d u ≤ call.offset) : clearWay L d call u = true := by
  unfold clearWay writeRequests
  cases hd : u.priv d with
  | none => rfl
  | some dpr =>
    rw [getFilesize_of_priv L hd] at hend
    have hp := h.ok d dpr hd
    have hc : CtxOk cs u.priv ⟨u, (getWriteError dpr).2⟩ := ⟨h.cacheSize, rfl, hp.ok, hp.limit_le⟩
    have hplace := placeWrite_ok L hc d call
    have hsize : (placeWrite L d call ⟨u, (getWriteError dpr).2⟩).dpr.fileSize = dpr.fileSize :=
      (placeWrite_frame L hp.ok.ordered d call).fileSize
    have hlimit : ∀ r ∈ (placeWrite L d call ⟨u, (getWriteError dpr).2⟩).dpr.requests,
        r.limit ≤ call.offset := by
      intro r hr
      have := hplace.dpr.limit_le r hr
      omega
    have hover := overtakes_at_end hplace.dpr.ok hlimit call.buf.length
    rw [h.cacheSize]
    dsimp only
    rw [hover]
    rfl

/-- The list an append leaves, and the size it records. -/
structure AppendedList (cs : ℕ) (c : Ctx V) (call : WriteCall) (r : WriteResult) : Prop where
  place : call.offset ≤ r.state.offset
  stop_eq : r.state.offset + r.state.buf.length = call.offset + call.buf.length
  pending : r.outcome = .restart → r.state.buf ≠ []
  cached : ∀ x < call.offset, dpPart r.requests x = dpPart c.dpr.requests x
  size_le : c.dpr.fileSize ≤ r.state.fileSize
  stored : r.outcome = .done → call.offset + call.buf.length ≤ r.state.fileSize

theorem doAppend_appended {priv : ℕ → Option DentryPriv} {c : Ctx V} (hc : CtxOk cs priv c)
    {call : WriteCall} (hne : call.buf ≠ []) (hfits : call.buf.length ≤ cs)
    (hend : c.dpr.fileSize ≤ call.offset) {w : WriteState} (hbuf : w.buf = call.buf)
    (hoff : w.offset = call.offset) (hsize : w.fileSize = c.dpr.fileSize) :
    AppendedList cs c call (doAppend cs (appendFuel c.dpr.requests) c.dpr.requests w) := by
  have hlimit : ∀ r ∈ c.dpr.requests, r.limit ≤ w.offset := by
    intro r hr
    have := hc.dpr.limit_le r hr
    omega
  rw [← hbuf] at hne hfits
  have hlist : ListPost cs (fun x => (bytesMap false w.offset w.buf x).or
      (reqMap c.dpr.requests x)) (max w.fileSize (w.offset + w.buf.length)) c.dpr.requests w := by
    refine ⟨hc.dpr.ok, hfits, fun _ => rfl, ?_, rfl⟩
    rw [hsize]
    exact hc.dpr.limit_le
  have hpost := doAppend_post (appendFuel c.dpr.requests) c.dpr.requests w hlist hne
    (Or.inl ⟨hlimit, Nat.succ_pos _⟩)
  have hplace : AppendPlace w (doAppend cs (appendFuel c.dpr.requests) c.dpr.requests w) := by
    rw [show appendFuel c.dpr.requests = c.dpr.requests.length + 1 + 1 from rfl,
      doAppend_at_end hlimit]
    exact appendAtEnd_place c.dpr.requests hfits
  set r := doAppend cs (appendFuel c.dpr.requests) c.dpr.requests w
  have hoff_le := hplace.offset_le
  have hstop := hplace.stop_eq
  rw [hoff] at hoff_le
  rw [hoff, hbuf] at hstop
  constructor
  · exact hoff_le
  · exact hstop
  · exact hplace.pending
  · intro x hx
    have hmap := hpost.list.map x
    have hnone : bytesMap false r.state.offset r.state.buf x = none := by
      rw [bytesMap_eq_none_iff]
      omega
    have hnone' : bytesMap false w.offset w.buf x = none := by
      rw [bytesMap_eq_none_iff]
      omega
    rw [hnone, hnone', Option.none_or, Option.none_or] at hmap
    unfold dpPart
    rw [hmap]
  · rw [← hsize]
    exact hplace.fileSize_le
  · -- the last byte of the write is in some request
    intro hdone
    have hnil := hpost.stored hdone
    have hpos := List.length_pos_iff.mpr hne
    rw [hbuf] at hpos
    have hmap := hpost.list.map (call.offset + call.buf.length - 1)
    rw [hnil, bytesMap_nil, Option.none_or] at hmap
    have hsome : reqMap r.requests (call.offset + call.buf.length - 1) ≠ none := by
      intro hnone
      rw [hnone] at hmap
      have hor := (Option.or_eq_none_iff.mp hmap.symm).1
      rw [bytesMap_eq_none_iff, hoff, hbuf] at hor
      omega
    by_contra hlt
    apply hsome
    apply reqMap_eq_none_of_le
    intro q hq
    have := hpost.list.limit_le q hq
    omega

/-- A write attempt that starts behind everything the file has. -/
theorem writeAttempt_append (hquiet : QuietLocks L) {u : Unified V} (h : ListsOk cs u) (d size : ℕ)
    (call : WriteCall) (hne : call.buf ≠ []) (hfits : call.buf.length ≤ cs)
    (hend : unifiedGetFilesize L d u ≤ call.offset) :
    Appended L cs d call u (writeAttempt L d size call u) := by
  have hlists := writeAttempt_ok L h d size call hne hfits (clearWay_at_end L h d call hend)
  obtain ⟨htape, hframe⟩ := getDentryPriv_frame L hquiet d u
  unfold writeAttempt at hlists ⊢
  dsimp only at hlists ⊢
  rcases getDentryPriv_cases L d h with ⟨hget, hok⟩ | ⟨dpr, hget, hok, hpriv, -⟩
  · -- no memory for the `dentry_priv`
    have heq : getDentryPriv L d u = (none, (getDentryPriv L d u).2) := Prod.ext hget rfl
    rw [hget] at hframe
    rw [heq] at hlists ⊢
    obtain ⟨hsp, hsv⟩ := freeSpare_frame call.spare (getDentryPriv L d u).2
    constructor
    · exact hlists
    · intro x _
      unfold dpByte
      rw [hsp, hframe.1]
    · intro n x
      rw [hsv]
      exact htape n x
    · unfold unifiedGetFilesize
      rw [hsp, hsv, hframe.1, hframe.2]
    · intro ret hret hle
      obtain rfl : -ltfsNoMemory = ret := WriteReturn.returned.inj hret
      exact absurd hle (by decide)
    · intro rest hrest
      cases hrest
  · have heq : getDentryPriv L d u = (some dpr, (getDentryPriv L d u).2) := Prod.ext hget rfl
    rw [hget] at hframe
    obtain ⟨-, hsize, hbytes⟩ := hframe
    rw [heq] at hlists ⊢
    set u' := (getDentryPriv L d u).2
    have hp := hok.ok d dpr hpriv
    -- a refused attempt only resets the write error
    have hrefused : ∀ ret : ℤ, ret < 0 → ListsOk cs (u'.setPriv d (some (getWriteError dpr).2)) →
        Appended L cs d call u (.returned ret, u'.setPriv d (some (getWriteError dpr).2)) := by
      intro ret hneg hl
      have hself := setPriv_self u' d (some (getWriteError dpr).2)
      constructor
      · exact hl
      · intro x _
        rw [dpByte_of_priv hself]
        exact hbytes x
      · exact htape
      · rw [getFilesize_of_priv L hself]
        exact hsize.ge
      · intro ret' hret hle
        obtain rfl : ret = ret' := WriteReturn.returned.inj hret
        omega
      · intro rest hrest
        cases hrest
    dsimp only at hlists ⊢
    by_cases herr : (getWriteError dpr).1 < 0
    · rw [if_pos herr] at hlists ⊢
      exact hrefused _ herr hlists
    · rw [if_neg herr] at hlists ⊢
      by_cases hro : ¬ call.checkedReadonly ∧ L.tapeReadonly u'.vol < 0
      · rw [if_pos hro] at hlists ⊢
        exact hrefused _ hro.2 hlists
      · rw [if_neg hro] at hlists ⊢
        have hc : CtxOk cs u'.priv ⟨u', (getWriteError dpr).2⟩ :=
          ⟨hok.cacheSize, rfl, hp.ok, hp.limit_le⟩
        have hplace := placeWrite_ok L hc d call
        have hpf := placeWrite_frame L (c := ⟨u', (getWriteError dpr).2⟩) hp.ok.ordered d call
        set c := placeWrite L d call ⟨u', (getWriteError dpr).2⟩
        set w : WriteState := {
          passed := []
          prev := none
          skipped := []
          buf := call.buf
          offset := call.offset
          spare := call.spare
          fileSize := c.dpr.fileSize
          pool := c.u.pool
          mem := c.u.mem
          log := [] }
        have hcsize : c.dpr.fileSize = unifiedGetFilesize L d u := hpf.fileSize.trans hsize
        have hcs : c.u.cacheSize = cs := hplace.cacheSize
        rw [hcs] at hlists ⊢
        have hl := doAppend_appended hplace hne hfits (by omega) (w := w) rfl rfl rfl
        set r := doAppend cs (appendFuel c.dpr.requests) c.dpr.requests w
        have hq := applyLog_queueOnly r.state.log d
          { u := { c.u with pool := r.state.pool, mem := r.state.mem }
            dpr := { c.dpr with requests := r.requests, fileSize := r.state.fileSize } }
        have hreq : (finishWrite d r c).dpr.requests = r.requests := hq.requests
        have hfs : (finishWrite d r c).dpr.fileSize = r.state.fileSize := hq.fileSize
        have hvol : ((finishWrite d r c).store d).vol = u'.vol := hq.vol.trans hpf.vol
        have hself : ((finishWrite d r c).store d).priv d = some (finishWrite d r c).dpr :=
          setPriv_self _ d _
        -- whatever the outcome, this is the state up to cache blocks and the volume lock
        have hstate : ∀ (v : Unified V), v.priv d = some (finishWrite d r c).dpr →
            (∀ n x, (L.fsrawRead d n x v.vol).1 = (L.fsrawRead d n x u'.vol).1) →
            (∀ x < call.offset, dpByte d v x = dpByte d u x) ∧
            (∀ n x, (L.fsrawRead d n x v.vol).1 = (L.fsrawRead d n x u.vol).1) ∧
            unifiedGetFilesize L d v = r.state.fileSize := by
          intro v hv hread
          refine ⟨?_, ?_, ?_⟩
          · intro x hx
            rw [dpByte_of_priv hv, hreq, hl.cached x hx, hpf.dpPart, ← hbytes x]
            rfl
          · intro n x
            rw [hread, htape]
          · rw [getFilesize_of_priv L hv, hfs]
        have hsize_le' : unifiedGetFilesize L d u ≤ r.state.fileSize := by
          rw [← hcsize]
          exact hl.size_le
        cases hout : r.outcome with
        | done =>
          rw [hout] at hlists
          obtain ⟨hsp, hsv⟩ := freeSpare_frame r.state.spare
            { (finishWrite d r c).store d with
              vol := (L.getVolumeLock ((finishWrite d r c).store d).vol).2 }
          obtain ⟨h1, h2, h3⟩ := hstate (freeSpare r.state.spare
            { (finishWrite d r c).store d with
              vol := (L.getVolumeLock ((finishWrite d r c).store d).vol).2 })
            (by rw [hsp]; exact hself) (by
              intro n x
              rw [hsv]
              dsimp only
              rw [hquiet.lock_read, hvol])
          constructor
          · exact hlists
          · exact h1
          · exact h2
          · exact le_trans hsize_le' h3.ge
          · intro ret _ _
            exact le_trans (hl.stored hout) h3.ge
          · intro rest hrest
            cases hrest
        | noMemory =>
          rw [hout] at hlists
          obtain ⟨hsp, hsv⟩ := freeSpare_frame r.state.spare ((finishWrite d r c).store d)
          obtain ⟨h1, h2, h3⟩ := hstate (freeSpare r.state.spare ((finishWrite d r c).store d))
            (by rw [hsp]; exact hself) (by
              intro n x
              rw [hsv, hvol])
          constructor
          · exact hlists
          · exact h1
          · exact h2
          · exact le_trans hsize_le' h3.ge
          · intro ret hret hle
            obtain rfl : -ltfsNoMemory = ret := WriteReturn.returned.inj hret
            exact absurd hle (by decide)
          · intro rest hrest
            cases hrest
        | restart =>
          rw [hout] at hlists
          obtain ⟨h1, h2, h3⟩ := hstate ((finishWrite d r c).store d) hself (by
            intro n x
            rw [hvol])
          constructor
          · exact hlists
          · exact h1
          · exact h2
          · exact le_trans hsize_le' h3.ge
          · intro ret hret
            cases hret
          · intro rest hrest
            obtain rfl := WriteReturn.restart.inj hrest
            exact ⟨hl.pending hout, hl.place, hl.stop_eq⟩
        | diverges =>
          rw [hout] at hlists
          obtain ⟨h1, h2, h3⟩ := hstate ((finishWrite d r c).store d) hself (by
            intro n x
            rw [hvol])
          constructor
          · exact hlists
          · exact h1
          · exact h2
          · exact le_trans hsize_le' h3.ge
          · intro ret hret
            cases hret
          · intro rest hrest
            cases hrest

theorem getFilesize_lock (hquiet : QuietLocks L) (d : ℕ) (u : Unified V) :
    unifiedGetFilesize L d { u with vol := (L.getVolumeLock u.vol).2 } = unifiedGetFilesize L d u := by
  unfold unifiedGetFilesize
  dsimp only
  rw [hquiet.lock_size]

/-- A call that starts at the end of the file. -/
theorem unifiedWrite_append (hquiet : QuietLocks L) {u : Unified V} (h : ListsOk cs u) (d : ℕ)
    (buf : List UInt8) (hfits : buf.length ≤ cs) :
    Appended L cs d ⟨buf, unifiedGetFilesize L d u, none, false⟩ u
      (unifiedWrite L d buf (unifiedGetFilesize L d u) u) := by
  unfold unifiedWrite
  dsimp only
  split
  · -- nothing to write
    rename_i hnil
    constructor
    · exact h
    · exact fun _ _ => rfl
    · exact fun _ _ => rfl
    · exact le_refl _
    · intro ret _ _
      exact le_of_eq (by rw [hnil]; rfl)
    · intro rest hrest
      cases hrest
  · rename_i hne
    have hsize := getFilesize_lock L hquiet d u
    have hlock : ListsOk cs { u with vol := (L.getVolumeLock u.vol).2 } := ⟨h.cacheSize, h.ok⟩
    split
    · -- the volume lock is not to be had
      rename_i hneg
      constructor
      · exact hlock
      · exact fun _ _ => rfl
      · exact fun n x => hquiet.lock_read d n x u.vol
      · exact hsize.ge
      · intro ret hret hle
        obtain rfl := WriteReturn.returned.inj hret
        omega
      · intro rest hrest
        cases hrest
    · have hbuf : buf ≠ [] := by
        rintro rfl
        exact hne rfl
      have happ := writeAttempt_append L hquiet hlock d buf.length
        ⟨buf, unifiedGetFilesize L d u, none, false⟩ hbuf hfits hsize.le
      constructor
      · exact happ.lists
      · exact happ.cached
      · intro n x
        rw [happ.tape]
        exact hquiet.lock_read d n x u.vol
      · exact hsize.ge.trans happ.size_le
      · exact happ.returned
      · exact happ.restart

/-! ## Runs -/

/-- Accepted bytes lie inside the file, and before the call that is waiting. -/
structure AppendInv (cs d : ℕ) (s : AppendFile V) : Prop where
  lists : ListsOk cs s.u
  accepted_lt : ∀ x, s.accepted x ≠ none → x < unifiedGetFilesize L d s.u
  pending : ∀ call rest, s.pending = some (call, rest) →
    rest.buf ≠ [] ∧ rest.buf.length ≤ cs ∧ rest.offset + rest.buf.length = call.1 + call.2.length ∧
    call.1 ≤ rest.offset ∧ ∀ x, s.accepted x ≠ none → x < call.1

theorem calledByte_eq_none {call : ℕ × List UInt8} {x : ℕ}
    (h : x < call.1 ∨ call.1 + call.2.length ≤ x) : calledByte call x = none := by
  unfold calledByte
  split
  · rw [List.getElem?_eq_none]
    omega
  · rfl

theorem fsopsReturn_returned {r : WriteReturn} {ret : ℤ} (h : fsopsReturn r = .returned ret) :
    ∃ ret', r = .returned ret' ∧ (ret < 0 ↔ ret' < 0) := by
  cases r with
  | returned ret' =>
    have heq : (if ret' < 0 then ret' else 0) = ret := WriteReturn.returned.inj h
    refine ⟨ret', rfl, ?_⟩
    split at heq <;> omega
  | restart rest => cases h
  | diverges => cases h

theorem fsopsReturn_restart {r : WriteReturn} {rest : WriteCall} (h : fsopsReturn r = .restart rest) :
    r = .restart rest := by
  cases r with
  | returned ret => cases h
  | restart rest' => exact h
  | diverges => cases h

/-- A call that appended goes on. -/
theorem AppendFile.finish_spec {d : ℕ} {s : AppendFile V} (h : AppendInv L cs d s)
    {call : ℕ × List UInt8} {rest : WriteCall} {r : WriteReturn × Unified V}
    (happ : Appended L cs d rest s.u r) (hfits : rest.buf.length ≤ cs)
    (hstart : call.1 ≤ rest.offset)
    (hstop : rest.offset + rest.buf.length = call.1 + call.2.length)
    (hbelow : ∀ x, s.accepted x ≠ none → x < call.1) :
    AppendInv L cs d (s.finish call (fsopsReturn r.1, r.2)) ∧
    (s.finish call (fsopsReturn r.1, r.2)).u = r.2 ∧
    ∀ x b, s.accepted x = some b → (s.finish call (fsopsReturn r.1, r.2)).accepted x = some b := by
  have hsize := happ.size_le
  have hlt : ∀ x, s.accepted x ≠ none → x < unifiedGetFilesize L d r.2 := by
    intro x hx
    have := h.accepted_lt x hx
    omega
  unfold AppendFile.finish
  dsimp only
  cases hret : fsopsReturn r.1 with
  | returned ret =>
    obtain ⟨ret', hr, hsign⟩ := fsopsReturn_returned hret
    dsimp only
    by_cases hneg : ret < 0
    · rw [if_pos hneg]
      refine ⟨⟨happ.lists, hlt, ?_⟩, rfl, fun x b hx => hx⟩
      intro call' rest' hp
      cases hp
    · rw [if_neg hneg]
      -- the bytes of the call lie behind all accepted ones
      refine ⟨⟨happ.lists, ?_, ?_⟩, rfl, ?_⟩
      · intro x hx
        have hfile := happ.returned ret' hr (by omega)
        by_contra hge
        apply hx
        have hnone : s.accepted x = none := by
          by_contra hsome
          exact hge (hlt x hsome)
        dsimp only at hge ⊢
        rw [calledByte_eq_none (Or.inr (by omega)), hnone]
        rfl
      · intro call' rest' hp
        cases hp
      · intro x b hx
        have hbel := hbelow x (by rw [hx]; exact Option.some_ne_none b)
        dsimp only
        rw [calledByte_eq_none (Or.inl hbel), hx]
        rfl
  | restart rest' =>
    obtain ⟨hne, hoff, hsum⟩ := happ.restart rest' (fsopsReturn_restart hret)
    refine ⟨⟨happ.lists, hlt, ?_⟩, rfl, fun x b hx => hx⟩
    intro call' rest'' hp
    obtain ⟨rfl, rfl⟩ := Prod.mk.inj (Option.some.inj hp)
    exact ⟨hne, by omega, by omega, by omega, hbelow⟩
  | diverges =>
    refine ⟨⟨happ.lists, hlt, ?_⟩, rfl, fun x b hx => hx⟩
    intro call' rest' hp
    cases hp

theorem AppendEvent.exec_write (f : Retention) (d : ℕ) (buf : List UInt8) (offset : ℕ)
    (s : AppendFile V) : (AppendEvent.write buf offset).exec L f d s =
      match s.pending with
      | some _ => s
      | none => s.finish (offset, buf) (ltfsFsopsWrite L f d buf offset s.u) := rfl

theorem AppendEvent.exec_resume (f : Retention) (d : ℕ) (spare : Option ℕ) (s : AppendFile V) :
    (AppendEvent.resume spare).exec L f d s =
      match s.pending with
      | none => s
      | some (call, rest) => s.finish call
        (fsopsReturn (writeAttempt L d call.2.length { rest with spare := spare } s.u).1,
          (writeAttempt L d call.2.length { rest with spare := spare } s.u).2) := rfl

/-- A write call in turn, when the scheduler reports the size on tape. -/
theorem write_append (hquiet : QuietLocks L) {f : Retention} (hf : f.isAppendonly = true) {d : ℕ}
    {s : AppendFile V} (h : AppendInv L cs d s) {buf : List UInt8} {offset : ℕ}
    (hmeets : (AppendEvent.write buf offset : AppendEvent V).Meets L d s) :
    AppendInv L cs d ((AppendEvent.write buf offset : AppendEvent V).exec L f d s) ∧
    AppendOnly L f d (.write buf offset) s := by
  obtain ⟨hfits, hsize⟩ := hmeets
  rw [h.lists.cacheSize] at hfits
  have haccepts : f.isImmutable = false → s.pending = none → ∀ buf' offset',
      AppendEvent.write buf offset = (AppendEvent.write buf' offset' : AppendEvent V) →
      offset' = unifiedGetFilesize L d s.u →
      ltfsFsopsWrite L f d buf' offset' s.u
        = (fsopsReturn (unifiedWrite L d buf' offset' s.u).1,
          (unifiedWrite L d buf' offset' s.u).2) := by
    intro himm hidle buf' offset' _ hoff
    have hnot : writeRefused f offset' (L.dentrySize d s.u.vol) = false := by
      unfold writeRefused
      rw [himm, hoff, hsize hidle]
      simp
    unfold ltfsFsopsWrite
    rw [hnot]
    rfl
  cases hp : s.pending with
  | some p =>
    -- another call is under way
    have hsame : (AppendEvent.write buf offset : AppendEvent V).exec L f d s = s := by
      rw [AppendEvent.exec_write, hp]
    refine ⟨hsame.symm ▸ h, ?_, ?_, ?_, haccepts⟩
    · intro _ x b hx
      rw [hsame]
      exact hx
    · intro _ x _
      rw [hsame]
    · intro _ n x
      rw [hsame]
  | none =>
    have hexec : (AppendEvent.write buf offset : AppendEvent V).exec L f d s
        = s.finish (offset, buf) (ltfsFsopsWrite L f d buf offset s.u) := by
      rw [AppendEvent.exec_write, hp]
    by_cases href : writeRefused f offset (L.dentrySize d s.u.vol) = true
    · -- refused: nothing happens
      have hret : ltfsFsopsWrite L f d buf offset s.u = (.returned (-ltfsWormEnabled), s.u) := by
        unfold ltfsFsopsWrite
        rw [if_pos href]
      have hsame : (AppendEvent.write buf offset : AppendEvent V).exec L f d s
          = ⟨s.u, none, s.accepted⟩ := by
        rw [hexec, hret]
        rfl
      refine ⟨?_, ?_, ?_, ?_, haccepts⟩
      · rw [hsame]
        refine ⟨h.lists, h.accepted_lt, ?_⟩
        intro call rest hc
        cases hc
      · intro _ x b hx
        rw [hsame]
        exact hx
      · intro _ x _
        rw [hsame]
      · intro _ n x
        rw [hsame]
    · have hoff : offset = unifiedGetFilesize L d s.u := by
        have hsz := hsize hp
        simp only [writeRefused, hf, Bool.true_and, Bool.or_eq_true, decide_eq_true_eq,
          not_or, ne_eq, not_not] at href
        omega
      have hret : ltfsFsopsWrite L f d buf offset s.u
          = (fsopsReturn (unifiedWrite L d buf offset s.u).1,
            (unifiedWrite L d buf offset s.u).2) := by
        unfold ltfsFsopsWrite
        rw [if_neg href]
      have happ := unifiedWrite_append L hquiet h.lists d buf hfits
      rw [← hoff] at happ
      have hbelow : ∀ x, s.accepted x ≠ none → x < (offset, buf).1 := by
        intro x hx
        have := h.accepted_lt x hx
        dsimp only
        omega
      obtain ⟨hinv, hu, hacc⟩ := AppendFile.finish_spec L h happ hfits (le_refl _) rfl hbelow
      rw [← hret, ← hexec] at hinv hu hacc
      refine ⟨hinv, fun _ => hacc, ?_, ?_, haccepts⟩
      · intro _ x hx
        rw [hu]
        apply happ.cached x
        dsimp only
        omega
      · intro _ n x
        rw [hu]
        exact happ.tape n x

/-- A waiting call goes on at the end of the file. -/
theorem resume_append (hquiet : QuietLocks L) (f : Retention) {d : ℕ} {s : AppendFile V}
    (h : AppendInv L cs d s) {spare : Option ℕ}
    (hmeets : (AppendEvent.resume spare : AppendEvent V).Meets L d s) :
    AppendInv L cs d ((AppendEvent.resume spare : AppendEvent V).exec L f d s) ∧
    AppendOnly L f d (.resume spare) s := by
  have haccepts : ∀ buf offset, AppendEvent.resume spare
      = (AppendEvent.write buf offset : AppendEvent V) → False := by
    intro buf offset he
    cases he
  cases hp : s.pending with
  | none =>
    have hsame : (AppendEvent.resume spare : AppendEvent V).exec L f d s = s := by
      rw [AppendEvent.exec_resume, hp]
    refine ⟨hsame.symm ▸ h, ?_, ?_, ?_, fun _ _ buf offset he => (haccepts buf offset he).elim⟩
    · intro _ x b hx
      rw [hsame]
      exact hx
    · intro _ x _
      rw [hsame]
    · intro _ n x
      rw [hsame]
  | some p =>
    obtain ⟨call, rest⟩ := p
    obtain ⟨hne, hfits, hstop, hstart, hbelow⟩ := h.pending call rest hp
    have hend := hmeets call rest hp
    have happ := writeAttempt_append L hquiet h.lists d call.2.length { rest with spare := spare }
      hne hfits hend
    obtain ⟨hinv, hu, hacc⟩ := AppendFile.finish_spec L h happ hfits hstart hstop hbelow
    have hexec : (AppendEvent.resume spare : AppendEvent V).exec L f d s = s.finish call
        (fsopsReturn (writeAttempt L d call.2.length { rest with spare := spare } s.u).1,
          (writeAttempt L d call.2.length { rest with spare := spare } s.u).2) := by
      rw [AppendEvent.exec_resume, hp]
    rw [← hexec] at hinv hu hacc
    refine ⟨hinv, fun _ => hacc, ?_, ?_, fun _ _ buf offset he => (haccepts buf offset he).elim⟩
    · intro _ x hx
      rw [hu]
      exact happ.cached x (lt_of_lt_of_le hx hend)
    · intro _ n x
      rw [hu]
      exact happ.tape n x

/-- Anything else only has to keep the request lists in order. -/
theorem other_append (f : Retention) {d : ℕ} {s : AppendFile V} (h : AppendInv L cs d s)
    {op : Op V} (hmeets : (AppendEvent.other op).Meets L d s) :
    AppendInv L cs d ((AppendEvent.other op).exec L f d s) ∧ AppendOnly L f d (.other op) s := by
  obtain ⟨hfits, hclear⟩ := hmeets
  rw [h.lists.cacheSize] at hfits
  have hsub : ∀ x, ((AppendEvent.other op).exec L f d s).accepted x ≠ none →
      x < unifiedGetFilesize L d ((AppendEvent.other op).exec L f d s).u ∧ s.accepted x ≠ none := by
    intro x hx
    unfold AppendEvent.exec at hx
    dsimp only at hx
    split at hx
    · rename_i hlt
      exact ⟨hlt, hx⟩
    · exact absurd rfl hx
  constructor
  · constructor
    · exact Op.exec_ok L h.lists op hfits hclear
    · exact fun x hx => (hsub x hx).1
    · intro call rest hp
      obtain ⟨hne, hlen, hstop, hstart, hbelow⟩ := h.pending call rest hp
      exact ⟨hne, hlen, hstop, hstart, fun x hx => hbelow x (hsub x hx).2⟩
  · constructor
    · intro hw
      cases hw
    · intro hw
      cases hw
    · intro hw
      cases hw
    · intro _ _ buf offset he
      cases he

/-- One event. -/
theorem AppendEvent.exec_append (hquiet : QuietLocks L) {f : Retention}
    (hf : f.isAppendonly = true) {d : ℕ} {s : AppendFile V} (h : AppendInv L cs d s)
    (ev : AppendEvent V) (hmeets : ev.Meets L d s) :
    AppendInv L cs d (ev.exec L f d s) ∧ AppendOnly L f d ev s := by
  cases ev with
  | write buf offset => exact write_append L hquiet hf h hmeets
  | resume spare => exact resume_append L hquiet f h hmeets
  | other op => exact other_append L f h hmeets

/-- In every run of write calls on an append-only file, from a scheduler without cached
requests and with anything else in between, whose events all meet the condition: no
accepted byte changes, and no call at the reported end of the file is refused. -/
theorem append_only_of_run (hquiet : QuietLocks L) {f : Retention} (hf : f.isAppendonly = true)
    (d : ℕ) (u : Unified V) (hstart : ∀ e dpr, u.priv e = some dpr → dpr.requests = [])
    (evs : List (AppendEvent V))
    (hmeets : AppendRun L (fun ev s => ev.Meets L d s) f d evs ⟨u, none, fun _ => none⟩) :
    AppendRun L (fun ev s => AppendOnly L f d ev s) f d evs ⟨u, none, fun _ => none⟩ := by
  have hinit : AppendInv L u.cacheSize d ⟨u, none, fun _ => none⟩ := by
    constructor
    · refine ⟨rfl, ?_⟩
      intro e p hp
      have hnil := hstart e p hp
      constructor
      · rw [hnil]
        exact ReqsOk.nil _
      · simp [hnil]
    · intro x hx
      exact absurd rfl hx
    · intro call rest hp
      cases hp
  generalize (⟨u, none, fun _ => none⟩ : AppendFile V) = s at hmeets hinit ⊢
  -- induction on the events that are still to come
  induction evs generalizing s with
  | nil => trivial
  | cons ev evs ih =>
    obtain ⟨hinv, honly⟩ := AppendEvent.exec_append L hquiet hf hinit ev hmeets.1
    exact ⟨honly, ih _ hmeets.2 hinv⟩

end Attempt

/-! ## Cached bytes -/

/-- A libltfs whose volume is the size of the only file. -/
def sizeLibltfs : Libltfs ℕ where
  blocksize := fun _ => 1
  dentrySize := fun _ size => size
  matchesNameCriteria := fun _ _ => false
  deleted := fun _ _ => false
  numhandles := fun _ _ => 1
  maxFilesize := fun _ => 0
  tapeReadonly := fun _ => 0
  partitionReadonly := fun _ _ => 0
  getVolumeLock := fun v => (0, v)
  fsrawRead := fun _ _ _ v => (.ok [], v)
  fsrawWrite := fun _ data offset v => (0, max v (offset + data.length))
  fsrawWriteData := fun _ v => (.ok 0, v)
  fsrawAddExtent := fun _ _ v => (0, v)
  fsrawTruncate := fun _ length _ => (0, length)
  fsrawGetDentry := fun _ v => v
  fsrawPutDentry := fun _ v => v
  fsrawClose := fun _ v => v
  setCartVolumeLockStatus := fun v => (0, v)
  writeIndexAfterPerm := fun _ v => v

/-- Write, flush, write: both writes find the size on tape. -/
theorem append_only_of_run_flushed :
    AppendRun sizeLibltfs (fun ev s => AppendOnly sizeLibltfs ⟨false, true⟩ 0 ev s) ⟨false, true⟩ 0
      [.write [1, 2] 0, .other (.flush 0), .write [3] 2]
      ⟨Unified.init 16 64 0, none, fun _ => none⟩ := by
  apply append_only_of_run sizeLibltfs ⟨fun _ _ _ _ => rfl, fun _ _ => rfl, fun _ _ _ _ _ => rfl,
    fun _ _ _ => rfl⟩ rfl 0 (Unified.init 16 64 0)
  · intro e dpr h
    cases h
  · refine ⟨⟨?_, fun _ => rfl⟩, ⟨trivial, trivial⟩, ⟨?_, fun _ => ?_⟩, trivial⟩
    · show 2 ≤ 16
      decide
    · show 1 ≤ 16
      decide
    · decide

/-- The second write at 0 passes, since nothing is on tape yet, and replaces the cached
byte; a write at 1, the end of the file as the scheduler reports it, is refused. -/
theorem append_over_cached_bytes :
    let f : Retention := ⟨false, true⟩
    let s₁ := (AppendEvent.write [7] 0).exec sizeLibltfs f 0 ⟨Unified.init 16 64 0, none, fun _ => none⟩
    let s₂ := (AppendEvent.write [8] 0).exec sizeLibltfs f 0 s₁
    s₁.accepted 0 = some 7 ∧ s₂.accepted 0 = some 8 ∧
    dpByte 0 s₁.u 0 = some 7 ∧ dpByte 0 s₂.u 0 = some 8 ∧
    unifiedGetFilesize sizeLibltfs 0 s₁.u = 1 ∧
    (ltfsFsopsWrite sizeLibltfs f 0 [9] 1 s₁.u).1 = .returned (-ltfsWormEnabled) := by
  decide

end Ltfs.Sched
