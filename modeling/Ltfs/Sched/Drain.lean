import Ltfs.Sched.State

/-!
# Emptying the request list

The operations that take requests out of a list again: flushing one dentry or
all of them, the two halves of the background writer, truncation, data placement,
closing and the shutdown of the scheduler. Reading is here as well, since it
looks at the same list.

Loops over a request list are recursive functions of the part still to visit;
`kept` are the requests before it that stay in the list.
-/

namespace Ltfs.Sched

open RequestState

section Drain

variable {V : Type} (L : Libltfs V)

/-! ## Flushing a dentry -/

/-- `_unified_merge_requests(TAILQ_PREV(req), req, NULL, ..)`. The request goes to
the index partition, so a predecessor it fills up is no `requestPartial` one and
nothing is promoted (`mergeRequests_promoted_ip`). -/
def mergePrev (d : ℕ) (kept : List WriteRequest) (req : WriteRequest) (c : Ctx V) :
    List WriteRequest × Ctx V :=
  match kept.getLast? with
  | none => ([req], c)
  | some dest =>
    let m := mergeRequests c.u.cacheSize dest req
    let size := if m.updated then max c.dpr.fileSize m.dest.limit else c.dpr.fileSize
    let c := applyLog m.srcLog d { c with dpr := { c.dpr with fileSize := size } }
    if m.ret = 2 then
      (kept.dropLast ++ [m.dest], { c with u := freeRequest req c.u })
    else
      (kept.dropLast ++ [m.dest, m.src], c)

/-- A request of a file with `write_ip` has been written to the data partition: it
waits for the index partition now. -/
def toIp (d : ℕ) (kept : List WriteRequest) (req : WriteRequest) (c : Ctx V) :
    List WriteRequest × Ctx V :=
  mergePrev d kept { req with state := requestIp } (updateQueueMembership true false requestIp d c)

/-- A write of `req` failed with `ret`; the list is `requests`. -/
def failedWrite (d : ℕ) (ret : ℤ) (req : WriteRequest) (requests : List WriteRequest) (vol : V)
    (c : Ctx V) : Ctx V :=
  handleWriteError L ret req d
    { u := { c.u with vol := L.writeIndexAfterPerm ret vol }
      dpr := { c.dpr with requests := requests } }

/-- The loop of `_unified_flush_unlocked`. -/
def flushLoop (d : ℕ) : List WriteRequest → List WriteRequest → Ctx V → Ctx V
  | kept, [], c => { c with dpr := { c.dpr with requests := kept } }
  | kept, req :: rest, c =>
    if req.state = requestIp then
      let m := mergePrev d kept req c
      flushLoop d m.1 rest m.2
    else
      let w := L.fsrawWrite d req.data req.offset c.u.vol
      if w.1 < 0 then
        failedWrite L d w.1 req (kept ++ req :: rest) w.2 c
      else
        let c := { c with u := { c.u with vol := w.2 } }
        if c.dpr.writeIp then
          let m := toIp d kept req c
          flushLoop d m.1 rest m.2
        else
          flushLoop d kept rest { c with u := freeRequest req c.u }

/-- `_unified_flush_unlocked`. -/
def flushUnlocked (d : ℕ) (u : Unified V) : ℤ × Unified V :=
  match u.priv d with
  | none => (0, u)
  | some dpr =>
    let e := getWriteError dpr
    if e.1 < 0 then
      (e.1, u.setPriv d (some e.2))
    else if e.2.requests.isEmpty then
      (0, u.setPriv d (some e.2))
    else
      let c := updateQueueMembership false true requestPartial d
        (updateQueueMembership false true requestDp d ⟨u, e.2⟩)
      let c := flushLoop L d [] c.dpr.requests c
      let e := getWriteError c.dpr
      (if e.1 < 0 then e.1 else 0, c.u.setPriv d (some e.2))

/-- One of the two loops of `_unified_flush_all`: stops at the first error. -/
def flushEach : List ℕ → Unified V → ℤ × Unified V
  | [], u => (0, u)
  | d :: rest, u =>
    let r := flushUnlocked L d u
    if r.1 < 0 then r else flushEach rest r.2

/-- `_unified_flush_all`. -/
def flushAll (u : Unified V) : ℤ × Unified V :=
  let r := flushEach L u.dpQueue u
  if r.1 < 0 then r else flushEach L r.2.workingSet r.2

/-! ## The background writer -/

/-- The loop of `_unified_process_data_queue` over one request list. Requests of
a file without `write_ip` move to the private list `moved`. -/
def dataLoop (queue : RequestState) (d : ℕ) :
    List WriteRequest → List WriteRequest → List WriteRequest → Ctx V →
      List WriteRequest × Ctx V
  | kept, moved, [], c => (moved, { c with dpr := { c.dpr with requests := kept } })
  | kept, moved, req :: rest, c =>
    if req.state = requestIp then
      let m := mergePrev d kept req c
      dataLoop queue d m.1 moved rest m.2
    else if req.state = requestDp ∨ queue = requestPartial then
      if c.dpr.writeIp then
        let w := L.fsrawWrite d req.data req.offset c.u.vol
        if w.1 < 0 then
          (moved, failedWrite L d w.1 req (kept ++ req :: rest) w.2 c)
        else
          let m := toIp d kept req { c with u := { c.u with vol := w.2 } }
          dataLoop queue d m.1 moved rest m.2
      else
        dataLoop queue d kept (moved ++ [req]) rest c
    else
      dataLoop queue d (kept ++ [req]) moved rest c

/-- "Send requests to tape": the private list in order. A failure gives the code,
the failed request and the requests behind it. -/
def sendLoop (d : ℕ) : List WriteRequest → Unified V →
    Option (ℤ × WriteRequest × List WriteRequest) × Unified V
  | [], u => (none, u)
  | req :: rest, u =>
    let w := L.fsrawWrite d req.data req.offset u.vol
    if w.1 < 0 then
      (some (w.1, req, rest), { u with vol := L.writeIndexAfterPerm w.1 w.2 })
    else
      sendLoop d rest (freeRequest req { u with vol := w.2 })

/-- One round of `_unified_process_data_queue`. -/
def processDataEntry (queue : RequestState) (d : ℕ) (u : Unified V) : Unified V :=
  match u.priv d with
  | none => u
  | some dpr =>
    let c := updateQueueMembership false true queue d ⟨u, dpr⟩
    let c := if queue = requestPartial then updateQueueMembership false true requestDp d c else c
    let l := dataLoop L queue d [] [] c.dpr.requests c
    match sendLoop L d l.1 l.2.u with
    | (none, u) => u.setPriv d (some l.2.dpr)
    | (some (ret, req, rest), u) =>
      let c := handleWriteError L ret req d ⟨u, l.2.dpr⟩
      (freeRequests (req :: rest) c.u).setPriv d (some c.dpr)

/-- The loop of `_unified_process_data_queue`: the head of the data partition
queue, or else of the working set. -/
def processDataLoop (queue : RequestState) : ℕ → Unified V → Unified V
  | 0, u => u
  | n + 1, u =>
    match u.dpQueue.head?.or (if queue = requestPartial then u.workingSet.head? else none) with
    | none => u
    | some d => processDataLoop queue n (processDataEntry L queue d u)

/-- `_unified_process_data_queue`. The counters are 32 bits wide. -/
def processDataQueue (queue : RequestState) (u : Unified V) : Unified V :=
  let count := if queue = requestDp then u.dpCount else u.dpCount + u.wsCount
  processDataLoop L queue (count % 2 ^ 32).toNat u

/-- The loop of `_unified_update_alt_extentlist`, on the part of the list still to
visit; `used` is `newext_used`. A `newext` whose bytes were appended to an entry
is freed, so it is not in the result. -/
def altLoop (bs : ℕ) (new : ExtentInfo) : Bool → List ExtentInfo → List ExtentInfo
  | used, [] => if used then [] else [new]
  | used, entry :: rest =>
    let inserts := ! used && decide (new.fileoffset ≤ entry.fileoffset)
    let front := if inserts then [new] else []
    let used := used || inserts
    if entry.fileoffsetEnd < new.fileoffset then
      front ++ entry :: altLoop bs new used rest
    else if entry.fileoffsetEnd = new.fileoffset then
      -- the partitions are not compared: all extents here are in the index partition
      if new.byteoffset = 0 ∧ entry.byteoffsetEnd % bs = 0 ∧
          entry.start.block + entry.byteoffsetEnd / bs = new.start.block then
        front ++ entry.extend new :: altLoop bs new true rest
      else
        front ++ entry :: altLoop bs new used rest
    else if entry.fileoffset < new.fileoffset then
      if entry.fileoffsetEnd ≤ new.fileoffsetEnd then
        front ++ { entry with bytecount := new.fileoffset - entry.fileoffset } ::
          altLoop bs new used rest
      else
        -- not split, to avoid allocating memory: `new` comes later in the list
        front ++ entry :: altLoop bs new used rest
    else if entry.fileoffsetEnd ≤ new.fileoffsetEnd then
      front ++ altLoop bs new used rest
    else if entry.fileoffset < new.fileoffsetEnd then
      front ++ entry.truncateFront bs (new.fileoffsetEnd - entry.fileoffset) ::
        altLoop bs new used rest
    else
      front ++ entry :: rest

/-- `_unified_update_alt_extentlist`. -/
def updateAltExtentlist (new : ExtentInfo) (d : ℕ) (c : Ctx V) : Ctx V :=
  if c.dpr.altExtentlist.isEmpty then
    { u := { c.u with extQueue := c.u.extQueue ++ [d] }
      dpr := { c.dpr with altExtentlist := [new] } }
  else
    { c with dpr := { c.dpr with
        altExtentlist := altLoop (L.blocksize c.u.vol) new false c.dpr.altExtentlist } }

/-- The loop of `_unified_process_index_queue` over one request list. After a
permanent write error `ret` is overwritten by the result of the lock status
update. -/
def indexLoop (d : ℕ) : List WriteRequest → List WriteRequest → Ctx V → Ctx V
  | kept, [], c => { c with dpr := { c.dpr with requests := kept } }
  | kept, req :: rest, c =>
    if req.state = requestIp then
      let failed := fun (ret : ℤ) (u : Unified V) => handleWriteError L ret req d
        { u := u, dpr := { c.dpr with requests := kept ++ req :: rest } }
      let a := c.u.allocates
      if ! a.1 then
        failed (-enomem) a.2
      else
        match L.fsrawWriteData req.data a.2.vol with
        | (.error ret, vol) =>
          if isWritePerm (-ret) then
            let s := L.setCartVolumeLockStatus vol
            failed s.1 { a.2 with vol := s.2 }
          else
            failed ret { a.2 with vol := vol }
        | (.ok block, vol) =>
          let new : ExtentInfo := ⟨⟨some .ip, block⟩, 0, req.count, req.offset⟩
          let c := updateAltExtentlist L new d { u := { a.2 with vol := vol }, dpr := c.dpr }
          indexLoop d kept rest { c with u := freeRequest req c.u }
    else
      indexLoop d (kept ++ [req]) rest c

/-- One round of `_unified_process_index_queue`. -/
def processIndexEntry (d : ℕ) (u : Unified V) : Unified V :=
  match u.priv d with
  | none => u
  | some dpr =>
    let c := updateQueueMembership false true requestIp d ⟨u, dpr⟩
    freeDentryPrivConditional L d 2 ((indexLoop L d [] c.dpr.requests c).store d)

/-- `_unified_process_index_queue`. -/
def processIndexQueue (u : Unified V) : Unified V :=
  u.ipQueue.foldl (fun u d => processIndexEntry L d u) u

/-- `_unified_process_queue`. -/
def processQueue (queue : RequestState) (u : Unified V) : Unified V :=
  if queue = requestIp then processIndexQueue L u else processDataQueue L queue u

/-! ## Truncation and placement -/

/-- The loop of `unified_truncate` over the requests, last one first: it stops at
the first request that lies before `length` completely. -/
def truncateLoop (length d : ℕ) : List WriteRequest → Ctx V → List WriteRequest × Ctx V
  | [], c => ([], c)
  | req :: before, c =>
    if req.offset ≥ length then
      let c := updateQueueMembership false false req.state d c
      truncateLoop length d before { c with u := freeRequest req c.u }
    else if req.limit > length then
      let r := truncateLoop length d before c
      ({ req with data := req.data.take (length - req.offset) } :: r.1, r.2)
    else
      (req :: before, c)

/-- What `unified_truncate` does to an extent of the alternate list. -/
def truncateExtent (length : ℕ) (ext : ExtentInfo) : Option ExtentInfo :=
  if ext.fileoffset ≥ length then
    none
  else if ext.fileoffsetEnd > length then
    some { ext with bytecount := length - ext.fileoffset }
  else
    some ext

/-- What `unified_truncate` does to the cached part of the file. -/
def truncateCached (length d : ℕ) (c : Ctx V) : Ctx V :=
  if length < c.dpr.fileSize then
    let r := truncateLoop length d c.dpr.requests.reverse c
    { r.2 with dpr := { r.2.dpr with
        requests := r.1.reverse
        altExtentlist := c.dpr.altExtentlist.filterMap (truncateExtent length)
        fileSize := length } }
  else
    { c with dpr := { c.dpr with fileSize := length } }

/-- "Recompute `write_ip`": `small` says whether the size lets the file onto the
index partition. -/
def recomputeWriteIp (small : Bool) (d : ℕ) (c : Ctx V) : Ctx V :=
  let max := L.maxFilesize c.u.vol
  let matching := L.matchesNameCriteria d c.u.vol
  let deleted := L.deleted d c.u.vol
  if ! c.dpr.writeIp && decide (max > 0) && small && matching && ! deleted then
    setWriteIp c
  else if c.dpr.writeIp && (decide (c.dpr.fileSize > max) || ! matching || deleted) then
    unsetWriteIp d c
  else
    c

/-- `unified_truncate`. -/
def unifiedTruncate (d length : ℕ) (u : Unified V) : ℤ × Unified V :=
  let readonly := L.tapeReadonly u.vol
  if readonly < 0 then
    (readonly, u)
  else
    match u.priv d with
    | none =>
      let t := L.fsrawTruncate d length u.vol
      (t.1, { u with vol := t.2 })
    | some dpr =>
      -- only a complete rewrite puts the file back onto the index partition
      let c := recomputeWriteIp L (decide (length = 0)) d (truncateCached length d ⟨u, dpr⟩)
      let t := L.fsrawTruncate d length c.u.vol
      (t.1, { c.store d with vol := t.2 })

/-- `unified_update_data_placement`. -/
def updateDataPlacement (d : ℕ) (u : Unified V) : Unified V :=
  match u.priv d with
  | none => u
  | some dpr =>
    (recomputeWriteIp L (decide (dpr.fileSize ≤ L.maxFilesize u.vol)) d ⟨u, dpr⟩).store d

/-! ## Reading -/

/-- A tape read that `unified_read` queues, or bytes it takes from the cache. -/
inductive ReadPiece where
  | tape (offset count : ℕ)
  | cached (bytes : List UInt8)
deriving DecidableEq, Repr

/-- The loop of `unified_read` over the request list: the pieces of the answer so
far, and offset and size of what is left; `none` if an allocation failed. -/
def readLoop : List WriteRequest → ℕ → ℕ → List Bool → Option (List ReadPiece × ℕ × ℕ) × List Bool
  | [], offset, size, mem => (some ([], offset, size), mem)
  | req :: rest, offset, size, mem =>
    let hole := min (req.offset - offset) size
    if hole ≠ 0 ∧ ! mem.headD true then
      (none, mem.tail)
    else
      let mem := if hole ≠ 0 then mem.tail else mem
      let front := if hole ≠ 0 then [.tape offset hole] else []
      let offset := offset + hole
      let size := size - hole
      if size = 0 then
        (some (front, offset, 0), mem)
      else
        let toRead := min (req.limit - offset) size
        let front := if toRead ≠ 0 then
          front ++ [.cached ((req.data.drop (offset - req.offset)).take toRead)] else front
        if toRead ≠ 0 ∧ size - toRead = 0 then
          (some (front, offset + toRead, 0), mem)
        else
          let r := readLoop rest (offset + toRead) (size - toRead) mem
          (r.1.map fun (pieces, rest) => (front ++ pieces, rest), r.2)

/-- "Issue any queued reads down to libltfs" and put the answer together. A read
that comes back short has reached the end of what libltfs has: the rest of the
hole is zeros, and so are the later ones. -/
def issueReads (d : ℕ) : Bool → List ReadPiece → V → Except ℤ (List UInt8) × V
  | _, [], vol => (.ok [], vol)
  | pastEof, .cached bytes :: rest, vol =>
    let r := issueReads d pastEof rest vol
    (r.1.map (bytes ++ ·), r.2)
  | pastEof, .tape offset count :: rest, vol =>
    if pastEof then
      let r := issueReads d true rest vol
      (r.1.map (List.replicate count 0 ++ ·), r.2)
    else
      match L.fsrawRead d count offset vol with
      | (.error e, vol) => (.error e, vol)
      | (.ok bytes, vol) =>
        let r := issueReads d (decide (bytes.length < count)) rest vol
        (r.1.map (bytes ++ List.replicate (count - bytes.length) 0 ++ ·), r.2)

/-- `unified_read`. -/
def unifiedRead (d size offset : ℕ) (u : Unified V) : Except ℤ (List UInt8) × Unified V :=
  if size = 0 then
    (.ok [], u)
  else
    let l := L.getVolumeLock u.vol
    let u := { u with vol := l.2 }
    if l.1 < 0 then
      (.error l.1, u)
    else
      let requests := ((u.priv d).map DentryPriv.requests).getD []
      if requests.isEmpty then
        let r := L.fsrawRead d size offset u.vol
        (r.1, { u with vol := r.2 })
      else
        match readLoop requests offset size u.mem with
        | (none, mem) => (.error (-ltfsNoMemory), { u with mem := mem })
        | (some (pieces, offset, size), mem) =>
          match issueReads L d false pieces u.vol with
          | (.error e, vol) => (.error e, { u with mem := mem, vol := vol })
          | (.ok bytes, vol) =>
            if size > 0 then
              let r := L.fsrawRead d size offset vol
              (r.1.map (bytes ++ ·), { u with mem := mem, vol := r.2 })
            else
              (.ok bytes, { u with mem := mem, vol := vol })

/-! ## Closing and shutting down -/

/-- `unified_close`. -/
def unifiedClose (d : ℕ) (flush : Bool) (u : Unified V) : ℤ × Unified V :=
  let f := if flush then flushUnlocked L d u else (0, u)
  let writeError := ((f.2.priv d).map DentryPriv.writeError).getD 0
  let u := f.2.setPriv d ((f.2.priv d).map fun dpr => { dpr with writeError := 0 })
  let u := freeDentryPrivConditional L d 3 u
  (if f.1 ≠ 0 then f.1 else writeError, { u with vol := L.fsrawClose d u.vol })

/-- `_unified_clear_alt_extentlist` with `save` set: the extents go to libltfs in
list order. Errors are only reported to the log. -/
def saveAltExtentlist (d : ℕ) (c : Ctx V) : Ctx V :=
  if c.dpr.altExtentlist.isEmpty then
    c
  else
    { u := { c.u with
        extQueue := c.u.extQueue.erase d
        vol := c.dpr.altExtentlist.foldl (fun vol ext => (L.fsrawAddExtent d ext vol).2) c.u.vol }
      dpr := { c.dpr with altExtentlist := [] } }

/-- `_unified_free_dentry_priv`. -/
def freeDentryPriv (d : ℕ) (u : Unified V) : Unified V :=
  match u.priv d with
  | none => u
  | some dpr =>
    let c : Ctx V := ⟨u, dpr⟩
    let c := if dpr.writeIp then saveAltExtentlist L d c else c
    { c.u.setPriv d none with vol := L.fsrawPutDentry d c.u.vol }

/-- What the writer thread does when it is told to end. -/
def writerShutdown (u : Unified V) : Unified V := processIndexQueue L (flushAll L u).2

/-- `unified_destroy`. -/
def unifiedDestroy (u : Unified V) : Unified V :=
  let u := writerShutdown L u
  u.extQueue.foldl (fun u d => freeDentryPriv L d u) u

end Drain

end Ltfs.Sched
