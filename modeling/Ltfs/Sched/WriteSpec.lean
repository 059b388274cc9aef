import Ltfs.Sched.RequestSpec
import Ltfs.Sched.Write

/-!
# When the list walk stores a write

The walk of `unified_write` compares the *advanced* offset with the requests it
comes to. A request that lies inside the range just stored is skipped then and
stays in the list, overlapped (`overtakes`); a request that starts where the
write does can be merged into its predecessor before the write is stored
(`absorbs`). This module shows that these two are the only ways to go wrong:
if no request is overtaken, an attempt keeps the list invariant, whatever its
outcome, and the bytes of the list and of the rest of the write together are
the old bytes overlaid by the write.

The walk goes through three phases, each with its own invariant:

* `Seeking` — bytes are left to store and nothing before the cursor reaches
  past the offset;
* `Full` — a request has been filled up and bytes are left;
* `Merging` — everything is stored, the request that took the last bytes may
  reach into the next one.
-/

namespace Ltfs.Sched

open Lib Lib.Segment RequestState

/-! ## Overtaken requests -/

/-- Some request of the list ends before `stop`. -/
def insideAny (stop : ℕ) (l : List WriteRequest) : Bool := l.any fun r => decide (r.limit < stop)

/-- The write starts at the end of `r`, an index partition request with room,
and what follows will be moved into `r`. Harmless only if it is the last request
and fits. -/
def absorbs (cs : ℕ) (r : WriteRequest) : List WriteRequest → Bool
  | [] => false
  | q :: rest => decide (q.isIp ∧ q.offset = r.limit ∧ r.count < cs) &&
      ! (rest.isEmpty && decide (r.count + q.count ≤ cs))

mutual

/-- A write of `size` bytes at `offset` passes over a request that it should
have overwritten. The recursion follows the list; which request takes which
bytes only depends on offsets, lengths and targets. -/
def overtakes (cs : ℕ) : List WriteRequest → ℕ → ℕ → Bool
  | [], _, _ => false
  | r :: rest, offset, size =>
    if r.limit < offset then
      overtakes cs rest offset size
    else if offset < r.offset then
      -- a new request is inserted before `r`
      insideAny (offset + size) rest
    else if r.isIp then
      if offset = r.limit then
        absorbs cs r rest || overtakes cs rest offset size
      else if offset + size < r.limit then
        false
      else
        -- `r` is removed, or truncated from its end
        overtakes cs rest offset size
    else if offset = r.limit ∧ r.count = cs then
      overtakes cs rest offset size
    else if offset + size ≤ r.offset + cs then
      insideAny (offset + size) rest
    else
      overtakesFull cs rest (r.offset + cs) (offset + size)

/-- The same for the bytes up to `stop` that are left when a request has been
filled up to `offset`. -/
def overtakesFull (cs : ℕ) : List WriteRequest → ℕ → ℕ → Bool
  | [], _, _ => false
  | r :: rest, offset, stop =>
    if r.limit < offset then
      true
    else if r.limit = offset then
      overtakes cs rest offset (stop - offset)
    else if offset < r.offset ∨ ! r.isIp then
      insideAny stop rest
    else if r.limit ≤ stop then
      overtakes cs rest offset (stop - offset)
    else
      false

end

theorem insideAny_eq_false {stop : ℕ} {l : List WriteRequest} :
    insideAny stop l = false ↔ ∀ r ∈ l, stop ≤ r.limit := by
  simp [insideAny]

@[simp] theorem insideAny_map_promote (stop : ℕ) (p : Option ℕ) (l : List WriteRequest) :
    insideAny stop (l.map (promote p)) = insideAny stop l := by
  simp [insideAny, Function.comp_def]

theorem absorbs_map_promote (cs : ℕ) (r : WriteRequest) (p : Option ℕ) (l : List WriteRequest) :
    absorbs cs (promote p r) (l.map (promote p)) = absorbs cs r l := by
  cases l with
  | nil => rfl
  | cons q rest => simp [absorbs]

mutual

theorem overtakes_map_promote (cs : ℕ) (p : Option ℕ) (l : List WriteRequest) (offset size : ℕ) :
    overtakes cs (l.map (promote p)) offset size = overtakes cs l offset size := by
  cases l with
  | nil => rfl
  | cons r rest =>
    simp only [List.map_cons, overtakes, promote_limit, promote_offset, promote_isIp, promote_count,
      overtakes_map_promote cs p rest, overtakesFull_map_promote cs p rest, insideAny_map_promote,
      absorbs_map_promote]

theorem overtakesFull_map_promote (cs : ℕ) (p : Option ℕ) (l : List WriteRequest)
    (offset stop : ℕ) :
    overtakesFull cs (l.map (promote p)) offset stop = overtakesFull cs l offset stop := by
  cases l with
  | nil => rfl
  | cons r rest =>
    simp only [List.map_cons, overtakesFull, promote_limit, promote_offset, promote_isIp,
      overtakes_map_promote cs p rest, insideAny_map_promote]

end

/-! ## The cursor -/

@[simp] theorem before_advance (w : WriteState) (req : WriteRequest) :
    (w.advance req).before = w.before ++ [req] := by
  simp [WriteState.advance, WriteState.before]

@[simp] theorem before_skip (w : WriteState) (req : WriteRequest) :
    WriteState.before { w with skipped := w.skipped ++ [req] } = w.before ++ [req] := by
  simp [WriteState.before]

@[simp] theorem before_promoteBefore (w : WriteState) (p : Option ℕ) :
    (w.promoteBefore p).before = w.before.map (promote p) := by
  cases hprev : w.prev <;> simp [WriteState.before, WriteState.promoteBefore, hprev]

@[simp] theorem before_updated (w : WriteState) (u : ℕ × WriteRequest × Option ℕ)
    (req : WriteRequest) (after : List WriteRequest) :
    (w.updated u req after).before = w.before.map (promote u.2.2) :=
  before_promoteBefore w u.2.2

/-- Two states of a write with the same place in the list and the same bytes left. -/
structure SamePlace (w w' : WriteState) : Prop where
  passed : w'.passed = w.passed
  prev : w'.prev = w.prev
  skipped : w'.skipped = w.skipped
  buf : w'.buf = w.buf
  offset : w'.offset = w.offset

theorem SamePlace.before {w w' : WriteState} (h : SamePlace w w') : w'.before = w.before := by
  simp only [WriteState.before, h.passed, h.prev, h.skipped]

/-- Inserting: the new request holds the bytes that fit into a cache block, and nothing
else moves. -/
theorem insertNewRequest_stored (cs : ℕ) (buf : List UInt8) (offset : ℕ) (ip : Bool)
    (w : WriteState) :
    match insertNewRequest cs buf offset ip w with
    | .inserted req w' => SamePlace w w' ∧
        w'.fileSize = max w.fileSize (offset + (buf.take cs).length) ∧
        req.offset = offset ∧ req.data = buf.take cs ∧ req.isIp = ip
    | .wait w' => SamePlace w w' ∧ w'.fileSize = w.fileSize
    | .noMemory w' => SamePlace w w' ∧ w'.fileSize = w.fileSize := by
  have hstore : ∀ (cache : ℕ) (w₁ : WriteState), SamePlace w w₁ → w₁.fileSize = w.fileSize →
      match storeRequest cs buf offset ip cache w₁ with
      | .inserted req w' => SamePlace w w' ∧
          w'.fileSize = max w.fileSize (offset + (buf.take cs).length) ∧
          req.offset = offset ∧ req.data = buf.take cs ∧ req.isIp = ip
      | .wait w' => SamePlace w w' ∧ w'.fileSize = w.fileSize
      | .noMemory w' => SamePlace w w' ∧ w'.fileSize = w.fileSize := by
    intro cache w₁ hsame hsize
    unfold storeRequest
    by_cases hmem : w₁.mem.headD true = true
    · simp only [if_pos hmem]
      refine ⟨⟨hsame.passed, hsame.prev, hsame.skipped, hsame.buf, hsame.offset⟩, ?_, trivial,
        trivial, ?_⟩
      · rw [hsize]
        rfl
      · cases ip with
        | true => rfl
        | false =>
          simp only [WriteRequest.isIp, Bool.false_eq_true, if_false]
          split <;> rfl
    · simp only [if_neg hmem]
      exact ⟨⟨hsame.passed, hsame.prev, hsame.skipped, hsame.buf, hsame.offset⟩, hsize⟩
  unfold insertNewRequest
  cases hspare : w.spare with
  | some cache => exact hstore cache w ⟨rfl, rfl, rfl, rfl, rfl⟩ rfl
  | none =>
    cases halloc : w.pool.allocateObject with
    | none => exact ⟨⟨rfl, rfl, rfl, rfl, rfl⟩, rfl⟩
    | some r => exact hstore r.1 _ ⟨rfl, rfl, rfl, rfl, rfl⟩ rfl

/-- Bytes that fit into a cache block are all stored. -/
theorem insertNewRequest_spec {cs : ℕ} {buf : List UInt8} (h : buf.length ≤ cs) (offset : ℕ)
    (ip : Bool) (w : WriteState) :
    match insertNewRequest cs buf offset ip w with
    | .inserted req w' => SamePlace w w' ∧ w'.fileSize = max w.fileSize (offset + buf.length) ∧
        req.offset = offset ∧ req.data = buf ∧ req.isIp = ip
    | .wait w' => SamePlace w w' ∧ w'.fileSize = w.fileSize
    | .noMemory w' => SamePlace w w' ∧ w'.fileSize = w.fileSize := by
  have hstored := insertNewRequest_stored cs buf offset ip w
  rwa [List.take_of_length_le h] at hstored

/-! ## What an attempt keeps -/

/-- The list around the cursor is in order, and its bytes together with the rest
of the write are `target`; `size` is the file size once the write is complete. -/
structure Stored (cs : ℕ) (target : ℕ → Option (Bool × UInt8)) (size : ℕ) (w : WriteState)
    (after : List WriteRequest) : Prop where
  ok : ReqsOk cs (w.before ++ after)
  fits : w.buf.length ≤ cs
  map : ∀ x, (bytesMap false w.offset w.buf x).or (reqMap (w.before ++ after) x) = target x
  limit_le : ∀ r ∈ w.before ++ after, r.limit ≤ w.fileSize
  size_eq : max w.fileSize (w.offset + w.buf.length) = size

/-- What the walk leaves behind. If it ends with bytes left, the rest can be
appended, or the list has become shorter and can be walked again. -/
def WalkPost (cs : ℕ) (target : ℕ → Option (Bool × UInt8)) (size len : ℕ) : Visit → Prop
  | .out w after => Stored cs target size w after ∧ w.buf = []
  | .restart w after => Stored cs target size w after
  | .noMemory w after => Stored cs target size w after
  | .next w after => Stored cs target size w after ∧ (w.buf ≠ [] →
      (∀ r ∈ w.before ++ after, r.limit ≤ w.offset) ∨
      (w.before ++ after).length < len ∧
        overtakes cs (w.before ++ after) w.offset w.buf.length = false)

/-- The rest of the walk after a visit. -/
def andThen (cs n : ℕ) : Visit → Visit
  | .next w after => walk cs n w after
  | result => result

theorem walk_cons (cs n : ℕ) (w : WriteState) (req : WriteRequest) (after : List WriteRequest) :
    walk cs (n + 1) w (req :: after) = andThen cs n (visit cs w req after) := by
  rw [walk]
  cases visit cs w req after <;> rfl

theorem walk_nil (cs n : ℕ) (w : WriteState) : walk cs n w [] = .next w [] := by
  cases n <;> rfl

section Walk

variable {cs : ℕ} {target : ℕ → Option (Bool × UInt8)} {size len : ℕ}

/-- Only the place in the list, the rest of the write and the file size matter. -/
theorem Stored.congr {w w' : WriteState} {after : List WriteRequest}
    (h : Stored cs target size w after) (hs : SamePlace w w') (hf : w'.fileSize = w.fileSize) :
    Stored cs target size w' after := by
  refine ⟨?_, ?_, ?_, ?_, ?_⟩
  · rw [hs.before]
    exact h.ok
  · rw [hs.buf]
    exact h.fits
  · rw [hs.buf, hs.offset, hs.before]
    exact h.map
  · rw [hs.before, hf]
    exact h.limit_le
  · rw [hf, hs.offset, hs.buf]
    exact h.size_eq

/-! ## Merging phase -/

/-- `P`, the request `prev_req` points to, may reach into the requests from the
cursor on, but starts before them. -/
structure Joined (cs : ℕ) (P : WriteRequest) (w : WriteState) (after : List WriteRequest) :
    Prop where
  prev : w.prev = some P
  skipped : w.skipped = []
  ok : ReqsOk cs (w.passed ++ [P])
  after_ok : ReqsOk cs after
  passed_le : ∀ b ∈ w.passed, ∀ a ∈ after, b.limit ≤ a.offset
  start_le : ∀ a ∈ after, P.offset ≤ a.offset
  limit_le : ∀ r ∈ w.passed ++ P :: after, r.limit ≤ w.fileSize

theorem Joined.before_eq {P : WriteRequest} {w : WriteState} {after : List WriteRequest}
    (h : Joined cs P w after) : w.before = w.passed ++ [P] := by
  simp [WriteState.before, h.prev, h.skipped]

/-- A `P` that does not reach into the next request leaves the list in order. -/
theorem Joined.reqsOk {P : WriteRequest} {w : WriteState} {after : List WriteRequest}
    (h : Joined cs P w after) (hle : ∀ a ∈ after, P.limit ≤ a.offset) :
    ReqsOk cs (w.before ++ after) := by
  rw [h.before_eq, reqsOk_append]
  refine ⟨h.ok, h.after_ok, ?_⟩
  intro b hb a ha
  rcases List.mem_append.mp hb with hb | hb
  · exact h.passed_le b hb a ha
  · rw [List.mem_singleton.mp hb]
    exact hle a ha

/-- The merge step keeps bytes, offset and file size of the write. -/
structure SameWrite (w w' : WriteState) : Prop where
  buf : w'.buf = w.buf
  offset : w'.offset = w.offset
  fileSize : w'.fileSize = w.fileSize

theorem release_samePlace (w : WriteState) (req : WriteRequest) :
    SamePlace w (w.release req) ∧ (w.release req).fileSize = w.fileSize := by
  unfold WriteState.release
  cases w.spare <;> exact ⟨⟨rfl, rfl, rfl, rfl, rfl⟩, rfl⟩

/-- The merge step with a predecessor. Either the current request is gone and
its predecessor covers it, or what is left of it starts behind the predecessor.
The bytes of the list stay the same. -/
theorem mergeStep_spec {P req : WriteRequest} {w : WriteState} {after : List WriteRequest}
    (h : Joined cs P w (req :: after)) :
    ∃ (p : Option ℕ) (w' : WriteState), SameWrite w w' ∧ w'.passed = w.passed.map (promote p) ∧
      ((∃ P', mergeStep cs w req after = (none, w', after.map (promote p)) ∧
          Joined cs P' w' (after.map (promote p)) ∧ P'.isIp = P.isIp ∧ P'.offset = P.offset ∧
          P'.limit = max P.limit req.limit ∧
          ∀ x, reqMap (w'.passed ++ P' :: after.map (promote p)) x
            = reqMap (w.passed ++ P :: req :: after) x) ∨
       (∃ didMerge req', mergeStep cs w req after
            = (some (didMerge, req'), w', after.map (promote p)) ∧
          Joined cs req' (w'.advance req') (after.map (promote p)) ∧
          req'.limit = req.limit ∧ req'.isIp = req.isIp ∧
          (∃ P', w'.prev = some P' ∧ w'.skipped = [] ∧ P'.isIp = P.isIp ∧ P'.offset = P.offset ∧
            P.limit ≤ P'.limit ∧ P'.count ≤ cs ∧ req'.offset = max req.offset P'.limit) ∧
          ∀ x, reqMap ((w'.advance req').before ++ after.map (promote p)) x
            = reqMap (w.passed ++ P :: req :: after) x)) := by
  rcases reqsOk_append.mp h.ok with ⟨hpassed, hP, hpassedP⟩
  rcases reqsOk_singleton.mp hP with ⟨hPpos, hPle⟩
  rcases reqsOk_cons.mp h.after_ok with ⟨hrpos, hrle, hrafter, hafter⟩
  have hm := mergeRequests_spec (h.start_le req (by simp)) hrpos hPle
  set m := mergeRequests cs P req with hmdef
  set p := m.promoted with hp
  have hPlim : P.limit ≤ w.fileSize := h.limit_le P (by simp)
  have hrlim : req.limit ≤ w.fileSize := h.limit_le req (by simp)
  have hsize : (w.merged m req after).fileSize = w.fileSize := by
    have := hm.dest_le
    simp only [WriteState.merged]
    split <;> omega
  have hdest : ReqsOk cs (w.passed.map (promote p) ++ [m.dest]) := by
    rw [reqsOk_append, reqsOk_singleton]
    refine ⟨hpassed.map_promote p, ⟨?_, hm.dest_count⟩, ?_⟩
    · have h1 := hm.dest_offset
      have h2 := hm.dest_ge
      unfold WriteRequest.limit at h2
      omega
    · simpa [hm.dest_offset] using hpassedP
  have hafter' : ReqsOk cs (after.map (promote p)) := hafter.map_promote p
  have hlimits : (∀ r ∈ w.passed.map (promote p), r.limit ≤ w.fileSize) ∧
      (∀ r ∈ after.map (promote p), r.limit ≤ w.fileSize) := by
    constructor
    · intro r hr
      rcases List.mem_map.mp hr with ⟨q, hq, rfl⟩
      rw [promote_limit]
      exact h.limit_le q (by simp [hq])
    · intro r hr
      rcases List.mem_map.mp hr with ⟨q, hq, rfl⟩
      rw [promote_limit]
      exact h.limit_le q (by simp [hq])
  have hpa : ∀ b ∈ w.passed.map (promote p), ∀ a ∈ after.map (promote p), b.limit ≤ a.offset := by
    intro b hb a ha
    rcases List.mem_map.mp hb with ⟨b', hb', rfl⟩
    rcases List.mem_map.mp ha with ⟨a', ha', rfl⟩
    rw [promote_limit, promote_offset]
    exact h.passed_le b' hb' a' (by simp [ha'])
  have hstep : mergeStep cs w req after
      = if m.ret = 2 then (none, (w.merged m req after).release req, after.map (promote p))
        else (some (decide (m.ret = 1), m.src), w.merged m req after, after.map (promote p)) := by
    simp only [mergeStep, h.prev, ← hmdef, ← hp]
  rw [hstep]
  by_cases hret : m.ret = 2
  · -- the current request is gone
    rw [if_pos hret]
    rcases hm.freed hret with ⟨hlim, hmap⟩
    rcases release_samePlace (w.merged m req after) req with ⟨hsame, hfs⟩
    have hpass : ((w.merged m req after).release req).passed = w.passed.map (promote p) :=
      hsame.passed
    refine ⟨p, (w.merged m req after).release req, ⟨hsame.buf, hsame.offset, hfs.trans hsize⟩,
      hpass, Or.inl ⟨m.dest, rfl, ?_, hm.dest_isIp, hm.dest_offset, hlim, ?_⟩⟩
    · refine ⟨hsame.prev, ?_, by rwa [hpass], hafter', by rwa [hpass], ?_, ?_⟩
      · rw [hsame.skipped]
        simp [WriteState.merged, h.skipped]
      · intro a ha
        rcases List.mem_map.mp ha with ⟨a', ha', rfl⟩
        rw [promote_offset, hm.dest_offset]
        exact h.start_le a' (by simp [ha'])
      · rw [hpass, hfs, hsize]
        intro r hr
        simp only [List.mem_append, List.mem_cons] at hr
        rcases hr with hr | rfl | hr
        · exact hlimits.1 r hr
        · omega
        · exact hlimits.2 r hr
    · intro x
      rw [hpass, reqMap_append, reqMap_append, reqMap_cons m.dest, reqMap_cons P, reqMap_cons req,
        reqMap_map_promote, reqMap_map_promote, hmap x, Option.or_assoc]
  · -- what is left of it starts behind the predecessor
    rw [if_neg hret]
    rcases hm.kept hret with ⟨k1, k3, k4, k5, k6⟩
    have hklim : m.src.limit = m.src.offset + m.src.count := rfl
    have hrlim' : req.limit = req.offset + req.count := rfl
    have hbefore : (w.merged m req after).before = w.passed.map (promote p) ++ [m.dest] := by
      simp [WriteState.before, WriteState.merged, h.skipped, hp]
    refine ⟨p, w.merged m req after, ⟨rfl, rfl, hsize⟩, rfl, Or.inr ⟨_, m.src, rfl, ?_, k3, k5,
      ⟨m.dest, rfl, by simp [WriteState.merged, h.skipped], hm.dest_isIp, hm.dest_offset, hm.dest_ge,
        hm.dest_count, k1⟩, ?_⟩⟩
    · have hpass : ((w.merged m req after).advance m.src).passed
          = w.passed.map (promote p) ++ [m.dest] := hbefore
      refine ⟨rfl, rfl, ?_, hafter', ?_, ?_, ?_⟩
      · rw [hpass, reqsOk_append, reqsOk_singleton]
        refine ⟨hdest, ⟨k4, by omega⟩, ?_⟩
        intro b hb a ha
        rw [List.mem_singleton.mp ha]
        rcases List.mem_append.mp hb with hb | hb
        · rcases List.mem_map.mp hb with ⟨b', hb', rfl⟩
          have := h.passed_le b' hb' req (by simp)
          rw [promote_limit]
          omega
        · rw [List.mem_singleton.mp hb]
          omega
      · rw [hpass]
        intro b hb a ha
        rcases List.mem_append.mp hb with hb | hb
        · exact hpa b hb a ha
        · rcases List.mem_map.mp ha with ⟨a', ha', rfl⟩
          have := hrafter a' ha'
          rw [List.mem_singleton.mp hb, promote_offset]
          omega
      · intro a ha
        rcases List.mem_map.mp ha with ⟨a', ha', rfl⟩
        have := hrafter a' ha'
        rw [promote_offset]
        omega
      · rw [hpass]
        have hfs : ((w.merged m req after).advance m.src).fileSize = w.fileSize := hsize
        rw [hfs]
        intro r hr
        simp only [List.mem_append, List.mem_cons, List.not_mem_nil, or_false] at hr
        have := hm.dest_le
        rcases hr with (hr | rfl) | rfl | hr
        · exact hlimits.1 r hr
        · omega
        · omega
        · exact hlimits.2 r hr
    · intro x
      rw [before_advance, hbefore, reqMap_append, reqMap_append, reqMap_append, reqMap_append,
        reqMap_cons P, reqMap_cons req, reqMap_map_promote, reqMap_map_promote]
      have hx := congrArg (fun v => v.or (reqMap after x)) (k6 x)
      simp only [Option.or_assoc] at hx ⊢
      rw [hx]

/-- Everything is stored; `P` took the last bytes and reaches at most to the end
of the next request. -/
structure Merging (cs : ℕ) (target : ℕ → Option (Bool × UInt8)) (size : ℕ) (P : WriteRequest)
    (w : WriteState) (after : List WriteRequest) : Prop where
  joined : Joined cs P w after
  stored : w.buf = []
  reach : ∀ a ∈ after, P.limit ≤ a.limit ∧ w.offset ≤ a.limit
  map : ∀ x, reqMap (w.passed ++ P :: after) x = target x
  size_eq : max w.fileSize w.offset = size

theorem Merging.finished {P : WriteRequest} {w : WriteState} {after : List WriteRequest}
    (h : Merging cs target size P w after) (hle : ∀ a ∈ after, P.limit ≤ a.offset) :
    Stored cs target size w after := by
  have hb := h.joined.before_eq
  refine ⟨h.joined.reqsOk hle, by simp [h.stored], ?_, ?_, ?_⟩
  · intro x
    rw [h.stored, bytesMap_nil, Option.none_or, hb, List.append_assoc]
    exact h.map x
  · rw [hb, List.append_assoc]
    exact h.joined.limit_le
  · rw [h.stored, List.length_nil, Nat.add_zero]
    exact h.size_eq

/-- The merge step and the end of the body, with everything stored. -/
def tidyVisit (cs : ℕ) (w : WriteState) (req : WriteRequest) (after : List WriteRequest) : Visit :=
  match mergeStep cs w req after with
  | (none, w, after) => .next w after
  | (some (didMerge, req), w, after) => finishVisit didMerge w req after

/-- One visit with everything stored. `P` may cover the current request, but
reaches at most to the end of the one behind it. -/
theorem tidyVisit_post {n : ℕ} (ih : ∀ (P : WriteRequest) (w : WriteState)
      (after : List WriteRequest), after.length ≤ n → Merging cs target size P w after →
      WalkPost cs target size len (walk cs n w after))
    {P req : WriteRequest} {w : WriteState} {after : List WriteRequest} (hlen : after.length ≤ n)
    (hj : Joined cs P w (req :: after)) (hstored : w.buf = [])
    (hreach : ∀ a ∈ after, P.limit ≤ a.limit ∧ w.offset ≤ a.limit)
    (hmap : ∀ x, reqMap (w.passed ++ P :: req :: after) x = target x)
    (hsize : max w.fileSize w.offset = size) :
    WalkPost cs target size len (andThen cs n (tidyVisit cs w req after)) := by
  have hafter : ∀ a ∈ after, req.limit ≤ a.offset ∧ 0 < a.count := by
    rcases reqsOk_cons.mp hj.after_ok with ⟨-, -, h1, h2⟩
    exact fun a ha => ⟨h1 a ha, h2.count_pos a ha⟩
  have hlimits : ∀ (p : Option ℕ), ∀ a ∈ after.map (promote p),
      max P.limit req.limit ≤ a.limit ∧ w.offset ≤ a.limit := by
    intro p a ha
    rcases List.mem_map.mp ha with ⟨a', ha', rfl⟩
    have h1 := (hafter a' ha').1
    have h2 : a'.limit = a'.offset + a'.count := rfl
    have h3 := hreach a' ha'
    rw [promote_limit]
    omega
  unfold tidyVisit
  rcases mergeStep_spec hj with ⟨p, w', hsame, -, hfreed | hkept⟩
  · rcases hfreed with ⟨P', hstep, hj', -, -, hlim, hmap'⟩
    rw [hstep]
    refine ih P' w' _ (by simpa using hlen) ⟨hj', hsame.buf.trans hstored, ?_, ?_, ?_⟩
    · intro a ha
      rw [hsame.offset, hlim]
      exact hlimits p a ha
    · intro x
      rw [hmap' x]
      exact hmap x
    · rw [hsame.fileSize, hsame.offset]
      exact hsize
  · rcases hkept with ⟨didMerge, req', hstep, hj', hlim, -, -, hmap'⟩
    rw [hstep]
    have ho : (w'.advance req').offset = w.offset := hsame.offset
    have hf : (w'.advance req').fileSize = w.fileSize := hsame.fileSize
    have hm : Merging cs target size req' (w'.advance req') (after.map (promote p)) := by
      refine ⟨hj', hsame.buf.trans hstored, ?_, ?_, by rwa [ho, hf]⟩
      · intro a ha
        have := hlimits p a ha
        rw [ho, hlim]
        omega
      · intro x
        have := hmap' x
        rw [hj'.before_eq, List.append_assoc] at this
        exact this.trans (hmap x)
    have hnext : ∀ a ∈ after.map (promote p), req'.limit ≤ a.offset := by
      intro a ha
      rcases List.mem_map.mp ha with ⟨a', ha', rfl⟩
      rw [promote_offset, hlim]
      exact (hafter a' ha').1
    simp only [finishVisit]
    split
    · exact ⟨hm.finished hnext, hm.stored⟩
    · exact ih req' _ _ (by simpa using hlen) hm

/-- With everything stored the walk only tidies up. Induction on the requests
from the cursor on. -/
theorem walk_merging (n : ℕ) : ∀ (P : WriteRequest) (w : WriteState) (after : List WriteRequest),
    after.length ≤ n → Merging cs target size P w after →
    WalkPost cs target size len (walk cs n w after) := by
  induction n with
  | zero =>
    intro P w after hlen h
    obtain rfl : after = [] := List.eq_nil_of_length_eq_zero (by omega)
    rw [walk_nil]
    exact ⟨h.finished (by simp), fun hbuf => absurd h.stored hbuf⟩
  | succ n ih =>
    intro P w after hlen h
    cases after with
    | nil =>
      rw [walk_nil]
      exact ⟨h.finished (by simp), fun hbuf => absurd h.stored hbuf⟩
    | cons req after =>
      have hbuf : w.buf.length = 0 := by
        rw [h.stored]
        rfl
      have hreach := h.reach req (by simp)
      have hvisit : visit cs w req after = tidyVisit cs w req after := by
        unfold visit tidyVisit
        rw [if_neg (by omega), if_neg (by omega)]
        rcases mergeStep_spec h.joined with
          ⟨p, w', hsame, -, ⟨P', hstep, -⟩ | ⟨d, req', hstep, -⟩⟩
        · rw [hstep]
        · rw [hstep]
          simp only [overlapVisit, hsame.buf, hbuf, if_true]
      rw [walk_cons, hvisit]
      refine tidyVisit_post ih (by simpa using hlen) h.joined h.stored ?_ h.map h.size_eq
      exact fun a ha => h.reach a (by simp [ha])

/-! ## Inserting before the cursor -/

/-- Bytes that no request before the cursor covers can be put in front of the
rest of the list. -/
theorem or_insert {α : Type} {b g l : Option α} (h : g ≠ none → b = none) :
    g.or (b.or l) = b.or (g.or l) := by
  cases g with
  | none => simp
  | some v =>
    rw [h (by simp)]
    simp

/-- Bytes split in two, of which the current request `r` has taken the first part. -/
theorem or_split {α : Type} {b g₁ g₂ r l : Option α} (h₁ : g₁ ≠ none → b = none)
    (h : g₂ ≠ none → g₁ = none) :
    g₂.or (b.or ((g₁.or r).or l)) = (g₁.or g₂).or (b.or (r.or l)) := by
  cases g₁ with
  | none => simp
  | some v =>
    have hg : g₂ = none := by
      by_contra hne
      have := h hne
      cases this
    rw [hg, h₁ (by simp)]
    simp

/-- A new request before the current one: the write is stored, and only requests
that end inside it could still be missed. -/
theorem insertBefore_post {w : WriteState} {req : WriteRequest} {after : List WriteRequest}
    (hst : Stored cs target size w (req :: after)) (hpend : w.buf ≠ [])
    (hbefore : ∀ b ∈ w.before, b.limit ≤ w.offset) (hlt : w.offset < req.offset)
    (hin : insideAny (w.offset + w.buf.length) after = false) {n : ℕ} (hlen : after.length ≤ n) :
    WalkPost cs target size len (andThen cs n (insertBefore cs w req after)) := by
  have hins := insertNewRequest_spec hst.fits w.offset false w
  unfold insertBefore
  cases hres : insertNewRequest cs w.buf w.offset false w with
  | noMemory w' =>
    rw [hres] at hins
    exact hst.congr hins.1 hins.2
  | wait w' =>
    rw [hres] at hins
    exact hst.congr hins.1 hins.2
  | inserted new w' =>
    rw [hres] at hins
    rcases hins with ⟨hsame, hfs, hoff, hdata, hip⟩
    rcases reqsOk_append.mp hst.ok with ⟨hb, hra, hbra⟩
    have hpos := List.length_pos_iff.mpr hpend
    have hnewlim : new.limit = w.offset + w.buf.length := by
      simp only [WriteRequest.limit, WriteRequest.count, hoff, hdata]
    have hnewcount : new.count = w.buf.length := by
      simp only [WriteRequest.count, hdata]
    have hstart : ∀ a ∈ req :: after, w.offset < a.offset := by
      intro a ha
      rcases List.mem_cons.mp ha with rfl | ha
      · exact hlt
      · have h1 := (reqsOk_cons.mp hra).2.2.1 a ha
        have h2 : req.limit = req.offset + req.count := rfl
        omega
    have hbe : w'.before = w.before := hsame.before
    have hoff' : w'.offset + w'.buf.length = new.limit := by
      rw [hsame.offset, hsame.buf, hnewlim]
    refine tidyVisit_post (P := new) (walk_merging n) hlen ?_ rfl ?_ ?_ ?_
    · refine ⟨rfl, rfl, ?_, hra, ?_, ?_, ?_⟩
      · simp only [WriteState.advance, hbe]
        rw [reqsOk_append, reqsOk_singleton]
        refine ⟨hb, ⟨by omega, by rw [hnewcount]; exact hst.fits⟩, ?_⟩
        intro b hb' a ha
        rw [List.mem_singleton.mp ha, hoff]
        exact hbefore b hb'
      · simp only [WriteState.advance, hbe]
        exact hbra
      · intro a ha
        rw [hoff]
        exact (hstart a ha).le
      · simp only [WriteState.advance, hbe, hfs]
        intro r hr
        simp only [List.mem_append, List.mem_cons] at hr
        rcases hr with hr | rfl | hr
        · have := hst.limit_le r (by simp [hr])
          omega
        · omega
        · have := hst.limit_le r (by simp only [List.mem_append, List.mem_cons]; exact Or.inr hr)
          omega
    · intro a ha
      have := insideAny_eq_false.mp hin a ha
      simp only [hoff']
      omega
    · intro x
      simp only [WriteState.advance, hbe]
      have hnew : reqMap [new] x = bytesMap false w.offset w.buf x := by
        rw [reqMap_singleton_eq, hip, hoff, hdata]
      rw [reqMap_append, reqMap_cons new, hnew, ← or_insert, ← reqMap_append]
      · exact hst.map x
      · intro hx
        apply reqMap_eq_none_of_le
        intro b hb'
        have h1 := hbefore b hb'
        have h2 : ¬ (x < w.offset ∨ w.offset + w.buf.length ≤ x) := by
          rw [← bytesMap_eq_none_iff]
          exact hx
        omega
    · have h1 : (w'.advance new).fileSize = max w.fileSize (w.offset + w.buf.length) := hfs
      have h2 := hst.size_eq
      simp only [h1, hoff']
      omega

/-! ## Updating the current request -/

/-- A request that took bytes of the write; the rest of the write goes on behind
it. -/
structure Updated (cs : ℕ) (target : ℕ → Option (Bool × UInt8)) (size : ℕ) (P : WriteRequest)
    (w : WriteState) (after : List WriteRequest) : Prop where
  joined : Joined cs P w after
  notIp : P.isIp = false
  fits : w.buf.length ≤ cs
  map : ∀ x, (bytesMap false w.offset w.buf x).or (reqMap (w.passed ++ P :: after) x) = target x
  size_eq : max w.fileSize (w.offset + w.buf.length) = size

/-- An update of the current request takes what fits and the walk goes on. -/
theorem updateVisit_spec {w : WriteState} {req : WriteRequest} {after : List WriteRequest}
    (hst : Stored cs target size w (req :: after)) (hip : req.isIp = false)
    (hlo : req.offset ≤ w.offset) (hhi : w.offset ≤ req.limit) :
    ∃ (p : Option ℕ) (P : WriteRequest) (w' : WriteState),
      updateVisit cs w req after = .next w' (after.map (promote p)) ∧
      Updated cs target size P w' (after.map (promote p)) ∧ P.offset = req.offset ∧
      P.limit = max req.limit w'.offset ∧
      w'.offset = w.offset + min w.buf.length (req.offset + cs - w.offset) ∧
      w'.buf = w.buf.drop (min w.buf.length (req.offset + cs - w.offset)) ∧
      w'.before.length = w.before.length + 1 := by
  rcases reqsOk_append.mp hst.ok with ⟨hb, hra, hbra⟩
  rcases reqsOk_cons.mp hra with ⟨hrpos, hrle, hrafter, hafter⟩
  have hu := updateRequest_spec cs w.buf hlo hhi
  unfold updateVisit
  set u := updateRequest cs w.buf w.offset req with hudef
  have hrl : req.limit = req.offset + req.count := rfl
  have hul : u.2.1.limit = u.2.1.offset + u.2.1.count := rfl
  have htaken := hu.taken
  have hulim := hu.limit_eq
  have huoff := hu.offset_eq
  have hfits := hst.fits
  have hbtail : ∀ b ∈ w.before.map (promote u.2.2), b.limit ≤ req.offset := by
    intro b hb'
    rcases List.mem_map.mp hb' with ⟨b', hb'', rfl⟩
    rw [promote_limit]
    exact hbra b' hb'' req (by simp)
  refine ⟨u.2.2, u.2.1, (w.updated u req after).advance u.2.1, ?_, ⟨?_, hu.isIp_eq.trans hip, ?_,
    ?_, ?_⟩, huoff, hulim, ?_, ?_, by simp⟩
  · simp only [finishVisit, Bool.not_true, Bool.false_eq_true, and_false, if_false]
  · have hpass : ((w.updated u req after).advance u.2.1).passed = w.before.map (promote u.2.2) :=
      before_updated w u req after
    refine ⟨rfl, rfl, ?_, hafter.map_promote _, ?_, ?_, ?_⟩
    · rw [hpass, reqsOk_append, reqsOk_singleton]
      refine ⟨hb.map_promote _, ⟨by omega, by omega⟩, ?_⟩
      intro b hb' a ha
      rw [List.mem_singleton.mp ha, huoff]
      exact hbtail b hb'
    · rw [hpass]
      intro b hb' a ha
      rcases List.mem_map.mp ha with ⟨a', ha', rfl⟩
      have h1 := hbtail b hb'
      have h2 := hrafter a' ha'
      rw [promote_offset]
      omega
    · intro a ha
      rcases List.mem_map.mp ha with ⟨a', ha', rfl⟩
      have h2 := hrafter a' ha'
      rw [promote_offset, huoff]
      omega
    · rw [hpass]
      have hfs : ((w.updated u req after).advance u.2.1).fileSize
          = max w.fileSize u.2.1.limit := rfl
      rw [hfs]
      intro r hr
      simp only [List.mem_append, List.mem_cons, List.mem_map] at hr
      rcases hr with ⟨r', hr', rfl⟩ | rfl | ⟨r', hr', rfl⟩
      · have := hst.limit_le r' (by simp [hr'])
        rw [promote_limit]
        omega
      · omega
      · have := hst.limit_le r' (by simp [hr'])
        rw [promote_limit]
        omega
  · have : ((w.updated u req after).advance u.2.1).buf = w.buf.drop u.1 := rfl
    rw [this, List.length_drop]
    omega
  · intro x
    have hpass : ((w.updated u req after).advance u.2.1).passed = w.before.map (promote u.2.2) :=
      before_updated w u req after
    have hbufx : ((w.updated u req after).advance u.2.1).buf = w.buf.drop u.1 := rfl
    have hoffx : ((w.updated u req after).advance u.2.1).offset = w.offset + u.1 := rfl
    have hcut : u.1 ≤ w.buf.length := by omega
    rw [hpass, hbufx, hoffx, ← hst.map x, reqMap_append, reqMap_append, reqMap_cons req,
      reqMap_cons u.2.1, reqMap_map_promote, reqMap_map_promote, hu.map_eq x, hip,
      bytesMap_split false w.offset w.buf hcut x]
    exact or_split (fun hx => reqMap_eq_none_of_le fun b hb' => by
        have h1 := hbra b hb' req (by simp)
        have h2 := mt bytesMap_eq_none_iff.mpr hx
        omega)
      (fun hx => by
        have h2 := mt bytesMap_eq_none_iff.mpr hx
        rw [bytesMap_eq_none_iff, List.length_take]
        omega)
  · have h1 : ((w.updated u req after).advance u.2.1).fileSize
        = max w.fileSize u.2.1.limit := rfl
    have h2 : ((w.updated u req after).advance u.2.1).buf = w.buf.drop u.1 := rfl
    have h3 : ((w.updated u req after).advance u.2.1).offset = w.offset + u.1 := rfl
    have h4 := hst.size_eq
    have h5 := hst.limit_le req (by simp)
    rw [h1, h2, h3, List.length_drop]
    omega
  · have h3 : ((w.updated u req after).advance u.2.1).offset = w.offset + u.1 := rfl
    rw [h3, htaken]
  · have h2 : ((w.updated u req after).advance u.2.1).buf = w.buf.drop u.1 := rfl
    rw [h2, htaken]

/-- All bytes fit into the current request. -/
theorem updateVisit_post {w : WriteState} {req : WriteRequest} {after : List WriteRequest}
    (hst : Stored cs target size w (req :: after)) (hip : req.isIp = false)
    (hlo : req.offset ≤ w.offset) (hhi : w.offset ≤ req.limit)
    (hroom : w.offset + w.buf.length ≤ req.offset + cs)
    (hin : insideAny (w.offset + w.buf.length) after = false) {n : ℕ} (hlen : after.length ≤ n) :
    WalkPost cs target size len (andThen cs n (updateVisit cs w req after)) := by
  rcases updateVisit_spec hst hip hlo hhi with ⟨p, P, w', hvisit, hup, -, hPlim, hoff, hbuf, -⟩
  have hmin : min w.buf.length (req.offset + cs - w.offset) = w.buf.length := by omega
  rw [hmin] at hoff hbuf
  have hnil : w'.buf = [] := by
    rw [hbuf, List.drop_length]
  rw [hvisit]
  refine walk_merging n P w' _ (by simpa using hlen) ⟨hup.joined, hnil, ?_, ?_, ?_⟩
  · intro a ha
    rcases List.mem_map.mp ha with ⟨a', ha', rfl⟩
    have h1 := insideAny_eq_false.mp hin a' ha'
    rcases reqsOk_cons.mp (reqsOk_append.mp hst.ok).2.1 with ⟨-, -, h2, h3⟩
    have h4 := h2 a' ha'
    have h5 : a'.limit = a'.offset + a'.count := rfl
    rw [promote_limit]
    omega
  · intro x
    have := hup.map x
    rwa [hnil, bytesMap_nil, Option.none_or] at this
  · have := hup.size_eq
    rwa [hnil, List.length_nil, Nat.add_zero] at this

/-! ## Overlap with an index partition request -/

/-- Pieces of the current request can take its place if they agree with it
outside the rest of the write. -/
theorem Stored.replace {w : WriteState} {req : WriteRequest} {after : List WriteRequest}
    (hst : Stored cs target size w (req :: after)) (pieces : List WriteRequest) (w' : WriteState)
    (after' : List WriteRequest) (hp : ReqsOk cs pieces)
    (hin : ∀ e ∈ pieces, req.offset ≤ e.offset ∧ e.limit ≤ req.limit)
    (hmap : ∀ x, bytesMap false w.offset w.buf x = none → reqMap pieces x = reqMap [req] x)
    (hlist : w'.before ++ after' = w.before ++ (pieces ++ after)) (hs : SameWrite w w') :
    Stored cs target size w' after' := by
  rcases reqsOk_append.mp hst.ok with ⟨hb, hra, hbra⟩
  rcases reqsOk_cons.mp hra with ⟨-, -, hrafter, hafter⟩
  refine ⟨?_, by rw [hs.buf]; exact hst.fits, ?_, ?_, ?_⟩
  · rw [hlist, reqsOk_append, reqsOk_append]
    refine ⟨hb, ⟨hp, hafter, ?_⟩, ?_⟩
    · intro e he a ha
      have h1 := (hin e he).2
      have h2 := hrafter a ha
      omega
    · intro b hb' e he
      rcases List.mem_append.mp he with he | he
      · have h1 := hbra b hb' req (by simp)
        have h2 := (hin e he).1
        omega
      · exact hbra b hb' e (by simp [he])
  · intro x
    rw [hlist, hs.buf, hs.offset, ← hst.map x]
    cases hx : bytesMap false w.offset w.buf x with
    | some v => rfl
    | none =>
      rw [reqMap_append, reqMap_append, reqMap_append w.before, reqMap_cons req, hmap x hx]
  · rw [hlist, hs.fileSize]
    intro r hr
    simp only [List.mem_append] at hr
    rcases hr with hr | hr | hr
    · exact hst.limit_le r (by simp [hr])
    · have h1 := (hin r hr).2
      have h2 := hst.limit_le req (by simp)
      omega
    · exact hst.limit_le r (by simp [hr])
  · rw [hs.fileSize, hs.offset, hs.buf]
    exact hst.size_eq

/-- The part of a request before `offset`. -/
theorem reqMap_takeFront {req front : WriteRequest} {offset : ℕ} (hlo : req.offset ≤ offset)
    (hhi : offset ≤ req.limit)
    (hfront : front = { req with data := req.data.take (offset - req.offset) }) :
    front.offset = req.offset ∧ front.limit = offset ∧ front.isIp = req.isIp ∧
    ∀ x, x < offset → reqMap [front] x = reqMap [req] x := by
  subst hfront
  have hlen : offset - req.offset ≤ req.data.length := by
    unfold WriteRequest.limit WriteRequest.count at hhi
    omega
  refine ⟨rfl, ?_, rfl, ?_⟩
  · simp only [WriteRequest.limit, WriteRequest.count, List.length_take]
    omega
  · intro x hx
    have htail : bytesMap req.isIp (req.offset + (offset - req.offset))
        (req.data.drop (offset - req.offset)) x = none :=
      bytesMap_eq_none_iff.mpr (Or.inl (by omega))
    rw [reqMap_singleton_eq req, bytesMap_split req.isIp req.offset req.data hlen x, htail,
      Option.or_none, reqMap_singleton_eq]
    rfl

/-- The part of a request from `n` bytes on. -/
theorem reqMap_dropFront {req : WriteRequest} (rest : WriteRequest) {n : ℕ} (hn : n ≤ req.count)
    (hoff : rest.offset = req.offset + n) (hdata : rest.data = req.data.drop n)
    (hip : rest.isIp = req.isIp) :
    rest.limit = req.limit ∧ rest.count = req.count - n ∧
    ∀ x, req.offset + n ≤ x → reqMap [rest] x = reqMap [req] x := by
  have hcount : rest.count = req.count - n := by
    simp only [WriteRequest.count, hdata, List.length_drop]
  refine ⟨?_, hcount, ?_⟩
  · have h1 : rest.limit = rest.offset + rest.count := rfl
    have h2 : req.limit = req.offset + req.count := rfl
    omega
  · intro x hx
    have hlen : (req.data.take n).length ≤ n := by
      rw [List.length_take]
      omega
    rw [reqMap_singleton_eq req, bytesMap_split req.isIp req.offset req.data hn x,
      bytesMap_eq_none_iff.mpr (Or.inr (by omega)), Option.none_or, reqMap_singleton_eq, hoff,
      hdata, hip]

/-! ## Seeking phase -/

/-- Bytes are left to store, and no request before the cursor reaches past the
offset. A request that `prev_req` points to ends at the offset; if it could take
bytes of the write it is full. -/
structure Seeking (cs : ℕ) (target : ℕ → Option (Bool × UInt8)) (size : ℕ) (w : WriteState)
    (after : List WriteRequest) : Prop where
  stored : Stored cs target size w after
  pending : w.buf ≠ []
  before_le : ∀ b ∈ w.before, b.limit ≤ w.offset
  prev_spec : ∀ P, w.prev = some P → w.skipped = [] ∧ P.limit = w.offset ∧
    (P.isIp = false → P.count = cs) ∧ (P.isIp = true → absorbs cs P after = false)
  good : overtakes cs after w.offset w.buf.length = false

/-- A request has been filled up to the offset, and bytes are left. -/
structure Full (cs : ℕ) (target : ℕ → Option (Bool × UInt8)) (size : ℕ) (P : WriteRequest)
    (w : WriteState) (after : List WriteRequest) : Prop where
  updated : Updated cs target size P w after
  pending : w.buf ≠ []
  full : P.count = cs
  offset_eq : w.offset = P.limit
  good : overtakesFull cs after w.offset (w.offset + w.buf.length) = false

theorem absorbs_eq_false {P : WriteRequest} {after : List WriteRequest}
    (h : ∀ q ∈ after, P.limit < q.offset) : absorbs cs P after = false := by
  cases after with
  | nil => rfl
  | cons q rest =>
    have := h q (by simp)
    have hne : ¬ (q.isIp = true ∧ q.offset = P.limit ∧ P.count < cs) := by omega
    simp [absorbs, hne]

/-- A current request that waits for the index partition gives way: it is removed,
truncated or split, and unless it reaches past the end of the write the search
goes on behind it. -/
theorem overlapIp_post {n : ℕ} (ih : ∀ (w : WriteState) (after : List WriteRequest),
      after.length ≤ n → (w.before ++ after).length ≤ len → Seeking cs target size w after →
      WalkPost cs target size len (walk cs n w after))
    {w : WriteState} {req : WriteRequest} {after : List WriteRequest} (hlen : after.length ≤ n)
    (htotal : (w.before ++ req :: after).length ≤ len) (didMerge : Bool)
    (hst : Stored cs target size w (req :: after)) (hpend : w.buf ≠ [])
    (hbefore : ∀ b ∈ w.before, b.limit ≤ w.offset) (hip : req.isIp = true)
    (hlo : req.offset ≤ w.offset) (hhi : w.offset < req.limit)
    (hprev : ∀ P, w.prev = some P → w.skipped = [] ∧ P.limit = w.offset ∧
      (P.isIp = false → P.count = cs))
    (hgood : req.limit ≤ w.offset + w.buf.length →
      overtakes cs after w.offset w.buf.length = false) :
    WalkPost cs target size len (andThen cs n (overlapIp cs didMerge w req after)) := by
  rcases reqsOk_append.mp hst.ok with ⟨hb, hra, hbra⟩
  rcases reqsOk_cons.mp hra with ⟨hrpos, hrle, hrafter, hafter⟩
  have hrl : req.limit = req.offset + req.count := rfl
  have hpos := List.length_pos_iff.mpr hpend
  have hcd : req.data.length = req.count := rfl
  have houtside : ∀ x, bytesMap false w.offset w.buf x = none →
      x < w.offset ∨ w.offset + w.buf.length ≤ x := fun x hx => bytesMap_eq_none_iff.mp hx
  unfold overlapIp
  dsimp only
  by_cases hremove : w.offset = req.offset ∧ w.buf.length ≥ req.count
  · -- remove
    rw [if_pos hremove]
    rcases release_samePlace w req with ⟨hsame, hfs⟩
    have hbe : WriteState.before { w.release req with log := w.log ++ [⟨false, requestIp⟩] }
        = w.before := hsame.before
    have hstored : Stored cs target size
        { w.release req with log := w.log ++ [⟨false, requestIp⟩] } after := by
      refine hst.replace [] _ after (ReqsOk.nil cs) (by simp) ?_ (by rw [hbe]; rfl)
        ⟨hsame.buf, hsame.offset, hfs⟩
      intro x hx
      have hout := houtside x hx
      have hnone : reqMap [req] x = none := by
        rw [reqMap_singleton_eq, bytesMap_eq_none_iff]
        omega
      rw [hnone]
      rfl
    refine ih _ after hlen ?_ ⟨hstored, ?_, ?_, ?_, ?_⟩
    · rw [hbe]
      simp only [List.length_append, List.length_cons] at htotal ⊢
      omega
    · rw [show (WriteState.buf _) = w.buf from hsame.buf]
      exact hpend
    · rw [hbe, show (WriteState.offset _) = w.offset from hsame.offset]
      exact hbefore
    · intro P hP
      have hP' : w.prev = some P := hsame.prev.symm.trans hP
      rcases hprev P hP' with ⟨h1, h2, h3⟩
      refine ⟨hsame.skipped.trans h1, h2.trans hsame.offset.symm, h3, fun _ => ?_⟩
      apply absorbs_eq_false
      intro q hq
      have := hrafter q hq
      omega
    · rw [show (WriteState.offset _) = w.offset from hsame.offset,
        show (WriteState.buf _) = w.buf from hsame.buf]
      exact hgood (by omega)
  · rw [if_neg hremove]
    by_cases hfront : w.offset = req.offset
    · -- truncate from the beginning
      rw [if_pos hfront]
      have hn : w.buf.length ≤ req.count := by omega
      rcases reqMap_dropFront
        { req with offset := req.offset + w.buf.length, data := req.data.drop w.buf.length } hn rfl rfl rfl with ⟨hlim, hcount, hmap⟩
      have hin : insideAny (w.offset + w.buf.length) after = false := by
        rw [insideAny_eq_false]
        intro a ha
        have h1 := hrafter a ha
        have h2 : a.limit = a.offset + a.count := rfl
        omega
      refine insertBefore_post ?_ hpend hbefore (by simp only; omega) hin hlen
      refine hst.replace [_] w _ (reqsOk_singleton.mpr ⟨by omega, by omega⟩) ?_ ?_ rfl
        ⟨rfl, rfl, rfl⟩
      · intro e he
        rw [List.mem_singleton.mp he]
        exact ⟨by simp only; omega, hlim.le⟩
      · intro x hx
        rcases houtside x hx with hlt | hge
        · have h1 : ∀ r ∈ [req], x < r.offset := by
            intro r hr
            rw [List.mem_singleton.mp hr]
            omega
          rw [reqMap_eq_none_of_lt h1]
          apply reqMap_eq_none_of_lt
          intro r hr
          rw [List.mem_singleton.mp hr]
          simp only
          omega
        · exact hmap x (by omega)
    · rw [if_neg hfront]
      rcases reqMap_takeFront hlo hhi.le rfl with ⟨hfo, hfl, hfip, hfmap⟩
      set front : WriteRequest := { req with data := req.data.take (w.offset - req.offset) }
        with hfdef
      have hfl' : front.limit = front.offset + front.count := rfl
      have hfok : ReqsOk cs [front] := reqsOk_singleton.mpr ⟨by omega, by omega⟩
      by_cases hend : w.offset + w.buf.length ≥ req.limit
      · -- truncate from the end
        rw [if_pos hend]
        have hnext : finishVisit didMerge w front after = .next (w.advance front) after := by
          unfold finishVisit
          rw [if_neg]
          rintro ⟨h, -⟩
          omega
        rw [hnext]
        have hstored : Stored cs target size (w.advance front) after := by
          refine hst.replace [front] _ after hfok ?_ ?_ (by simp) ⟨rfl, rfl, rfl⟩
          · intro e he
            rw [List.mem_singleton.mp he]
            omega
          · intro x hx
            rcases houtside x hx with hlt | hge
            · exact hfmap x hlt
            · rw [reqMap_eq_none_of_le, reqMap_eq_none_of_le]
              · intro r hr
                rw [List.mem_singleton.mp hr]
                omega
              · intro r hr
                rw [List.mem_singleton.mp hr]
                omega
        refine ih _ after hlen ?_ ⟨hstored, hpend, ?_, ?_, hgood hend⟩
        · simp only [before_advance, List.length_append, List.length_cons, List.length_nil]
            at htotal ⊢
          omega
        · rw [before_advance]
          intro b hb'
          rcases List.mem_append.mp hb' with hb' | hb'
          · exact hbefore b hb'
          · rw [List.mem_singleton.mp hb', hfl]
            exact le_refl _
        · intro P hP
          obtain rfl : front = P := by
            simpa [WriteState.advance] using hP
          refine ⟨rfl, hfl, fun h => ?_, fun _ => ?_⟩
          · rw [hfip, hip] at h
            cases h
          · apply absorbs_eq_false
            intro q hq
            have := hrafter q hq
            omega
      · -- split
        rw [if_neg hend]
        have hco : req.offset + (w.offset - req.offset + w.buf.length)
            = w.offset + w.buf.length := by omega
        have hdle : (req.data.drop (w.offset - req.offset + w.buf.length)).length ≤ cs := by
          rw [List.length_drop]
          omega
        have hins := insertNewRequest_spec hdle
          (req.offset + (w.offset - req.offset + w.buf.length)) true w
        cases hres : insertNewRequest cs (req.data.drop (w.offset - req.offset + w.buf.length))
          (req.offset + (w.offset - req.offset + w.buf.length)) true w with
        | noMemory w' =>
          rw [hres] at hins
          exact hst.congr hins.1 hins.2
        | wait w' =>
          rw [hres] at hins
          exact hst.congr hins.1 hins.2
        | inserted piece w' =>
          rw [hres] at hins
          rcases hins with ⟨hsame, hfs, hpo, hpd, hpip⟩
          have hn : w.offset - req.offset + w.buf.length ≤ req.count := by omega
          rcases reqMap_dropFront piece hn hpo hpd (hpip.trans hip.symm) with ⟨hplim, hpcount, hpmap⟩
          have hfs' : w'.fileSize = w.fileSize := by
            have := hst.limit_le req (by simp)
            rw [hfs, List.length_drop]
            omega
          have hin : insideAny (w'.offset + w'.buf.length) after = false := by
            rw [insideAny_eq_false, hsame.offset, hsame.buf]
            intro a ha
            have h1 := hrafter a ha
            have h2 : a.limit = a.offset + a.count := rfl
            omega
          have hfront' : ({ req with data := req.data.take (w'.offset - req.offset) } : WriteRequest)
              = front := by
            rw [hsame.offset]
          dsimp only
          rw [hfront']
          refine insertBefore_post ?_ ?_ ?_ ?_ (by exact hin) hlen
          · refine hst.replace [front, piece] { w' with skipped := w'.skipped ++ [front] } _
              ?_ ?_ ?_ ?_ ⟨hsame.buf, hsame.offset, hfs'⟩
            · rw [reqsOk_cons]
              refine ⟨by omega, by omega, ?_, reqsOk_singleton.mpr ⟨by omega, by omega⟩⟩
              intro e he
              rw [List.mem_singleton.mp he]
              omega
            · intro e he
              simp only [List.mem_cons, List.not_mem_nil, or_false] at he
              rcases he with rfl | rfl
              · omega
              · omega
            · intro x hx
              rw [reqMap_cons front]
              rcases houtside x hx with hlt | hge
              · rw [hfmap x hlt, reqMap_eq_none_of_lt (l := [piece]), Option.or_none]
                intro r hr
                rw [List.mem_singleton.mp hr]
                omega
              · rw [hpmap x (by omega), reqMap_eq_none_of_le (l := [front]), Option.none_or]
                intro r hr
                rw [List.mem_singleton.mp hr]
                omega
            · rw [before_skip, hsame.before]
              simp
          · rw [show (WriteState.buf _) = w.buf from hsame.buf]
            exact hpend
          · rw [before_skip, hsame.before, show (WriteState.offset _) = w.offset from hsame.offset]
            intro b hb'
            rcases List.mem_append.mp hb' with hb' | hb'
            · exact hbefore b hb'
            · rw [List.mem_singleton.mp hb', hfl]
          · rw [show (WriteState.offset _) = w.offset from hsame.offset]
            omega

/-! ## The walk -/

@[simp] theorem map_promote_none (l : List WriteRequest) : l.map (promote none) = l := by
  have : promote none = id := rfl
  rw [this, List.map_id]

theorem promoteLog_none (l : List WriteRequest) : promoteLog none l = [] := by
  simp [promoteLog, promote]

/-- A predecessor that ends where the current request starts, or before, and may
not take bytes of it leaves everything as it is. -/
theorem mergeStep_noop {P req : WriteRequest} {w : WriteState} (after : List WriteRequest)
    (hprev : w.prev = some P) (hle : P.limit ≤ req.offset)
    (hno : ¬ (sameTarget P req ∧ P.count < cs)) :
    mergeStep cs w req after = (some (false, req), w, after) := by
  have hmerge : mergeRequests cs P req = ⟨0, P, req, false, none, []⟩ := by
    unfold mergeRequests
    by_cases hgap : req.offset > P.limit
    · rw [if_pos hgap]
    · rw [if_neg hgap, show P.limit - req.offset = 0 by omega]
      rw [if_neg (by tauto)]
      rfl
  have hw : w.merged ⟨0, P, req, false, none, []⟩ req after = w := by
    simp [WriteState.merged, promoteLog_none, ← hprev]
  simp [mergeStep, hprev, hmerge, hw]

/-- Stored bytes of a list whose current request has been moved into its
predecessor: a request that fits there completely. -/
theorem mergeStep_absorb {P req : WriteRequest} {w : WriteState} (after : List WriteRequest)
    (hprev : w.prev = some P) (heq : P.limit = req.offset) (hpos : 0 < req.count)
    (htarget : sameTarget P req) (hroom : P.count < cs) (hfit : P.count + req.count ≤ cs) :
    (mergeStep cs w req after).1 = none := by
  have hret : (mergeRequests cs P req).ret = 2 := by
    unfold mergeRequests
    rw [if_neg (by omega)]
    dsimp only
    rw [if_pos ⟨htarget, hroom, by omega⟩]
    have hPl : P.limit = P.offset + P.count := rfl
    have hlo : P.offset ≤ req.offset + (P.limit - req.offset) := by omega
    have hu := updateRequest_spec cs (req.data.drop (P.limit - req.offset)) hlo (by omega)
    have htaken := hu.taken
    rw [List.length_drop] at htaken
    have hcount : req.data.length = req.count := rfl
    unfold trimSource
    rw [if_pos (by omega), if_neg (by rw [promote_count]; omega)]
  simp [mergeStep, hprev, hret]

/-- Requests that end before the write play no role. -/
theorem overtakes_append {l : List WriteRequest} {offset : ℕ} (h : ∀ r ∈ l, r.limit < offset)
    (l' : List WriteRequest) (n : ℕ) :
    overtakes cs (l ++ l') offset n = overtakes cs l' offset n := by
  induction l with
  | nil => rfl
  | cons r l ih =>
    have hr := h r (by simp)
    rw [List.cons_append, overtakes, if_pos hr]
    exact ih fun q hq => h q (by simp [hq])

/-- The induction hypotheses of the walk: from both phases with bytes left it
ends well. -/
structure WalkIh (cs : ℕ) (target : ℕ → Option (Bool × UInt8)) (size len n : ℕ) : Prop where
  seeking : ∀ (w : WriteState) (after : List WriteRequest), after.length ≤ n →
    (w.before ++ after).length ≤ len → Seeking cs target size w after →
    WalkPost cs target size len (walk cs n w after)
  full : ∀ (P : WriteRequest) (w : WriteState) (after : List WriteRequest), after.length ≤ n →
    (w.before ++ after).length ≤ len → Full cs target size P w after →
    WalkPost cs target size len (walk cs n w after)

/-- The current request is one the write can reach: update it, make room in it,
or go on behind it. -/
theorem overlapVisit_seeking {n : ℕ} (ih : WalkIh cs target size len n) {w : WriteState}
    {req : WriteRequest} {after : List WriteRequest} (hlen : after.length ≤ n)
    (htotal : (w.before ++ req :: after).length ≤ len)
    (h : Seeking cs target size w (req :: after)) (hlo : req.offset ≤ w.offset)
    (hhi : w.offset ≤ req.limit) :
    WalkPost cs target size len (andThen cs n (overlapVisit cs false w req after)) := by
  rcases reqsOk_append.mp h.stored.ok with ⟨hb, hra, hbra⟩
  rcases reqsOk_cons.mp hra with ⟨hrpos, hrle, hrafter, hafter⟩
  have hpos := List.length_pos_iff.mpr h.pending
  have hrl : req.limit = req.offset + req.count := rfl
  have hgood := h.good
  rw [overtakes, if_neg (by omega), if_neg (by omega)] at hgood
  unfold overlapVisit
  rw [if_neg (by omega), if_neg (by omega)]
  have hboundary : w.offset = req.limit → (req.isIp = false → req.count = cs) →
      (req.isIp = true → absorbs cs req after = false) →
      overtakes cs after w.offset w.buf.length = false →
      WalkPost cs target size len (andThen cs n (finishVisit false w req after)) := by
    intro heq hfull habs hrest
    have hnext : finishVisit false w req after = .next (w.advance req) after := by
      unfold finishVisit
      rw [if_neg]
      rintro ⟨h0, -⟩
      omega
    rw [hnext]
    refine ih.seeking _ after hlen (by simpa using htotal) ⟨?_, h.pending, ?_, ?_, hrest⟩
    · refine ⟨by simpa using h.stored.ok, h.stored.fits, ?_, ?_, h.stored.size_eq⟩
      · intro x
        rw [before_advance, List.append_assoc]
        exact h.stored.map x
      · intro r hr
        exact h.stored.limit_le r (by simpa using hr)
    · rw [before_advance]
      intro b hb'
      rcases List.mem_append.mp hb' with hb' | hb'
      · exact h.before_le b hb'
      · rw [List.mem_singleton.mp hb']
        exact heq.symm.le
    · intro P hP
      obtain rfl : req = P := by
        simpa [WriteState.advance] using hP
      exact ⟨rfl, heq.symm, hfull, habs⟩
  cases hip : req.isIp with
  | true =>
    have hstate : req.state = requestIp := by
      simpa [WriteRequest.isIp] using hip
    rw [hip, if_pos rfl] at hgood
    rw [if_neg (by simp [hstate])]
    by_cases hlt : w.offset < req.limit
    · rw [if_pos ⟨hstate, hlt⟩]
      rw [if_neg (by omega)] at hgood
      refine overlapIp_post ih.seeking hlen htotal false h.stored h.pending h.before_le hip hlo hlt
        ?_ ?_
      · intro P hP
        rcases h.prev_spec P hP with ⟨h1, h2, h3, -⟩
        exact ⟨h1, h2, h3⟩
      · intro hreach
        rwa [if_neg (by omega)] at hgood
    · rw [if_neg (by tauto)]
      have heq : w.offset = req.limit := by omega
      rw [if_pos heq, Bool.or_eq_false_iff] at hgood
      exact hboundary heq (by simp [hip]) (fun _ => hgood.1) hgood.2
  | false =>
    have hstate : req.state ≠ requestIp := by
      simpa [WriteRequest.isIp] using hip
    rw [hip, if_neg (by simp)] at hgood
    by_cases htake : w.offset < req.limit ∨ w.offset = req.limit ∧ req.count < cs
    · rw [if_pos ⟨hstate, htake⟩]
      rw [if_neg (by omega)] at hgood
      by_cases hroom : w.offset + w.buf.length ≤ req.offset + cs
      · rw [if_pos hroom] at hgood
        exact updateVisit_post h.stored hip hlo hhi hroom hgood hlen
      · -- the request is filled up and bytes are left
        rw [if_neg hroom] at hgood
        rcases updateVisit_spec h.stored hip hlo hhi
          with ⟨p, P, w', hvisit, hup, hPoff, hPlim, hoff, hbuf, hbl⟩
        have hmin : min w.buf.length (req.offset + cs - w.offset) = req.offset + cs - w.offset := by
          omega
        rw [hmin] at hoff hbuf
        have hcap : w'.offset = req.offset + cs := by omega
        have hlen' : w'.buf.length = w.buf.length - (req.offset + cs - w.offset) := by
          rw [hbuf, List.length_drop]
        have hPl : P.limit = P.offset + P.count := rfl
        rw [hvisit]
        refine ih.full P w' _ (by simpa using hlen) ?_ ⟨hup, ?_, by omega, by omega, ?_⟩
        · simp only [List.length_append, List.length_cons, List.length_map] at htotal ⊢
          omega
        · intro hnil
          rw [hnil, List.length_nil] at hlen'
          omega
        · rw [overtakesFull_map_promote, hcap, hlen']
          rw [show req.offset + cs + (w.buf.length - (req.offset + cs - w.offset))
            = w.offset + w.buf.length by omega]
          exact hgood
    · rw [if_neg (by tauto), if_neg (by tauto)]
      have heq : w.offset = req.limit := by omega
      have hfull : req.count = cs := by omega
      rw [if_pos ⟨heq, hfull⟩] at hgood
      exact hboundary heq (fun _ => hfull) (by simp [hip]) hgood

/-- The one harmless absorption: the current request is the last one and moves into
its predecessor as a whole. The list can be walked again, and no request is
overtaken then. -/
theorem visit_absorb {n : ℕ} {P req : WriteRequest} {w : WriteState} {after : List WriteRequest}
    (htotal : (w.before ++ req :: after).length ≤ len)
    (h : Seeking cs target size w (req :: after)) (hp : w.prev = some P)
    (htarget : sameTarget P req) (hroom : P.count < cs) (hle : req.offset ≤ w.offset) :
    WalkPost cs target size len (andThen cs n (match mergeStep cs w req after with
      | (none, w, after) => .next w after
      | (some (didMerge, req), w, after) => overlapVisit cs didMerge w req after)) := by
  rcases h.prev_spec P hp with ⟨hsk, hPlim, hPfull, hPabs⟩
  have hbe : w.before = w.passed ++ [P] := by simp [WriteState.before, hp, hsk]
  rcases reqsOk_append.mp h.stored.ok with ⟨hb, hra, hbra⟩
  rw [hbe] at hb
  rcases reqsOk_append.mp hb with ⟨hpassed, hP, hpassedP⟩
  rcases reqsOk_singleton.mp hP with ⟨hPpos, -⟩
  rcases reqsOk_cons.mp hra with ⟨hrpos, -, -, -⟩
  have hPreq := hbra P (by simp [hbe]) req (by simp)
  have hPl : P.limit = P.offset + P.count := rfl
  have hrl : req.limit = req.offset + req.count := rfl
  have heq : req.offset = P.limit := by omega
  have hPip : P.isIp = true := by
    by_contra hno
    have := hPfull (by simpa using hno)
    omega
  have hrip : req.isIp = true := (sameTarget_iff.mp htarget).symm.trans hPip
  -- what `absorbs` leaves
  have hlast : after = [] ∧ P.count + req.count ≤ cs := by
    have := hPabs hPip
    simpa [absorbs, hrip, heq, hroom] using this
  rcases hlast with ⟨rfl, hfit⟩
  have hj : Joined cs P w [req] := by
    refine ⟨hp, hsk, hb, hra, ?_, ?_, ?_⟩
    · intro b hb' a ha
      exact hbra b (by simp [hbe, hb']) a ha
    · intro a ha
      rw [List.mem_singleton.mp ha]
      omega
    · intro r hr
      refine h.stored.limit_le r ?_
      rw [hbe, List.append_assoc]
      exact hr
  have hnone := mergeStep_absorb [] hp heq.symm hrpos htarget hroom hfit
  rcases mergeStep_spec hj with ⟨p, w', hsame, hpass, ⟨P', hstep, hj', hP'ip, hP'off, hP'lim, hmap⟩ |
    ⟨d, req', hstep, -⟩⟩
  · rw [hstep]
    have hbe' : w'.before = w'.passed ++ [P'] := hj'.before_eq
    have hpassed' : ∀ b ∈ w'.passed, b.limit < w'.offset := by
      rw [hpass]
      intro b hb'
      rcases List.mem_map.mp hb' with ⟨b', hb'', rfl⟩
      have := hpassedP b' hb'' P (by simp)
      rw [promote_limit, hsame.offset]
      omega
    simp only [andThen, List.map_nil, walk_nil]
    refine ⟨⟨?_, ?_, ?_, ?_, ?_⟩, fun _ => Or.inr ⟨?_, ?_⟩⟩
    · exact hj'.reqsOk (by simp)
    · rw [hsame.buf]
      exact h.stored.fits
    · intro x
      have hx := hmap x
      rw [List.map_nil] at hx
      rw [hsame.offset, hsame.buf, hbe', List.append_assoc, ← h.stored.map x, hbe,
        List.append_assoc]
      exact congrArg _ hx
    · rw [hbe', List.append_assoc]
      exact hj'.limit_le
    · rw [hsame.fileSize, hsame.offset, hsame.buf]
      exact h.stored.size_eq
    · rw [hbe', hpass]
      rw [hbe] at htotal
      simp only [List.length_append, List.length_map, List.length_cons, List.length_nil] at htotal ⊢
      omega
    · have hip : P'.isIp = true := hP'ip.trans hPip
      rw [hbe', List.append_assoc, overtakes_append hpassed']
      simp only [List.singleton_append, overtakes]
      rw [hsame.offset, if_neg (by omega), if_neg (by omega), hip, if_pos rfl, if_neg (by omega)]
      split <;> rfl
  · rw [hstep] at hnone
    cases hnone

/-- One visit with bytes left and nothing before the cursor past the offset. -/
theorem visit_seeking {n : ℕ} (ih : WalkIh cs target size len n) {w : WriteState}
    {req : WriteRequest} {after : List WriteRequest} (hlen : after.length ≤ n)
    (htotal : (w.before ++ req :: after).length ≤ len)
    (h : Seeking cs target size w (req :: after)) :
    WalkPost cs target size len (andThen cs n (visit cs w req after)) := by
  rcases reqsOk_append.mp h.stored.ok with ⟨hb, hra, hbra⟩
  rcases reqsOk_cons.mp hra with ⟨hrpos, hrle, hrafter, hafter⟩
  have hpos := List.length_pos_iff.mpr h.pending
  have hrl : req.limit = req.offset + req.count := rfl
  have hgood := h.good
  unfold visit
  by_cases hskip : w.offset > req.limit
  · -- the write belongs farther down the queue
    rw [if_pos hskip]
    rw [overtakes, if_pos hskip] at hgood
    have hnone : w.prev = none := by
      cases hp : w.prev with
      | none => rfl
      | some P =>
        rcases h.prev_spec P hp with ⟨-, h2, -⟩
        have h3 : P ∈ w.before := by simp [WriteState.before, hp]
        have h4 := hbra P h3 req (by simp)
        omega
    refine ih.seeking _ after hlen ?_ ⟨?_, h.pending, ?_, ?_, hgood⟩
    · rw [before_skip, List.append_assoc]
      exact htotal
    · refine ⟨?_, h.stored.fits, ?_, ?_, h.stored.size_eq⟩
      · rw [before_skip, List.append_assoc]
        exact h.stored.ok
      · intro x
        rw [before_skip, List.append_assoc]
        exact h.stored.map x
      · rw [before_skip, List.append_assoc]
        exact h.stored.limit_le
    · rw [before_skip]
      intro b hb'
      rcases List.mem_append.mp hb' with hb' | hb'
      · exact h.before_le b hb'
      · rw [List.mem_singleton.mp hb']
        exact hskip.le
    · intro P hP
      rw [show (WriteState.prev _) = w.prev from rfl, hnone] at hP
      cases hP
  · rw [if_neg hskip]
    by_cases hins : w.offset < req.offset
    · rw [if_pos ⟨hpos, hins⟩]
      rw [overtakes, if_neg hskip, if_pos hins] at hgood
      exact insertBefore_post h.stored h.pending h.before_le hins hgood hlen
    · rw [if_neg (by tauto)]
      cases hp : w.prev with
      | none =>
        rw [show mergeStep cs w req after = (some (false, req), w, after) by simp [mergeStep, hp]]
        exact overlapVisit_seeking ih hlen htotal h (by omega) (by omega)
      | some P =>
        rcases h.prev_spec P hp with ⟨hsk, hPlim, hPfull, hPabs⟩
        have hPmem : P ∈ w.before := by simp [WriteState.before, hp]
        have hPreq := hbra P hPmem req (by simp)
        by_cases habs : sameTarget P req ∧ P.count < cs
        · -- the current request moves into its predecessor; it is the last one and fits
          exact visit_absorb htotal h hp habs.1 habs.2 (by omega)
        · rw [mergeStep_noop after hp hPreq habs]
          exact overlapVisit_seeking ih hlen htotal h (by omega) (by omega)

/-- An updated request that does not reach into the next one. -/
theorem Updated.stored {P : WriteRequest} {w : WriteState} {after : List WriteRequest}
    (h : Updated cs target size P w after) (hle : ∀ a ∈ after, P.limit ≤ a.offset) :
    Stored cs target size w after := by
  have hbe := h.joined.before_eq
  refine ⟨h.joined.reqsOk hle, h.fits, ?_, ?_, h.size_eq⟩
  · intro x
    rw [hbe, List.append_assoc]
    exact h.map x
  · rw [hbe, List.append_assoc]
    exact h.joined.limit_le

theorem Joined.before_le {P : WriteRequest} {w : WriteState} {after : List WriteRequest}
    (h : Joined cs P w after) : ∀ b ∈ w.before, b.limit ≤ P.limit := by
  rw [h.before_eq]
  intro b hb
  have hPl : P.limit = P.offset + P.count := rfl
  rcases reqsOk_append.mp h.ok with ⟨-, -, hpassedP⟩
  rcases List.mem_append.mp hb with hb | hb
  · have := hpassedP b hb P (by simp)
    omega
  · rw [List.mem_singleton.mp hb]

/-- One visit behind a filled request. -/
theorem visit_full {n : ℕ} (ih : WalkIh cs target size len n) {P req : WriteRequest}
    {w : WriteState} {after : List WriteRequest} (hlen : after.length ≤ n)
    (htotal : (w.before ++ req :: after).length ≤ len)
    (h : Full cs target size P w (req :: after)) :
    WalkPost cs target size len (andThen cs n (visit cs w req after)) := by
  have hj := h.updated.joined
  have hbe := hj.before_eq
  rcases reqsOk_cons.mp hj.after_ok with ⟨hrpos, hrle, hrafter, hafter⟩
  have hpos := List.length_pos_iff.mpr h.pending
  have hfits := h.updated.fits
  have hrl : req.limit = req.offset + req.count := rfl
  have hPl : P.limit = P.offset + P.count := rfl
  have hoffset := h.offset_eq
  have hfull := h.full
  have hgood := h.good
  rw [overtakesFull] at hgood
  have hnot : ¬ req.limit < w.offset := by
    intro hlt
    rw [if_pos hlt] at hgood
    cases hgood
  rw [if_neg hnot] at hgood
  unfold visit
  rw [if_neg (by omega)]
  by_cases hins : w.offset < req.offset
  · -- a gap behind the filled request
    rw [if_pos ⟨hpos, hins⟩]
    rw [if_neg (by omega), if_pos (Or.inl hins)] at hgood
    refine insertBefore_post (h.updated.stored ?_) h.pending (by rw [hoffset]; exact hj.before_le)
      hins hgood hlen
    intro a ha
    rcases List.mem_cons.mp ha with rfl | ha
    · omega
    · have := hrafter a ha
      omega
  · rw [if_neg (by tauto)]
    rcases mergeStep_spec hj with ⟨p, w', hsame, hpass, hfreed | hkept⟩
    · -- the current request ends with the filled one
      rcases hfreed with ⟨P', hstep, hj', hP'ip, hP'off, hP'lim, hmap⟩
      rw [hstep]
      have hP'l : P'.limit = P'.offset + P'.count := rfl
      have hP'count := (reqsOk_append.mp hj'.ok).2.1.count_le P' (by simp)
      have hreqlim : req.limit = w.offset := by omega
      rw [if_pos hreqlim, Nat.add_sub_cancel_left] at hgood
      have hstart : ∀ a ∈ after.map (promote p), P'.limit ≤ a.offset := by
        intro a ha
        rcases List.mem_map.mp ha with ⟨a', ha', rfl⟩
        have := hrafter a' ha'
        rw [promote_offset]
        omega
      have hoff' : P'.limit = w'.offset := by
        rw [hsame.offset]
        omega
      have hup : Updated cs target size P' w' (after.map (promote p)) := by
        refine ⟨hj', hP'ip.trans h.updated.notIp, by rw [hsame.buf]; exact hfits, ?_, ?_⟩
        · intro x
          rw [hsame.offset, hsame.buf, hmap x]
          exact h.updated.map x
        · rw [hsame.fileSize, hsame.offset, hsame.buf]
          exact h.updated.size_eq
      refine ih.seeking w' _ (by simpa using hlen) ?_ ⟨hup.stored hstart, ?_, ?_, ?_, ?_⟩
      · rw [hj'.before_eq, hpass]
        rw [hbe] at htotal
        simp only [List.length_append, List.length_map, List.length_cons, List.length_nil]
          at htotal ⊢
        omega
      · rw [hsame.buf]
        exact h.pending
      · rw [← hoff']
        exact hj'.before_le
      · intro Q hQ
        obtain rfl : P' = Q := by
          rw [hj'.prev] at hQ
          simpa using hQ
        refine ⟨hj'.skipped, hoff', fun _ => by omega, fun hip => ?_⟩
        rw [hup.notIp] at hip
        cases hip
      · rw [overtakes_map_promote, hsame.offset, hsame.buf]
        exact hgood
    · -- what is left of the current request starts at the offset
      rcases hkept with ⟨didMerge, req', hstep, hj', hlim, hip', hP', hmap⟩
      rcases hP' with ⟨P', hprev', hskip', hP'ip, hP'off, hP'ge, hP'count, hreq'⟩
      rw [hstep]
      dsimp only
      have hP'l : P'.limit = P'.offset + P'.count := rfl
      have hreq'pos := (reqsOk_append.mp hj'.ok).2.1.count_pos req' (by simp)
      have hreq'l : req'.limit = req'.offset + req'.count := rfl
      have hw'off := hsame.offset
      have hPP' : P'.limit = w.offset := by omega
      have hbe' : w'.before = w'.passed ++ [P'] := by
        simp [WriteState.before, hprev', hskip']
      have hstart : ∀ a ∈ after.map (promote p), req'.limit ≤ a.offset := by
        intro a ha
        rcases List.mem_map.mp ha with ⟨a', ha', rfl⟩
        rw [promote_offset, hlim]
        exact hrafter a' ha'
      have hst : Stored cs target size w' (req' :: after.map (promote p)) := by
        have hok := hj'.reqsOk hstart
        rw [before_advance, List.append_assoc] at hok
        refine ⟨hok, by rw [hsame.buf]; exact hfits, ?_, ?_, ?_⟩
        · intro x
          have hx := hmap x
          rw [before_advance, List.append_assoc] at hx
          rw [hsame.offset, hsame.buf, ← h.updated.map x, ← hx]
          rfl
        · intro r hr
          have hr' : r ∈ (w'.advance req').passed ++ req' :: after.map (promote p) := hr
          exact hj'.limit_le r hr'
        · rw [hsame.fileSize, hsame.offset, hsame.buf]
          exact h.updated.size_eq
      have hpend : w'.buf ≠ [] := by
        rw [hsame.buf]
        exact h.pending
      have hlen' : w'.buf.length = w.buf.length := by rw [hsame.buf]
      have hbefore : ∀ b ∈ w'.before, b.limit ≤ w'.offset := by
        have hpassedP' : ∀ b ∈ w'.passed, b.limit ≤ P'.offset := by
          rw [hpass]
          intro b hb
          rcases List.mem_map.mp hb with ⟨b', hb', rfl⟩
          have := (reqsOk_append.mp hj.ok).2.2 b' hb' P (by simp)
          rw [promote_limit]
          omega
        rw [hbe']
        intro b hb
        rcases List.mem_append.mp hb with hb | hb
        · have := hpassedP' b hb
          omega
        · rw [List.mem_singleton.mp hb]
          omega
      rw [if_neg (by omega)] at hgood
      unfold overlapVisit
      rw [if_neg (by omega), if_neg (by omega)]
      cases hip : req'.isIp with
      | false =>
        have hstate : req'.state ≠ requestIp := by
          simpa [WriteRequest.isIp] using hip
        rw [if_pos ⟨hstate, Or.inl (by omega)⟩]
        rw [if_pos (Or.inr (by simp [← hip', hip]))] at hgood
        refine updateVisit_post hst hip (by omega) (by omega) (by omega) ?_ (by simpa using hlen)
        rw [insideAny_map_promote, hw'off, hlen']
        exact hgood
      | true =>
        have hstate : req'.state = requestIp := by
          simpa [WriteRequest.isIp] using hip
        rw [if_neg (by simp [hstate]), if_pos ⟨hstate, by omega⟩]
        rw [if_neg (by simp [← hip', hip]; omega)] at hgood
        refine overlapIp_post ih.seeking (by simpa using hlen) ?_ didMerge hst hpend hbefore hip
          (by omega) (by omega) ?_ ?_
        · rw [hbe', hpass]
          rw [hbe] at htotal
          simp only [List.length_append, List.length_map, List.length_cons, List.length_nil]
            at htotal ⊢
          omega
        · intro Q hQ
          obtain rfl : P' = Q := by
            rw [hprev'] at hQ
            simpa using hQ
          exact ⟨hskip', by omega, fun _ => by omega⟩
        · intro hreach
          rw [overtakes_map_promote, hw'off, hlen']
          rwa [if_pos (by omega), Nat.add_sub_cancel_left] at hgood

/-- The walk, from both phases with bytes left. -/
theorem walk_post (n : ℕ) : WalkIh cs target size len n := by
  induction n with
  | zero =>
    constructor
    · intro w after hlen _ h
      obtain rfl : after = [] := List.eq_nil_of_length_eq_zero (by omega)
      rw [walk_nil]
      exact ⟨h.stored, fun _ => Or.inl (by simpa using h.before_le)⟩
    · intro P w after hlen _ h
      obtain rfl : after = [] := List.eq_nil_of_length_eq_zero (by omega)
      rw [walk_nil]
      refine ⟨h.updated.stored (by simp), fun _ => Or.inl ?_⟩
      rw [List.append_nil, h.offset_eq]
      exact h.updated.joined.before_le
  | succ n ih =>
    constructor
    · intro w after hlen htotal h
      cases after with
      | nil =>
        rw [walk_nil]
        exact ⟨h.stored, fun _ => Or.inl (by simpa using h.before_le)⟩
      | cons req after =>
        rw [walk_cons]
        exact visit_seeking ih (by simpa using hlen) htotal h
    · intro P w after hlen htotal h
      cases after with
      | nil =>
        rw [walk_nil]
        refine ⟨h.updated.stored (by simp), fun _ => Or.inl ?_⟩
        rw [List.append_nil, h.offset_eq]
        exact h.updated.joined.before_le
      | cons req after =>
        rw [walk_cons]
        exact visit_full ih (by simpa using hlen) htotal h

/-! ## The whole attempt -/

/-- What holds of a request list and the rest of a write, at any time of an
attempt: the list is in order, the bytes of both are `target`, and `size` is the
file size once the write is complete. -/
structure ListPost (cs : ℕ) (target : ℕ → Option (Bool × UInt8)) (size : ℕ)
    (requests : List WriteRequest) (w : WriteState) : Prop where
  ok : ReqsOk cs requests
  fits : w.buf.length ≤ cs
  map : ∀ x, (bytesMap false w.offset w.buf x).or (reqMap requests x) = target x
  limit_le : ∀ r ∈ requests, r.limit ≤ w.fileSize
  size_eq : max w.fileSize (w.offset + w.buf.length) = size

/-- What an attempt to write leaves behind. -/
structure AttemptPost (cs : ℕ) (target : ℕ → Option (Bool × UInt8)) (size : ℕ)
    (r : WriteResult) : Prop where
  list : ListPost cs target size r.requests r.state
  ends : r.outcome ≠ .diverges
  stored : r.outcome = .done → r.state.buf = []

theorem ListPost.congr {w w' : WriteState} {requests : List WriteRequest}
    (h : ListPost cs target size requests w) (hs : SamePlace w w') (hf : w'.fileSize = w.fileSize) :
    ListPost cs target size requests w' := by
  refine ⟨h.ok, ?_, ?_, ?_, ?_⟩
  · rw [hs.buf]
    exact h.fits
  · rw [hs.buf, hs.offset]
    exact h.map
  · rw [hf]
    exact h.limit_le
  · rw [hf, hs.offset, hs.buf]
    exact h.size_eq

theorem Stored.listPost {w : WriteState} {after : List WriteRequest}
    (h : Stored cs target size w after) : ListPost cs target size (w.before ++ after) w :=
  ⟨h.ok, h.fits, h.map, h.limit_le, h.size_eq⟩

/-- Behind all requests new ones can be appended. -/
theorem appendRequests_post {requests : List WriteRequest} {w : WriteState}
    (h : ListPost cs target size requests w) (hend : ∀ r ∈ requests, r.limit ≤ w.offset) :
    AttemptPost cs target size (appendRequests cs requests w) := by
  unfold appendRequests
  by_cases hbuf : w.buf.length > 0
  · rw [if_pos hbuf]
    have hins := insertNewRequest_spec h.fits w.offset false w
    cases hres : insertNewRequest cs w.buf w.offset false w with
    | noMemory w' =>
      rw [hres] at hins
      exact ⟨h.congr hins.1 hins.2, by simp, by simp⟩
    | wait w' =>
      rw [hres] at hins
      exact ⟨h.congr hins.1 hins.2, by simp, by simp⟩
    | inserted new w' =>
      rw [hres] at hins
      rcases hins with ⟨hsame, hfs, hoff, hdata, hip⟩
      have hcount : new.count = w.buf.length := by
        simp only [WriteRequest.count, hdata]
      have hlim : new.limit = w.offset + w.buf.length := by
        simp only [WriteRequest.limit, hoff, hcount]
      have hfits := h.fits
      have hsize := h.size_eq
      refine ⟨⟨?_, by simp, ?_, ?_, ?_⟩, by simp, fun _ => rfl⟩
      · rw [reqsOk_append, reqsOk_singleton]
        refine ⟨h.ok, ⟨by omega, by omega⟩, ?_⟩
        intro r hr a ha
        rw [List.mem_singleton.mp ha, hoff]
        exact hend r hr
      · intro x
        have hnew : reqMap [new] x = bytesMap false w.offset w.buf x := by
          rw [reqMap_singleton_eq, hip, hoff, hdata]
        simp only [bytesMap_nil, Option.none_or]
        rw [reqMap_append, hnew, ← h.map x]
        cases hx : bytesMap false w.offset w.buf x with
        | none => rw [Option.or_none, Option.none_or]
        | some v =>
          have hout := mt bytesMap_eq_none_iff.mpr (by rw [hx]; simp)
          rw [reqMap_eq_none_of_le, Option.none_or]
          · rfl
          · intro r hr
            have := hend r hr
            omega
      · intro r hr
        simp only [hfs]
        rcases List.mem_append.mp hr with hr | hr
        · have := h.limit_le r hr
          omega
        · rw [List.mem_singleton.mp hr]
          omega
      · simp only [hfs, hsame.offset, hsame.buf, List.length_nil]
        omega
  · rw [if_neg hbuf]
    have hnil : w.buf = [] := List.eq_nil_of_length_eq_zero (by omega)
    exact ⟨h, by simp, fun _ => hnil⟩

theorem appendAtEnd_post {requests : List WriteRequest} {w : WriteState}
    (h : ListPost cs target size requests w) (hend : ∀ r ∈ requests, r.limit ≤ w.offset) :
    AttemptPost cs target size (appendAtEnd cs requests w) := by
  unfold appendAtEnd
  cases hlast : requests.getLast? with
  | none => exact appendRequests_post h hend
  | some req =>
    dsimp only
    by_cases hup : req.count < cs ∧ w.offset = req.limit ∧ req.state ≠ requestIp
    · rw [if_pos hup]
      rcases hup with ⟨hroom, heq, hstate⟩
      obtain ⟨init, rfl⟩ : ∃ init, requests = init ++ [req] := by
        rw [List.getLast?_eq_some_iff] at hlast
        exact hlast
      rcases reqsOk_append.mp h.ok with ⟨hinit, hreq, hinitreq⟩
      have hip : req.isIp = false := by simpa [WriteRequest.isIp] using hstate
      have hrl : req.limit = req.offset + req.count := rfl
      have hu := updateRequest_spec cs w.buf (by omega : req.offset ≤ w.offset) heq.le
      set u := updateRequest cs w.buf w.offset req with hudef
      have hul : u.2.1.limit = u.2.1.offset + u.2.1.count := rfl
      have htaken := hu.taken
      have hulim := hu.limit_eq
      have huoff := hu.offset_eq
      have hpos := (reqsOk_singleton.mp hreq).1
      rw [List.dropLast_concat]
      apply appendRequests_post
      · refine ⟨?_, ?_, ?_, ?_, ?_⟩
        · rw [reqsOk_append, reqsOk_singleton]
          refine ⟨hinit.map_promote _, ⟨by omega, by omega⟩, ?_⟩
          intro r hr a ha
          rcases List.mem_map.mp hr with ⟨r', hr', rfl⟩
          have := hinitreq r' hr' req (by simp)
          rw [List.mem_singleton.mp ha, promote_limit]
          omega
        · have := h.fits
          simp only [List.length_drop]
          omega
        · intro x
          have hcut : u.1 ≤ w.buf.length := by omega
          have hm := h.map x
          rw [reqMap_append] at hm ⊢
          rw [reqMap_map_promote, hu.map_eq x, hip, ← hm, bytesMap_split false w.offset w.buf hcut x]
          have hd1 : bytesMap false w.offset (w.buf.take u.1) x ≠ none → reqMap init x = none := by
            intro hx
            apply reqMap_eq_none_of_le
            intro b hb
            have h1 := hinitreq b hb req (by simp)
            have h2 := mt bytesMap_eq_none_iff.mpr hx
            omega
          have hd2 : bytesMap false (w.offset + u.1) (w.buf.drop u.1) x ≠ none →
              bytesMap false w.offset (w.buf.take u.1) x = none := by
            intro hx
            have h2 := mt bytesMap_eq_none_iff.mpr hx
            rw [bytesMap_eq_none_iff, List.length_take]
            omega
          have := or_split (r := reqMap [req] x) (l := none) hd1 hd2
          simpa only [Option.or_none] using this
        · intro r hr
          rcases List.mem_append.mp hr with hr | hr
          · rcases List.mem_map.mp hr with ⟨r', hr', rfl⟩
            have := h.limit_le r' (by simp [hr'])
            simp only [promote_limit]
            omega
          · rw [List.mem_singleton.mp hr]
            simp only
            omega
        · have h1 := h.size_eq
          have h2 := h.limit_le req (by simp)
          simp only [List.length_drop]
          omega
      · intro r hr
        simp only
        rcases List.mem_append.mp hr with hr | hr
        · rcases List.mem_map.mp hr with ⟨r', hr', rfl⟩
          have := hend r' (by simp [hr'])
          rw [promote_limit]
          omega
        · rw [List.mem_singleton.mp hr]
          omega
    · rw [if_neg hup]
      exact appendRequests_post h hend

/-- The last request of a list in order ends last. -/
theorem ReqsOk.limit_le_last {requests : List WriteRequest} (h : ReqsOk cs requests) {offset : ℕ}
    (hlast : (requests.getLast?.map WriteRequest.limit).getD 0 ≤ offset) :
    ∀ r ∈ requests, r.limit ≤ offset := by
  rcases List.eq_nil_or_concat requests with rfl | ⟨init, req, rfl⟩
  · simp
  · rw [List.concat_eq_append] at h hlast ⊢
    rw [List.getLast?_concat] at hlast
    rcases reqsOk_append.mp h with ⟨-, -, hinit⟩
    intro r hr
    have hrl : req.limit = req.offset + req.count := rfl
    simp only [Option.map_some, Option.getD_some] at hlast
    rcases List.mem_append.mp hr with hr | hr
    · have := hinit r hr req (by simp)
      omega
    · rw [List.mem_singleton.mp hr]
      exact hlast

/-- The whole attempt. Induction on the fuel: a pass that comes back has either
brought the offset past all requests or made the list shorter. -/
theorem doAppend_post (fuel : ℕ) : ∀ (requests : List WriteRequest) (w : WriteState),
    ListPost cs target size requests w → w.buf ≠ [] →
    (∀ r ∈ requests, r.limit ≤ w.offset) ∧ 0 < fuel ∨
      overtakes cs requests w.offset w.buf.length = false ∧ requests.length + 2 ≤ fuel →
    AttemptPost cs target size (doAppend cs fuel requests w) := by
  induction fuel with
  | zero => intro _ _ _ _ h; omega
  | succ fuel ih =>
    intro requests w h hpend hcase
    unfold doAppend
    dsimp only
    by_cases hend : w.offset ≥ (requests.getLast?.map WriteRequest.limit).getD 0
    · rw [if_pos hend]
      exact appendAtEnd_post h (h.ok.limit_le_last hend)
    · rw [if_neg hend]
      rcases hcase with ⟨hle, -⟩ | ⟨hgood, hfuel⟩
      · -- there is nothing behind the offset, so this was an append
        exfalso
        cases hlast : requests.getLast? with
        | none => simp [hlast] at hend
        | some req =>
          have := hle req (List.mem_of_getLast? hlast)
          simp only [hlast, Option.map_some, Option.getD_some] at hend
          omega
      · have hseek : Seeking cs target size
            { w with passed := [], prev := none, skipped := [] } requests := by
          refine ⟨⟨h.ok, h.fits, h.map, h.limit_le, h.size_eq⟩, hpend, ?_, ?_, hgood⟩
          · intro b hb
            cases hb
          · intro P hP
            cases hP
        have hih : WalkIh cs target size requests.length requests.length := walk_post _
        have hpost := hih.seeking _ requests (le_refl _) (le_refl _) hseek
        cases hwalk : walk cs requests.length { w with passed := [], prev := none, skipped := [] }
          requests with
        | out w' after =>
          rw [hwalk] at hpost
          exact ⟨hpost.1.listPost, by simp, fun _ => hpost.2⟩
        | restart w' after =>
          rw [hwalk] at hpost
          exact ⟨Stored.listPost hpost, by simp, by simp⟩
        | noMemory w' after =>
          rw [hwalk] at hpost
          exact ⟨Stored.listPost hpost, by simp, by simp⟩
        | next w' after =>
          rw [hwalk] at hpost
          rcases hpost with ⟨hst, hmore⟩
          dsimp only
          by_cases hbuf : w'.buf.length > 0
          · rw [if_pos hbuf]
            have hne := List.ne_nil_of_length_pos hbuf
            refine ih _ w' hst.listPost hne ?_
            rcases hmore hne with hle | ⟨hshort, hgood'⟩
            · exact Or.inl ⟨hle, by omega⟩
            · exact Or.inr ⟨hgood', by omega⟩
          · rw [if_neg hbuf]
            have hnil : w'.buf = [] := List.eq_nil_of_length_eq_zero (by omega)
            exact ⟨hst.listPost, by simp, fun _ => hnil⟩

end Walk

end Ltfs.Sched
