import Ltfs.Sched.Drain
import Ltfs.Sched.WriteSpec

/-!
# The request lists over whole runs

Every operation of the scheduler keeps the request lists sorted, disjoint and
free of empty or oversized requests (`PrivOk`), except for a write that overtakes
a request (`overtakes`). `lists_ok_of_run` puts the step lemmas together.
-/

namespace Ltfs.Sched

open Lib Lib.Segment RequestState

section Frame

variable {V : Type}

/-! ## What queue updates leave alone -/

/-- The two contexts agree on everything below the request list. -/
structure SameFile (c c' : Ctx V) : Prop where
  writeIp : c'.dpr.writeIp = c.dpr.writeIp
  altExtentlist : c'.dpr.altExtentlist = c.dpr.altExtentlist
  cacheSize : c'.u.cacheSize = c.u.cacheSize
  extQueue : c'.u.extQueue = c.u.extQueue
  mem : c'.u.mem = c.u.mem
  priv : c'.u.priv = c.u.priv
  vol : c'.u.vol = c.u.vol

theorem SameFile.refl (c : Ctx V) : SameFile c c := ⟨rfl, rfl, rfl, rfl, rfl, rfl, rfl⟩

theorem SameFile.trans {c₁ c₂ c₃ : Ctx V} (h : SameFile c₁ c₂) (h' : SameFile c₂ c₃) :
    SameFile c₁ c₃ :=
  ⟨h'.writeIp.trans h.writeIp, h'.altExtentlist.trans h.altExtentlist,
    h'.cacheSize.trans h.cacheSize, h'.extQueue.trans h.extQueue, h'.mem.trans h.mem,
    h'.priv.trans h.priv, h'.vol.trans h.vol⟩

theorem SameFile.free {c c' : Ctx V} (h : SameFile c c') (req : WriteRequest) :
    SameFile c { c' with u := freeRequest req c'.u } :=
  ⟨h.writeIp, h.altExtentlist, h.cacheSize, h.extQueue, h.mem, h.priv, h.vol⟩

/-- The two contexts only differ in queue memberships and counters. -/
structure QueueOnly (c c' : Ctx V) : Prop extends SameFile c c' where
  requests : c'.dpr.requests = c.dpr.requests
  fileSize : c'.dpr.fileSize = c.dpr.fileSize
  writeError : c'.dpr.writeError = c.dpr.writeError

theorem QueueOnly.refl (c : Ctx V) : QueueOnly c c := ⟨SameFile.refl c, rfl, rfl, rfl⟩

theorem QueueOnly.trans {c₁ c₂ c₃ : Ctx V} (h : QueueOnly c₁ c₂) (h' : QueueOnly c₂ c₃) :
    QueueOnly c₁ c₃ :=
  ⟨h.toSameFile.trans h'.toSameFile, h'.requests.trans h.requests, h'.fileSize.trans h.fileSize,
    h'.writeError.trans h.writeError⟩

theorem updateQueueMembership_queueOnly (add all : Bool) (queue : RequestState) (d : ℕ)
    (c : Ctx V) : QueueOnly c (updateQueueMembership add all queue d c) := by
  unfold updateQueueMembership
  cases queue <;> cases add <;>
    exact ⟨⟨rfl, rfl, rfl, rfl, rfl, rfl, rfl⟩, rfl, rfl, rfl⟩

theorem applyLog_queueOnly (log : List QueueUpdate) (d : ℕ) (c : Ctx V) :
    QueueOnly c (applyLog log d c) := by
  unfold applyLog
  induction log generalizing c with
  | nil => exact QueueOnly.refl c
  | cons q log ih =>
    rw [List.foldl_cons]
    exact (updateQueueMembership_queueOnly _ _ _ _ c).trans (ih _)

/-- Freeing requests only concerns the cache pool. -/
theorem freeRequests_eq (l : List WriteRequest) (u : Unified V) :
    ∃ pool, freeRequests l u = { u with pool := pool } := by
  unfold freeRequests
  induction l generalizing u with
  | nil => exact ⟨u.pool, rfl⟩
  | cons r l ih =>
    rw [List.foldl_cons]
    rcases ih (freeRequest r u) with ⟨pool, h⟩
    exact ⟨pool, h⟩

@[simp] theorem freeRequests_cacheSize (l : List WriteRequest) (u : Unified V) :
    (freeRequests l u).cacheSize = u.cacheSize := by
  rcases freeRequests_eq l u with ⟨pool, h⟩
  rw [h]

@[simp] theorem freeRequests_priv (l : List WriteRequest) (u : Unified V) :
    (freeRequests l u).priv = u.priv := by
  rcases freeRequests_eq l u with ⟨pool, h⟩
  rw [h]

@[simp] theorem freeRequests_vol (l : List WriteRequest) (u : Unified V) :
    (freeRequests l u).vol = u.vol := by
  rcases freeRequests_eq l u with ⟨pool, h⟩
  rw [h]

@[simp] theorem freeRequests_mem (l : List WriteRequest) (u : Unified V) :
    (freeRequests l u).mem = u.mem := by
  rcases freeRequests_eq l u with ⟨pool, h⟩
  rw [h]

@[simp] theorem freeRequests_extQueue (l : List WriteRequest) (u : Unified V) :
    (freeRequests l u).extQueue = u.extQueue := by
  rcases freeRequests_eq l u with ⟨pool, h⟩
  rw [h]

@[simp] theorem setPriv_self (u : Unified V) (d : ℕ) (dpr : Option DentryPriv) :
    (u.setPriv d dpr).priv d = dpr := by
  simp [Unified.setPriv]

theorem setPriv_ne (u : Unified V) {d e : ℕ} (dpr : Option DentryPriv) (h : e ≠ d) :
    (u.setPriv d dpr).priv e = u.priv e := by
  simp [Unified.setPriv, h]

end Frame

/-! ## The invariant -/

/-- The list invariant of one dentry; no request reaches past the file size. -/
structure PrivOk (cs : ℕ) (dpr : DentryPriv) : Prop where
  ok : ReqsOk cs dpr.requests
  limit_le : ∀ r ∈ dpr.requests, r.limit ≤ dpr.fileSize

/-- The invariant of all request lists. -/
structure ListsOk {V : Type} (cs : ℕ) (u : Unified V) : Prop where
  cacheSize : u.cacheSize = cs
  ok : ∀ d dpr, u.priv d = some dpr → PrivOk cs dpr

/-- The invariant while an operation has one `dentry_priv` at hand: `priv` are
those stored in the dentries. -/
structure CtxOk {V : Type} (cs : ℕ) (priv : ℕ → Option DentryPriv) (c : Ctx V) : Prop where
  cacheSize : c.u.cacheSize = cs
  priv : c.u.priv = priv
  dpr : PrivOk cs c.dpr

/-- The invariant inside a loop over the list: `l` is what the list is now. -/
structure LoopOk {V : Type} (cs : ℕ) (priv : ℕ → Option DentryPriv) (l : List WriteRequest)
    (c : Ctx V) : Prop where
  cacheSize : c.u.cacheSize = cs
  priv : c.u.priv = priv
  ok : ReqsOk cs l
  limit_le : ∀ r ∈ l, r.limit ≤ c.dpr.fileSize

theorem ReqsOk.sublist {cs : ℕ} {l l' : List WriteRequest} (h : ReqsOk cs l) (hs : l'.Sublist l) :
    ReqsOk cs l' :=
  ⟨List.Pairwise.sublist hs h.ordered, fun r hr => h.count_pos r (hs.subset hr),
    fun r hr => h.count_le r (hs.subset hr)⟩

section Ops

variable {V : Type} {cs : ℕ} {priv : ℕ → Option DentryPriv}

theorem ListsOk.ctx {u : Unified V} (h : ListsOk cs u) {d : ℕ} {dpr : DentryPriv}
    (hd : u.priv d = some dpr) : CtxOk cs u.priv ⟨u, dpr⟩ :=
  ⟨h.cacheSize, rfl, h.ok d dpr hd⟩

/-- Storing a good `dentry_priv` back into a good state. -/
theorem ListsOk.setPriv {u u' : Unified V} (h : ListsOk cs u) (hcs : u'.cacheSize = cs)
    (hpriv : u'.priv = u.priv) {d : ℕ} {dpr : Option DentryPriv}
    (hd : ∀ p, dpr = some p → PrivOk cs p) : ListsOk cs (u'.setPriv d dpr) := by
  refine ⟨hcs, ?_⟩
  intro e p hp
  by_cases he : e = d
  · rw [he, setPriv_self] at hp
    exact hd p hp
  · rw [setPriv_ne u' dpr he, hpriv] at hp
    exact h.ok e p hp

theorem CtxOk.store {u : Unified V} (h : ListsOk cs u) {c : Ctx V} (hc : CtxOk cs u.priv c)
    (d : ℕ) : ListsOk cs (c.store d) := by
  apply h.setPriv hc.cacheSize hc.priv
  rintro p ⟨⟩
  exact hc.dpr

theorem CtxOk.queueOnly {c c' : Ctx V} (h : CtxOk cs priv c) (hq : QueueOnly c c') :
    CtxOk cs priv c' := by
  refine ⟨hq.cacheSize.trans h.cacheSize, hq.priv.trans h.priv, ?_, ?_⟩
  · rw [hq.requests]
    exact h.dpr.ok
  · rw [hq.requests, hq.fileSize]
    exact h.dpr.limit_le

theorem CtxOk.loop {c : Ctx V} (h : CtxOk cs priv c) : LoopOk cs priv c.dpr.requests c :=
  ⟨h.cacheSize, h.priv, h.dpr.ok, h.dpr.limit_le⟩

theorem LoopOk.queueOnly {l : List WriteRequest} {c c' : Ctx V} (h : LoopOk cs priv l c)
    (hq : QueueOnly c c') : LoopOk cs priv l c' := by
  refine ⟨hq.cacheSize.trans h.cacheSize, hq.priv.trans h.priv, h.ok, ?_⟩
  rw [hq.fileSize]
  exact h.limit_le

/-! ## Placement and errors -/

theorem dropAltExtentlist_ok {c : Ctx V} (h : CtxOk cs priv c) (d : ℕ) :
    CtxOk cs priv (dropAltExtentlist d c) := by
  unfold dropAltExtentlist
  split
  · exact h
  · exact ⟨h.cacheSize, h.priv, h.dpr.ok, h.dpr.limit_le⟩

theorem unsetWriteIp_ok {c : Ctx V} (h : CtxOk cs priv c) (d : ℕ) :
    CtxOk cs priv (unsetWriteIp d c) := by
  unfold unsetWriteIp
  dsimp only
  apply dropAltExtentlist_ok
  split
  · -- the index partition requests go
    set gone := c.dpr.requests.filter fun r => decide (r.state = requestIp)
    have hsub : (c.dpr.requests.filter fun r => decide (r.state ≠ requestIp)).Sublist
        c.dpr.requests := List.filter_sublist
    have hq := updateQueueMembership_queueOnly false true requestIp d
      { u := freeRequests gone c.u
        dpr := { c.dpr with
          writeIp := false
          requests := c.dpr.requests.filter fun r => decide (r.state ≠ requestIp) } }
    have hmid : CtxOk cs priv _ := CtxOk.queueOnly (by
      refine ⟨?_, ?_, h.dpr.ok.sublist hsub, ?_⟩
      · rw [freeRequests_cacheSize]
        exact h.cacheSize
      · rw [freeRequests_priv]
        exact h.priv
      · intro r hr
        exact h.dpr.limit_le r (hsub.subset hr)) hq
    exact ⟨hmid.cacheSize, hmid.priv, hmid.dpr.ok, hmid.dpr.limit_le⟩
  · exact ⟨h.cacheSize, h.priv, h.dpr.ok, h.dpr.limit_le⟩

theorem setWriteIp_ok {c : Ctx V} (h : CtxOk cs priv c) : CtxOk cs priv (setWriteIp c) :=
  ⟨h.cacheSize, h.priv, h.dpr.ok, h.dpr.limit_le⟩

theorem recomputeWriteIp_ok (L : Libltfs V) (small : Bool) {c : Ctx V} (h : CtxOk cs priv c)
    (d : ℕ) : CtxOk cs priv (recomputeWriteIp L small d c) := by
  unfold recomputeWriteIp
  dsimp only
  split
  · exact setWriteIp_ok h
  · split
    · exact unsetWriteIp_ok h d
    · exact h

/-- The recomputed file size covers every request that stays. -/
theorem le_foldl_limit (l : List WriteRequest) (n : ℕ) :
    n ≤ l.foldl (fun n r => max n r.limit) n ∧
      ∀ r ∈ l, r.limit ≤ l.foldl (fun n r => max n r.limit) n := by
  induction l generalizing n with
  | nil => exact ⟨le_refl n, by simp⟩
  | cons r l ih =>
    rcases ih (max n r.limit) with ⟨h1, h2⟩
    rw [List.foldl_cons]
    refine ⟨by omega, ?_⟩
    intro s hs
    rcases List.mem_cons.mp hs with rfl | hs
    · omega
    · exact h2 s hs

/-- What error handling does: it drops the requests of the cleared partitions and
recomputes the file size. -/
structure ErrorSpec (L : Libltfs V) (ret : ℤ) (failed : WriteRequest) (d : ℕ) (c c' : Ctx V) :
    Prop extends SameFile c c' where
  requests : c'.dpr.requests
    = c.dpr.requests.filter (keepsRequest (clearFlags L ret failed c.u.vol))
  fileSize : c'.dpr.fileSize
    = c'.dpr.requests.foldl (fun n r => max n r.limit) (L.dentrySize d c.u.vol)

theorem handleWriteError_spec (L : Libltfs V) (ret : ℤ) (failed : WriteRequest) (d : ℕ)
    (c : Ctx V) : ErrorSpec L ret failed d c (handleWriteError L ret failed d c) := by
  unfold handleWriteError
  dsimp only
  -- recording the code changes nothing else
  generalize hc₁ : (if ¬ (failed.state = requestIp ∧ (ret = -ltfsNoSpace ∨ ret = -ltfsLessSpace)) ∧
      c.dpr.writeError = 0 then { c with dpr := { c.dpr with writeError := ret } } else c) = c₁
  have hu : c₁.u = c.u := by
    rw [← hc₁]
    split <;> rfl
  have hreq : c₁.dpr.requests = c.dpr.requests ∧ c₁.dpr.writeIp = c.dpr.writeIp ∧
      c₁.dpr.altExtentlist = c.dpr.altExtentlist := by
    rw [← hc₁]
    split <;> exact ⟨rfl, rfl, rfl⟩
  clear hc₁
  rcases hreq with ⟨hreq, hip, halt⟩
  rw [hu]
  set clear := clearFlags L ret failed c.u.vol with hclear
  by_cases hempty : c₁.dpr.requests.isEmpty
  · rw [if_pos hempty]
    have hnil : c₁.dpr.requests = [] := List.isEmpty_iff.mp hempty
    refine ⟨⟨hip, halt, rfl, rfl, rfl, rfl, rfl⟩, ?_, ?_⟩
    · rw [← hreq, hnil]
      rfl
    · simp only [hnil, List.foldl_nil]
  · rw [if_neg hempty]
    set c₂ : Ctx V := ⟨c.u, { c₁.dpr with fileSize := L.dentrySize d c.u.vol }⟩ with hc₂
    set c₃ := if clear.1 = true then updateQueueMembership false true requestPartial d
      (updateQueueMembership false true requestDp d c₂) else c₂ with hc₃
    have h23 : QueueOnly c₂ c₃ := by
      rw [hc₃]
      split
      · exact (updateQueueMembership_queueOnly _ _ _ _ _).trans
          (updateQueueMembership_queueOnly _ _ _ _ _)
      · exact QueueOnly.refl _
    set c₄ := if clear.2 = true then updateQueueMembership false true requestIp d c₃ else c₃ with hc₄
    have h24 : QueueOnly c₂ c₄ := by
      rw [hc₄]
      split
      · exact h23.trans (updateQueueMembership_queueOnly _ _ _ _ _)
      · exact h23
    have hreq₄ : c₄.dpr.requests = c.dpr.requests := h24.requests.trans hreq
    refine ⟨⟨h24.writeIp.trans hip, h24.altExtentlist.trans halt, ?_, ?_, ?_, ?_, ?_⟩, ?_, ?_⟩
    · rw [freeRequests_cacheSize, h24.cacheSize]
    · rw [freeRequests_extQueue, h24.extQueue]
    · rw [freeRequests_mem, h24.mem]
    · rw [freeRequests_priv, h24.priv]
    · rw [freeRequests_vol, h24.vol]
    · rw [hreq₄]
    · rw [h24.fileSize]

/-- Whatever requests stay, they keep the invariant. -/
theorem handleWriteError_ok (L : Libltfs V) (ret : ℤ) (failed : WriteRequest) (d : ℕ) {c : Ctx V}
    (hcs : c.u.cacheSize = cs) (hpriv : c.u.priv = priv) (hok : ReqsOk cs c.dpr.requests) :
    CtxOk cs priv (handleWriteError L ret failed d c) := by
  have h := handleWriteError_spec L ret failed d c
  refine ⟨h.cacheSize.trans hcs, h.priv.trans hpriv, ?_, ?_⟩
  · rw [h.requests]
    exact hok.sublist List.filter_sublist
  · rw [h.fileSize]
    exact (le_foldl_limit _ _).2

/-! ## Merging with the predecessor -/

/-- Filling up an index partition request promotes nothing. -/
theorem mergeRequests_promoted_ip {dest src : WriteRequest} (h : src.isIp = true) :
    (mergeRequests cs dest src).promoted = none := by
  have htrim : ∀ n d s b p, (trimSource n d s b p).promoted = p := by
    intro n d s b p
    unfold trimSource
    split
    · split
      · dsimp only
        split <;> rfl
      · rfl
    · rfl
  unfold mergeRequests
  split
  · rfl
  · dsimp only
    split
    · rename_i hcopy
      rw [htrim]
      have hdest : dest.isIp = true := by
        rw [sameTarget_iff.mp hcopy.1, h]
      have hstate : dest.state = requestIp := by simpa [WriteRequest.isIp] using hdest
      unfold updateRequest
      split
      · rfl
      · dsimp only
        rw [if_neg (by simp [hstate])]
    · rw [htrim]

/-- What the merge with the predecessor keeps: the bytes of the list, and
everything but the list. -/
structure PrevSpec (cs : ℕ) (kept : List WriteRequest) (req : WriteRequest)
    (rest : List WriteRequest) (c : Ctx V) (m : List WriteRequest × Ctx V) : Prop
    extends SameFile c m.2 where
  ok : ReqsOk cs (m.1 ++ rest)
  map : reqMap (m.1 ++ rest) = reqMap (kept ++ req :: rest)
  limit_le : ∀ r ∈ m.1 ++ rest, r.limit ≤ c.dpr.fileSize
  fileSize : m.2.dpr.fileSize = c.dpr.fileSize
  writeError : m.2.dpr.writeError = c.dpr.writeError

theorem mergePrev_spec {kept rest : List WriteRequest} {req : WriteRequest} {c : Ctx V}
    (h : LoopOk cs priv (kept ++ req :: rest) c) (d : ℕ) :
    PrevSpec cs kept req rest c (mergePrev d kept req c) := by
  unfold mergePrev
  cases hlast : kept.getLast? with
  | none =>
    rw [List.getLast?_eq_none_iff] at hlast
    subst hlast
    exact ⟨SameFile.refl c, h.ok, rfl, h.limit_le, rfl, rfl⟩
  | some dest =>
    rcases List.getLast?_eq_some_iff.mp hlast with ⟨before, hkept⟩
    subst hkept
    have hsplit : before ++ [dest] ++ req :: rest = before ++ (dest :: req :: rest) := by simp
    rw [List.dropLast_concat]
    rw [hsplit] at h
    rw [h.cacheSize]
    dsimp only
    rcases reqsOk_append.mp h.ok with ⟨hbefore, htail, hsep⟩
    rcases reqsOk_cons.mp htail with ⟨hdpos, hdle, hdsep, htail'⟩
    rcases reqsOk_cons.mp htail' with ⟨hrpos, hrle, hrsep, hrest⟩
    have hdr := hdsep req (by simp)
    have hstart : dest.offset ≤ req.offset := by
      have : dest.limit = dest.offset + dest.count := rfl
      omega
    have hm := mergeRequests_spec hstart hrpos hdle
    set m := mergeRequests cs dest req with hmdef
    have hdlim := h.limit_le dest (by simp)
    have hrlim := h.limit_le req (by simp)
    have hmlim : m.dest.limit ≤ c.dpr.fileSize := by
      have := hm.dest_le
      omega
    have hsize : (if m.updated = true then max c.dpr.fileSize m.dest.limit else c.dpr.fileSize)
        = c.dpr.fileSize := by
      split
      · exact max_eq_left hmlim
      · rfl
    rw [hsize]
    have hq := applyLog_queueOnly m.srcLog d c
    have hdpos' : 0 < m.dest.count := by
      have h1 := hm.dest_ge
      have h2 := hm.dest_offset
      unfold WriteRequest.limit at h1
      omega
    -- everything behind `req` starts behind what `dest` has become
    have hdest_sep : ∀ s ∈ rest, m.dest.limit ≤ s.offset := by
      intro s hs
      have h1 := hrsep s hs
      have h2 := hm.dest_le
      have h3 : req.limit = req.offset + req.count := rfl
      omega
    have hbefore_sep : ∀ r ∈ before, r.limit ≤ m.dest.offset := by
      intro r hr
      rw [hm.dest_offset]
      exact hsep r hr dest (by simp)
    have hbefore_lim : ∀ r ∈ before, r.limit ≤ c.dpr.fileSize := fun r hr => h.limit_le r (by simp [hr])
    have hrest_lim : ∀ r ∈ rest, r.limit ≤ c.dpr.fileSize := fun r hr => h.limit_le r (by simp [hr])
    by_cases hret : m.ret = 2
    · -- `req` is gone
      rw [if_pos hret]
      rcases hm.freed hret with ⟨-, hmap⟩
      refine ⟨hq.toSameFile.free req, ?_, ?_, ?_, hq.fileSize, hq.writeError⟩
      · rw [List.append_assoc, List.singleton_append, reqsOk_append, reqsOk_cons]
        refine ⟨hbefore, ⟨hdpos', hm.dest_count, hdest_sep, hrest⟩, ?_⟩
        intro r hr s hs
        rcases List.mem_cons.mp hs with rfl | hs
        · exact hbefore_sep r hr
        · exact hsep r hr s (by simp [hs])
      · funext x
        rw [hsplit, List.append_assoc, List.singleton_append, reqMap_append, reqMap_append,
          reqMap_cons m.dest, reqMap_cons dest, reqMap_cons req, hmap, Option.or_assoc]
      · intro r hr
        simp only [List.mem_append, List.mem_singleton] at hr
        rcases hr with (hr | rfl) | hr
        · exact hbefore_lim r hr
        · exact hmlim
        · exact hrest_lim r hr
    · -- what is left of `req` follows `dest`
      rw [if_neg hret]
      rcases hm.kept hret with ⟨hsoff, hslim, hspos, -, hmap⟩
      have hscount : m.src.count ≤ cs := by
        have h1 : m.src.limit = m.src.offset + m.src.count := rfl
        have h2 : req.limit = req.offset + req.count := rfl
        omega
      refine ⟨hq.toSameFile, ?_, ?_, ?_, hq.fileSize, hq.writeError⟩
      · rw [List.append_assoc, List.cons_append, List.singleton_append, reqsOk_append, reqsOk_cons,
          reqsOk_cons]
        refine ⟨hbefore, ⟨hdpos', hm.dest_count, ?_, hspos, hscount, ?_, hrest⟩, ?_⟩
        · intro s hs
          rcases List.mem_cons.mp hs with rfl | hs
          · omega
          · exact hdest_sep s hs
        · intro s hs
          rw [hslim]
          exact hrsep s hs
        · intro r hr s hs
          rcases List.mem_cons.mp hs with rfl | hs
          · exact hbefore_sep r hr
          · rcases List.mem_cons.mp hs with rfl | hs
            · have := hsep r hr req (by simp)
              omega
            · exact hsep r hr s (by simp [hs])
      · funext x
        have hpair : (reqMap [m.dest] x).or ((reqMap [m.src] x).or (reqMap rest x))
            = (reqMap [dest] x).or ((reqMap [req] x).or (reqMap rest x)) := by
          rw [← Option.or_assoc, hmap, Option.or_assoc]
        rw [hsplit, List.append_assoc, List.cons_append, List.singleton_append, reqMap_append,
          reqMap_append, reqMap_cons m.dest, reqMap_cons m.src, reqMap_cons dest, reqMap_cons req, hpair]
      · intro r hr
        simp only [List.mem_append, List.mem_cons, List.not_mem_nil, or_false] at hr
        rcases hr with (hr | rfl | rfl) | hr
        · exact hbefore_lim r hr
        · exact hmlim
        · omega
        · exact hrest_lim r hr

/-- The state of a request does not matter for the invariant. -/
theorem LoopOk.setState {kept rest : List WriteRequest} {req : WriteRequest} {c : Ctx V}
    (h : LoopOk cs priv (kept ++ req :: rest) c) (state : RequestState) :
    LoopOk cs priv (kept ++ { req with state := state } :: rest) c := by
  rcases reqsOk_append.mp h.ok with ⟨hkept, hcons, hsep⟩
  rcases reqsOk_cons.mp hcons with ⟨hpos, hle, hrsep, hrest⟩
  refine ⟨h.cacheSize, h.priv, ?_, ?_⟩
  · rw [reqsOk_append, reqsOk_cons]
    refine ⟨hkept, ⟨hpos, hle, hrsep, hrest⟩, ?_⟩
    intro r hr s hs
    rcases List.mem_cons.mp hs with rfl | hs
    · exact hsep r hr req (by simp)
    · exact hsep r hr s (by simp [hs])
  · intro r hr
    simp only [List.mem_append, List.mem_cons] at hr
    rcases hr with hr | rfl | hr
    · exact h.limit_le r (by simp [hr])
    · exact h.limit_le req (by simp)
    · exact h.limit_le r (by simp [hr])

theorem toIp_spec {kept rest : List WriteRequest} {req : WriteRequest} {c : Ctx V}
    (h : LoopOk cs priv (kept ++ req :: rest) c) (d : ℕ) :
    PrevSpec cs kept { req with state := requestIp } rest c (toIp d kept req c) := by
  have hq := updateQueueMembership_queueOnly true false requestIp d c
  have hm := mergePrev_spec ((h.setState requestIp).queueOnly hq) d
  refine ⟨hq.toSameFile.trans hm.toSameFile, hm.ok, hm.map, ?_, hm.fileSize.trans hq.fileSize,
    hm.writeError.trans hq.writeError⟩
  rw [← hq.fileSize]
  exact hm.limit_le

theorem PrevSpec.loop {kept rest : List WriteRequest} {req : WriteRequest} {c : Ctx V}
    {m : List WriteRequest × Ctx V} (hm : PrevSpec cs kept req rest c m)
    (hcs : c.u.cacheSize = cs) (hpriv : c.u.priv = priv) : LoopOk cs priv (m.1 ++ rest) m.2 := by
  refine ⟨hm.cacheSize.trans hcs, hm.priv.trans hpriv, hm.ok, ?_⟩
  rw [hm.fileSize]
  exact hm.limit_le

theorem LoopOk.setVol {l : List WriteRequest} {c : Ctx V} (h : LoopOk cs priv l c) (vol : V) :
    LoopOk cs priv l { c with u := { c.u with vol := vol } } :=
  ⟨h.cacheSize, h.priv, h.ok, h.limit_le⟩

theorem LoopOk.drop {kept rest : List WriteRequest} {req : WriteRequest} {c : Ctx V}
    (h : LoopOk cs priv (kept ++ req :: rest) c) : LoopOk cs priv (kept ++ rest) c := by
  have hsub : (kept ++ rest).Sublist (kept ++ req :: rest) :=
    List.Sublist.append_left (List.sublist_cons_self req rest) kept
  exact ⟨h.cacheSize, h.priv, h.ok.sublist hsub, fun r hr => h.limit_le r (hsub.subset hr)⟩

theorem LoopOk.finish {l : List WriteRequest} {c : Ctx V} (h : LoopOk cs priv l c) :
    CtxOk cs priv { c with dpr := { c.dpr with requests := l } } :=
  ⟨h.cacheSize, h.priv, h.ok, h.limit_le⟩

variable (L : Libltfs V)

theorem failedWrite_ok {l : List WriteRequest} {c : Ctx V} (h : LoopOk cs priv l c) (d : ℕ)
    (ret : ℤ) (req : WriteRequest) (vol : V) :
    CtxOk cs priv (failedWrite L d ret req l vol c) :=
  handleWriteError_ok L ret req d h.cacheSize h.priv h.ok

/-! ## The loops -/

theorem flushLoop_ok (d : ℕ) (rest : List WriteRequest) : ∀ (kept : List WriteRequest) (c : Ctx V),
    LoopOk cs priv (kept ++ rest) c → CtxOk cs priv (flushLoop L d kept rest c) := by
  induction rest with
  | nil =>
    intro kept c h
    rw [List.append_nil] at h
    exact h.finish
  | cons req rest ih =>
    intro kept c h
    unfold flushLoop
    by_cases hip : req.state = requestIp
    · rw [if_pos hip]
      exact ih _ _ ((mergePrev_spec h d).loop h.cacheSize h.priv)
    · rw [if_neg hip]
      dsimp only
      split
      · exact failedWrite_ok L h d _ req _
      · have hv := h.setVol (L.fsrawWrite d req.data req.offset c.u.vol).2
        split
        · exact ih _ _ ((toIp_spec hv d).loop hv.cacheSize hv.priv)
        · exact ih _ _ ⟨hv.cacheSize, hv.priv, hv.drop.ok, hv.drop.limit_le⟩

theorem dataLoop_ok (queue : RequestState) (d : ℕ) (rest : List WriteRequest) :
    ∀ (kept moved : List WriteRequest) (c : Ctx V),
    LoopOk cs priv (kept ++ rest) c → CtxOk cs priv (dataLoop L queue d kept moved rest c).2 := by
  induction rest with
  | nil =>
    intro kept moved c h
    rw [List.append_nil] at h
    exact h.finish
  | cons req rest ih =>
    intro kept moved c h
    unfold dataLoop
    by_cases hip : req.state = requestIp
    · rw [if_pos hip]
      exact ih _ _ _ ((mergePrev_spec h d).loop h.cacheSize h.priv)
    · rw [if_neg hip]
      by_cases htaken : req.state = requestDp ∨ queue = requestPartial
      · rw [if_pos htaken]
        by_cases hwip : c.dpr.writeIp = true
        · rw [if_pos hwip]
          dsimp only
          split
          · exact failedWrite_ok L h d _ req _
          · have hv := h.setVol (L.fsrawWrite d req.data req.offset c.u.vol).2
            exact ih _ _ _ ((toIp_spec hv d).loop hv.cacheSize hv.priv)
        · rw [if_neg hwip]
          exact ih _ _ _ h.drop
      · rw [if_neg htaken]
        exact ih _ _ _ (by simpa using h)

/-- Sending the private list concerns the volume and the cache pool only. -/
theorem sendLoop_frame (d : ℕ) (l : List WriteRequest) : ∀ u : Unified V,
    (sendLoop L d l u).2.cacheSize = u.cacheSize ∧ (sendLoop L d l u).2.priv = u.priv := by
  induction l with
  | nil => exact fun u => ⟨rfl, rfl⟩
  | cons req rest ih =>
    intro u
    unfold sendLoop
    dsimp only
    split
    · exact ⟨rfl, rfl⟩
    · exact ih _

theorem updateAltExtentlist_frame (new : ExtentInfo) (d : ℕ) (c : Ctx V) :
    (updateAltExtentlist L new d c).u.cacheSize = c.u.cacheSize ∧
    (updateAltExtentlist L new d c).u.priv = c.u.priv ∧
    (updateAltExtentlist L new d c).dpr.requests = c.dpr.requests ∧
    (updateAltExtentlist L new d c).dpr.fileSize = c.dpr.fileSize := by
  unfold updateAltExtentlist
  split <;> exact ⟨rfl, rfl, rfl, rfl⟩

theorem indexLoop_ok (d : ℕ) (rest : List WriteRequest) : ∀ (kept : List WriteRequest) (c : Ctx V),
    LoopOk cs priv (kept ++ rest) c → CtxOk cs priv (indexLoop L d kept rest c) := by
  induction rest with
  | nil =>
    intro kept c h
    rw [List.append_nil] at h
    exact h.finish
  | cons req rest ih =>
    intro kept c h
    unfold indexLoop
    by_cases hip : req.state = requestIp
    · rw [if_pos hip]
      dsimp only
      split
      · exact handleWriteError_ok L _ _ _ h.cacheSize h.priv h.ok
      · split
        · split
          · exact handleWriteError_ok L _ _ _ h.cacheSize h.priv h.ok
          · exact handleWriteError_ok L _ _ _ h.cacheSize h.priv h.ok
        · -- written: the request leaves the list
          rename_i block vol hwrite
          apply ih
          rcases updateAltExtentlist_frame L ⟨⟨some .ip, block⟩, 0, req.count, req.offset⟩ d
            { u := { c.u.allocates.2 with vol := vol }, dpr := c.dpr } with ⟨h1, h2, -, h4⟩
          refine ⟨h1.trans h.cacheSize, h2.trans h.priv, h.drop.ok, ?_⟩
          intro r hr
          exact (h.drop.limit_le r hr).trans (le_of_eq h4.symm)
    · rw [if_neg hip]
      exact ih _ _ (by simpa using h)

/-- What the truncation loop does to the requests `l` (last one first): the bytes
from `length` on are gone, everything else stays. -/
structure TruncateSpec (cs length : ℕ) (l : List WriteRequest) (c : Ctx V)
    (r : List WriteRequest × Ctx V) : Prop extends SameFile c r.2 where
  ok : ReqsOk cs r.1.reverse
  limit_le : ∀ q ∈ r.1, q.limit ≤ length
  inside : ∀ q ∈ r.1, ∃ p ∈ l, p.offset = q.offset ∧ q.limit ≤ p.limit
  map : ∀ x, reqMap r.1.reverse x = if x < length then reqMap l.reverse x else none

/-- The bytes of a request cut at `length`. -/
theorem reqMap_cut {req : WriteRequest} {length : ℕ} (hlo : req.offset < length) (x : ℕ) :
    reqMap [{ req with data := req.data.take (length - req.offset) }] x
      = if x < length then reqMap [req] x else none := by
  simp only [reqMap_singleton, List.getElem?_take, WriteRequest.isIp]
  by_cases hx : x < length
  · rw [if_pos hx]
    by_cases hle : req.offset ≤ x
    · rw [if_pos hle, if_pos hle, if_pos (by omega)]
    · rw [if_neg hle, if_neg hle]
  · rw [if_neg hx, if_pos (by omega), if_neg (by omega)]
    rfl

theorem truncateLoop_spec (length d : ℕ) (l : List WriteRequest) : ∀ c : Ctx V,
    ReqsOk cs l.reverse → TruncateSpec cs length l c (truncateLoop length d l c) := by
  induction l with
  | nil =>
    intro c h
    exact ⟨SameFile.refl c, h, by simp [truncateLoop], by simp [truncateLoop], by simp [truncateLoop]⟩
  | cons req before ih =>
    intro c h
    rw [List.reverse_cons] at h
    rcases reqsOk_append.mp h with ⟨hbefore, hreq, hsep⟩
    rcases reqsOk_singleton.mp hreq with ⟨hpos, hle⟩
    have hlim : req.limit = req.offset + req.count := rfl
    unfold truncateLoop
    by_cases hout : req.offset ≥ length
    · -- behind the new end: the request goes
      rw [if_pos hout]
      have hq := updateQueueMembership_queueOnly false false req.state d c
      have hr := ih { updateQueueMembership false false req.state d c with
        u := freeRequest req (updateQueueMembership false false req.state d c).u } hbefore
      refine ⟨(hq.toSameFile.free req).trans hr.toSameFile, hr.ok, hr.limit_le, ?_, ?_⟩
      · intro q hq
        rcases hr.inside q hq with ⟨p, hp, h1, h2⟩
        exact ⟨p, by simp [hp], h1, h2⟩
      · intro x
        rw [hr.map, List.reverse_cons, reqMap_append]
        by_cases hx : x < length
        · rw [if_pos hx, if_pos hx, reqMap_eq_none_of_lt (l := [req]) (by simp; omega), Option.or_none]
        · rw [if_neg hx, if_neg hx]
    · rw [if_neg hout]
      by_cases hcut : req.limit > length
      · -- the new end lies inside the request
        rw [if_pos hcut]
        have hr := ih c hbefore
        dsimp only
        set r := truncateLoop length d before c
        refine ⟨hr.toSameFile, ?_, ?_, ?_, ?_⟩
        · rw [List.reverse_cons, reqsOk_append, reqsOk_singleton]
          refine ⟨hr.ok, ?_, ?_⟩
          · simp only [WriteRequest.count, List.length_take] at hle hlim ⊢
            omega
          · intro q hq s hs
            rw [List.mem_singleton.mp hs]
            rcases hr.inside q (List.mem_reverse.mp hq) with ⟨p, hp, -, h2⟩
            exact h2.trans (hsep p (by simpa using hp) req (by simp))
        · intro q hq
          rcases List.mem_cons.mp hq with rfl | hq
          · simp only [WriteRequest.limit, WriteRequest.count, List.length_take]
            omega
          · exact hr.limit_le q hq
        · intro q hq
          rcases List.mem_cons.mp hq with rfl | hq
          · refine ⟨req, by simp, rfl, ?_⟩
            simp only [WriteRequest.limit, WriteRequest.count, List.length_take]
            omega
          · rcases hr.inside q hq with ⟨p, hp, h1, h2⟩
            exact ⟨p, by simp [hp], h1, h2⟩
        · intro x
          rw [List.reverse_cons, List.reverse_cons, reqMap_append, reqMap_append, hr.map,
            reqMap_cut (by omega)]
          by_cases hx : x < length
          · rw [if_pos hx, if_pos hx, if_pos hx]
          · rw [if_neg hx, if_neg hx, if_neg hx]
            rfl
      · -- this request and all before it end before the new end
        rw [if_neg hcut]
        have hall : ∀ q ∈ req :: before, q.limit ≤ length := by
          intro q hq
          rcases List.mem_cons.mp hq with rfl | hq
          · omega
          · have := hsep q (by simpa using hq) req (by simp)
            omega
        refine ⟨SameFile.refl c, by simpa using h, hall, fun q hq => ⟨q, hq, rfl, le_refl _⟩, ?_⟩
        intro x
        split
        · rfl
        · apply reqMap_eq_none_of_le
          intro q hq
          have := hall q (List.mem_reverse.mp hq)
          omega

/-! ## The operations -/

theorem flushUnlocked_ok {u : Unified V} (h : ListsOk cs u) (d : ℕ) :
    ListsOk cs (flushUnlocked L d u).2 := by
  unfold flushUnlocked
  cases hd : u.priv d with
  | none => exact h
  | some dpr =>
    have hp := h.ok d dpr hd
    dsimp only
    have hclean : PrivOk cs (getWriteError dpr).2 := ⟨hp.ok, hp.limit_le⟩
    split
    · apply h.setPriv h.cacheSize rfl
      rintro p ⟨⟩
      exact hclean
    · split
      · apply h.setPriv h.cacheSize rfl
        rintro p ⟨⟩
        exact hclean
      · have hc : CtxOk cs u.priv ⟨u, (getWriteError dpr).2⟩ := ⟨h.cacheSize, rfl, hclean⟩
        have hq := (hc.queueOnly (updateQueueMembership_queueOnly false true requestDp d _)).queueOnly
          (updateQueueMembership_queueOnly false true requestPartial d _)
        have hl := flushLoop_ok L d _ [] _ hq.loop
        apply h.setPriv hl.cacheSize hl.priv
        rintro p ⟨⟩
        exact ⟨hl.dpr.ok, hl.dpr.limit_le⟩

theorem flushEach_ok (l : List ℕ) : ∀ {u : Unified V}, ListsOk cs u →
    ListsOk cs (flushEach L l u).2 := by
  induction l with
  | nil => exact fun h => h
  | cons d rest ih =>
    intro u h
    unfold flushEach
    dsimp only
    split
    · exact flushUnlocked_ok L h d
    · exact ih (flushUnlocked_ok L h d)

theorem flushAll_ok {u : Unified V} (h : ListsOk cs u) : ListsOk cs (flushAll L u).2 := by
  unfold flushAll
  dsimp only
  split
  · exact flushEach_ok L _ h
  · exact flushEach_ok L _ (flushEach_ok L _ h)

theorem processDataEntry_ok (queue : RequestState) (d : ℕ) {u : Unified V} (h : ListsOk cs u) :
    ListsOk cs (processDataEntry L queue d u) := by
  unfold processDataEntry
  cases hd : u.priv d with
  | none => exact h
  | some dpr =>
    dsimp only
    have h₁ := (h.ctx hd).queueOnly (updateQueueMembership_queueOnly false true queue d _)
    set c₁ := updateQueueMembership false true queue d ⟨u, dpr⟩
    have h₂ : CtxOk cs u.priv (if queue = requestPartial then
        updateQueueMembership false true requestDp d c₁ else c₁) := by
      split
      · exact h₁.queueOnly (updateQueueMembership_queueOnly _ _ _ _ _)
      · exact h₁
    set c₂ := if queue = requestPartial then updateQueueMembership false true requestDp d c₁ else c₁
    have hl := dataLoop_ok L queue d _ [] [] _ h₂.loop
    set l := dataLoop L queue d [] [] c₂.dpr.requests c₂
    rcases sendLoop_frame L d l.1 l.2.u with ⟨hs1, hs2⟩
    split
    · rename_i u' hsend
      rw [hsend] at hs1 hs2
      apply h.setPriv (hs1.trans hl.cacheSize) (hs2.trans hl.priv)
      rintro p ⟨⟩
      exact hl.dpr
    · rename_i ret req rest u' hsend
      rw [hsend] at hs1 hs2
      have he : CtxOk cs u.priv (handleWriteError L ret req d ⟨u', l.2.dpr⟩) :=
        handleWriteError_ok L ret req d (hs1.trans hl.cacheSize) (hs2.trans hl.priv) hl.dpr.ok
      apply h.setPriv
      · rw [freeRequests_cacheSize]
        exact he.cacheSize
      · rw [freeRequests_priv]
        exact he.priv
      · rintro p ⟨⟩
        exact he.dpr

theorem processDataLoop_ok (queue : RequestState) (n : ℕ) : ∀ {u : Unified V}, ListsOk cs u →
    ListsOk cs (processDataLoop L queue n u) := by
  induction n with
  | zero => exact fun h => h
  | succ n ih =>
    intro u h
    unfold processDataLoop
    split
    · exact h
    · exact ih (processDataEntry_ok L queue _ h)

theorem freeDentryPrivConditional_ok (d n : ℕ) {u : Unified V} (h : ListsOk cs u) :
    ListsOk cs (freeDentryPrivConditional L d n u) := by
  unfold freeDentryPrivConditional
  split
  · exact h
  · split
    · have hfree : ListsOk cs (u.setPriv d none) := h.setPriv h.cacheSize rfl (by simp)
      exact ⟨hfree.cacheSize, hfree.ok⟩
    · exact h

theorem processIndexEntry_ok (d : ℕ) {u : Unified V} (h : ListsOk cs u) :
    ListsOk cs (processIndexEntry L d u) := by
  unfold processIndexEntry
  cases hd : u.priv d with
  | none => exact h
  | some dpr =>
    have hq := (h.ctx hd).queueOnly (updateQueueMembership_queueOnly false true requestIp d _)
    exact freeDentryPrivConditional_ok L d 2 (CtxOk.store h (indexLoop_ok L d _ [] _ hq.loop) d)

theorem processQueue_ok (queue : RequestState) {u : Unified V} (h : ListsOk cs u) :
    ListsOk cs (processQueue L queue u) := by
  unfold processQueue
  split
  · unfold processIndexQueue
    generalize u.ipQueue = l
    induction l generalizing u with
    | nil => exact h
    | cons d l ih =>
      rw [List.foldl_cons]
      exact ih (processIndexEntry_ok L d h)
  · exact processDataLoop_ok L queue _ h

/-- Truncation of the cached part of a file. -/
structure CutSpec (length : ℕ) (c c' : Ctx V) : Prop where
  requests : ∀ x, reqMap c'.dpr.requests x = if x < length then reqMap c.dpr.requests x else none
  fileSize : c'.dpr.fileSize = length
  writeIp : c'.dpr.writeIp = c.dpr.writeIp
  vol : c'.u.vol = c.u.vol
  mem : c'.u.mem = c.u.mem

theorem truncateCached_spec (length d : ℕ) {c : Ctx V} (h : CtxOk cs priv c) :
    CtxOk cs priv (truncateCached length d c) ∧ CutSpec length c (truncateCached length d c) := by
  unfold truncateCached
  by_cases hlt : length < c.dpr.fileSize
  · rw [if_pos hlt]
    have hr := truncateLoop_spec length d c.dpr.requests.reverse c (by simpa using h.dpr.ok)
    refine ⟨⟨hr.cacheSize.trans h.cacheSize, hr.priv.trans h.priv, hr.ok, ?_⟩, ?_, rfl, hr.writeIp,
      hr.vol, hr.mem⟩
    · intro q hq
      exact hr.limit_le q (List.mem_reverse.mp hq)
    · intro x
      rw [hr.map, List.reverse_reverse]
  · rw [if_neg hlt]
    refine ⟨⟨h.cacheSize, h.priv, h.dpr.ok, ?_⟩, ?_, rfl, rfl, rfl, rfl⟩
    · intro r hr
      have := h.dpr.limit_le r hr
      show r.limit ≤ length
      omega
    · intro x
      show reqMap c.dpr.requests x = _
      split
      · rfl
      · apply reqMap_eq_none_of_le
        intro r hr
        have := h.dpr.limit_le r hr
        omega

theorem unifiedTruncate_ok (d length : ℕ) {u : Unified V} (h : ListsOk cs u) :
    ListsOk cs (unifiedTruncate L d length u).2 := by
  unfold unifiedTruncate
  dsimp only
  split
  · exact h
  · cases hd : u.priv d with
    | none => exact ⟨h.cacheSize, h.ok⟩
    | some dpr =>
      have hc := (truncateCached_spec length d (h.ctx hd)).1
      have hs := CtxOk.store h (recomputeWriteIp_ok L (decide (length = 0)) hc d) d
      exact ⟨hs.cacheSize, hs.ok⟩

theorem updateDataPlacement_ok (d : ℕ) {u : Unified V} (h : ListsOk cs u) :
    ListsOk cs (updateDataPlacement L d u) := by
  unfold updateDataPlacement
  cases hd : u.priv d with
  | none => exact h
  | some dpr => exact CtxOk.store h (recomputeWriteIp_ok L _ (h.ctx hd) d) d

theorem unifiedClose_ok (d : ℕ) (flush : Bool) {u : Unified V} (h : ListsOk cs u) :
    ListsOk cs (unifiedClose L d flush u).2 := by
  unfold unifiedClose
  dsimp only
  have hf : ListsOk cs (if flush = true then flushUnlocked L d u else (0, u)).2 := by
    split
    · exact flushUnlocked_ok L h d
    · exact h
  set f := if flush = true then flushUnlocked L d u else (0, u)
  have hp : ListsOk cs
      (f.2.setPriv d ((f.2.priv d).map fun dpr => { dpr with writeError := 0 })) := by
    apply hf.setPriv hf.cacheSize rfl
    intro p hp
    rcases Option.map_eq_some_iff.mp hp with ⟨q, hq, rfl⟩
    exact ⟨(hf.ok d q hq).ok, (hf.ok d q hq).limit_le⟩
  have hc := freeDentryPrivConditional_ok L d 3 hp
  exact ⟨hc.cacheSize, hc.ok⟩

/-- The requests a write attempt works on, once the placement is updated. -/
def writeRequests (d : ℕ) (call : WriteCall) (u : Unified V) : List WriteRequest :=
  match u.priv d with
  | none => []
  | some dpr => (placeWrite L d call ⟨u, (getWriteError dpr).2⟩).dpr.requests

/-- The attempt does not pass over a request it should have overwritten. -/
def clearWay (d : ℕ) (call : WriteCall) (u : Unified V) : Bool :=
  ! overtakes u.cacheSize (writeRequests L d call u) call.offset call.buf.length

theorem placeWrite_ok {c : Ctx V} (h : CtxOk cs priv c) (d : ℕ) (call : WriteCall) :
    CtxOk cs priv (placeWrite L d call c) := by
  unfold placeWrite
  split
  · exact unsetWriteIp_ok h d
  · exact h

theorem placeWrite_nil {c : Ctx V} (h : c.dpr.requests = []) (d : ℕ) (call : WriteCall) :
    (placeWrite L d call c).dpr.requests = [] := by
  have hdrop : ∀ c' : Ctx V, (dropAltExtentlist d c').dpr.requests = c'.dpr.requests := by
    intro c'
    unfold dropAltExtentlist
    split <;> rfl
  unfold placeWrite
  split
  · unfold unsetWriteIp
    dsimp only
    rw [hdrop]
    split
    · have hq := updateQueueMembership_queueOnly false true requestIp d
        { u := freeRequests (c.dpr.requests.filter fun r => decide (r.state = requestIp)) c.u
          dpr := { c.dpr with
            writeIp := false
            requests := c.dpr.requests.filter fun r => decide (r.state ≠ requestIp) } }
      show (updateQueueMembership false true requestIp d _).dpr.requests = []
      rw [hq.requests, h]
      rfl
    · exact h
  · exact h

/-- `getDentryPriv` finds the `dentry_priv` or makes one without requests. -/
theorem getDentryPriv_cases (d : ℕ) {u : Unified V} (h : ListsOk cs u) :
    ((getDentryPriv L d u).1 = none ∧ ListsOk cs (getDentryPriv L d u).2) ∨
    ∃ dpr, (getDentryPriv L d u).1 = some dpr ∧ ListsOk cs (getDentryPriv L d u).2 ∧
      (getDentryPriv L d u).2.priv d = some dpr ∧
      (u.priv d = some dpr ∧ (getDentryPriv L d u).2 = u ∨ u.priv d = none ∧ dpr.requests = []) := by
  unfold getDentryPriv
  cases hd : u.priv d with
  | some dpr => exact Or.inr ⟨dpr, rfl, h, hd, Or.inl ⟨rfl, rfl⟩⟩
  | none =>
    dsimp only
    split
    · exact Or.inl ⟨rfl, h.cacheSize, h.ok⟩
    · refine Or.inr ⟨_, rfl, ?_, by simp, Or.inr ⟨rfl, rfl⟩⟩
      have hset : ∀ p : DentryPriv, p.requests = [] →
          ListsOk cs (u.allocates.2.setPriv d (some p)) := by
        intro p hp
        refine h.setPriv (by exact h.cacheSize) (by rfl) ?_
        rintro q ⟨⟩
        constructor
        · rw [hp]
          exact ReqsOk.nil cs
        · simp [hp]
      exact ⟨h.cacheSize, (hset _ rfl).ok⟩

theorem freeSpare_ok (spare : Option ℕ) {u : Unified V} (h : ListsOk cs u) :
    ListsOk cs (freeSpare spare u) := by
  cases spare with
  | none => exact h
  | some cache => exact ⟨h.cacheSize, h.ok⟩

/-- An attempt whose way is clear keeps all lists in order, whatever its outcome. -/
theorem writeAttempt_ok {u : Unified V} (h : ListsOk cs u) (d size : ℕ) (call : WriteCall)
    (hne : call.buf ≠ []) (hfits : call.buf.length ≤ cs) (hclear : clearWay L d call u = true) :
    ListsOk cs (writeAttempt L d size call u).2 := by
  unfold writeAttempt
  dsimp only
  rcases getDentryPriv_cases L d h with ⟨hget, hok⟩ | ⟨dpr, hget, hok, hpriv, hold⟩
  · have heq : getDentryPriv L d u = (none, (getDentryPriv L d u).2) := Prod.ext hget rfl
    rw [heq]
    exact freeSpare_ok _ hok
  · have heq : getDentryPriv L d u = (some dpr, (getDentryPriv L d u).2) := Prod.ext hget rfl
    rw [heq]
    set u' := (getDentryPriv L d u).2
    have hp := hok.ok d dpr hpriv
    have hc : CtxOk cs u'.priv ⟨u', (getWriteError dpr).2⟩ :=
      ⟨hok.cacheSize, rfl, hp.ok, hp.limit_le⟩
    dsimp only
    split
    · exact CtxOk.store hok hc d
    · split
      · exact CtxOk.store hok hc d
      · have hplace := placeWrite_ok L hc d call
        have hover : overtakes cs (placeWrite L d call ⟨u', (getWriteError dpr).2⟩).dpr.requests
            call.offset call.buf.length = false := by
          rcases hold with ⟨hsome, hsame⟩ | ⟨-, hnil⟩
          · unfold clearWay writeRequests at hclear
            rw [hsome, h.cacheSize] at hclear
            rw [hsame]
            simpa using hclear
          · rw [placeWrite_nil L (by exact hnil) d call]
            simp [overtakes]
        set c := placeWrite L d call ⟨u', (getWriteError dpr).2⟩
        set w : WriteState := {
          passed := []
          prev := none
          skipped := []
          buf := call.buf
          offset := call.offset
          spare := call.spare
          fileSize := c.dpr.fileSize
          pool := c.u.pool
          mem := c.u.mem
          log := [] }
        have hpost := doAppend_post (appendFuel c.dpr.requests) c.dpr.requests w
          ⟨hplace.dpr.ok, hfits, fun _ => rfl, hplace.dpr.limit_le, rfl⟩ hne
          (Or.inr ⟨hover, le_refl _⟩)
        rw [hplace.cacheSize]
        set r := doAppend cs (appendFuel c.dpr.requests) c.dpr.requests w
        have hmid : CtxOk cs u'.priv
            { u := { c.u with pool := r.state.pool, mem := r.state.mem }
              dpr := { c.dpr with requests := r.requests, fileSize := r.state.fileSize } } :=
          ⟨hplace.cacheSize, hplace.priv, hpost.list.ok, hpost.list.limit_le⟩
        have hfin : CtxOk cs u'.priv (finishWrite d r c) :=
          hmid.queueOnly (applyLog_queueOnly r.state.log d _)
        have hstore := CtxOk.store hok hfin d
        split
        · apply freeSpare_ok
          exact ⟨hstore.cacheSize, hstore.ok⟩
        · exact freeSpare_ok _ hstore
        · exact hstore
        · exact hstore

end Ops

/-! ## Runs -/

/-- The operations of the scheduler. A `unified_write` that has to wait for a cache
block is continued by `resume`, any number of times and with other operations in
between. -/
inductive Op (V : Type) where
  | write (d : ℕ) (buf : List UInt8) (offset : ℕ)
  | resume (d size : ℕ) (call : WriteCall)
  | truncate (d length : ℕ)
  | flush (d : ℕ)
  | flushAll
  | processQueue (queue : RequestState)
  | updateDataPlacement (d : ℕ)
  | close (d : ℕ) (flushes : Bool)
  /-- Whatever happens around the scheduler: on the volume, to the memory, to the
  cache pool. -/
  | outside (vol : V) (mem : List Bool) (pool : CachePool)

section Run

variable {V : Type} (L : Libltfs V)

/-- One operation. -/
def Op.exec : Op V → Unified V → Unified V
  | .write d buf offset, u => (unifiedWrite L d buf offset u).2
  | .resume d size call, u => (writeAttempt L d size call u).2
  | .truncate d length, u => (unifiedTruncate L d length u).2
  | .flush d, u => (flushUnlocked L d u).2
  | .flushAll, u => (Sched.flushAll L u).2
  | .processQueue queue, u => Sched.processQueue L queue u
  | .updateDataPlacement d, u => Sched.updateDataPlacement L d u
  | .close d flushes, u => (unifiedClose L d flushes u).2
  | .outside vol mem pool, u => { u with vol := vol, mem := mem, pool := pool }

/-- To the scheduler a read is one of these: it leaves the requests as they are. -/
theorem unifiedRead_outside (d size offset : ℕ) (u : Unified V) :
    ∃ vol mem, (unifiedRead L d size offset u).2 = (Op.outside vol mem u.pool).exec L u := by
  unfold unifiedRead
  by_cases hsize : size = 0
  · exact ⟨u.vol, u.mem, by rw [if_pos hsize]; rfl⟩
  rw [if_neg hsize]
  dsimp only
  by_cases hlock : (L.getVolumeLock u.vol).1 < 0
  · exact ⟨_, u.mem, by rw [if_pos hlock]; rfl⟩
  rw [if_neg hlock]
  by_cases hempty : (((u.priv d).map DentryPriv.requests).getD []).isEmpty
  · exact ⟨_, u.mem, by rw [if_pos hempty]; rfl⟩
  rw [if_neg hempty]
  rcases readLoop _ offset size u.mem with ⟨_ | ⟨pieces, o, n⟩, mem⟩
  · exact ⟨_, mem, rfl⟩
  dsimp only
  rcases issueReads L d false pieces _ with ⟨e | bytes, vol⟩
  · exact ⟨vol, mem, rfl⟩
  dsimp only
  split
  · exact ⟨_, mem, rfl⟩
  · exact ⟨vol, mem, rfl⟩
/-- Writes are not larger than a cache block. -/
def Op.Fits (cs : ℕ) : Op V → Prop
  | .write _ buf _ => buf.length ≤ cs
  | .resume _ _ call => call.buf ≠ [] ∧ call.buf.length ≤ cs
  | _ => True

/-- Writes have a clear way. -/
def Op.ClearWay : Op V → Unified V → Prop
  | .write d buf offset, u =>
    clearWay L d ⟨buf, offset, none, false⟩ { u with vol := (L.getVolumeLock u.vol).2 } = true
  | .resume d _ call, u => clearWay L d call u = true
  | _, _ => True

/-- The state after a run. -/
def run (ops : List (Op V)) (u : Unified V) : Unified V := ops.foldl (fun u op => op.exec L u) u

/-- Every operation of the run meets its condition in the state it starts from. -/
def RunClear : List (Op V) → Unified V → Prop
  | [], _ => True
  | op :: ops, u => op.ClearWay L u ∧ RunClear ops (op.exec L u)

theorem unifiedWrite_ok {cs : ℕ} {u : Unified V} (h : ListsOk cs u) (d : ℕ) (buf : List UInt8)
    (offset : ℕ) (hfits : buf.length ≤ cs)
    (hclear : clearWay L d ⟨buf, offset, none, false⟩
      { u with vol := (L.getVolumeLock u.vol).2 } = true) :
    ListsOk cs (unifiedWrite L d buf offset u).2 := by
  unfold unifiedWrite
  dsimp only
  split
  · exact h
  · rename_i hne
    split
    · exact ⟨h.cacheSize, h.ok⟩
    · have hlock : ListsOk cs { u with vol := (L.getVolumeLock u.vol).2 } := ⟨h.cacheSize, h.ok⟩
      have hbuf : buf ≠ [] := by
        rintro rfl
        exact hne rfl
      exact writeAttempt_ok L hlock d buf.length ⟨buf, offset, none, false⟩ hbuf hfits hclear

/-- One operation keeps the request lists in order. -/
theorem Op.exec_ok {cs : ℕ} {u : Unified V} (h : ListsOk cs u) (op : Op V) (hfits : op.Fits cs)
    (hclear : op.ClearWay L u) : ListsOk cs (op.exec L u) := by
  cases op with
  | write d buf offset => exact unifiedWrite_ok L h d buf offset hfits hclear
  | resume d size call => exact writeAttempt_ok L h d size call hfits.1 hfits.2 hclear
  | truncate d length => exact unifiedTruncate_ok L d length h
  | flush d => exact flushUnlocked_ok L h d
  | flushAll => exact flushAll_ok L h
  | processQueue queue => exact processQueue_ok L queue h
  | updateDataPlacement d => exact updateDataPlacement_ok L d h
  | close d flushes => exact unifiedClose_ok L d flushes h
  | outside vol mem pool => exact ⟨h.cacheSize, h.ok⟩

/-- So does a run. -/
theorem run_ok {cs : ℕ} (ops : List (Op V)) : ∀ {u : Unified V}, ListsOk cs u →
    (∀ op ∈ ops, op.Fits cs) → RunClear L ops u → ListsOk cs (run L ops u) := by
  induction ops with
  | nil => exact fun h _ _ => h
  | cons op ops ih =>
    intro u h hfits hclear
    exact ih (Op.exec_ok L h op (hfits op (by simp)) hclear.1)
      (fun o ho => hfits o (by simp [ho])) hclear.2

/-- In every run whose writes have a clear way, from a scheduler without cached
requests, all request lists stay sorted and disjoint, with no empty or oversized
request. -/
theorem lists_ok_of_run (u : Unified V) (ops : List (Op V))
    (hstart : ∀ d dpr, u.priv d = some dpr → dpr.requests = [])
    (hfits : ∀ op ∈ ops, op.Fits u.cacheSize) (hclear : RunClear L ops u) (d : ℕ)
    (dpr : DentryPriv) (hd : (run L ops u).priv d = some dpr) :
    ReqsOk u.cacheSize dpr.requests := by
  have hinit : ListsOk u.cacheSize u := by
    refine ⟨rfl, ?_⟩
    intro e p hp
    have hnil := hstart e p hp
    constructor
    · rw [hnil]
      exact ReqsOk.nil _
    · simp [hnil]
  exact ((run_ok L ops hinit hfits hclear).ok d dpr hd).ok

end Run

/-! ## A write that overtakes -/

/-- The scheduler as `unified_init` leaves it. -/
def Unified.init {V : Type} (cacheSize maxCapacity : ℕ) (vol : V) : Unified V where
  cacheSize := cacheSize
  workingSet := []
  dpQueue := []
  ipQueue := []
  extQueue := []
  wsCount := 0
  dpCount := 0
  ipCount := 0
  wsRequestCount := 0
  dpRequestCount := 0
  ipRequestCount := 0
  pool := ⟨[], 0, maxCapacity, []⟩
  mem := []
  priv := fun _ => none
  vol := vol

/-- A libltfs that has nothing to object to and keeps nothing. -/
def idleLibltfs : Libltfs Unit where
  blocksize := fun _ => 1
  dentrySize := fun _ _ => 0
  matchesNameCriteria := fun _ _ => false
  deleted := fun _ _ => false
  numhandles := fun _ _ => 1
  maxFilesize := fun _ => 0
  tapeReadonly := fun _ => 0
  partitionReadonly := fun _ _ => 0
  getVolumeLock := fun v => (0, v)
  fsrawRead := fun _ _ _ v => (.ok [], v)
  fsrawWrite := fun _ _ _ v => (0, v)
  fsrawWriteData := fun _ v => (.ok 0, v)
  fsrawAddExtent := fun _ _ v => (0, v)
  fsrawTruncate := fun _ _ v => (0, v)
  fsrawGetDentry := fun _ v => v
  fsrawPutDentry := fun _ v => v
  fsrawClose := fun _ v => v
  setCartVolumeLockStatus := fun v => (0, v)
  writeIndexAfterPerm := fun _ v => v

/-- One byte at 4, one at 8, then ten at 0: the new request swallows the first and
passes over the second, which stays in the list. -/
theorem overtaken_request_stays :
    ¬ ReqsOk 16 (((run idleLibltfs [.write 0 [1] 4, .write 0 [2] 8,
      .write 0 (List.replicate 10 3) 0] (Unified.init 16 64 ())).priv 0).elim []
        DentryPriv.requests) := by
  intro h
  have hord := h.ordered
  revert hord
  unfold Ordered
  decide

/-- Nothing is passed over when the long write comes first. -/
theorem lists_ok_of_run_in_order :
    ReqsOk 16 [⟨0, [3, 3, 3, 3, 1, 3, 3, 3, 2, 3], requestPartial, 0⟩] :=
  lists_ok_of_run idleLibltfs (Unified.init 16 64 ())
    [.write 0 (List.replicate 10 3) 0, .write 0 [1] 4, .write 0 [2] 8]
    (by
      intro d dpr h
      cases h)
    (by
      intro op hop
      simp only [List.mem_cons, List.not_mem_nil, or_false] at hop
      rcases hop with rfl | rfl | rfl
      · show (List.replicate 10 (3 : UInt8)).length ≤ 16
        decide
      · show [(1 : UInt8)].length ≤ 16
        decide
      · show [(2 : UInt8)].length ≤ 16
        decide)
    ⟨rfl, rfl, rfl, trivial⟩ 0 ⟨10, false, 0, 1, 0, 0, _, []⟩ rfl

end Ltfs.Sched
