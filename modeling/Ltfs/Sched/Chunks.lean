import Ltfs.Sched.Counters
import Ltfs.Sched.LargeWrite
import Ltfs.Sched.Recode

/-!
# Large writes over whole runs

No operation of the scheduler leaves an empty or oversized request in a list, not even a
write that passes over requests it should have overwritten (`run_sized`). From every such
state, a write that returns its size keeps all its bytes exactly when the list leaves at
most one cache block of it for a new request (`large_write_kept`).
-/

namespace Ltfs.Sched

open RequestState

/-- No request of the list is empty or larger than a cache block. -/
def Sized (cs : ℕ) (l : List WriteRequest) : Prop := ∀ r ∈ l, 0 < r.count ∧ r.count ≤ cs

theorem Sized.sublist {cs : ℕ} {l l' : List WriteRequest} (h : Sized cs l) (hs : l'.Sublist l) :
    Sized cs l' :=
  fun r hr => h r (hs.subset hr)

theorem sized_append {cs : ℕ} {l l' : List WriteRequest} :
    Sized cs (l ++ l') ↔ Sized cs l ∧ Sized cs l' := by
  simp only [Sized, List.mem_append]
  constructor
  · exact fun h => ⟨fun r hr => h r (Or.inl hr), fun r hr => h r (Or.inr hr)⟩
  · rintro ⟨h, h'⟩ r (hr | hr)
    · exact h r hr
    · exact h' r hr

theorem sized_cons {cs : ℕ} {r : WriteRequest} {l : List WriteRequest} :
    Sized cs (r :: l) ↔ (0 < r.count ∧ r.count ≤ cs) ∧ Sized cs l := by
  simp [Sized]

/-- All request lists of the scheduler are so. -/
structure SizesOk {V : Type} (cs : ℕ) (u : Unified V) : Prop where
  cacheSize : u.cacheSize = cs
  sized : ∀ d dpr, u.priv d = some dpr → Sized cs dpr.requests

/-- The same while an operation has one `dentry_priv` at hand, and `l` is what its list
is now. -/
structure LoopSized {V : Type} (cs : ℕ) (priv : ℕ → Option DentryPriv) (l : List WriteRequest)
    (c : Ctx V) : Prop where
  cacheSize : c.u.cacheSize = cs
  priv : c.u.priv = priv
  sized : Sized cs l

/-- The list is the one of the `dentry_priv`. -/
def CtxSized {V : Type} (cs : ℕ) (priv : ℕ → Option DentryPriv) (c : Ctx V) : Prop :=
  LoopSized cs priv c.dpr.requests c

section Ops

variable {V : Type} {cs : ℕ} {priv : ℕ → Option DentryPriv} {d : ℕ}

theorem SizesOk.ctx {u : Unified V} (h : SizesOk cs u) {dpr : DentryPriv}
    (hd : u.priv d = some dpr) : CtxSized cs u.priv ⟨u, dpr⟩ :=
  ⟨h.cacheSize, rfl, h.sized d dpr hd⟩

theorem SizesOk.setPriv {u u' : Unified V} (h : SizesOk cs u) (hcs : u'.cacheSize = cs)
    (hpriv : u'.priv = u.priv) {dpr : Option DentryPriv}
    (hd : ∀ p, dpr = some p → Sized cs p.requests) : SizesOk cs (u'.setPriv d dpr) := by
  refine ⟨hcs, ?_⟩
  intro e p hp
  by_cases he : e = d
  · rw [he, setPriv_self] at hp
    exact hd p hp
  · rw [setPriv_ne u' dpr he, hpriv] at hp
    exact h.sized e p hp

theorem CtxSized.store {u : Unified V} (h : SizesOk cs u) {c : Ctx V}
    (hc : CtxSized cs u.priv c) : SizesOk cs (c.store d) := by
  apply h.setPriv hc.cacheSize hc.priv
  rintro p ⟨⟩
  exact hc.sized

theorem LoopSized.same {l : List WriteRequest} {c c' : Ctx V} (h : LoopSized cs priv l c)
    (hs : SameFile c c') : LoopSized cs priv l c' :=
  ⟨hs.cacheSize.trans h.cacheSize, hs.priv.trans h.priv, h.sized⟩

theorem CtxSized.queueOnly {c c' : Ctx V} (h : CtxSized cs priv c) (hq : QueueOnly c c') :
    CtxSized cs priv c' := by
  unfold CtxSized
  rw [hq.requests]
  exact LoopSized.same h hq.toSameFile

/-! ## Placement and errors -/

theorem dropAltExtentlist_sized {c : Ctx V} (h : CtxSized cs priv c) :
    CtxSized cs priv (dropAltExtentlist d c) := by
  unfold dropAltExtentlist
  split
  · exact h
  · exact ⟨h.cacheSize, h.priv, h.sized⟩

theorem unsetWriteIp_sized {c : Ctx V} (h : CtxSized cs priv c) :
    CtxSized cs priv (unsetWriteIp d c) := by
  unfold unsetWriteIp
  dsimp only
  apply dropAltExtentlist_sized
  split
  · -- the index partition requests go
    set gone := c.dpr.requests.filter fun r => decide (r.state = requestIp)
    have hq := updateQueueMembership_queueOnly false true requestIp d
      { u := freeRequests gone c.u
        dpr := { c.dpr with
          writeIp := false
          requests := c.dpr.requests.filter fun r => decide (r.state ≠ requestIp) } }
    have hmid : CtxSized cs priv _ := CtxSized.queueOnly (by
      refine ⟨?_, ?_, Sized.sublist h.sized List.filter_sublist⟩
      · rw [freeRequests_cacheSize]
        exact h.cacheSize
      · rw [freeRequests_priv]
        exact h.priv) hq
    exact ⟨hmid.cacheSize, hmid.priv, hmid.sized⟩
  · exact ⟨h.cacheSize, h.priv, h.sized⟩

theorem recomputeWriteIp_sized (L : Libltfs V) (small : Bool) {c : Ctx V}
    (h : CtxSized cs priv c) : CtxSized cs priv (recomputeWriteIp L small d c) := by
  unfold recomputeWriteIp
  dsimp only
  split
  · exact ⟨h.cacheSize, h.priv, h.sized⟩
  · split
    · exact unsetWriteIp_sized h
    · exact h

theorem handleWriteError_sized (L : Libltfs V) (ret : ℤ) (failed : WriteRequest) {c : Ctx V}
    (h : CtxSized cs priv c) : CtxSized cs priv (handleWriteError L ret failed d c) := by
  have he := handleWriteError_spec L ret failed d c
  unfold CtxSized
  rw [he.requests]
  exact ⟨he.cacheSize.trans h.cacheSize, he.priv.trans h.priv,
    Sized.sublist h.sized List.filter_sublist⟩

/-! ## The loops -/

theorem mergePrev_sized {kept rest : List WriteRequest} {req : WriteRequest} {c : Ctx V}
    (h : LoopSized cs priv (kept ++ req :: rest) c) :
    LoopSized cs priv ((mergePrev d kept req c).1 ++ rest) (mergePrev d kept req c).2 := by
  unfold mergePrev
  cases hlast : kept.getLast? with
  | none =>
    rw [List.getLast?_eq_none_iff] at hlast
    subst hlast
    exact h
  | some dest =>
    rcases List.getLast?_eq_some_iff.mp hlast with ⟨before, rfl⟩
    rcases sized_append.mp h.sized with ⟨hkept, hreq⟩
    rcases sized_append.mp hkept with ⟨hbefore, hdest⟩
    rcases sized_cons.mp hreq with ⟨hreq, hrest⟩
    have hdest := hdest dest (by simp)
    have hm := mergeRequests_holds c.u.cacheSize dest req
    rw [h.cacheSize] at hm ⊢
    dsimp only
    set m := mergeRequests cs dest req
    have hmdest : 0 < m.dest.count ∧ m.dest.count ≤ cs := by
      have hge := hm.dest_ge
      have hoff := hm.dest_offset
      unfold WriteRequest.limit at hge
      exact ⟨by omega, hm.dest_count hdest.2⟩
    have hq := applyLog_queueOnly m.srcLog d { c with dpr := { c.dpr with
      fileSize := if m.updated then max c.dpr.fileSize m.dest.limit else c.dpr.fileSize } }
    rw [List.dropLast_concat]
    split
    · refine ⟨hq.cacheSize.trans h.cacheSize, hq.priv.trans h.priv, ?_⟩
      rw [List.append_assoc, sized_append, List.singleton_append, sized_cons]
      exact ⟨hbefore, hmdest, hrest⟩
    · rename_i hret
      have hk := hm.kept hret
      refine ⟨hq.cacheSize.trans h.cacheSize, hq.priv.trans h.priv, ?_⟩
      simp only [List.append_assoc, List.cons_append, List.nil_append, sized_append, sized_cons]
      exact ⟨hbefore, hmdest, ⟨hk.1 hreq.1, le_trans hk.2.1 hreq.2⟩, hrest⟩

theorem toIp_sized {kept rest : List WriteRequest} {req : WriteRequest} {c : Ctx V}
    (h : LoopSized cs priv (kept ++ req :: rest) c) :
    LoopSized cs priv ((toIp d kept req c).1 ++ rest) (toIp d kept req c).2 := by
  have hq := updateQueueMembership_queueOnly true false requestIp d c
  rcases sized_append.mp h.sized with ⟨hkept, hreq⟩
  rcases sized_cons.mp hreq with ⟨hreq, hrest⟩
  exact mergePrev_sized ⟨hq.cacheSize.trans h.cacheSize, hq.priv.trans h.priv,
    sized_append.mpr ⟨hkept, sized_cons.mpr ⟨hreq, hrest⟩⟩⟩

theorem LoopSized.drop {kept rest : List WriteRequest} {req : WriteRequest} {c : Ctx V}
    (h : LoopSized cs priv (kept ++ req :: rest) c) : LoopSized cs priv (kept ++ rest) c :=
  ⟨h.cacheSize, h.priv,
    Sized.sublist h.sized (List.Sublist.append_left (List.sublist_cons_self req rest) kept)⟩

variable (L : Libltfs V)

theorem failedWrite_sized {l : List WriteRequest} {c : Ctx V} (h : LoopSized cs priv l c) (ret : ℤ)
    (req : WriteRequest) (vol : V) : CtxSized cs priv (failedWrite L d ret req l vol c) :=
  handleWriteError_sized L ret req ⟨h.cacheSize, h.priv, h.sized⟩

theorem flushLoop_sized (rest : List WriteRequest) : ∀ (kept : List WriteRequest) (c : Ctx V),
    LoopSized cs priv (kept ++ rest) c → CtxSized cs priv (flushLoop L d kept rest c) := by
  induction rest with
  | nil =>
    intro kept c h
    rw [List.append_nil] at h
    exact ⟨h.cacheSize, h.priv, h.sized⟩
  | cons req rest ih =>
    intro kept c h
    unfold flushLoop
    by_cases hip : req.state = requestIp
    · rw [if_pos hip]
      exact ih _ _ (mergePrev_sized h)
    · rw [if_neg hip]
      dsimp only
      split
      · exact failedWrite_sized L h _ req _
      · have hv : LoopSized cs priv (kept ++ req :: rest)
            { c with u := { c.u with vol := (L.fsrawWrite d req.data req.offset c.u.vol).2 } } :=
          ⟨h.cacheSize, h.priv, h.sized⟩
        split
        · exact ih _ _ (toIp_sized hv)
        · exact ih _ _ ⟨h.cacheSize, h.priv, h.drop.sized⟩

theorem dataLoop_sized (queue : RequestState) (rest : List WriteRequest) :
    ∀ (kept moved : List WriteRequest) (c : Ctx V), LoopSized cs priv (kept ++ rest) c →
      CtxSized cs priv (dataLoop L queue d kept moved rest c).2 := by
  induction rest with
  | nil =>
    intro kept moved c h
    rw [List.append_nil] at h
    exact ⟨h.cacheSize, h.priv, h.sized⟩
  | cons req rest ih =>
    intro kept moved c h
    unfold dataLoop
    by_cases hip : req.state = requestIp
    · rw [if_pos hip]
      exact ih _ _ _ (mergePrev_sized h)
    · rw [if_neg hip]
      by_cases htaken : req.state = requestDp ∨ queue = requestPartial
      · rw [if_pos htaken]
        by_cases hwip : c.dpr.writeIp = true
        · rw [if_pos hwip]
          dsimp only
          split
          · exact failedWrite_sized L h _ req _
          · have hv : LoopSized cs priv (kept ++ req :: rest)
                { c with u := { c.u with vol := (L.fsrawWrite d req.data req.offset c.u.vol).2 } } :=
              ⟨h.cacheSize, h.priv, h.sized⟩
            exact ih _ _ _ (toIp_sized hv)
        · rw [if_neg hwip]
          exact ih _ _ _ h.drop
      · rw [if_neg htaken]
        exact ih _ _ _ (by simpa using h)

theorem indexLoop_sized (rest : List WriteRequest) : ∀ (kept : List WriteRequest) (c : Ctx V),
    LoopSized cs priv (kept ++ rest) c → CtxSized cs priv (indexLoop L d kept rest c) := by
  induction rest with
  | nil =>
    intro kept c h
    rw [List.append_nil] at h
    exact ⟨h.cacheSize, h.priv, h.sized⟩
  | cons req rest ih =>
    intro kept c h
    unfold indexLoop
    by_cases hip : req.state = requestIp
    · rw [if_pos hip]
      dsimp only
      split
      · exact handleWriteError_sized L _ _ ⟨h.cacheSize, h.priv, h.sized⟩
      · split
        · split
          · exact handleWriteError_sized L _ _ ⟨h.cacheSize, h.priv, h.sized⟩
          · exact handleWriteError_sized L _ _ ⟨h.cacheSize, h.priv, h.sized⟩
        · -- written: the request leaves the list
          rename_i block vol hwrite
          apply ih
          rcases updateAltExtentlist_frame L ⟨⟨some .ip, block⟩, 0, req.count, req.offset⟩ d
            { u := { c.u.allocates.2 with vol := vol }, dpr := c.dpr } with ⟨h1, h2, -, -⟩
          exact ⟨h1.trans h.cacheSize, h2.trans h.priv, h.drop.sized⟩
    · rw [if_neg hip]
      exact ih _ _ (by simpa using h)

theorem truncateLoop_sized (length : ℕ) (l : List WriteRequest) : ∀ c : Ctx V,
    LoopSized cs priv l c →
      LoopSized cs priv (truncateLoop length d l c).1 (truncateLoop length d l c).2 := by
  induction l with
  | nil => exact fun c h => h
  | cons req before ih =>
    intro c h
    rcases sized_cons.mp h.sized with ⟨hreq, hbefore⟩
    unfold truncateLoop
    by_cases hout : req.offset ≥ length
    · -- behind the new end: the request goes
      rw [if_pos hout]
      have hq := updateQueueMembership_queueOnly false false req.state d c
      exact ih _ ⟨hq.cacheSize.trans h.cacheSize, hq.priv.trans h.priv, hbefore⟩
    · rw [if_neg hout]
      by_cases hcut : req.limit > length
      · -- the new end lies inside the request
        rw [if_pos hcut]
        have hr := ih c ⟨h.cacheSize, h.priv, hbefore⟩
        refine ⟨hr.cacheSize, hr.priv, sized_cons.mpr ⟨?_, hr.sized⟩⟩
        have hlim : req.limit = req.offset + req.count := rfl
        have hlen : req.count = req.data.length := rfl
        show 0 < (req.data.take (length - req.offset)).length ∧
          (req.data.take (length - req.offset)).length ≤ cs
        rw [List.length_take]
        omega
      · rw [if_neg hcut]
        exact h

/-! ## The operations -/

theorem flushUnlocked_sized {u : Unified V} (h : SizesOk cs u) :
    SizesOk cs (flushUnlocked L d u).2 := by
  unfold flushUnlocked
  cases hd : u.priv d with
  | none => exact h
  | some dpr =>
    have hp := h.sized d dpr hd
    dsimp only
    split
    · apply h.setPriv h.cacheSize rfl
      rintro p ⟨⟩
      exact hp
    · split
      · apply h.setPriv h.cacheSize rfl
        rintro p ⟨⟩
        exact hp
      · have hc : CtxSized cs u.priv ⟨u, (getWriteError dpr).2⟩ := ⟨h.cacheSize, rfl, hp⟩
        have hq := (hc.queueOnly (updateQueueMembership_queueOnly false true requestDp d _)).queueOnly
          (updateQueueMembership_queueOnly false true requestPartial d _)
        have hl := flushLoop_sized L (d := d) _ [] _ hq
        apply h.setPriv hl.cacheSize hl.priv
        rintro p ⟨⟩
        exact hl.sized

theorem flushEach_sized (l : List ℕ) : ∀ {u : Unified V}, SizesOk cs u →
    SizesOk cs (flushEach L l u).2 := by
  induction l with
  | nil => exact fun h => h
  | cons d rest ih =>
    intro u h
    unfold flushEach
    dsimp only
    split
    · exact flushUnlocked_sized L h
    · exact ih (flushUnlocked_sized L h)

theorem flushAll_sized {u : Unified V} (h : SizesOk cs u) : SizesOk cs (flushAll L u).2 := by
  unfold flushAll
  dsimp only
  split
  · exact flushEach_sized L _ h
  · exact flushEach_sized L _ (flushEach_sized L _ h)

theorem processDataEntry_sized (queue : RequestState) {u : Unified V} (h : SizesOk cs u) :
    SizesOk cs (processDataEntry L queue d u) := by
  unfold processDataEntry
  cases hd : u.priv d with
  | none => exact h
  | some dpr =>
    dsimp only
    have h₁ := (h.ctx hd).queueOnly (updateQueueMembership_queueOnly false true queue d _)
    set c₁ := updateQueueMembership false true queue d ⟨u, dpr⟩
    have h₂ : CtxSized cs u.priv (if queue = requestPartial then
        updateQueueMembership false true requestDp d c₁ else c₁) := by
      split
      · exact h₁.queueOnly (updateQueueMembership_queueOnly _ _ _ _ _)
      · exact h₁
    set c₂ := if queue = requestPartial then updateQueueMembership false true requestDp d c₁ else c₁
    have hl := dataLoop_sized L (d := d) queue _ [] [] _ h₂
    set l := dataLoop L queue d [] [] c₂.dpr.requests c₂
    rcases sendLoop_frame L d l.1 l.2.u with ⟨hs1, hs2⟩
    split
    · rename_i u' hsend
      rw [hsend] at hs1 hs2
      apply h.setPriv (hs1.trans hl.cacheSize) (hs2.trans hl.priv)
      rintro p ⟨⟩
      exact hl.sized
    · rename_i ret req rest u' hsend
      rw [hsend] at hs1 hs2
      have he : CtxSized cs u.priv (handleWriteError L ret req d ⟨u', l.2.dpr⟩) :=
        handleWriteError_sized L ret req
          ⟨hs1.trans hl.cacheSize, hs2.trans hl.priv, hl.sized⟩
      apply h.setPriv
      · rw [freeRequests_cacheSize]
        exact he.cacheSize
      · rw [freeRequests_priv]
        exact he.priv
      · rintro p ⟨⟩
        exact he.sized

theorem processDataLoop_sized (queue : RequestState) (n : ℕ) : ∀ {u : Unified V}, SizesOk cs u →
    SizesOk cs (processDataLoop L queue n u) := by
  induction n with
  | zero => exact fun h => h
  | succ n ih =>
    intro u h
    unfold processDataLoop
    split
    · exact h
    · exact ih (processDataEntry_sized L queue h)

theorem freeDentryPrivConditional_sized (n : ℕ) {u : Unified V} (h : SizesOk cs u) :
    SizesOk cs (freeDentryPrivConditional L d n u) := by
  unfold freeDentryPrivConditional
  split
  · exact h
  · split
    · have hfree : SizesOk cs (u.setPriv d none) := h.setPriv h.cacheSize rfl (by simp)
      exact ⟨hfree.cacheSize, hfree.sized⟩
    · exact h

theorem processIndexEntry_sized {u : Unified V} (h : SizesOk cs u) :
    SizesOk cs (processIndexEntry L d u) := by
  unfold processIndexEntry
  cases hd : u.priv d with
  | none => exact h
  | some dpr =>
    have hq := (h.ctx hd).queueOnly (updateQueueMembership_queueOnly false true requestIp d _)
    have hl := indexLoop_sized L (d := d) _ [] _ hq
    exact freeDentryPrivConditional_sized L 2 (CtxSized.store h hl)

theorem processQueue_sized (queue : RequestState) {u : Unified V} (h : SizesOk cs u) :
    SizesOk cs (processQueue L queue u) := by
  unfold processQueue
  split
  · unfold processIndexQueue
    generalize u.ipQueue = l
    induction l generalizing u with
    | nil => exact h
    | cons d l ih =>
      rw [List.foldl_cons]
      exact ih (processIndexEntry_sized L h)
  · exact processDataLoop_sized L queue _ h

theorem unifiedTruncate_sized (length : ℕ) {u : Unified V} (h : SizesOk cs u) :
    SizesOk cs (unifiedTruncate L d length u).2 := by
  unfold unifiedTruncate
  dsimp only
  split
  · exact h
  · cases hd : u.priv d with
    | none => exact ⟨h.cacheSize, h.sized⟩
    | some dpr =>
      have hc : CtxSized cs u.priv (truncateCached length d ⟨u, dpr⟩) := by
        unfold truncateCached
        split
        · have hr := truncateLoop_sized (d := d) length dpr.requests.reverse ⟨u, dpr⟩
            ⟨h.cacheSize, rfl, fun r hr => h.sized d dpr hd r (List.mem_reverse.mp hr)⟩
          exact ⟨hr.cacheSize, hr.priv, fun r hr' => hr.sized r (List.mem_reverse.mp hr')⟩
        · exact ⟨h.cacheSize, rfl, h.sized d dpr hd⟩
      have hs := CtxSized.store (d := d) h (recomputeWriteIp_sized (d := d) L
        (decide (length = 0)) hc)
      exact ⟨hs.cacheSize, hs.sized⟩

theorem updateDataPlacement_sized {u : Unified V} (h : SizesOk cs u) :
    SizesOk cs (updateDataPlacement L d u) := by
  unfold updateDataPlacement
  cases hd : u.priv d with
  | none => exact h
  | some dpr => exact CtxSized.store h (recomputeWriteIp_sized L _ (h.ctx hd))

theorem unifiedClose_sized (flush : Bool) {u : Unified V} (h : SizesOk cs u) :
    SizesOk cs (unifiedClose L d flush u).2 := by
  unfold unifiedClose
  dsimp only
  have hf : SizesOk cs (if flush = true then flushUnlocked L d u else (0, u)).2 := by
    split
    · exact flushUnlocked_sized L h
    · exact h
  set f := if flush = true then flushUnlocked L d u else (0, u)
  have hp : SizesOk cs
      (f.2.setPriv d ((f.2.priv d).map fun dpr => { dpr with writeError := 0 })) := by
    apply hf.setPriv hf.cacheSize rfl
    intro p hp
    rcases Option.map_eq_some_iff.mp hp with ⟨q, hq, rfl⟩
    exact hf.sized d q hq
  have hc := freeDentryPrivConditional_sized L (d := d) 3 hp
  exact ⟨hc.cacheSize, hc.sized⟩

/-! ## Writing -/

theorem getDentryPriv_sized {u : Unified V} (h : SizesOk cs u) :
    SizesOk cs (getDentryPriv L d u).2 ∧
      ∀ dpr, (getDentryPriv L d u).1 = some dpr → Sized cs dpr.requests := by
  unfold getDentryPriv
  cases hd : u.priv d with
  | some dpr =>
    refine ⟨h, ?_⟩
    rintro p ⟨⟩
    exact h.sized d dpr hd
  | none =>
    dsimp only
    split
    · exact ⟨⟨h.cacheSize, h.sized⟩, fun p hp => (nomatch hp)⟩
    · refine ⟨?_, ?_⟩
      · have hset : ∀ p : DentryPriv, p.requests = [] →
            SizesOk cs (u.allocates.2.setPriv d (some p)) := by
          intro p hp
          refine h.setPriv (by exact h.cacheSize) (by rfl) ?_
          rintro q ⟨⟩ r hr
          simp [hp] at hr
        exact ⟨h.cacheSize, (hset _ rfl).sized⟩
      · rintro p ⟨⟩ r hr
        simp at hr

/-- The state in which an attempt starts to edit the list. -/
def startWrite (call : WriteCall) (c : Ctx V) : WriteState where
  passed := []
  prev := none
  skipped := []
  buf := call.buf
  offset := call.offset
  spare := call.spare
  fileSize := c.dpr.fileSize
  pool := c.u.pool
  mem := c.u.mem
  log := []

/-- The edit of the list in an attempt. -/
def editRequests (call : WriteCall) (c : Ctx V) : WriteResult :=
  doAppend c.u.cacheSize (appendFuel c.dpr.requests) c.dpr.requests (startWrite call c)

theorem editRequests_lands (call : WriteCall) {c : Ctx V} (hcs : 0 < c.u.cacheSize)
    (hbuf : call.buf ≠ []) (hsized : Sized c.u.cacheSize c.dpr.requests) :
    ResultLands c.u.cacheSize call.offset
      (lostFrom c.u.cacheSize c.dpr.requests call.offset call.buf.length) call.buf c.dpr.requests
      (editRequests call c) :=
  doAppend_start (w := startWrite call c) hcs hbuf hsized

/-- An attempt that gets as far as editing the list. -/
theorem writeAttempt_edit {u u' : Unified V} {dpr : DentryPriv} (size : ℕ) {call : WriteCall}
    (hget : getDentryPriv L d u = (some dpr, u')) (herror : ¬ dpr.writeError < 0)
    (hreadonly : ¬ (¬ call.checkedReadonly ∧ L.tapeReadonly u'.vol < 0)) :
    writeAttempt L d size call u =
      let c := placeWrite L d call ⟨u', (getWriteError dpr).2⟩
      let r := editRequests call c
      let u := (finishWrite d r c).store d
      match r.outcome with
      | .done => (.returned size, freeSpare r.state.spare { u with vol := (L.getVolumeLock u.vol).2 })
      | .noMemory => (.returned (-ltfsNoMemory), freeSpare r.state.spare u)
      | .restart => (.restart ⟨r.state.buf, r.state.offset, r.state.spare, true⟩, u)
      | .diverges => (.diverges, u) := by
  have herror' : ¬ (getWriteError dpr).1 < 0 := herror
  unfold writeAttempt
  rw [hget]
  dsimp only
  rw [if_neg herror', if_neg hreadonly]
  rfl

theorem placeWrite_sized {c : Ctx V} (h : CtxSized cs priv c) (call : WriteCall) :
    CtxSized cs priv (placeWrite L d call c) := by
  unfold placeWrite
  split
  · exact unsetWriteIp_sized h
  · exact h

theorem freeSpare_sized (spare : Option ℕ) {u : Unified V} (h : SizesOk cs u) :
    SizesOk cs (freeSpare spare u) := by
  cases spare with
  | none => exact h
  | some cache => exact ⟨h.cacheSize, h.sized⟩

theorem writeAttempt_sized (hcs : 0 < cs) {u : Unified V} (h : SizesOk cs u) (size : ℕ)
    {call : WriteCall} (hbuf : call.buf ≠ []) : SizesOk cs (writeAttempt L d size call u).2 := by
  rcases getDentryPriv_sized L (d := d) h with ⟨hok, hsized⟩
  rcases hget : getDentryPriv L d u with ⟨_ | dpr, u'⟩
  · rw [hget] at hok
    unfold writeAttempt
    rw [hget]
    exact freeSpare_sized _ hok
  · rw [hget] at hok hsized
    have hdpr := hsized dpr rfl
    have hset : SizesOk cs (u'.setPriv d (some (getWriteError dpr).2)) := by
      apply hok.setPriv hok.cacheSize rfl
      rintro p ⟨⟩
      exact hdpr
    by_cases herror : dpr.writeError < 0
    · have herror' : (getWriteError dpr).1 < 0 := herror
      unfold writeAttempt
      rw [hget]
      dsimp only
      rw [if_pos herror']
      exact hset
    · by_cases hreadonly : ¬ call.checkedReadonly ∧ L.tapeReadonly u'.vol < 0
      · have herror' : ¬ (getWriteError dpr).1 < 0 := herror
        unfold writeAttempt
        rw [hget]
        dsimp only
        rw [if_neg herror', if_pos hreadonly]
        exact hset
      · rw [writeAttempt_edit L size hget herror hreadonly]
        have hc : CtxSized cs u'.priv (placeWrite L d call ⟨u', (getWriteError dpr).2⟩) := by
          have hstart : CtxSized cs u'.priv ⟨u', (getWriteError dpr).2⟩ := ⟨hok.cacheSize, rfl, hdpr⟩
          exact placeWrite_sized L hstart call
        set c := placeWrite L d call ⟨u', (getWriteError dpr).2⟩
        dsimp only
        have hccs := hc.cacheSize
        have hlands := editRequests_lands call (c := c) (by rw [hccs]; exact hcs) hbuf
          (by rw [hccs]; exact hc.sized)
        rw [hccs] at hlands
        set r := editRequests call c
        have hrsized : Sized cs r.requests := by
          intro q hq
          exact hlands.lands.sized q (by simpa [WriteState.before] using hq)
        have hq := applyLog_queueOnly r.state.log d
          { u := { c.u with pool := r.state.pool, mem := r.state.mem }
            dpr := { c.dpr with requests := r.requests, fileSize := r.state.fileSize } }
        have hmid : CtxSized cs u'.priv
            { u := { c.u with pool := r.state.pool, mem := r.state.mem }
              dpr := { c.dpr with requests := r.requests, fileSize := r.state.fileSize } } :=
          ⟨hc.cacheSize, hc.priv, hrsized⟩
        have hfin : CtxSized cs u'.priv (finishWrite d r c) := hmid.queueOnly hq
        have hstore := CtxSized.store (d := d) hok hfin
        split
        · apply freeSpare_sized
          exact ⟨hstore.cacheSize, hstore.sized⟩
        · exact freeSpare_sized _ hstore
        · exact hstore
        · exact hstore

theorem unifiedWrite_sized (hcs : 0 < cs) {u : Unified V} (h : SizesOk cs u) (buf : List UInt8)
    (offset : ℕ) : SizesOk cs (unifiedWrite L d buf offset u).2 := by
  unfold unifiedWrite
  dsimp only
  split
  · exact h
  · rename_i hne
    split
    · exact ⟨h.cacheSize, h.sized⟩
    · have hbuf : buf ≠ [] := by
        rintro rfl
        exact hne rfl
      have hlock : SizesOk cs { u with vol := (L.getVolumeLock u.vol).2 } := ⟨h.cacheSize, h.sized⟩
      exact writeAttempt_sized L hcs hlock buf.length hbuf

end Ops

/-! ## Runs -/

section Run

variable {V : Type} {cs : ℕ} (L : Libltfs V)

/-- A write that waited has bytes left to store. -/
def Op.Pending : Op V → Prop
  | .resume _ _ call => call.buf ≠ []
  | _ => True

theorem Op.exec_sized (hcs : 0 < cs) {u : Unified V} (h : SizesOk cs u) (op : Op V)
    (hop : op.Pending) : SizesOk cs (op.exec L u) := by
  cases op with
  | write d buf offset => exact unifiedWrite_sized L hcs h buf offset
  | resume d size call => exact writeAttempt_sized L hcs h size hop
  | truncate d length => exact unifiedTruncate_sized L length h
  | flush d => exact flushUnlocked_sized L h
  | flushAll => exact flushAll_sized L h
  | processQueue queue => exact processQueue_sized L queue h
  | updateDataPlacement d => exact updateDataPlacement_sized L h
  | close d flushes => exact unifiedClose_sized L flushes h
  | outside vol mem pool => exact ⟨h.cacheSize, h.sized⟩

theorem run_sized (hcs : 0 < cs) (ops : List (Op V)) : ∀ {u : Unified V}, SizesOk cs u →
    (∀ op ∈ ops, op.Pending) → SizesOk cs (run L ops u) := by
  induction ops with
  | nil => exact fun h _ => h
  | cons op ops ih =>
    intro u h hops
    exact ih (Op.exec_sized L hcs h op (hops op (by simp))) fun o ho => hops o (by simp [ho])

/-! ## Which writes are kept -/

/-- The requests of the file hold the bytes of the write up to `stop`, none of them has
more than one cache block, and the file is at least that long. -/
def StoredUpTo (cs d : ℕ) (call : WriteCall) (stop : ℕ) (u : Unified V) : Prop :=
  ∃ dpr, u.priv d = some dpr ∧ (∀ r ∈ dpr.requests, r.count ≤ cs) ∧
    (∀ x b, call.offset ≤ x → x < stop → call.buf[x - call.offset]? = some b →
      HeldIn dpr.requests x b) ∧
    (call.offset < stop → stop ≤ dpr.fileSize)

variable {d : ℕ}

/-- The placement update looks at the length of the write only. -/
theorem placeWrite_buf {call : WriteCall} {buf : List UInt8} (hlen : buf.length = call.buf.length)
    (c : Ctx V) : placeWrite L d { call with buf := buf } c = placeWrite L d call c := by
  have hleaves : leavesIp L { call with buf := buf } c.dpr c.u.vol
      = leavesIp L call c.dpr c.u.vol := by
    unfold leavesIp
    rw [hlen]
  unfold placeWrite
  rw [hleaves]

/-- Replacing the bytes of a write does not change how its edit ends. -/
theorem editRequests_outcome {call : WriteCall} {buf : List UInt8}
    (hlen : buf.length = call.buf.length) (c : Ctx V) :
    (editRequests { call with buf := buf } c).outcome = (editRequests call c).outcome :=
  doAppend_outcome _ _ (startWrite call c) buf hlen

/-- What an attempt that edits the list leaves in the `dentry_priv`. -/
structure Edited (d : ℕ) (r : WriteResult) (u : Unified V) : Prop where
  priv : ∃ dpr, u.priv d = some dpr ∧ dpr.requests = r.requests ∧ dpr.fileSize = r.state.fileSize

theorem finishWrite_edited (r : WriteResult) (c : Ctx V) :
    Edited d r ((finishWrite d r c).store d) := by
  have hq := applyLog_queueOnly r.state.log d
    { u := { c.u with pool := r.state.pool, mem := r.state.mem }
      dpr := { c.dpr with requests := r.requests, fileSize := r.state.fileSize } }
  exact ⟨(finishWrite d r c).dpr, store_priv_self _ _, hq.requests, hq.fileSize⟩

/-- An attempt that is not refused edits the list that `writeRequests` describes. -/
theorem writeAttempt_cases {u : Unified V} (h : SizesOk cs u) (d size : ℕ) (call : WriteCall) :
    (∃ ret : ℤ, ret < 0 ∧ (writeAttempt L d size call u).1 = .returned ret) ∨
    ∃ c : Ctx V, c.u.cacheSize = cs ∧ c.dpr.requests = writeRequests L d call u ∧
      Sized cs c.dpr.requests ∧
      ∀ buf : List UInt8, buf.length = call.buf.length →
        Edited d (editRequests { call with buf := buf } c)
          (writeAttempt L d size { call with buf := buf } u).2 ∧
        (writeAttempt L d size { call with buf := buf } u).1 =
          match (editRequests { call with buf := buf } c).outcome with
          | .done => .returned size
          | .noMemory => .returned (-ltfsNoMemory)
          | .restart => .restart ⟨(editRequests { call with buf := buf } c).state.buf,
              (editRequests { call with buf := buf } c).state.offset,
              (editRequests { call with buf := buf } c).state.spare, true⟩
          | .diverges => .diverges := by
  rcases getDentryPriv_sized L (d := d) h with ⟨hok, hsized⟩
  rcases hget : getDentryPriv L d u with ⟨_ | dpr, u'⟩
  · refine Or.inl ⟨-ltfsNoMemory, by decide, ?_⟩
    unfold writeAttempt
    rw [hget]
  · rw [hget] at hok hsized
    by_cases herror : dpr.writeError < 0
    · have herror' : (getWriteError dpr).1 < 0 := herror
      refine Or.inl ⟨dpr.writeError, herror, ?_⟩
      unfold writeAttempt
      rw [hget]
      dsimp only
      rw [if_pos herror']
      rfl
    · by_cases hreadonly : ¬ call.checkedReadonly ∧ L.tapeReadonly u'.vol < 0
      · have herror' : ¬ (getWriteError dpr).1 < 0 := herror
        refine Or.inl ⟨L.tapeReadonly u'.vol, hreadonly.2, ?_⟩
        unfold writeAttempt
        rw [hget]
        dsimp only
        rw [if_neg herror', if_pos hreadonly]
      · have hstart : CtxSized cs u'.priv ⟨u', (getWriteError dpr).2⟩ :=
          ⟨hok.cacheSize, rfl, hsized dpr rfl⟩
        have hc := placeWrite_sized L (d := d) hstart call
        refine Or.inr ⟨placeWrite L d call ⟨u', (getWriteError dpr).2⟩, hc.cacheSize, ?_, hc.sized, ?_⟩
        · unfold writeRequests
          unfold getDentryPriv at hget
          cases hd : u.priv d with
          | some p =>
            rw [hd] at hget
            cases hget
            rfl
          | none =>
            -- a dentry without a `dentry_priv` has no requests
            apply placeWrite_nil
            rw [hd] at hget
            dsimp only at hget
            split at hget
            · cases hget
            · cases hget
              rfl
        · intro buf hlen
          have hreadonly' : ¬ (¬ ({ call with buf := buf } : WriteCall).checkedReadonly ∧
              L.tapeReadonly u'.vol < 0) := hreadonly
          have hedit := writeAttempt_edit L size hget herror hreadonly'
          rw [placeWrite_buf L hlen] at hedit
          rw [hedit]
          have hfin := finishWrite_edited (d := d)
            (editRequests { call with buf := buf } (placeWrite L d call ⟨u', (getWriteError dpr).2⟩))
            (placeWrite L d call ⟨u', (getWriteError dpr).2⟩)
          set r := editRequests { call with buf := buf }
            (placeWrite L d call ⟨u', (getWriteError dpr).2⟩)
          have hspare : ∀ (spare : Option ℕ) {u : Unified V}, Edited d r u →
              Edited d r (freeSpare spare u) := by
            intro spare u he
            cases spare with
            | none => exact he
            | some cache => exact ⟨he.priv⟩
          dsimp only
          cases r.outcome with
          | done => exact ⟨hspare _ ⟨hfin.priv⟩, rfl⟩
          | noMemory => exact ⟨hspare _ hfin, rfl⟩
          | restart => exact ⟨hfin, rfl⟩
          | diverges => exact ⟨hfin, rfl⟩

/-- What the list edit has stored is stored in the file. -/
theorem Edited.storedUpTo {K stop : ℕ} {old : List WriteRequest} {call : WriteCall}
    {r : WriteResult} {u : Unified V} (he : Edited d r u)
    (hl : ResultLands cs call.offset K call.buf old r) (hstop : stop ≤ r.state.offset)
    (hK : stop ≤ K) : StoredUpTo cs d call stop u := by
  rcases he.priv with ⟨dpr, hpriv, hreq, hsize⟩
  have hbefore : WriteState.before { r.state with passed := r.requests, prev := none, skipped := [] }
      = r.requests := by
    simp [WriteState.before]
  have hsized := hl.lands.sized
  have hheld := hl.lands.held
  rw [hbefore] at hsized hheld
  refine ⟨dpr, hpriv, ?_, ?_, ?_⟩
  · rw [hreq]
    exact fun q hq => (hsized q (by simpa using hq)).2
  · rw [hreq]
    intro x b h1 h2 hb
    exact hheld x b h1 (lt_of_lt_of_le h2 hstop) (lt_of_lt_of_le h2 hK) hb
  · rw [hsize]
    intro hlt
    refine le_trans (le_min hstop hK) (hl.lands.fileSize ?_)
    exact lt_of_lt_of_le hlt hstop

/-- A finished edit has gone on to the end of the write. -/
theorem ResultLands.stop_le {o K : ℕ} {buf : List UInt8} {old : List WriteRequest} {r : WriteResult}
    (hl : ResultLands cs o K buf old r) (hdone : r.outcome = .done) :
    o + buf.length ≤ r.state.offset := by
  have hbuf : r.state.buf = buf.drop (r.state.offset - o) := hl.lands.buf_eq
  have hge : o ≤ r.state.offset := hl.lands.offset_ge
  rw [hl.done hdone] at hbuf
  have hlen := congrArg List.length hbuf
  rw [List.length_nil, List.length_drop] at hlen
  omega

/-- In a sorted list at most one request has a byte for an offset, so most bytes are not
in the cache there. -/
theorem exists_not_heldIn {l : List WriteRequest} (h : Lib.Segment.Ordered l) (x : ℕ) :
    ∃ b, ¬ HeldIn l x b := by
  have hvalue : ∀ b, HeldIn l x b → (reqMap l x).map Prod.snd = some b := by
    rintro b ⟨r, hr, hb⟩
    have hcovers : Lib.Segment.Covers r x := WriteRequest.covers_iff.mpr ⟨hb.1, hb.lt_limit⟩
    have hmap : reqMap l x = some (r.value x) := Lib.Segment.segMap_eq_some_of_mem h hr hcovers
    have hbyte : (r.value x).2 = b := by
      unfold WriteRequest.value
      rw [List.getD_eq_getElem?_getD, hb.2]
      rfl
    rw [hmap, ← hbyte]
    rfl
  by_cases hzero : HeldIn l x 0
  · refine ⟨1, fun hone => ?_⟩
    have heq := (hvalue 0 hzero).symm.trans (hvalue 1 hone)
    revert heq
    decide
  · exact ⟨0, hzero⟩

/-- From every state that a run reaches: an attempt that has to wait has stored the bytes it
took, and one that returns the size has stored all bytes, whatever they are, exactly if at
most one cache block of them was left for a new request. The converse asks for a byte that
is not in the cache already where the write is cut off. -/
theorem large_write_kept (u₀ : Unified V) (hcs : 0 < u₀.cacheSize)
    (hstart : ∀ d dpr, u₀.priv d = some dpr → dpr.requests = []) (ops : List (Op V))
    (hops : ∀ op ∈ ops, op.Pending) (d size : ℕ) (call : WriteCall) (hbuf : call.buf ≠ []) :
    let u := run L ops u₀
    let l := writeRequests L d call u
    let left := leftover u₀.cacheSize l call.offset call.buf.length
    let kept := ∀ buf : List UInt8, buf.length = call.buf.length →
      StoredUpTo u₀.cacheSize d { call with buf := buf } (call.offset + call.buf.length)
        (writeAttempt L d size { call with buf := buf } u).2
    (∀ rest, (writeAttempt L d size call u).1 = .restart rest →
      rest.buf = call.buf.drop (rest.offset - call.offset) ∧
      StoredUpTo u₀.cacheSize d call rest.offset (writeAttempt L d size call u).2) ∧
    ((writeAttempt L d size call u).1 = .returned size →
      (left ≤ u₀.cacheSize → kept) ∧
      ((∃ b, ¬ HeldIn l (lostFrom u₀.cacheSize l call.offset call.buf.length) b) →
        (kept ↔ left ≤ u₀.cacheSize))) := by
  have hok : SizesOk u₀.cacheSize (run L ops u₀) := by
    refine run_sized L hcs ops ⟨rfl, ?_⟩ hops
    intro d dpr hd r hr
    rw [hstart d dpr hd] at hr
    exact absurd hr List.not_mem_nil
  intro u l left kept
  rcases writeAttempt_cases L hok d size call with ⟨ret, hneg, hret⟩ | ⟨c, hccs, hcl, hcsized, hedit⟩
  · -- refused
    rw [hret]
    refine ⟨fun rest hrest => (nomatch hrest), ?_⟩
    intro heq
    cases heq
    omega
  · have hleft := leftover_le u₀.cacheSize l call.offset call.buf.length
    have hlen : 0 < call.buf.length := List.length_pos_iff.mpr hbuf
    have hlands : ∀ buf : List UInt8, buf.length = call.buf.length →
        ResultLands u₀.cacheSize call.offset
          (lostFrom u₀.cacheSize l call.offset call.buf.length) buf l
          (editRequests { call with buf := buf } c) := by
      intro buf hbl
      have hne : buf ≠ [] := List.length_pos_iff.mp (by omega)
      have h := editRequests_lands { call with buf := buf } (c := c)
        (by rw [hccs]; exact hcs) hne (by rw [hccs]; exact hcsized)
      rw [hccs, hcl] at h
      dsimp only at h
      rwa [hbl] at h
    constructor
    · -- the attempt waits
      intro rest hrest
      have he := hedit call.buf rfl
      have hl := hlands call.buf rfl
      have hout := he.2.symm.trans hrest
      split at hout
      · cases hout
      · cases hout
      · rename_i hrestart
        cases hout
        exact ⟨hl.lands.buf_eq, he.1.storedUpTo hl (le_refl _) (hl.waits hrestart)⟩
      · cases hout
    · -- it returns
      intro hret
      have hdone : (editRequests call c).outcome = .done := by
        have hout := (hedit call.buf rfl).2.symm.trans hret
        split at hout
        · assumption
        · cases hout
        · cases hout
        · cases hout
      have hdone' : ∀ buf : List UInt8, buf.length = call.buf.length →
          (editRequests { call with buf := buf } c).outcome = .done :=
        fun buf hbl => (editRequests_outcome hbl c).trans hdone
      have hsuff : left ≤ u₀.cacheSize → kept := by
        intro hle buf hbl
        have hl := hlands buf hbl
        have hend := hl.stop_le (hdone' buf hbl)
        rw [hbl] at hend
        apply Edited.storedUpTo (hedit buf hbl).1 hl hend
        show _ ≤ call.offset + call.buf.length - (left - u₀.cacheSize)
        omega
      refine ⟨hsuff, fun hfree => ⟨fun hkept => ?_, hsuff⟩⟩
      -- a byte at the cut that the cache does not have is lost
      by_contra hmore
      rcases hfree with ⟨b, hb⟩
      set K := lostFrom u₀.cacheSize l call.offset call.buf.length with hK
      have hKval : K = call.offset + call.buf.length - (left - u₀.cacheSize) := rfl
      have hbl : (List.replicate call.buf.length b).length = call.buf.length :=
        List.length_replicate
      have hl := hlands _ hbl
      rcases hkept _ hbl with ⟨dpr, hpriv, -, hheld, -⟩
      rcases (hedit _ hbl).1.priv with ⟨dpr', hpriv', hreq, -⟩
      have heq : dpr = dpr' := Option.some.inj (hpriv.symm.trans hpriv')
      rw [heq, hreq] at hheld
      have hlost := hheld K b (by show call.offset ≤ K; omega) (by omega)
        (by rw [List.getElem?_replicate, if_pos (by show K - call.offset < _; omega)])
      apply hb
      have hsource := hl.lands.source K b (le_refl _)
      apply hsource
      simpa [WriteState.before] using hlost

end Run

/-- Two bytes after two cached ones, and two more: the request takes what it has room for,
and the rest fits into a new one. -/
theorem large_write_kept_in_two :
    StoredUpTo 3 0 ⟨[3, 4, 5, 6], 2, none, false⟩ 6
      (writeAttempt idleLibltfs 0 4 ⟨[3, 4, 5, 6], 2, none, false⟩
        (run idleLibltfs [.write 0 [1, 2] 0] (Unified.init 3 64 ()))).2 :=
  ((large_write_kept idleLibltfs (Unified.init 3 64 ()) (by decide)
    (by
      intro d dpr h
      cases h)
    [.write 0 [1, 2] 0]
    (by
      intro op hop
      rw [List.mem_singleton.mp hop]
      trivial)
    0 4 ⟨[3, 4, 5, 6], 2, none, false⟩ (by decide)).2 rfl).1 (by decide) [3, 4, 5, 6] rfl

/-- Three bytes for a new file with cache blocks of two: the call reports three bytes, and
the third one is nowhere. -/
theorem large_write_loses_tail :
    (unifiedWrite idleLibltfs 0 [1, 2, 3] 0 (Unified.init 2 64 ())).1 = .returned 3 ∧
      ¬ StoredUpTo 2 0 ⟨[1, 2, 3], 0, none, false⟩ 3
        (unifiedWrite idleLibltfs 0 [1, 2, 3] 0 (Unified.init 2 64 ())).2 := by
  refine ⟨rfl, ?_⟩
  rintro ⟨dpr, hpriv, -, hheld, -⟩
  cases hpriv
  have hthird := hheld 2 3 (by decide) (by decide) rfl
  revert hthird
  decide

end Ltfs.Sched
