import Ltfs.Sched.Lists

/-!
# The queue of the alternate extent lists

`ext_queue` links the dentries whose alternate extent list has to be handed to libltfs when
the scheduler goes down. Only four places of the source touch it: an update of an empty list
puts the dentry in, and the two ways to clear a list take it out. `unified_truncate` removes
extents without looking at the queue.

* `ExtOk` — a dentry is in the queue once if its list is not empty, and else not at all.
* `Op.exec_ext` — every operation keeps it, a truncation under the condition `Op.KeepsExt`.
* `ext_queue_of_run` — so it holds along every run whose truncations never empty a list.
-/

namespace Ltfs.Sched

open RequestState

variable {V : Type}

/-! ## The invariant -/

/-- How often the `dentry_priv` belongs into `ext_queue`. -/
def linked : Option DentryPriv → ℕ
  | none => 0
  | some dpr => if dpr.altExtentlist.isEmpty then 0 else 1

/-- Exactly the dentries with an alternate list are in `ext_queue`, each of them once. -/
def ExtOk (u : Unified V) : Prop := ∀ d, u.extQueue.count d = linked (u.priv d)

/-- The same while an operation works on `d`. -/
structure CtxExt (d : ℕ) (c : Ctx V) : Prop where
  others : ∀ e ≠ d, c.u.extQueue.count e = linked (c.u.priv e)
  own : c.u.extQueue.count d = linked (some c.dpr)

theorem ExtOk.ctx {u : Unified V} (h : ExtOk u) {d : ℕ} {dpr : DentryPriv}
    (hd : u.priv d = some dpr) : CtxExt d ⟨u, dpr⟩ :=
  ⟨fun e _ => h e, by rw [h d, hd]⟩

theorem CtxExt.setPriv {d : ℕ} {c : Ctx V} (h : CtxExt d c) {p : Option DentryPriv}
    (hp : linked p = linked (some c.dpr)) : ExtOk (c.u.setPriv d p) := by
  intro e
  by_cases hed : e = d
  · subst hed
    rw [setPriv_self, hp]
    exact h.own
  · rw [setPriv_ne _ _ hed]
    exact h.others e hed

theorem CtxExt.store {d : ℕ} {c : Ctx V} (h : CtxExt d c) : ExtOk (c.store d) := h.setPriv rfl

/-- Nothing that `ext_queue` depends on has changed. -/
structure SameExt (c c' : Ctx V) : Prop where
  altExtentlist : c'.dpr.altExtentlist = c.dpr.altExtentlist
  extQueue : c'.u.extQueue = c.u.extQueue
  priv : c'.u.priv = c.u.priv

theorem SameExt.refl (c : Ctx V) : SameExt c c := ⟨rfl, rfl, rfl⟩

theorem SameExt.trans {c₁ c₂ c₃ : Ctx V} (h : SameExt c₁ c₂) (h' : SameExt c₂ c₃) :
    SameExt c₁ c₃ :=
  ⟨h'.altExtentlist.trans h.altExtentlist, h'.extQueue.trans h.extQueue, h'.priv.trans h.priv⟩

theorem SameFile.ext {c c' : Ctx V} (h : SameFile c c') : SameExt c c' :=
  ⟨h.altExtentlist, h.extQueue, h.priv⟩

theorem CtxExt.same {d : ℕ} {c c' : Ctx V} (h : CtxExt d c) (hs : SameExt c c') : CtxExt d c' := by
  constructor
  · intro e he
    rw [hs.extQueue, hs.priv]
    exact h.others e he
  · rw [hs.extQueue]
    simp only [linked, hs.altExtentlist]
    exact h.own

/-! ## Operations that do not touch the queue -/

section Frame

variable (L : Libltfs V)

theorem mergePrev_sameExt (d : ℕ) (kept : List WriteRequest) (req : WriteRequest) (c : Ctx V) :
    SameExt c (mergePrev d kept req c).2 := by
  unfold mergePrev
  cases kept.getLast? with
  | none => exact SameExt.refl c
  | some dest =>
    have hlog := fun c' : Ctx V =>
      (applyLog_queueOnly (mergeRequests c.u.cacheSize dest req).srcLog d c').toSameFile.ext
    dsimp only
    split
    · exact ⟨(hlog _).altExtentlist, (hlog _).extQueue, (hlog _).priv⟩
    · exact ⟨(hlog _).altExtentlist, (hlog _).extQueue, (hlog _).priv⟩

theorem toIp_sameExt (d : ℕ) (kept : List WriteRequest) (req : WriteRequest) (c : Ctx V) :
    SameExt c (toIp d kept req c).2 :=
  (updateQueueMembership_queueOnly true false requestIp d c).toSameFile.ext.trans
    (mergePrev_sameExt d kept _ _)

theorem failedWrite_sameExt (d : ℕ) (ret : ℤ) (req : WriteRequest) (l : List WriteRequest) (vol : V)
    (c : Ctx V) : SameExt c (failedWrite L d ret req l vol c) := by
  have h := (handleWriteError_spec L ret req d
    { u := { c.u with vol := L.writeIndexAfterPerm ret vol }
      dpr := { c.dpr with requests := l } }).toSameFile.ext
  exact ⟨h.altExtentlist, h.extQueue, h.priv⟩

theorem flushLoop_sameExt (d : ℕ) (rest : List WriteRequest) :
    ∀ (kept : List WriteRequest) (c : Ctx V), SameExt c (flushLoop L d kept rest c) := by
  induction rest with
  | nil => exact fun _ c => ⟨rfl, rfl, rfl⟩
  | cons req rest ih =>
    intro kept c
    unfold flushLoop
    dsimp only
    split
    · exact (mergePrev_sameExt d kept req c).trans (ih _ _)
    · split
      · exact failedWrite_sameExt L d _ req _ _ c
      · have hvol : SameExt c { c with u := { c.u with
            vol := (L.fsrawWrite d req.data req.offset c.u.vol).2 } } := ⟨rfl, rfl, rfl⟩
        split
        · exact hvol.trans ((toIp_sameExt d kept req _).trans (ih _ _))
        · refine SameExt.trans ?_ (ih _ _)
          exact ⟨rfl, rfl, rfl⟩

theorem dataLoop_sameExt (queue : RequestState) (d : ℕ) (rest : List WriteRequest) :
    ∀ (kept moved : List WriteRequest) (c : Ctx V),
      SameExt c (dataLoop L queue d kept moved rest c).2 := by
  induction rest with
  | nil => exact fun _ _ c => ⟨rfl, rfl, rfl⟩
  | cons req rest ih =>
    intro kept moved c
    unfold dataLoop
    dsimp only
    split
    · exact (mergePrev_sameExt d kept req c).trans (ih _ _ _)
    · split
      · split
        · split
          · exact failedWrite_sameExt L d _ req _ _ c
          · refine SameExt.trans ?_ ((toIp_sameExt d kept req _).trans (ih _ _ _))
            exact ⟨rfl, rfl, rfl⟩
        · exact ih _ _ _
      · exact ih _ _ _

theorem sendLoop_ext (d : ℕ) (l : List WriteRequest) : ∀ u : Unified V,
    (sendLoop L d l u).2.extQueue = u.extQueue ∧ (sendLoop L d l u).2.priv = u.priv := by
  induction l with
  | nil => exact fun u => ⟨rfl, rfl⟩
  | cons req rest ih =>
    intro u
    unfold sendLoop
    dsimp only
    split
    · exact ⟨rfl, rfl⟩
    · exact ih _

theorem truncateLoop_sameExt (length d : ℕ) (l : List WriteRequest) : ∀ c : Ctx V,
    SameExt c (truncateLoop length d l c).2 := by
  induction l with
  | nil => exact fun c => SameExt.refl c
  | cons req before ih =>
    intro c
    unfold truncateLoop
    dsimp only
    split
    · have hq := (updateQueueMembership_queueOnly false false req.state d c).toSameFile.ext
      refine SameExt.trans ?_ (ih _)
      exact ⟨hq.altExtentlist, hq.extQueue, hq.priv⟩
    · split
      · exact ih c
      · exact SameExt.refl c

theorem finishWrite_sameExt (d : ℕ) (r : WriteResult) (c : Ctx V) :
    SameExt c (finishWrite d r c) := by
  have h := (applyLog_queueOnly r.state.log d
    { u := { c.u with pool := r.state.pool, mem := r.state.mem }
      dpr := { c.dpr with requests := r.requests, fileSize := r.state.fileSize } }).toSameFile.ext
  exact ⟨h.altExtentlist, h.extQueue, h.priv⟩

end Frame

/-! ## Operations that fill or empty an alternate list -/

section Lists

variable (L : Libltfs V)

theorem altLoop_ne_nil (bs : ℕ) (new : ExtentInfo) (l : List ExtentInfo) :
    altLoop bs new false l ≠ [] := by
  cases l with
  | nil => simp [altLoop]
  | cons entry rest =>
    -- the entry is only dropped behind the new extent
    by_cases hfront : new.fileoffset ≤ entry.fileoffset
    · unfold altLoop
      simp only [hfront, decide_true, Bool.not_false, Bool.and_self, if_true]
      split_ifs <;> simp
    · have hbefore : entry.fileoffset < new.fileoffset := by omega
      unfold altLoop
      simp only [hbefore, if_true]
      split_ifs <;> simp

/-- A dentry is linked in when its list was empty, and then it was not in the queue. -/
theorem updateAltExtentlist_ext {d : ℕ} {c : Ctx V} (h : CtxExt d c) (new : ExtentInfo) :
    CtxExt d (updateAltExtentlist L new d c) := by
  unfold updateAltExtentlist
  by_cases hempty : c.dpr.altExtentlist.isEmpty
  · rw [if_pos hempty]
    have hown := h.own
    simp only [linked, hempty, if_true] at hown
    constructor
    · intro e he
      simp only [List.count_append]
      rw [h.others e he, List.count_singleton, if_neg (by simpa using he.symm), Nat.add_zero]
    · simp [linked, hown]
  · rw [if_neg hempty]
    have hown := h.own
    simp only [linked, hempty] at hown
    constructor
    · exact h.others
    · have hne := altLoop_ne_nil (L.blocksize c.u.vol) new c.dpr.altExtentlist
      simp only [linked, List.isEmpty_iff, hne, if_false]
      exact hown

theorem dropAltExtentlist_ext {d : ℕ} {c : Ctx V} (h : CtxExt d c) :
    CtxExt d (dropAltExtentlist d c) := by
  unfold dropAltExtentlist
  by_cases hempty : c.dpr.altExtentlist.isEmpty
  · rw [if_pos hempty]
    exact h
  · rw [if_neg hempty]
    have hown := h.own
    simp only [linked, hempty] at hown
    constructor
    · intro e he
      simp only [List.count_erase_of_ne he]
      exact h.others e he
    · simp [linked, List.count_erase_self, hown]

theorem unsetWriteIp_ext {d : ℕ} {c : Ctx V} (h : CtxExt d c) : CtxExt d (unsetWriteIp d c) := by
  unfold unsetWriteIp
  apply dropAltExtentlist_ext
  dsimp only
  split
  · have hq := (updateQueueMembership_queueOnly false true requestIp d
      { u := freeRequests (c.dpr.requests.filter fun r => decide (r.state = requestIp)) c.u
        dpr := { c.dpr with
          writeIp := false
          requests := c.dpr.requests.filter fun r => decide (r.state ≠ requestIp) } }).toSameFile.ext
    refine h.same ⟨hq.altExtentlist, ?_, ?_⟩
    · exact hq.extQueue.trans (freeRequests_extQueue _ _)
    · exact hq.priv.trans (freeRequests_priv _ _)
  · exact h.same ⟨rfl, rfl, rfl⟩

theorem recomputeWriteIp_ext (small : Bool) {d : ℕ} {c : Ctx V} (h : CtxExt d c) :
    CtxExt d (recomputeWriteIp L small d c) := by
  unfold recomputeWriteIp
  dsimp only
  split
  · exact h.same ⟨rfl, rfl, rfl⟩
  · split
    · exact unsetWriteIp_ext h
    · exact h

theorem indexLoop_ext (d : ℕ) (rest : List WriteRequest) : ∀ (kept : List WriteRequest) (c : Ctx V),
    CtxExt d c → CtxExt d (indexLoop L d kept rest c) := by
  induction rest with
  | nil => exact fun _ c h => h.same ⟨rfl, rfl, rfl⟩
  | cons req rest ih =>
    intro kept c h
    have hfailed : ∀ (ret : ℤ) (u : Unified V), u.extQueue = c.u.extQueue → u.priv = c.u.priv →
        CtxExt d (handleWriteError L ret req d
          { u := u, dpr := { c.dpr with requests := kept ++ req :: rest } }) := by
      intro ret u hext hpriv
      have hs := (handleWriteError_spec L ret req d
        { u := u, dpr := { c.dpr with requests := kept ++ req :: rest } }).toSameFile.ext
      exact h.same ⟨hs.altExtentlist, hs.extQueue.trans hext, hs.priv.trans hpriv⟩
    unfold indexLoop
    dsimp only
    split
    · split
      · exact hfailed _ _ rfl rfl
      · split
        · split
          · exact hfailed _ _ rfl rfl
          · exact hfailed _ _ rfl rfl
        · -- the extent goes onto the alternate list
          rename_i vol _
          apply ih
          have hvol : CtxExt d { u := { c.u.allocates.2 with vol := vol }, dpr := c.dpr } :=
            h.same ⟨rfl, rfl, rfl⟩
          exact (updateAltExtentlist_ext L hvol _).same ⟨rfl, rfl, rfl⟩
    · exact ih _ _ h

end Lists

/-! ## The operations -/

section Ops

variable (L : Libltfs V)

theorem flushUnlocked_ext {u : Unified V} (h : ExtOk u) (d : ℕ) : ExtOk (flushUnlocked L d u).2 := by
  unfold flushUnlocked
  cases hd : u.priv d with
  | none => exact h
  | some dpr =>
    have hc := h.ctx hd
    have hread : CtxExt d ⟨u, (getWriteError dpr).2⟩ := hc.same ⟨rfl, rfl, rfl⟩
    dsimp only
    split
    · exact hread.store
    · split
      · exact hread.store
      · have hzero := (updateQueueMembership_queueOnly false true requestDp d
          ⟨u, (getWriteError dpr).2⟩).trans (updateQueueMembership_queueOnly false true
            requestPartial d _)
        set c := updateQueueMembership false true requestPartial d
          (updateQueueMembership false true requestDp d ⟨u, (getWriteError dpr).2⟩)
        have hloop := (hread.same hzero.toSameFile.ext).same
          (flushLoop_sameExt L d c.dpr.requests [] c)
        have hend : CtxExt d ⟨(flushLoop L d [] c.dpr.requests c).u,
            (getWriteError (flushLoop L d [] c.dpr.requests c).dpr).2⟩ :=
          hloop.same ⟨rfl, rfl, rfl⟩
        exact hend.store

theorem flushEach_ext (l : List ℕ) : ∀ {u : Unified V}, ExtOk u → ExtOk (flushEach L l u).2 := by
  induction l with
  | nil => exact fun h => h
  | cons d rest ih =>
    intro u h
    unfold flushEach
    dsimp only
    split
    · exact flushUnlocked_ext L h d
    · exact ih (flushUnlocked_ext L h d)

theorem flushAll_ext {u : Unified V} (h : ExtOk u) : ExtOk (flushAll L u).2 := by
  unfold flushAll
  dsimp only
  split
  · exact flushEach_ext L _ h
  · exact flushEach_ext L _ (flushEach_ext L _ h)

theorem processDataEntry_ext (queue : RequestState) {u : Unified V} (h : ExtOk u) (d : ℕ) :
    ExtOk (processDataEntry L queue d u) := by
  unfold processDataEntry
  cases hd : u.priv d with
  | none => exact h
  | some dpr =>
    dsimp only
    set c := if queue = requestPartial then updateQueueMembership false true requestDp d
      (updateQueueMembership false true queue d ⟨u, dpr⟩)
      else updateQueueMembership false true queue d ⟨u, dpr⟩ with hcdef
    have hc : CtxExt d c := by
      have hq := (updateQueueMembership_queueOnly false true queue d ⟨u, dpr⟩).toSameFile.ext
      rw [hcdef]
      split
      · exact ((h.ctx hd).same hq).same
          (updateQueueMembership_queueOnly false true requestDp d _).toSameFile.ext
      · exact (h.ctx hd).same hq
    have hl := hc.same (dataLoop_sameExt L queue d c.dpr.requests [] [] c)
    set l := dataLoop L queue d [] [] c.dpr.requests c
    obtain ⟨hext, hpriv⟩ := sendLoop_ext L d l.1 l.2.u
    split
    · rename_i u' hsend
      rw [hsend] at hext hpriv
      have hsent : CtxExt d ⟨u', l.2.dpr⟩ := hl.same ⟨rfl, hext, hpriv⟩
      exact hsent.store
    · rename_i ret req rest u' hsend
      rw [hsend] at hext hpriv
      have hs := (handleWriteError_spec L ret req d ⟨u', l.2.dpr⟩).toSameFile.ext
      have hsent : CtxExt d ⟨u', l.2.dpr⟩ := hl.same ⟨rfl, hext, hpriv⟩
      set c' := handleWriteError L ret req d ⟨u', l.2.dpr⟩
      have hfreed : CtxExt d ⟨freeRequests (req :: rest) c'.u, c'.dpr⟩ :=
        (hsent.same hs).same ⟨rfl, freeRequests_extQueue _ _, freeRequests_priv _ _⟩
      exact hfreed.store

theorem processDataLoop_ext (queue : RequestState) (n : ℕ) : ∀ {u : Unified V}, ExtOk u →
    ExtOk (processDataLoop L queue n u) := by
  induction n with
  | zero => exact fun h => h
  | succ n ih =>
    intro u h
    unfold processDataLoop
    split
    · exact h
    · exact ih (processDataEntry_ext L queue h _)

/-- A `dentry_priv` is only freed when its list is empty, so when it is not in the queue. -/
theorem freeDentryPrivConditional_ext {u : Unified V} (h : ExtOk u) (d n : ℕ) :
    ExtOk (freeDentryPrivConditional L d n u) := by
  unfold freeDentryPrivConditional
  cases hd : u.priv d with
  | none => exact h
  | some dpr =>
    dsimp only
    split
    · rename_i hfree
      refine (h.ctx hd).setPriv (p := none) ?_
      simp only [linked, hfree.2.2, if_true]
    · exact h

theorem processIndexEntry_ext {u : Unified V} (h : ExtOk u) (d : ℕ) :
    ExtOk (processIndexEntry L d u) := by
  unfold processIndexEntry
  cases hd : u.priv d with
  | none => exact h
  | some dpr =>
    have hq := (updateQueueMembership_queueOnly false true requestIp d ⟨u, dpr⟩).toSameFile.ext
    exact freeDentryPrivConditional_ext L
      (indexLoop_ext L d _ [] _ ((h.ctx hd).same hq)).store d 2

theorem processQueue_ext (queue : RequestState) {u : Unified V} (h : ExtOk u) :
    ExtOk (processQueue L queue u) := by
  unfold processQueue
  split
  · unfold processIndexQueue
    generalize u.ipQueue = l
    induction l generalizing u with
    | nil => exact h
    | cons d l ih => exact ih (processIndexEntry_ext L h d)
  · exact processDataLoop_ext L queue _ h

theorem updateDataPlacement_ext {u : Unified V} (h : ExtOk u) (d : ℕ) :
    ExtOk (updateDataPlacement L d u) := by
  unfold updateDataPlacement
  cases hd : u.priv d with
  | none => exact h
  | some dpr => exact (recomputeWriteIp_ext L _ (h.ctx hd)).store

theorem unifiedClose_ext {u : Unified V} (h : ExtOk u) (d : ℕ) (flush : Bool) :
    ExtOk (unifiedClose L d flush u).2 := by
  unfold unifiedClose
  dsimp only
  set f := if flush then flushUnlocked L d u else (0, u)
  have hf : ExtOk f.2 := by
    rcases Bool.eq_false_or_eq_true flush with hflush | hflush
    · simp only [f, hflush, if_true]
      exact flushUnlocked_ext L h d
    · simpa [f, hflush] using h
  have hreset : ExtOk (f.2.setPriv d ((f.2.priv d).map fun dpr => { dpr with writeError := 0 })) := by
    cases hd : f.2.priv d with
    | none =>
      intro e
      by_cases he : e = d
      · subst he
        rw [setPriv_self]
        have := hf e
        rw [hd] at this
        exact this
      · rw [setPriv_ne _ _ he]
        exact hf e
    | some dpr => exact (hf.ctx hd).setPriv rfl
  exact freeDentryPrivConditional_ext L hreset d 3

theorem getDentryPriv_ext {u : Unified V} (h : ExtOk u) (d : ℕ) :
    ExtOk (getDentryPriv L d u).2 ∧
      ∀ dpr, (getDentryPriv L d u).1 = some dpr → (getDentryPriv L d u).2.priv d = some dpr := by
  unfold getDentryPriv
  cases hd : u.priv d with
  | some dpr =>
    refine ⟨h, ?_⟩
    rintro p ⟨⟩
    exact hd
  | none =>
    dsimp only
    split
    · exact ⟨h, by simp⟩
    · refine ⟨?_, by simp⟩
      -- the new `dentry_priv` has no alternate list
      intro e
      by_cases he : e = d
      · subst he
        have hcount := h e
        rw [hd] at hcount
        simp only [setPriv_self]
        exact hcount
      · simp only [setPriv_ne _ _ he]
        exact h e

theorem writeAttempt_ext {u : Unified V} (h : ExtOk u) (d size : ℕ) (call : WriteCall) :
    ExtOk (writeAttempt L d size call u).2 := by
  have hfree : ∀ (spare : Option ℕ) {u' : Unified V}, ExtOk u' → ExtOk (freeSpare spare u') := by
    intro spare u' h'
    cases spare with
    | none => exact h'
    | some cache => exact h'
  obtain ⟨hget, hpriv⟩ := getDentryPriv_ext L h d
  unfold writeAttempt
  dsimp only
  split
  · rename_i u' heq
    rw [heq] at hget
    exact hfree _ hget
  · rename_i dpr u' heq
    rw [heq] at hget hpriv
    have hc := hget.ctx (hpriv dpr rfl)
    have hread : CtxExt d ⟨u', (getWriteError dpr).2⟩ := hc.same ⟨rfl, rfl, rfl⟩
    split
    · exact hread.store
    · split
      · exact hread.store
      · have hplace : CtxExt d (placeWrite L d call ⟨u', (getWriteError dpr).2⟩) := by
          unfold placeWrite
          split
          · exact unsetWriteIp_ext hread
          · exact hread
        set c := placeWrite L d call ⟨u', (getWriteError dpr).2⟩
        have hfin : ∀ r : WriteResult, ExtOk ((finishWrite d r c).store d) := fun r =>
          (hplace.same (finishWrite_sameExt d r c)).store
        split
        · exact hfree _ (hfin _)
        · exact hfree _ (hfin _)
        · exact hfin _
        · exact hfin _

/-- The truncation does not take the last extent of an alternate list away. -/
def keepsAltList (d length : ℕ) (u : Unified V) : Bool :=
  match u.priv d with
  | none => true
  | some dpr => dpr.altExtentlist.isEmpty || decide (dpr.fileSize ≤ length) ||
      dpr.altExtentlist.any fun ext => decide (ext.fileoffset < length)

theorem unifiedTruncate_ext {u : Unified V} (h : ExtOk u) (d length : ℕ)
    (hkeeps : L.tapeReadonly u.vol < 0 ∨ keepsAltList d length u = true) :
    ExtOk (unifiedTruncate L d length u).2 := by
  unfold unifiedTruncate
  dsimp only
  split
  · exact h
  · rename_i hwritable
    have hkeeps := hkeeps.resolve_left hwritable
    cases hd : u.priv d with
    | none => exact h
    | some dpr =>
      have hc := h.ctx hd
      have hcut : CtxExt d (truncateCached length d ⟨u, dpr⟩) := by
        unfold truncateCached
        dsimp only
        split
        · rename_i hshorter
          have hs := truncateLoop_sameExt length d dpr.requests.reverse ⟨u, dpr⟩
          have hlist : (dpr.altExtentlist.filterMap (truncateExtent length)).isEmpty =
              dpr.altExtentlist.isEmpty := by
            simp only [keepsAltList, hd, Bool.or_eq_true, decide_eq_true_eq] at hkeeps
            rcases hkeeps with (hempty | hlonger) | hsome
            · rw [List.isEmpty_iff.mp hempty]
              rfl
            · omega
            · -- the extent that begins before the new length stays
              obtain ⟨ext, hmem, hbefore⟩ := List.any_eq_true.mp hsome
              have hne : dpr.altExtentlist ≠ [] := List.ne_nil_of_mem hmem
              have hstays : dpr.altExtentlist.filterMap (truncateExtent length) ≠ [] := by
                intro hnil
                have hgone := List.filterMap_eq_nil_iff.mp hnil ext hmem
                have hnot : ¬ext.fileoffset ≥ length := by simpa using hbefore
                unfold truncateExtent at hgone
                rw [if_neg hnot] at hgone
                split at hgone <;> cases hgone
              rw [List.isEmpty_eq_false_iff.mpr hne, List.isEmpty_eq_false_iff.mpr hstays]
          constructor
          · intro e he
            simp only [hs.extQueue, hs.priv]
            exact hc.others e he
          · simp only [hs.extQueue, linked, hlist]
            exact hc.own
        · exact hc.same ⟨rfl, rfl, rfl⟩
      exact (recomputeWriteIp_ext L _ hcut).store

end Ops

/-! ## Runs -/

section Run

variable (L : Libltfs V)

/-- Truncations keep an extent of an alternate list that is not empty. -/
def Op.KeepsExt : Op V → Unified V → Prop
  | .truncate d length, u => L.tapeReadonly u.vol < 0 ∨ keepsAltList d length u = true
  | _, _ => True

/-- Every operation of the run meets its condition in the state it starts from. -/
def RunKeepsExt : List (Op V) → Unified V → Prop
  | [], _ => True
  | op :: ops, u => op.KeepsExt L u ∧ RunKeepsExt ops (op.exec L u)

theorem Op.exec_ext {u : Unified V} (h : ExtOk u) (op : Op V) (hkeeps : op.KeepsExt L u) :
    ExtOk (op.exec L u) := by
  cases op with
  | write d buf offset =>
    simp only [Op.exec, unifiedWrite]
    split
    · exact h
    · split
      · exact h
      · refine writeAttempt_ext L ?_ d buf.length _
        exact h
  | resume d size call => exact writeAttempt_ext L h d size call
  | truncate d length => exact unifiedTruncate_ext L h d length hkeeps
  | flush d => exact flushUnlocked_ext L h d
  | flushAll => exact flushAll_ext L h
  | processQueue queue => exact processQueue_ext L queue h
  | updateDataPlacement d => exact updateDataPlacement_ext L h d
  | close d flushes => exact unifiedClose_ext L h d flushes
  | outside vol mem pool => exact h

theorem run_ext (ops : List (Op V)) : ∀ {u : Unified V}, ExtOk u → RunKeepsExt L ops u →
    ExtOk (run L ops u) := by
  induction ops with
  | nil => exact fun h _ => h
  | cons op ops ih => exact fun h hrun => ih (Op.exec_ext L h op hrun.1) hrun.2

/-- Along every run whose truncations empty no alternate list, a dentry is in `ext_queue` exactly
once if its list is not empty and else not at all. So no freed `dentry_priv` is linked there, and
an update that puts a dentry in finds it outside. -/
theorem ext_queue_of_run (u : Unified V) (ops : List (Op V)) (hstart : ExtOk u)
    (hrun : RunKeepsExt L ops u) :
    (∀ d dpr, (run L ops u).priv d = some dpr →
      (run L ops u).extQueue.count d = if dpr.altExtentlist.isEmpty then 0 else 1) ∧
    (∀ d, (run L ops u).priv d = none → d ∉ (run L ops u).extQueue) ∧
    (∀ d n, (freeDentryPrivConditional L d n (run L ops u)).priv d = none →
      d ∉ (freeDentryPrivConditional L d n (run L ops u)).extQueue) ∧
    ∀ d dpr new, (run L ops u).priv d = some dpr →
      ((updateAltExtentlist L new d ⟨run L ops u, dpr⟩).u.extQueue ≠ (run L ops u).extQueue →
        d ∉ (run L ops u).extQueue) := by
  have h := run_ext L ops hstart hrun
  refine ⟨?_, ?_, ?_, ?_⟩
  · intro d dpr hd
    rw [h d, hd]
    rfl
  · intro d hd
    rw [← List.count_eq_zero, h d, hd]
    rfl
  · intro d n hd
    have hfree := freeDentryPrivConditional_ext L h d n
    rw [← List.count_eq_zero, hfree d, hd]
    rfl
  · intro d dpr new hd hinserted
    rw [← List.count_eq_zero, h d, hd]
    unfold updateAltExtentlist at hinserted
    split at hinserted
    · rename_i hempty
      simp only [linked, hempty, if_true]
    · exact absurd rfl hinserted

end Run

/-! ## A truncation that empties a list -/

/-- Every file belongs onto the index partition. -/
def smallFiles : Libltfs Unit where
  blocksize := fun _ => 16
  dentrySize := fun _ _ => 0
  matchesNameCriteria := fun _ _ => true
  deleted := fun _ _ => false
  numhandles := fun _ _ => 3
  maxFilesize := fun _ => 100
  tapeReadonly := fun _ => 0
  partitionReadonly := fun _ _ => 0
  getVolumeLock := fun v => (0, v)
  fsrawRead := fun _ _ _ v => (.ok [], v)
  fsrawWrite := fun _ _ _ v => (0, v)
  fsrawWriteData := fun _ v => (.ok 5, v)
  fsrawAddExtent := fun _ _ v => (0, v)
  fsrawTruncate := fun _ _ v => (0, v)
  fsrawGetDentry := fun _ v => v
  fsrawPutDentry := fun _ v => v
  fsrawClose := fun _ v => v
  setCartVolumeLockStatus := fun v => (0, v)
  writeIndexAfterPerm := fun _ v => v

/-- Two bytes on their way to the index partition. -/
def placed : List (Op Unit) := [.write 0 [1, 2] 0, .flush 0, .processQueue requestIp]

/-- A truncation to one byte keeps an extent: the dentry stays in the queue, once. -/
theorem ext_queue_of_run_shortened :
    (run smallFiles (placed ++ [.truncate 0 1]) (Unified.init 16 64 ())).extQueue.count 0 = 1 := by
  have hkeeps : keepsAltList 0 1 (run smallFiles placed (Unified.init 16 64 ())) = true := by
    decide +kernel
  have hpriv : (run smallFiles (placed ++ [.truncate 0 1]) (Unified.init 16 64 ())).priv 0 =
      some ⟨1, true, 0, 0, 0, 0, [], [⟨⟨some .ip, 5⟩, 0, 1, 0⟩]⟩ := by
    decide +kernel
  have hstart : ExtOk (Unified.init 16 64 ()) := fun _ => rfl
  have hrun : RunKeepsExt smallFiles (placed ++ [.truncate 0 1]) (Unified.init 16 64 ()) := by
    simp only [placed, List.cons_append, List.nil_append, RunKeepsExt, Op.KeepsExt, true_and,
      and_true]
    exact Or.inr hkeeps
  rw [(ext_queue_of_run smallFiles _ _ hstart hrun).1 0 _ hpriv]
  rfl

/-- A truncation to nothing leaves the dentry in the queue with an empty list. Closing the file
then frees its `dentry_priv` in there, and another write links it in a second time. -/
theorem ext_queue_dangles :
    let u := run smallFiles (placed ++ [.truncate 0 0]) (Unified.init 16 64 ())
    (u.priv 0).map DentryPriv.altExtentlist = some [] ∧ u.extQueue = [0] ∧
    (run smallFiles [.close 0 true] u).priv 0 = none ∧
    (run smallFiles [.close 0 true] u).extQueue = [0] ∧
    (run smallFiles placed u).extQueue = [0, 0] := by
  decide +kernel

end Ltfs.Sched
